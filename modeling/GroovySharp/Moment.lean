import GroovySharp.Text.Quoted

/-!
# Moments

Points in time as whole seconds since the start of 1970, and their text by the calendar.
-/

namespace GroovySharp

structure Moment where
  /-- Seconds since the start of 1970. -/
  epoch : Nat := 0
  deriving Repr, DecidableEq

namespace Moment

structure Date where
  year : Nat
  month : Nat
  day : Nat
  deriving Repr, DecidableEq

/-- The date that is some days after the first of January 1970. Years start in March here, so that
the leap day ends one; 400 years have 146097 days. -/
def dateOf (days : Nat) : Date :=
  let z := days + 719468
  let era := z / 146097
  let dayOfEra := z % 146097
  let yearOfEra := (dayOfEra - dayOfEra / 1460 + dayOfEra / 36524 - dayOfEra / 146096) / 365
  let dayOfYear := dayOfEra - (365 * yearOfEra + yearOfEra / 4 - yearOfEra / 100)
  let shifted := (5 * dayOfYear + 2) / 153
  let day := dayOfYear - (153 * shifted + 2) / 5 + 1
  let month := if shifted < 10 then shifted + 3 else shifted - 9
  { year := yearOfEra + era * 400 + (if month ≤ 2 then 1 else 0), month, day }

def padded (width n : Nat) : String :=
  let digits := Nat.toDigits 10 n
  String.ofList (List.replicate (width - digits.length) '0' ++ digits)

def text (m : Moment) : String :=
  let d := dateOf (m.epoch / 86400)
  let s := m.epoch % 86400
  padded 4 d.year ++ "-" ++ padded 2 d.month ++ "-" ++ padded 2 d.day ++ "T" ++
    padded 2 (s / 3600) ++ ":" ++ padded 2 (s / 60 % 60) ++ ":" ++ padded 2 (s % 60) ++ "Z"

end Moment

end GroovySharp
