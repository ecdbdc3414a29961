import GroovySharp.Number.Shortest

/-!
# Times in seconds

Times are whole numbers or fractions of seconds. Messages show fractions in their shortest form, with
a point in all but very large and very small ones.
-/

namespace GroovySharp.Number

/-! ### Fractions -/

def fields (x : Float) : Bool × Nat × Nat :=
  let bits := x.toBits.toNat
  (bits >>> 63 == 1, (bits >>> 52) % (1 <<< 11), bits % (1 <<< 52))

def sizeOf (exponent fraction : Nat) : Binary :=
  if exponent = 0 then ⟨fraction, Binary.minExponent⟩
  else ⟨1 <<< 52 + fraction, (exponent : Int) - 1075⟩

/-- Where numbers are written with an exponent: with more digits before the point, or more zeros after
it. -/
def positionalDigits : Int := 16

def positionalZeros : Int := 3

def exponentText (e : Int) : List Char :=
  let digits := Nat.toDigits 10 e.natAbs
  (if e < 0 then '-' else '+') :: (List.replicate (2 - digits.length) '0' ++ digits)

/-- The decimal with the given digits, of which `k` stand before the point. -/
def decimalText (digits : List Char) (k : Int) : List Char :=
  if positionalDigits < k ∨ k < -positionalZeros then
    let tail := digits.drop 1
    digits.take 1 ++ (if tail.isEmpty then [] else '.' :: tail) ++ 'e' :: exponentText (k - 1)
  else if k ≤ 0 then '0' :: '.' :: (List.replicate (-k).toNat '0' ++ digits)
  else if digits.length ≤ k.toNat then
    digits ++ List.replicate (k.toNat - digits.length) '0' ++ ['.', '0']
  else digits.take k.toNat ++ '.' :: digits.drop k.toNat

def floatText (x : Float) : String :=
  let (negative, exponent, fraction) := fields x
  let sign := if negative then ['-'] else []
  if exponent = 2047 then
    if fraction = 0 then String.ofList (sign ++ "inf".toList) else "nan"
  else if exponent = 0 ∧ fraction = 0 then String.ofList (sign ++ "0.0".toList)
  else
    let (digits, k) := (sizeOf exponent fraction).shortest
    String.ofList (sign ++ decimalText digits k)

def roundDiv (num den : Nat) : Nat :=
  let q := num / den
  let r := num % den
  if 2 * r < den then q else if den < 2 * r then q + 1 else if q % 2 = 0 then q else q + 1

def roundThousandths (x : Float) : Float :=
  let (negative, exponent, fraction) := fields x
  if exponent = 2047 then x
  else
    let r := (sizeOf exponent fraction).ratio
    let size := Float.ofScientific (roundDiv (r.num * 1000) r.den) true 3
    if negative then -size else size

/-! ### Seconds -/

inductive Seconds
  | whole (n : Int)
  | fraction (x : Float)
  deriving Repr

namespace Seconds

def text : Seconds → String
  | whole n => toString n
  | fraction x => floatText x

def toFloat : Seconds → Float
  | whole n => Float.ofInt n
  | fraction x => x

def milliseconds (s : Seconds) : Float := roundThousandths (s.toFloat * 1000.0)

end Seconds

end GroovySharp.Number
