import GroovySharp.Json.Value
import GroovySharp.Number.Decimal
import GroovySharp.Text.Escaped

/-!
# Reading JSON

The value of a JSON text. Strings hold no control characters; of fields with one name the last counts;
numbers without a fraction or an exponent are integers of any size up to the longest numeral.
-/

namespace GroovySharp.JsonValue

open Unicode

def skipBlanks (cs : Chars) : Chars :=
  cs.dropWhile fun c => c == ' ' || c == '\t' || c == '\n' || c == '\r'

/-! ### Strings -/

def shortEscape? : Char → Option Char
  | '"' => some '"'
  | '\\' => some '\\'
  | '/' => some '/'
  | 'b' => some '\x08'
  | 'f' => some '\x0c'
  | 'n' => some '\n'
  | 'r' => some '\r'
  | 't' => some '\t'
  | _ => none

/-- Puts a code point in front; a high surrogate and a low one make one character. -/
def consPoint (n : Nat) : Points → Points
  | .surrogate i :: rest =>
    if 0xD800 ≤ n ∧ n < 0xDC00 ∧ 0x400 ≤ i.val then
      .ofNat (0x10000 + (n - 0xD800) * 0x400 + (i.val - 0x400)) :: rest
    else .ofNat n :: .surrogate i :: rest
  | rest => .ofNat n :: rest

def readString : Chars → Option (Points × Chars)
  | [] => none
  | '"' :: rest => some ([], rest)
  | '\\' :: 'u' :: a :: b :: c :: d :: rest => do
    let n ← Text.hexQuad? a b c d
    let (t, rest) ← readString rest
    return (consPoint n t, rest)
  | '\\' :: e :: rest => do
    let c ← shortEscape? e
    let (t, rest) ← readString rest
    return (.scalar c :: t, rest)
  | c :: rest => do
    guard (c ≠ '\\' ∧ 0x20 ≤ c.toNat)
    let (t, rest) ← readString rest
    return (.scalar c :: t, rest)

/-! ### Numbers -/

def fractionOf : Chars → Chars
  | '.' :: rest => Number.digitsOf rest
  | _ => []

def exponentOf? : Chars → Option (Int × Nat)
  | e :: rest =>
    if e == 'e' || e == 'E' then
      let (negative, skipped, ds) := match rest with
        | '-' :: rest => (true, 2, Number.digitsOf rest)
        | '+' :: rest => (false, 2, Number.digitsOf rest)
        | rest => (false, 1, Number.digitsOf rest)
      if ds.isEmpty then none
      else
        let n : Int := Text.digitsValue ds
        some (if negative then -n else n, skipped + ds.length)
    else none
  | [] => none

def wholeDigits : Chars → Chars
  | '0' :: _ => ['0']
  | cs => Number.digitsOf cs

def readNumber (negative : Bool) (cs : Chars) : Option (JsonValue × Chars) := do
  let whole := wholeDigits cs
  guard (!whole.isEmpty)
  let rest := cs.drop whole.length
  let fraction := fractionOf rest
  let rest := if fraction.isEmpty then rest else rest.drop (fraction.length + 1)
  match exponentOf? rest with
  | some (e, length) =>
    return (decimal (Number.ofDigits negative (whole ++ fraction) (e - fraction.length)), rest.drop length)
  | none =>
    if fraction.isEmpty then
      guard (whole.length ≤ Text.maxDigits)
      let n : Int := Text.digitsValue whole
      return (integer (if negative then -n else n), rest)
    else
      return (decimal (Number.ofDigits negative (whole ++ fraction) (-fraction.length)), rest)

/-! ### Values -/

def afterWord? (word : String) (cs : Chars) : Option Chars :=
  if word.toList.isPrefixOf cs then some (cs.drop word.length) else none

def readWord (cs : Chars) : Option (JsonValue × Chars) :=
  ([("null", null), ("true", bool true), ("false", bool false), ("NaN", decimal (0.0 / 0.0)),
    ("Infinity", decimal (1.0 / 0.0)), ("-Infinity", decimal (-1.0 / 0.0))]).findSome? fun (w, v) =>
      (afterWord? w cs).map fun rest => (v, rest)

mutual

/-- The value in front, in at most the given number of steps. -/
def readValue : Nat → Chars → Option (JsonValue × Chars)
  | 0, _ => none
  | fuel + 1, cs =>
    match cs with
    | '"' :: rest => do
      let (t, rest) ← readString rest
      return (string t, rest)
    | '[' :: rest =>
      match skipBlanks rest with
      | ']' :: rest => some (array [], rest)
      | rest => do
        let (items, rest) ← readItems fuel rest
        return (array items, rest)
    | '\x7b' :: rest =>
      match skipBlanks rest with
      | '\x7d' :: rest => some (object [], rest)
      | rest => do
        let (fields, rest) ← readFields fuel rest
        return (object (update [] fields), rest)
    | cs =>
      match readWord cs, cs with
      | some r, _ => some r
      | none, '-' :: rest => readNumber true rest
      | none, cs => readNumber false cs

def readItems : Nat → Chars → Option (List JsonValue × Chars)
  | 0, _ => none
  | fuel + 1, cs => do
    let (v, rest) ← readValue fuel cs
    match skipBlanks rest with
    | ',' :: rest =>
      let (items, rest) ← readItems fuel (skipBlanks rest)
      return (v :: items, rest)
    | ']' :: rest => return ([v], rest)
    | _ => none

def readFields : Nat → Chars → Option (Fields × Chars)
  | 0, _ => none
  | fuel + 1, cs =>
    match cs with
    | '"' :: rest => do
      let (k, rest) ← readString rest
      match skipBlanks rest with
      | ':' :: rest =>
        let (v, rest) ← readValue fuel (skipBlanks rest)
        match skipBlanks rest with
        | ',' :: rest =>
          let (fields, rest) ← readFields fuel (skipBlanks rest)
          return ((k, v) :: fields, rest)
        | '\x7d' :: rest => return ([(k, v)], rest)
        | _ => none
      | _ => none
    | _ => none

end

def read? (cs : Chars) : Option JsonValue := do
  let (v, rest) ← readValue (2 * cs.length + 2) (skipBlanks cs)
  guard (skipBlanks rest).isEmpty
  return v

end GroovySharp.JsonValue
