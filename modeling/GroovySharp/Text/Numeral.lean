import GroovySharp.Text.Quoted

/-!
# Reading whole numbers

A whole number is written with decimal digits of any script, a sign before them if wanted, single
underscores between them, and white space around all.
-/

namespace GroovySharp.Text

def maxDigits : Nat := 4300

/-- Why a text is not a number. -/
inductive NumeralFault
  /-- The text is not written as a number. -/
  | invalid (text : Chars)
  | tooLong (digits : Nat)
  deriving Repr, DecidableEq

/-- The fault in words; a long text is cut. -/
def NumeralFault.message : NumeralFault → String
  | invalid text => "invalid literal for int() with base 10: " ++ String.ofList ((quoted text).take 200)
  | tooLong digits =>
    "Exceeds the limit (" ++ toString maxDigits ++ " digits) for integer string conversion: value has "
      ++ toString digits ++ " digits; use sys.set_int_max_str_digits() to increase the limit"

def isNumeralBlank (c : Char) : Bool :=
  c == ' ' || decide (0x9 ≤ c.toNat) && decide (c.toNat ≤ 0xD)

/-- The ASCII character that a character of a number stands for: wide white space for a blank, a digit
of any script for its value. -/
def numeralChar (c : Char) : Char :=
  if c.toNat < 0x7F then c
  else if Unicode.isSpace c then ' '
  else
    match Unicode.digitValue? c with
    | some n => Char.ofNat (0x30 + n)
    | none => '?'

def takeSign : Chars → Bool × Chars
  | '-' :: cs => (true, cs)
  | '+' :: cs => (false, cs)
  | cs => (false, cs)

/-- Underscores stand only between digits. -/
def underscoresFit : Chars → Bool
  | '_' :: _ => false
  | cs => fits cs
where
  fits : Chars → Bool
    | [] => true
    | ['_'] => false
    | '_' :: '_' :: _ => false
    | _ :: cs => fits cs

def digitsValue (cs : Chars) : Nat :=
  cs.foldl (fun n c => if c.isDigit then 10 * n + (c.toNat - 0x30) else n) 0

def readInteger (text : Chars) : Except NumeralFault Int :=
  let (negative, rest) := takeSign ((text.map numeralChar).dropWhile isNumeralBlank)
  let body := rest.takeWhile fun c => c.isDigit || c == '_'
  let tail := rest.dropWhile fun c => c.isDigit || c == '_'
  let count := body.countP Char.isDigit
  if !underscoresFit body then .error (.invalid text)
  else if maxDigits < count then .error (.tooLong count)
  else if count = 0 ∨ !tail.all isNumeralBlank then .error (.invalid text)
  else if negative then .ok (-(digitsValue body : Int))
  else .ok (digitsValue body)

end GroovySharp.Text
