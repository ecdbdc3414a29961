import GroovySharp.Unicode.Letters
import GroovySharp.Unicode.Numerals
import GroovySharp.Unicode.Unprintable
import GroovySharp.Unicode.Letterforms

/-!
# Character classes

The classes of characters that source lines, names, patterns and messages are read by. They are
Unicode classes: a letter of any script is a letter, and a digit of any script has a value.
-/

namespace GroovySharp.Unicode

/-! ### Table lookup -/

def within (table : List (Nat × Nat)) (n : Nat) : Bool :=
  table.any fun r => decide (r.1 ≤ n) && decide (n ≤ r.2)

def onRun (first last step n : Nat) : Bool :=
  decide (first ≤ n) && decide (n ≤ last) && (n - first) % step == 0

/-! ### Classes -/

def spaces : List (Nat × Nat) := [ (0x9,0xD),(0x1C,0x20),(0x85,0x85),(0xA0,0xA0),(0x1680,0x1680),(0x2000,0x200A),
  (0x2028,0x2029),(0x202F,0x202F),(0x205F,0x205F),(0x3000,0x3000)]

def isSpace (c : Char) : Bool := within spaces c.toNat

def isLetter (c : Char) : Bool :=
  if c.toNat < 0x80 then c.isAlpha else within letters c.toNat

def isAlphanumeric (c : Char) : Bool :=
  if c.toNat < 0x80 then c.isAlphanum else within letters c.toNat || within numerals c.toNat

def isWord (c : Char) : Bool := isAlphanumeric c || c == '_'

def isCapital (c : Char) : Bool :=
  if c.toNat < 0x80 then c.isUpper
  else capitals.any fun r => onRun r.1 r.2.1 r.2.2 c.toNat

def isPrintable (c : Char) : Bool :=
  if c.toNat < 0x80 then decide (0x20 ≤ c.toNat) && decide (c.toNat < 0x7F)
  else !within unprintables c.toNat

def digitValue? (c : Char) : Option Nat :=
  if c.toNat < 0x80 then
    if c.isDigit then some (c.toNat - 0x30) else none
  else
    (decimalDigits.find? fun r => decide (r.1 ≤ c.toNat) && decide (c.toNat ≤ r.2)).map
      fun r => (c.toNat - r.1) % 10

def isDigit (c : Char) : Bool := (digitValue? c).isSome

/-! ### Case maps -/

def runImage? (runs : List (Nat × Nat × Nat × Nat)) (n : Nat) : Option Nat :=
  (runs.find? fun r => onRun r.1 r.2.1 r.2.2.1 n).map fun r => r.2.2.2 + (n - r.1)

/-- The image of a character under a case map given by its runs and its longer images. -/
def caseImage (runs : List (Nat × Nat × Nat × Nat)) (words : List (Nat × List Nat)) (c : Char) :
    Chars :=
  match words.lookup c.toNat with
  | some image => image.map Char.ofNat
  | none =>
    match runImage? runs c.toNat with
    | some image => [Char.ofNat image]
    | none => [c]

def upperCase (cs : Chars) : Chars := cs.flatMap (caseImage upperRuns upperWords)

def lowerCase (cs : Chars) : Chars := cs.flatMap (caseImage lowerRuns lowerWords)

end GroovySharp.Unicode
