import GroovySharp.Grammar.Token

/-!
# Holes of interpolated strings

A string in double quotes can have holes: `$name`, `$name.member` and `${expression}`. This module
finds them. A backslash takes the next character with it, so that `\$` starts no hole.
-/

namespace GroovySharp.Text.Interpolated

open Unicode

def opensHole (c : Char) : Bool := c == '\x7b' || isLetter c || c == '_'

/-- A hole starts somewhere before the last character of the text. -/
def hasHole : Chars → Bool
  | c :: d :: rest =>
    if c = '\\' then hasHole rest
    else if c = '$' ∧ opensHole d = true then true
    else hasHole (d :: rest)
  | _ => false

def isInterpolated (raw : Chars) : Bool := hasHole raw.tail

/-- A hole of a string: the text since the previous hole without the dollar sign, the source of the
hole, and where that source starts in the literal. -/
structure Hole where
  before : Chars
  source : Chars
  offset : Nat
  deriving Repr, DecidableEq

/-- What follows the last hole that can be read. -/
inductive Tail
  | text (cs : Chars)
  | openHole
  | emptyHole
  | badName
  deriving Repr, DecidableEq

/-- The length of the dotted name at the start of the text, zero if there is none. -/
def dottedLength (fuel : Nat) (cs : Chars) : Nat :=
  match fuel, Grammar.nameLength? cs with
  | fuel + 1, some n =>
    match cs.drop n with
    | '.' :: rest =>
      match dottedLength fuel rest with
      | 0 => n
      | m => n + 1 + m
    | _ => n
  | _, _ => 0

/-- The holes of the inside of a string from an offset on, and what follows them. `text` is the text
since the last hole, backwards; `fuel` bounds the number of characters. -/
def splitFrom : Nat → Nat → Chars → Chars → List Hole × Tail
  | 0, _, text, _ => ([], .text text.reverse)
  | _ + 1, _, text, [] => ([], .text text.reverse)
  | fuel + 1, offset, text, c :: cs =>
    if c = '\\' then
      match cs with
      | d :: rest => splitFrom fuel (offset + 2) (d :: c :: text) rest
      | [] => ([], .text (c :: text).reverse)
    else if c = '$' ∧ cs.head?.any opensHole = true then
      match cs with
      | '\x7b' :: inner =>
        let source := inner.takeWhile (· != '\x7d')
        match inner.drop source.length with
        | [] => ([], .openHole)
        | _ :: rest =>
          if source.all isSpace then ([], .emptyHole)
          else
            let (holes, tail) := splitFrom fuel (offset + source.length + 3) [] rest
            (⟨text.reverse, source, offset + 2⟩ :: holes, tail)
      | _ =>
        match dottedLength cs.length cs with
        | 0 => ([], .badName)
        | n =>
          let (holes, tail) := splitFrom fuel (offset + 1 + n) [] (cs.drop n)
          (⟨text.reverse, cs.take n, offset + 1⟩ :: holes, tail)
    else splitFrom fuel (offset + 1) (c :: text) cs

def split (raw : Chars) : List Hole × Tail :=
  splitFrom raw.length 1 [] (raw.tail.dropLast)

end GroovySharp.Text.Interpolated
