import GroovySharp.Unicode.CodePoint

/-!
# Escapes in source strings

A backslash in a string changes the character after it; `\u` with four hexadecimal digits stands for
the code point of that number.
-/

namespace GroovySharp.Text

open Unicode

def hexValue? (c : Char) : Option Nat :=
  if '0' ≤ c ∧ c ≤ '9' then some (c.toNat - 0x30)
  else if 'a' ≤ c ∧ c ≤ 'f' then some (c.toNat - 0x57)
  else if 'A' ≤ c ∧ c ≤ 'F' then some (c.toNat - 0x37)
  else none

def hexQuad? (a b c d : Char) : Option Nat := do
  let a ← hexValue? a
  let b ← hexValue? b
  let c ← hexValue? c
  let d ← hexValue? d
  return ((a * 16 + b) * 16 + c) * 16 + d

def escapedChar : Char → Char
  | 'n' => '\n'
  | 't' => '\t'
  | 'r' => '\r'
  | 'b' => '\x08'
  | 'f' => '\x0c'
  | c => c

def unescape : Chars → Points
  | '\\' :: 'u' :: a :: b :: c :: d :: rest =>
    match hexQuad? a b c d with
    | some n => .ofNat n :: unescape rest
    | none => .scalar 'u' :: unescape (a :: b :: c :: d :: rest)
  | '\\' :: c :: rest => .scalar (escapedChar c) :: unescape rest
  | c :: rest => .scalar c :: unescape rest
  | [] => []

end GroovySharp.Text
