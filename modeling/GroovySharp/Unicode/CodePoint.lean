/-!
# Code points

Text that an escape such as `\uD83D` has put a lone surrogate into. Such text holds code points and not
only characters; it has no encoding in UTF-8.
-/

namespace GroovySharp

abbrev Chars := List Char

namespace Unicode

/-- A character, or one of the surrogates U+D800 to U+DFFF. -/
inductive CodePoint
  | scalar (c : Char)
  /-- The surrogate U+D800 + `offset`. -/
  | surrogate (offset : Fin 0x800)
  deriving Repr, DecidableEq

namespace CodePoint

def toNat : CodePoint → Nat
  | scalar c => c.toNat
  | surrogate i => 0xD800 + i.val

def ofNat (n : Nat) : CodePoint :=
  if h : 0xD800 ≤ n ∧ n < 0xE000 then surrogate ⟨n - 0xD800, by omega⟩ else scalar (Char.ofNat n)

def isScalar : CodePoint → Bool
  | scalar _ => true
  | surrogate _ => false

end CodePoint

abbrev Points := List CodePoint

def ofChars (cs : Chars) : Points := cs.map .scalar

def points (s : String) : Points := ofChars s.toList

end GroovySharp.Unicode
