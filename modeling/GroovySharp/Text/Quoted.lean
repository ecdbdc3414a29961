import GroovySharp.Unicode.Classes
import GroovySharp.Unicode.CodePoint

/-!
# Quoted text in messages

Messages show texts between quotes, with every character that does not print as itself written as an
escape.
-/

namespace GroovySharp.Text

def hexDigits (width n : Nat) : Chars :=
  let digits := Nat.toDigits 16 n
  List.replicate (width - digits.length) '0' ++ digits

def quotedChar (quote c : Char) : Chars :=
  if c = '\\' ∨ c = quote then ['\\', c]
  else if c = '\n' then ['\\', 'n']
  else if c = '\r' then ['\\', 'r']
  else if c = '\t' then ['\\', 't']
  else if Unicode.isPrintable c then [c]
  else if c.toNat < 0x100 then '\\' :: 'x' :: hexDigits 2 c.toNat
  else if c.toNat < 0x10000 then '\\' :: 'u' :: hexDigits 4 c.toNat
  else '\\' :: 'U' :: hexDigits 8 c.toNat

def quoteFor (cs : Chars) : Char :=
  if cs.contains '\'' && !cs.contains '"' then '"' else '\''

def quoted (cs : Chars) : Chars :=
  quoteFor cs :: cs.flatMap (quotedChar (quoteFor cs)) ++ [quoteFor cs]

/-! ### Code points -/

open Unicode in
def quotedPoint (quote : Char) : CodePoint → Chars
  | .scalar c => quotedChar quote c
  | .surrogate i => '\\' :: 'u' :: hexDigits 4 (0xD800 + i.val)

open Unicode in
def quotedPoints (ps : Points) : Chars :=
  let quote :=
    if ps.contains (.scalar '\'') && !ps.contains (.scalar '"') then '"' else '\''
  quote :: ps.flatMap (quotedPoint quote) ++ [quote]

end GroovySharp.Text
