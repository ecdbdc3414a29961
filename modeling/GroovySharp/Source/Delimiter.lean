import GroovySharp.Error

/-!
# Delimiters and the faults of their nesting

Parentheses, brackets and braces, and the ways in which a source text can fail to close what it
opens.
-/

namespace GroovySharp.Source

inductive Delimiter
  | paren
  | bracket
  | brace
  deriving Repr, DecidableEq

namespace Delimiter

def opener : Delimiter → Char
  | paren => '('
  | bracket => '['
  | brace => '\x7b'

def closer : Delimiter → Char
  | paren => ')'
  | bracket => ']'
  | brace => '\x7d'

def opened? (c : Char) : Option Delimiter :=
  if c = '(' then some paren else if c = '[' then some bracket
  else if c = '\x7b' then some brace else none

def closed? (c : Char) : Option Delimiter :=
  if c = ')' then some paren else if c = ']' then some bracket
  else if c = '\x7d' then some brace else none

def name : Delimiter → String
  | paren => "parenthesis"
  | bracket => "bracket"
  | brace => "brace"

end Delimiter

inductive Construct
  | blockComment
  | multilineString
  | closure
  | delimited (d : Delimiter)
  deriving Repr, DecidableEq

def Construct.name : Construct → String
  | blockComment => "block comment"
  | multilineString => "multiline string"
  | closure => "closure"
  | delimited d => d.name

/-- How a source text can fail to be balanced; each fault carries the line it is reported at. -/
inductive StructuralFault
  /-- A one-line string is not closed on its line. -/
  | openString (line : Nat)
  /-- A closing delimiter does not match the innermost open one. -/
  | unmatched (d : Delimiter) (line : Nat)
  /-- A construct opened on the given line is open at the end of the input. -/
  | unterminated (c : Construct) (line : Nat)
  deriving Repr, DecidableEq

namespace StructuralFault

def line : StructuralFault → Nat
  | openString n => n
  | unmatched _ n => n
  | unterminated _ n => n

def construct : StructuralFault → String
  | openString _ => "string"
  | unmatched d _ => d.name
  | unterminated c _ => c.name

def message : StructuralFault → String
  | openString n => "Unterminated string at line " ++ toString n
  | unmatched d n => "Unmatched '" ++ String.singleton d.closer ++ "' at line " ++ toString n
  | unterminated c _ => "Unterminated " ++ c.name

def report (f : StructuralFault) : Report :=
  .make "STRUCTURAL" f.message (some f.line) none ("construct=" ++ f.construct)

end StructuralFault

end GroovySharp.Source
