import GroovySharp.Grammar.Terminal
import GroovySharp.Text.Position

/-!
# Tokens

How much of a text each terminal takes at its start, and which terminal comes first where only some are
allowed. There is no longest match between terminals: they are tried in a fixed order.
-/

namespace GroovySharp.Grammar

open Text Unicode

structure Token where
  terminal : Terminal
  text : Chars
  start : Position
  stop : Position
  deriving Repr, DecidableEq

/-! ### Names -/

def isNameStart (c : Char) : Bool := c.isAlpha || c == '_'

def isNameChar (c : Char) : Bool := c.isAlphanum || c == '_'

def nameLength? : Chars → Option Nat
  | [] => none
  | c :: cs => if isNameStart c then some (1 + (cs.takeWhile isNameChar).length) else none

/-- Words that never start a call or a command. -/
def reservedWords : List Chars :=
  ["if".toList, "else".toList, "for".toList, "while".toList, "switch".toList, "case".toList,
    "default".toList, "break".toList, "continue".toList, "return".toList, "def".toList,
    "new".toList, "import".toList, "try".toList, "catch".toList, "finally".toList, "throw".toList,
    "true".toList, "false".toList, "null".toList, "in".toList, "void".toList, "instanceof".toList,
    "as".toList, "class".toList, "static".toList, "package".toList, "assert".toList, "do".toList]

def operatorWords : List Chars := ["in".toList, "instanceof".toList, "as".toList]

def startsWithWordOf (words : List Chars) (cs : Chars) : Bool :=
  words.contains (cs.takeWhile isWord)

def callNameLength? (cs : Chars) : Option Nat :=
  if startsWithWordOf reservedWords cs then none
  else (nameLength? cs).filter fun n => (cs.drop n).head? == some '('

def isOperandStart (c : Char) : Bool :=
  isNameStart c || c.isDigit || c == '$' || c == '\'' || c == '"'

def isLineBlank (c : Char) : Bool := c == ' ' || c == '\t'

/-- A name, blanks, and an operand: a command call or a typed declaration. -/
def commandNameLength? (cs : Chars) : Option Nat :=
  if startsWithWordOf reservedWords cs then none
  else
    (nameLength? cs).filter fun n =>
      let operand := (cs.drop n).dropWhile isLineBlank
      (cs.drop n).head?.any isLineBlank && !startsWithWordOf operatorWords operand &&
        operand.head?.any isOperandStart

/-! ### Numbers -/

def integerLength? (cs : Chars) : Option Nat :=
  match (cs.takeWhile isDigit).length with
  | 0 => none
  | n => some n

def decimalLength? (cs : Chars) : Option Nat := do
  let whole ← integerLength? cs
  match cs.drop whole with
  | '.' :: rest => do
    let fraction ← integerLength? rest
    return whole + 1 + fraction
  | _ => none

/-! ### Strings -/

def tripleCloseLength? (q : Char) : Chars → Option Nat
  | a :: b :: c :: rest =>
    if a = q ∧ b = q ∧ c = q then some 3
    else (tripleCloseLength? q (b :: c :: rest)).map (· + 1)
  | _ => none

def tripleStringLength? : Chars → Option Nat
  | a :: b :: c :: rest =>
    if (a = '\'' ∨ a = '"') ∧ b = a ∧ c = a then (tripleCloseLength? a rest).map (· + 3)
    else none
  | _ => none

/-- The number of characters up to the closing quote of a string, which ends on its line. A backslash
takes the next character with it. -/
def closeLength? (q : Char) : Chars → Option Nat
  | [] => none
  | c :: cs =>
    if c = q then some 1
    else if c = '\n' then none
    else if c = '\\' then
      match cs with
      | d :: rest => if d = '\n' then none else (closeLength? q rest).map (· + 2)
      | [] => none
    else (closeLength? q cs).map (· + 1)

def stringLength? (q : Char) : Chars → Option Nat
  | [] => none
  | c :: cs => if c = q then (closeLength? q cs).map (· + 1) else none

/-! ### Blanks, comments and marks -/

def isTokenBlank (c : Char) : Bool :=
  c == ' ' || c == '\t' || c == '\x0c' || c == '\r' || c == '\n'

def blankLength? (cs : Chars) : Option Nat :=
  match (cs.takeWhile isTokenBlank).length with
  | 0 => none
  | n => some n

def lineCommentLength? : Chars → Option Nat
  | '/' :: '/' :: rest => some (2 + (rest.takeWhile (· != '\n')).length)
  | _ => none

def commentCloseLength? : Chars → Option Nat
  | a :: b :: rest =>
    if a = '*' ∧ b = '/' then some 2 else (commentCloseLength? (b :: rest)).map (· + 1)
  | _ => none

def blockCommentLength? : Chars → Option Nat
  | '/' :: '*' :: rest => (commentCloseLength? rest).map (· + 2)
  | _ => none

/-- An assignment operator: an equals sign, maybe after an arithmetic operator, and not before another
equals sign. -/
def assignLength? : Chars → Option Nat
  | [] => none
  | c :: cs =>
    if c = '=' then (if cs.head? = some '=' then none else some 1)
    else if c = '+' ∨ c = '-' ∨ c = '*' ∨ c = '/' ∨ c = '%' then
      match cs with
      | '=' :: rest => if rest.head? = some '=' then none else some 2
      | _ => none
    else none

/-! ### Choice -/

/-- How many characters the terminal takes at the start of the text. -/
def Terminal.matchLength? (t : Terminal) (cs : Chars) : Option Nat :=
  match t with
  | .callName => callNameLength? cs
  | .commandName => commandNameLength? cs
  | .name => nameLength? cs
  | .decimal => decimalLength? cs
  | .integer => integerLength? cs
  | .tripleString => tripleStringLength? cs
  | .singleString => stringLength? '\'' cs
  | .doubleString => stringLength? '"' cs
  | .assign => assignLength? cs
  | .blank => blankLength? cs
  | .lineComment => lineCommentLength? cs
  | .blockComment => blockCommentLength? cs
  | t =>
    match t.fixedText? with
    | some word => if word.isPrefixOf cs then some word.length else none
    | none => none

def retag (allowed : Nat) (text : Chars) : Terminal :=
  (Terminal.keywords.find? fun k => k.mem allowed && k.fixedText? == some text).getD .name

/-- The terminals to try where those of a set are allowed. Words are tried one by one only where no
name is allowed. -/
def candidates (allowed : Nat) : List Terminal :=
  let words := if Terminal.name.mem allowed then [] else Terminal.keywords
  (Terminal.classes ++ words ++ Terminal.marks).filter fun t => t.isIgnored || t.mem allowed

def lexeme? (allowed : Nat) (cs : Chars) : Option (Terminal × Nat) :=
  (candidates allowed).findSome? fun t =>
    (t.matchLength? cs).map fun n => (if t = .name then retag allowed (cs.take n) else t, n)

end GroovySharp.Grammar
