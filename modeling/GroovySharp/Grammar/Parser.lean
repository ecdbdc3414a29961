import GroovySharp.Grammar.Table
import GroovySharp.Grammar.Token
import GroovySharp.Text.Quoted

/-!
# Shift-reduce parsing

A parser reads a text under a parse table. The next token is looked for among the terminals that have
an action in the current state, so that a word can be a keyword in one place and a name in another.
Trees carry the exact part of the text that they were read from.
-/

namespace GroovySharp.Grammar

open Text

/-! ### Failures -/

inductive Stop
  | token (t : Terminal) (text : Chars) (position : Position)
  | character (c : Char) (position : Position)
  deriving Repr, DecidableEq

namespace Stop

def position : Stop → Position
  | token _ _ p => p
  | character _ p => p

def endsMessageLine (c : Char) : Bool :=
  c == '\n' || c == '\x0b' || c == '\x0c' || c == '\r' || c == '\x1c' || c == '\x1d' ||
    c == '\x1e' || c == '\x85' || c == '\u2028' || c == '\u2029'

def message : Stop → String
  | token t text p =>
    "Unexpected token Token('" ++ t.label ++ "', " ++ String.ofList (quoted text) ++ ") at line " ++
      toString p.line ++ ", column " ++ toString p.column ++ "."
  | character c p =>
    if endsMessageLine c then "No terminal matches '"
    else
      "No terminal matches '" ++ String.singleton c ++
        "' in the current parser context, at line " ++ toString p.line ++ " col " ++
        toString p.column

/-- The width of a text in which tabs go to the next multiple of eight; a carriage return starts
counting anew. `column` characters stand since the last start. -/
def expandedWidth (column : Nat) : Chars → Nat
  | [] => 0
  | c :: cs =>
    if c = '\t' then (8 - column % 8) + expandedWidth (column + (8 - column % 8)) cs
    else if c = '\r' ∨ c = '\n' then 1 + expandedWidth 0 cs
    else 1 + expandedWidth (column + 1) cs

def excerpt (source : Chars) (s : Stop) : Chars :=
  let at_ := s.position.offset
  let before := ((slice source (at_ - 40) at_).reverse.takeWhile (· != '\n')).reverse
  let after := (slice source at_ (at_ + 40)).takeWhile (· != '\n')
  before ++ after ++ '\n' :: List.replicate (expandedWidth 0 before) ' ' ++ ['^']

end Stop

/-! ### Pieces -/

/-- What a symbol on the stack has been read as: its trees and the part of the text it covers. A phrase
without text covers none. -/
structure Piece where
  trees : List Tree
  extent : Option Span
  deriving Repr

structure Frame where
  state : Nat
  symbol : Symbol
  piece : Piece
  deriving Repr

def topState (stack : List Frame) : Nat :=
  match stack with
  | [] => 0
  | f :: _ => f.state

def cover (extents : List (Option Span)) : Option Span :=
  match extents.filterMap id with
  | [] => none
  | first :: more => some ⟨first.start, ((first :: more).getLast?.getD first).stop⟩

def keptTrees (parts : List Part) (pieces : List Piece) : List Tree :=
  (parts.zip pieces).flatMap fun (part, piece) => if part.kept then piece.trees else []

/-- The piece that a production makes of the pieces of its parts. A construct becomes a node over the
whole extent, with the text of the extent. -/
def Production.assemble (p : Production) (source : Chars) (pieces : List Piece) : Piece :=
  let extent := cover (pieces.map (·.extent))
  let trees := keptTrees p.parts pieces
  match p.builds with
  | none => ⟨trees, extent⟩
  | some kind =>
    let text := match extent with
      | some span => slice source span.start.offset span.stop.offset
      | none => []
    ⟨[.node kind trees (extent.getD .empty) text], extent⟩

def Token.piece (t : Token) : Piece :=
  ⟨[.leaf ⟨.terminal t.terminal, t.text, ⟨t.start, t.stop⟩⟩], some ⟨t.start, t.stop⟩⟩

/-! ### Steps -/

/-- The stack after a production has been put together from its top, if its parts lie there. -/
def reduce? (T : Table) (source : Chars) (index : Nat) (stack : List Frame) :
    Option (List Frame) := do
  let p ← productions[index]?
  let frames := (stack.take p.parts.length).reverse
  let rest := stack.drop p.parts.length
  if frames.map (·.symbol) = p.parts.map (·.symbol) then
    let state ← T.goto? (topState rest) p.head
    return ⟨state, .phrase p.head, p.assemble source (frames.map (·.piece))⟩ :: rest
  else none

/-- The stack after a token has been taken, if it has a place here. `fuel` bounds the number of
productions put together before it. -/
def feed? (T : Table) (source : Chars) (token : Token) :
    Nat → List Frame → Option (List Frame)
  | 0, _ => none
  | fuel + 1, stack =>
    match T.action? (topState stack) token.terminal with
    | none => none
    | some (.shift state) => some (⟨state, .terminal token.terminal, token.piece⟩ :: stack)
    | some (.reduce index) => (reduce? T source index stack).bind (feed? T source token fuel)

/-- Enough productions for one token: chains of productions with one part are shorter than thirty-two,
and all others shorten the stack. -/
def feedFuel (stack : List Frame) : Nat := 32 * (stack.length + 2)

structure Config where
  stack : List Frame := []
  position : Position := {}
  rest : Chars
  /-- The token taken last. -/
  last : Option Token := none
  deriving Repr

def Config.endToken (c : Config) : Token :=
  let position := match c.last with
    | some t => t.start
    | none => {}
  ⟨.endOfInput, [], position, position⟩

def Config.token (c : Config) (t : Terminal) (n : Nat) : Token :=
  ⟨t, c.rest.take n, c.position, c.position.advance (c.rest.take n)⟩

def Config.skip (c : Config) (n : Nat) : Config :=
  { c with position := c.position.advance (c.rest.take n), rest := c.rest.drop n }

/-- Why no allowed terminal matches: the token that would stand here in another place, or else the
character itself. -/
def Config.misfit (c : Config) (T : Table) (here : Char) : Stop :=
  match lexeme? T.terminals c.rest with
  | some (t, n) => .token t (c.rest.take n) c.position
  | none => .character here c.position

/-- Reads from a configuration to the end of the text. `fuel` bounds the number of tokens, blanks and
comments. -/
def run (T : Table) (source : Chars) : Nat → Config → Except Stop Piece
  | 0, c => .error (.token .endOfInput [] c.position)
  | fuel + 1, c =>
    match c.rest with
    | [] =>
      match feed? T source c.endToken (feedFuel c.stack) c.stack with
      | some (_ :: f :: _) => .ok f.piece
      | _ => .error (.token .endOfInput [] c.endToken.start)
    | here :: _ =>
      match lexeme? (T.accepts (topState c.stack)) c.rest with
      | none => .error (c.misfit T here)
      | some (t, n) =>
        if t.isIgnored then run T source fuel (c.skip n)
        else
          match feed? T source (c.token t n) (feedFuel c.stack) c.stack with
          | some stack => run T source fuel { c.skip n with stack, last := some (c.token t n) }
          | none => .error (.token t (c.rest.take n) c.position)

def parse (T : Table) (source : Chars) : Except Stop Piece :=
  run T source (source.length + 1) { rest := source }

end GroovySharp.Grammar
