import GroovySharp.Source.Delimiter
import GroovySharp.Text.Trim

/-!
# Source lines and what their characters belong to

A source text is split into lines, and every character of a line is marked as code, string or
comment. The mask of a line shows its code alone: string contents become `_` and comments become
blanks, so that structural characters can be looked for without false hits.
-/

namespace GroovySharp.Source

/-! ### Splitting -/

inductive Ending
  | none
  | lf
  | crlf
  deriving Repr, DecidableEq

def Ending.chars : Ending → Chars
  | none => []
  | lf => ['\n']
  | crlf => ['\r', '\n']

/-- The lines of a text with their endings. A text that ends with a line feed has no further line. -/
def splitLines : Chars → List (Chars × Ending)
  | [] => []
  | c :: cs =>
    if c = '\n' then ([], .lf) :: splitLines cs
    else
      match splitLines cs with
      | [] => [([c], .none)]
      | (body, ending) :: rest =>
        if c = '\r' ∧ body = [] ∧ ending = .lf then ([], .crlf) :: rest
        else (c :: body, ending) :: rest

/-! ### Marking -/

inductive Quote
  | single
  | double
  deriving Repr, DecidableEq

def Quote.char : Quote → Char
  | single => '\''
  | double => '"'

def Quote.ofChar? (c : Char) : Option Quote :=
  if c = '\'' then some single else if c = '"' then some double else none

inductive Mark
  | code
  /-- The delimiter that opens a string, or closes a one-line string. -/
  | quote
  | close
  | content
  | comment
  deriving Repr, DecidableEq

structure Cell where
  char : Char
  mark : Mark
  deriving Repr, DecidableEq

namespace Cell

def masked (c : Cell) : Char :=
  match c.mark with
  | .content => '_'
  | .comment => ' '
  | _ => c.char

def carriesCode (c : Cell) : Bool :=
  match c.mark with
  | .comment => false
  | .code => !Unicode.isSpace c.char
  | _ => true

end Cell

inductive Mode
  | code
  | lineComment
  | blockComment
  | oneLine (q : Quote)
  | triple (q : Quote)
  deriving Repr, DecidableEq

/-- The scanner's state: what it is inside of, and where the latest block comment and the latest
triple-quoted string began (zero if there was none). -/
structure ScanState where
  mode : Mode := .code
  commentOpenedAt : Nat := 0
  stringOpenedAt : Nat := 0
  deriving Repr, DecidableEq

def ScanState.inString (s : ScanState) : Bool :=
  match s.mode with
  | .triple _ => true
  | _ => false

def markedBefore (m : Mark) (cs : Chars)
    (r : Except StructuralFault (List Cell × ScanState)) :
    Except StructuralFault (List Cell × ScanState) :=
  r.map fun (cells, s) => (cs.map (⟨·, m⟩) ++ cells, s)

/-- Marks the characters of line `n`. Inside strings a backslash takes the next character with it; a
triple-quoted string and a block comment may go on after the line, a one-line string may not. -/
def scanCells (n : Nat) : ScanState → Chars → Except StructuralFault (List Cell × ScanState)
  | s, [] =>
    match s.mode with
    | .oneLine _ => .error (.openString n)
    | .lineComment => .ok ([], { s with mode := .code })
    | _ => .ok ([], s)
  | s, c :: cs =>
    match s.mode with
    | .lineComment => markedBefore .comment [c] (scanCells n s cs)
    | .blockComment =>
      match cs with
      | d :: rest =>
        if c = '*' ∧ d = '/' then
          markedBefore .comment [c, d] (scanCells n { s with mode := .code } rest)
        else markedBefore .comment [c] (scanCells n s (d :: rest))
      | [] => markedBefore .comment [c] (scanCells n s [])
    | .triple q =>
      match cs with
      | d :: e :: rest =>
        if c = '\\' then markedBefore .content [c, d] (scanCells n s (e :: rest))
        else if c = q.char ∧ d = q.char ∧ e = q.char then
          markedBefore .close [c, d, e] (scanCells n { s with mode := .code } rest)
        else markedBefore .content [c] (scanCells n s (d :: e :: rest))
      | [d] =>
        if c = '\\' then markedBefore .content [c, d] (scanCells n s [])
        else markedBefore .content [c] (scanCells n s [d])
      | [] => markedBefore .content [c] (scanCells n s [])
    | .oneLine q =>
      if c = '\\' then
        match cs with
        | d :: rest => markedBefore .content [c, d] (scanCells n s rest)
        | [] => .error (.openString n)
      else if c = q.char then markedBefore .quote [c] (scanCells n { s with mode := .code } cs)
      else markedBefore .content [c] (scanCells n s cs)
    | .code =>
      match cs with
      | d :: rest =>
        if c = '/' ∧ d = '/' then
          markedBefore .comment [c, d] (scanCells n { s with mode := .lineComment } rest)
        else if c = '/' ∧ d = '*' then
          markedBefore .comment [c, d]
            (scanCells n { s with mode := .blockComment, commentOpenedAt := n } rest)
        else
          match Quote.ofChar? c with
          | none => markedBefore .code [c] (scanCells n s (d :: rest))
          | some q =>
            match rest with
            | e :: rest' =>
              if d = c ∧ e = c then
                markedBefore .quote [c, d, e]
                  (scanCells n { s with mode := .triple q, stringOpenedAt := n } rest')
              else
                markedBefore .quote [c] (scanCells n { s with mode := .oneLine q } (d :: e :: rest'))
            | [] => markedBefore .quote [c] (scanCells n { s with mode := .oneLine q } [d])
      | [] =>
        match Quote.ofChar? c with
        | none => markedBefore .code [c] (scanCells n s [])
        | some q => markedBefore .quote [c] (scanCells n { s with mode := .oneLine q } [])

/-! ### Lines -/

structure Line where
  /-- Its number, counted from one. -/
  number : Nat
  cells : List Cell
  ending : Ending
  startsInString : Bool
  endsInString : Bool
  deriving Repr, DecidableEq

def lastEnd (p : Cell → Bool) (cells : List Cell) : Nat :=
  (cells.reverse.dropWhile fun c => !p c).length

namespace Line

def text (l : Line) : Chars := l.cells.map (·.char)

def masked (l : Line) : Chars := l.cells.map Cell.masked

def codeEnd (l : Line) : Nat := lastEnd Cell.carriesCode l.cells

def stringCloseAt? (l : Line) : Option Nat :=
  match lastEnd (fun c => c.mark == .close) l.cells with
  | 0 => none
  | n => some n

def core (l : Line) : Chars := Text.trim (l.masked.take l.codeEnd)

def isStringBody (l : Line) : Bool := l.startsInString && l.endsInString

def carriesCode (l : Line) : Bool := decide (0 < l.codeEnd) && !l.isStringBody

end Line

/-- Scans split lines from line `n` on. -/
def scanFrom (n : Nat) (s : ScanState) :
    List (Chars × Ending) → Except StructuralFault (List Line × ScanState)
  | [] => .ok ([], s)
  | (body, ending) :: rest => do
    let (cells, s') ← scanCells n s body
    let (lines, last) ← scanFrom (n + 1) s' rest
    return (⟨n, cells, ending, s.inString, s'.inString⟩ :: lines, last)

def scanLines (text : Chars) : Except StructuralFault (List Line × ScanState) :=
  scanFrom 1 {} (splitLines text)

end GroovySharp.Source
