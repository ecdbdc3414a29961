import GroovySharp.Source.Header
import GroovySharp.Source.Line

/-!
# Rules for ending statements

Each line is settled by the first of sixteen rules that applies. A rule sees the line, the delimiters
open before and after it and the next line of code, and either leaves the line as it is or ends its
statement.
-/

namespace GroovySharp.Source

open Text

/-! ### State and context -/

/-- The open delimiters with the lines that opened them, innermost first. -/
abbrev Openings := List (Delimiter × Nat)

structure Nesting where
  opened : Openings := []
  /-- The open closures, innermost first: the line that opened it and the brace depth of its body. -/
  closures : List (Nat × Nat) := []
  /-- Brace depths of blocks opened inside closures, innermost first. -/
  skips : List Nat := []
  inChain : Bool := false
  /-- Parenthesis depth of a header or parameter list left open by an earlier line, or zero. -/
  headerDepth : Nat := 0
  /-- That header belongs to a control statement and not to a declaration. -/
  headerIsControl : Bool := false
  deriving Repr, DecidableEq

namespace Nesting

def innermost (s : Nesting) : Option Delimiter := s.opened.head?.map (·.1)

def lines (s : Nesting) (d : Delimiter) : List Nat :=
  (s.opened.filter fun o => o.1 == d).map (·.2)

def depth (s : Nesting) (d : Delimiter) : Nat := (s.lines d).length

/-- The open delimiters after the characters of line `n`. A closing delimiter has to match the
innermost open one. -/
def openedAfter (n : Nat) :
    Openings → Chars → Except StructuralFault Openings
  | opened, [] => .ok opened
  | opened, c :: cs =>
    match Delimiter.opened? c with
    | some d => openedAfter n ((d, n) :: opened) cs
    | none =>
      match Delimiter.closed? c with
      | none => openedAfter n opened cs
      | some d =>
        match opened with
        | (top, _) :: rest => if top = d then openedAfter n rest cs else .error (.unmatched d n)
        | [] => .error (.unmatched d n)

def absorb (s : Nesting) (l : Line) : Except StructuralFault Nesting :=
  if l.isStringBody then .ok s
  else (openedAfter l.number s.opened l.masked).map fun opened => { s with opened }

def settle (s : Nesting) : Nesting :=
  { s with
    closures := s.closures.dropWhile fun c => decide (s.depth .brace < c.2)
    skips := s.skips.dropWhile fun d => decide (s.depth .brace < d)
    headerDepth := if s.depth .paren < s.headerDepth then 0 else s.headerDepth }

end Nesting

structure Context where
  line : Line
  core : Chars
  /-- The masked code of the next line that has code, empty at the end. -/
  nextCore : Chars
  /-- The innermost delimiter open before the line. -/
  before : Option Delimiter
  /-- The innermost delimiter open after the line. -/
  after : Option Delimiter
  parensBefore : Nat
  parensAfter : Nat
  bracesAfter : Nat
  deriving Repr, DecidableEq

inductive Edit
  | keep
  /-- A semicolon goes after its code, unless there is one. -/
  | terminate
  /-- A semicolon goes after the last statement of its block and after its code, each unless there is
  one or the block compares values. -/
  | terminateBlock
  deriving Repr, DecidableEq

/-! ### Rules -/

/-- The rules in the order in which they are tried. -/
inductive LineRule
  | blank
  | multilineStringBody
  | commentOnly
  | parenContinuation
  | controlHeader
  | multilineStringEnd
  | multilineStringStart
  | chainContinuation
  | chainExit
  | chainEntry
  | closureEntry
  | unbalancedLine
  | enumerableEntry
  | invalidTerminator
  | enumerableContinuation
  | defaultInsert
  deriving Repr, DecidableEq

abbrev Edits := List (LineRule × Edit)

def suppressingEnds : List Chars :=
  [['+'], ['-'], ['*'], ['/'], ['%'], ['&', '&'], ['|', '|'], ['&'], ['|'], ['^'], ['?'], [':'],
    ['.'], ['('], ['['], [','], ['\x7b'], ['\x7d'], [';'], ['='], ['<'], ['>']]

def continuationEnds : List Chars :=
  [[','], ['+'], ['-'], ['*'], ['/'], ['%'], ['&', '&'], ['|', '|'], ['?'], [':'], ['.'], ['='], ['(']]

def arrow : Chars := ['-', '>']

/-- A condition that stands or falls with one parenthesis group: nothing if the group ends before the
line does, the line if it ends with it, and an open header if it does not end at all. -/
inductive HeaderGroup
  | closesEarly
  | closesAtEnd
  | staysOpen
  deriving Repr, DecidableEq

/-- How the parenthesis group at the start of the text ends; `depth` parentheses are open. -/
def headerGroup (depth : Nat) : Chars → HeaderGroup
  | [] => .staysOpen
  | c :: cs =>
    if c = '(' then headerGroup (depth + 1) cs
    else if c = ')' then
      if depth = 1 then (if cs.isEmpty then .closesAtEnd else .closesEarly)
      else headerGroup (depth - 1) cs
    else headerGroup depth cs

namespace LineRule

def all : List LineRule :=
  [blank, multilineStringBody, commentOnly, parenContinuation, controlHeader, multilineStringEnd,
    multilineStringStart, chainContinuation, chainExit, chainEntry, closureEntry, unbalancedLine,
    enumerableEntry, invalidTerminator, enumerableContinuation, defaultInsert]

def name : LineRule → String
  | blank => "blank"
  | multilineStringBody => "multiline_string_body"
  | commentOnly => "comment_only"
  | parenContinuation => "paren_continuation"
  | controlHeader => "control_header"
  | multilineStringEnd => "multiline_string_end"
  | multilineStringStart => "multiline_string_start"
  | chainContinuation => "chain_continuation"
  | chainExit => "chain_exit"
  | chainEntry => "chain_entry"
  | closureEntry => "closure_entry"
  | unbalancedLine => "unbalanced_line"
  | enumerableEntry => "enumerable_entry"
  | invalidTerminator => "invalid_terminator"
  | enumerableContinuation => "enumerable_continuation"
  | defaultInsert => "default_insert"

def editIf (b : Bool) (e : Edit) (s : Nesting) : Option Edit × Nesting :=
  (if b then some e else none, s)

/-- A header, or the line on which a header left open earlier closes. -/
def applyControlHeader (ctx : Context) (s : Nesting) : Option Edit × Nesting :=
  if s.headerDepth ≠ 0 ∧ ctx.parensAfter < s.headerDepth then
    let closes := ['\x7b'].isSuffixOf ctx.core ||
      (s.headerIsControl && [')'].isSuffixOf ctx.core)
    editIf closes .keep { s with headerDepth := 0 }
  else if isBareHeader ctx.core then (some .keep, s)
  else
    match controlHeader? ctx.core with
    | none =>
      if s.headerDepth = 0 ∧ ctx.parensBefore < ctx.parensAfter ∧
          (declarationOpen? ctx.core).isSome then
        (none, { s with headerDepth := ctx.parensBefore + 1, headerIsControl := false })
      else (none, s)
    | some group =>
      match headerGroup 0 group with
      | .closesEarly => (none, s)
      | .closesAtEnd => (some .keep, s)
      | .staysOpen => (some .keep, { s with headerDepth := ctx.parensBefore + 1, headerIsControl := true })

def applyStringEnd (ctx : Context) (s : Nesting) : Option Edit × Nesting :=
  if !ctx.line.startsInString || ctx.line.endsInString ||
      !isBlank (ctx.line.masked.drop (ctx.line.stringCloseAt?.getD 0)) then (none, s)
  else if startsChain ctx.nextCore then (some .keep, { s with inChain := true })
  else if ctx.after = some .paren ∨ ctx.after = some .bracket then (some .keep, s)
  else (some .terminate, s)

def applyChainExit (ctx : Context) (s : Nesting) : Option Edit × Nesting :=
  if !s.inChain then (none, s)
  else
    editIf (!(arrow.isSuffixOf ctx.core || endsWithAny suppressingEnds ctx.core)) .terminate
      { s with inChain := false }

/-- A line that cannot take a plain semicolon: it ends in an operator or delimiter, is an annotation,
or closes a closure. -/
def applyInvalidTerminator (ctx : Context) (s : Nesting) : Option Edit × Nesting :=
  let core := ctx.core
  let closesClosure := s.closures.head?.any fun c => decide (ctx.bracesAfter < c.2)
  if !(endsWithAny suppressingEnds core || ['@'].isPrefixOf core || closesClosure) then (none, s)
  else
    let s :=
      if ['\x7b'].isSuffixOf core && !s.closures.isEmpty && !(['\x7d'].isPrefixOf core) then
        { s with skips := ctx.bracesAfter :: s.skips }
      else s
    if closesClosure then
      let goesOn := ctx.after = some .paren ∨ ctx.after = some .bracket ∨
        endsWithAny continuationEnds (dropTail (· == ';') core) = true
      (some (if goesOn then .keep else .terminate), { s with closures := s.closures.tail })
    else if s.skips.head?.any fun d => decide (ctx.bracesAfter < d) then
      (some .keep, { s with skips := s.skips.tail })
    else
      let stripped := dropTail (fun c => c == ' ' || c == '\t' || c == ';' || c == ')') core
      let edit : Edit :=
        if ['\x7d'].isSuffixOf stripped && hasWord arrow core then .terminate
        else if ['\x7d'].isSuffixOf stripped && stripped.contains '\x7b' then .terminateBlock
        else if "import ".toList.isPrefixOf core then .terminate
        else if ['-', '-'].isSuffixOf core || ['+', '+'].isSuffixOf core then .terminate
        else .keep
      (some edit, s)

/-- What the rule does with a line, if it applies, and the state after it was tried. -/
def apply : LineRule → Context → Nesting → Option Edit × Nesting
  | blank, ctx, s => editIf (isBlank ctx.line.text) .keep s
  | multilineStringBody, ctx, s => editIf ctx.line.isStringBody .keep s
  | commentOnly, ctx, s => editIf (ctx.line.codeEnd == 0) .keep s
  | parenContinuation, ctx, s => editIf (ctx.before == some .paren && ctx.after == some .paren) .keep s
  | controlHeader, ctx, s => applyControlHeader ctx s
  | multilineStringEnd, ctx, s => applyStringEnd ctx s
  | multilineStringStart, ctx, s => editIf ctx.line.endsInString .keep s
  | chainContinuation, ctx, s => editIf (s.inChain && startsChain ctx.nextCore) .keep s
  | chainExit, ctx, s => applyChainExit ctx s
  | chainEntry, ctx, s =>
    if startsChain ctx.nextCore then (some .keep, { s with inChain := true }) else (none, s)
  | closureEntry, ctx, s =>
    if arrow.isSuffixOf ctx.core || opensBareClosure ctx.core then
      (some .keep, { s with closures := (ctx.line.number, ctx.bracesAfter) :: s.closures })
    else (none, s)
  | unbalancedLine, ctx, s => editIf (ctx.after == some .paren) .keep s
  | enumerableEntry, ctx, s => editIf (['['].isSuffixOf ctx.core) .keep s
  | invalidTerminator, ctx, s => applyInvalidTerminator ctx s
  | enumerableContinuation, ctx, s => editIf (ctx.after == some .bracket) .keep s
  | defaultInsert, _, s => (some .terminate, s)

/-- The first of the rules that applies, its edit and the state after it. If none applies the line is
ended, which is also what the last rule does. -/
def decide (ctx : Context) : List LineRule → Nesting → LineRule × Edit × Nesting
  | [], s => (defaultInsert, .terminate, s)
  | r :: rules, s =>
    match r.apply ctx s with
    | (some e, s') => (r, e, s')
    | (none, s') => decide ctx rules s'

end LineRule

end GroovySharp.Source
