import GroovySharp.Source.LineRule

/-!
# Explicit statement ends

Ends every statement of a source text with a semicolon. The text is read line by line with one line of
lookahead; lines keep their characters and endings and only gain semicolons.
-/

namespace GroovySharp.Source

open Text

/-! ### Edits -/

def insertAt (offset : Nat) (cs : Chars) : Chars :=
  cs.take offset ++ ';' :: cs.drop offset

def terminated (codeEnd : Nat) (cs : Chars) : Chars :=
  match codeEnd with
  | 0 => cs
  | n + 1 => if cs[n]? = some ';' then cs else insertAt (n + 1) cs

def isRelational (cs : Chars) : Bool :=
  cs.contains '<' || cs.contains '>' || hasWord ['=', '='] cs || hasWord ['!', '='] cs

/-- The line with a semicolon after the last statement of the block between its first opening and its
last closing brace, and after its code. An empty block leaves the line as it is. -/
def terminatedBlock (l : Line) : Chars :=
  let code := l.masked.take l.codeEnd
  let first := (code.takeWhile (· != '\x7b')).length
  let last := (code.reverse.dropWhile (· != '\x7d')).length - 1
  let content := slice code (first + 1) last
  if isBlank content then l.text
  else
    let stop := first + 1 + (trimEnd content).length
    if (trimEnd content).getLast? ≠ some ';' ∧ isRelational content = false then
      terminated (l.codeEnd + 1) (insertAt stop l.text)
    else terminated l.codeEnd l.text

def Edit.apply (l : Line) : Edit → Chars
  | keep => l.text
  | terminate => terminated l.codeEnd l.text
  | terminateBlock => terminatedBlock l

/-! ### Text -/

structure SettledLine where
  rule : LineRule
  text : Chars
  ending : Ending
  deriving Repr, DecidableEq

def nextCore (lines : List Line) : Chars :=
  match lines.find? Line.carriesCode with
  | some l => l.core
  | none => []

def settleLine (s : Nesting) (l : Line) (rest : List Line) :
    Except StructuralFault (SettledLine × Nesting) := do
  let absorbed ← s.absorb l
  let ctx : Context :=
    { line := l
      core := l.core
      nextCore := nextCore rest
      before := s.innermost
      after := absorbed.innermost
      parensBefore := s.depth .paren
      parensAfter := absorbed.depth .paren
      bracesAfter := absorbed.depth .brace }
  let (rule, edit, decided) := LineRule.decide ctx LineRule.all absorbed
  return (⟨rule, edit.apply l, l.ending⟩, decided.settle)

def settleLines (s : Nesting) : List Line → Except StructuralFault (List SettledLine × Nesting)
  | [] => .ok ([], s)
  | l :: rest => do
    let (settled, s') ← settleLine s l rest
    let (more, last) ← settleLines s' rest
    return (settled :: more, last)

/-- What is open at the end of the input, in the order in which it is reported. -/
def openConstruct? (scan : ScanState) (s : Nesting) : Option StructuralFault :=
  match scan.mode with
  | .blockComment => some (.unterminated .blockComment scan.commentOpenedAt)
  | .triple _ => some (.unterminated .multilineString scan.stringOpenedAt)
  | _ =>
    let innermost (d : Delimiter) :=
      (s.lines d).head?.map (StructuralFault.unterminated (.delimited d))
    innermost .paren <|> innermost .bracket
      <|> s.closures.head?.map (fun c => .unterminated .closure c.1)
      <|> innermost .brace

/-- The lines of a text with their statements ended, or the fault that keeps it from being read. -/
def settleText (text : Chars) : Except StructuralFault (List SettledLine) := do
  let (lines, scan) ← scanLines text
  let (settled, s) ← settleLines {} lines
  match openConstruct? scan s with
  | some fault => .error fault
  | none => return settled

def joinLines (lines : List SettledLine) : Chars :=
  lines.flatMap fun l => l.text ++ l.ending.chars

def normalize (text : Chars) : Except StructuralFault Chars :=
  (settleText text).map joinLines

end GroovySharp.Source
