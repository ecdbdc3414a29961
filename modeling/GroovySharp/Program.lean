import GroovySharp.Error
import GroovySharp.Grammar.ExpressionTable
import GroovySharp.Grammar.Parser
import GroovySharp.Grammar.ProgramTable
import GroovySharp.Text.Interpolated

/-!
# Reading programs

Reads a program whose statements end with semicolons into a tree. Strings with holes become nodes of
their own: the texts between the holes, and the expressions in them.
-/

namespace GroovySharp.Program

open Text Grammar

/-- Why a text is not a program. -/
inductive Fault
  /-- The parser stopped; `source` is the text it read, which starts at `origin` in the program. -/
  | misread (stop : Stop) (source : Chars) (origin : Position)
  /-- A hole of a string on the given line is not closed. -/
  | openHole (raw : Chars) (line : Nat)
  /-- A hole of a string on the given line is empty. -/
  | emptyHole (raw : Chars) (line : Nat)
  | badHoleName
  deriving Repr, DecidableEq

namespace Fault

def complaint : Fault → Complaint
  | misread stop source origin =>
    .reported <| .make "SYNTAX_ERROR" stop.message (some ↑(origin.within stop.position).line) none
      (String.ofList (stop.excerpt source))
  | openHole raw line =>
    .reported <| .make "SYNTAX_ERROR" "Unterminated interpolation in string" (some ↑line) none
      (String.ofList raw)
  | emptyHole raw line =>
    .reported <| .make "SYNTAX_ERROR" "Empty interpolation in string" (some ↑line) none
      (String.ofList raw)
  | badHoleName => .broken ⟨"AttributeError", "'NoneType' object has no attribute 'group'"⟩

def column? : Fault → Option Nat
  | misread stop _ origin => some (origin.within stop.position).column
  | _ => none

end Fault

def theTree (piece : Piece) : Tree :=
  match piece.trees with
  | t :: _ => t
  | [] => .node .compilationUnit [] .empty []

def readHole (origin : Position) (source : Chars) : Except Fault Tree :=
  match parse ExpressionTable.table source with
  | .error stop => .error (.misread stop source origin)
  | .ok piece => .ok ((theTree piece).within origin)

/-- The texts before holes, and the expressions in the holes of a literal that starts at `base`. -/
def readHoles (base : Position) (span : Span) :
    LeafKind → List Interpolated.Hole → Except Fault (List Tree)
  | _, [] => .ok []
  | kind, hole :: holes => do
    let origin : Position := ⟨base.offset + hole.offset, base.line, base.column + hole.offset⟩
    let tree ← readHole origin hole.source
    let before := if kind = .gstringBegin then '"' :: hole.before else hole.before
    let rest ← readHoles base span .gstringPart holes
    return .leaf ⟨kind, before ++ ['$'], span⟩ :: tree :: rest

def readInterpolated (raw : Chars) (token span : Span) : Except Fault Tree := do
  let (holes, tail) := Interpolated.split raw
  let children ← readHoles token.start span .gstringBegin holes
  match tail with
  | .openHole => .error (.openHole raw span.start.line)
  | .emptyHole => .error (.emptyHole raw span.start.line)
  | .badName => .error .badHoleName
  | .text last =>
    let last := if holes.isEmpty then '"' :: last else last
    return .node .gstring (children ++ [.leaf ⟨.gstringEnd, last ++ ['"'], span⟩]) span raw

mutual

def expand : Tree → Except Fault Tree
  | .leaf l => .ok (.leaf l)
  | .node kind children span text =>
    match kind, children with
    | .stringLiteral, .leaf l :: rest =>
      if l.kind = .terminal .doubleString ∧ Interpolated.isInterpolated l.text = true then
        readInterpolated l.text l.span span
      else return .node .stringLiteral (.leaf l :: (← expandAll rest)) span text
    | kind, children => return .node kind (← expandAll children) span text

def expandAll : List Tree → Except Fault (List Tree)
  | [] => .ok []
  | t :: ts => do
    let t' ← expand t
    let ts' ← expandAll ts
    return t' :: ts'

end

def read (source : Chars) : Except Fault Tree :=
  match parse ProgramTable.table source with
  | .error stop => .error (.misread stop source {})
  | .ok piece => expand (theTree piece)

end GroovySharp.Program
