import GroovySharp.CSharp.Record
import GroovySharp.CSharp.Words

/-!
# The text of C# programs

Writes a model as source text: braces on lines of their own, and parentheses only where precedence
needs them.
-/

namespace GroovySharp.CSharp

open Unicode

/-! ### Precedence -/

/-- How tightly a binary operator binds; larger is tighter. -/
def BinaryOp.precedence : BinaryOp → Nat
  | logicalOr => 3
  | logicalAnd => 4
  | equal | notEqual => 7
  | less | greater | lessEqual | greaterEqual => 8
  | add | subtract => 10
  | multiply | divide | modulo => 11

def BinaryOp.isAssociative : BinaryOp → Bool
  | logicalAnd | logicalOr => true
  | _ => false

/-- How tightly an expression binds. -/
def Expr.precedence : Expr → Nat
  | assignment .. | lambda .. => 1
  | conditional .. => 2
  | binary op _ _ => op.precedence
  | prefixed .. => 12
  | _ => 13

def Expr.isBinary (op : BinaryOp) : Expr → Bool
  | binary op' _ _ => op' == op
  | _ => false

def Expr.isFormatted : Expr → Bool
  | conditional .. | lambda .. => true
  | _ => false

/-! ### Failures -/

inductive Misplaced
  | member (category : String)
  | statement (category : String)
  | expression (category : String)
  deriving Repr, DecidableEq

def Misplaced.message : Misplaced → String
  | member c => "Cannot render member " ++ c
  | statement c => "Cannot render statement " ++ c
  | expression c => "Cannot render expression " ++ c

/-! ### Pieces of text -/

def joined (separator : String) (texts : List Points) : Points :=
  List.intercalate (points separator) texts

def parenthesized (b : Bool) (text : Points) : Points :=
  if b then points "(" ++ text ++ points ")" else text

def wrapped (e : Expr) (least : Nat) (text : Points) : Points :=
  parenthesized (decide (e.precedence < least)) text

def identifierText (name : String) : Points := points (escapeIdentifier name)

def Literal.text : Literal → Points
  | string value => points "\"" ++ escapeString value ++ points "\""
  | integer n => points (toString n)
  | decimal text => text
  | true => points "true"
  | false => points "false"
  | null => points "null"

def lambdaParameters : List String → Points
  | [p] => identifierText p
  | ps => points "(" ++ joined ", " (ps.map identifierText) ++ points ")"

def createdText : Created → Points
  | .type name => points name
  | other => ofChars (createdRecord other)

def given? (name : Option String) : Option String := name.filter fun s => !s.isEmpty

def indentation (indent : Points) (level : Nat) : Points := (List.replicate level indent).flatten

def braced (indent : Points) (level : Nat) (lines : List Points) : List Points :=
  (indentation indent level ++ points "\x7b") ::
    (lines ++ [indentation indent level ++ points "\x7d"])

def Stmt.levelUnder (level : Nat) : Stmt → Nat
  | block _ => level
  | _ => level + 1

/-! ### Expressions and statements -/

mutual

def exprText (indent : Points) (level : Nat) : Expr → Except Misplaced Points
  | .identifier name => return identifierText name
  | .literal value => return value.text
  | .interpolated contents => do
    return points "$\"" ++ (← contentsText indent level contents) ++ points "\""
  | .binary op left right => do
    let leftText ← exprText indent level left
    let rightText ← exprText indent level right
    let least := if op.isAssociative && right.isBinary op then op.precedence else op.precedence + 1
    return wrapped left op.precedence leftText ++ points " " ++ points op.text ++ points " " ++
      wrapped right least rightText
  | .prefixed op operand => do
    let text := wrapped operand 12 (← exprText indent level operand)
    let collides := text.head? == (points op.text).head?
    return points op.text ++ parenthesized collides text
  | .postfixed op operand => do
    return wrapped operand 13 (← exprText indent level operand) ++ points op.text
  | .assignment op target value => do
    let targetText ← exprText indent level target
    let valueText ← exprText indent level value
    return wrapped target 12 targetText ++ points " " ++ points op.text ++ points " " ++ valueText
  | .conditional condition whenTrue whenFalse => do
    let conditionText ← exprText indent level condition
    let trueText ← exprText indent level whenTrue
    let falseText ← exprText indent level whenFalse
    return wrapped condition 3 conditionText ++ points " ? " ++ wrapped whenTrue 2 trueText ++
      points " : " ++ wrapped whenFalse 2 falseText
  | .memberAccess target name nullable => do
    let targetText ← exprText indent level target
    return wrapped target 13 targetText ++ points (if nullable then "?." else ".") ++ points name
  | .invocation callee arguments => do
    let calleeText ← exprText indent level callee
    let argumentsText ← argumentTexts indent level arguments
    return wrapped callee 13 calleeText ++ points "(" ++ joined ", " argumentsText ++ points ")"
  | .elementAccess target index => do
    let targetText ← exprText indent level target
    let indexText ← exprText indent level index
    return wrapped target 13 targetText ++ points "[" ++ indexText ++ points "]"
  | .objectCreation created arguments => do
    let argumentsText ← argumentTexts indent level arguments
    return points "new " ++ createdText created ++ points "(" ++ joined ", " argumentsText ++ points ")"
  | .arrayCreation elementType elements => do
    let texts ← exprTexts indent level elements
    let items := if texts.isEmpty then [] else joined ", " texts ++ points " "
    return points "new " ++ points elementType ++ points "[] \x7b " ++ items ++ points "\x7d"
  | .lambda parameters body => do
    return lambdaParameters parameters ++ points " =>" ++ (← lambdaText indent level body)
  | .foreign category => throw (.expression category)

def exprTexts (indent : Points) (level : Nat) : List Expr → Except Misplaced (List Points)
  | [] => return []
  | e :: es => do
    let text ← exprText indent level e
    return text :: (← exprTexts indent level es)

def contentsText (indent : Points) (level : Nat) : List Content → Except Misplaced Points
  | [] => return []
  | c :: cs => do
    let text ← contentText indent level c
    return text ++ (← contentsText indent level cs)

def contentText (indent : Points) (level : Nat) : Content → Except Misplaced Points
  | .text value => return doubleBraces (escapeString value)
  | .hole value => do
    let inner ← exprText indent level value
    let text := parenthesized (value.isFormatted || inner.contains (.scalar ':')) inner
    return points "\x7b" ++ text ++ points "\x7d"

def argumentTexts (indent : Points) (level : Nat) : List Argument → Except Misplaced (List Points)
  | [] => return []
  | a :: rest => do
    let text ← argumentText indent level a
    return text :: (← argumentTexts indent level rest)

def argumentText (indent : Points) (level : Nat) : Argument → Except Misplaced Points
  | .mk value name => do
    let text ← exprText indent level value
    return match given? name with
      | some n => identifierText n ++ points ": " ++ text
      | none => text

def lambdaText (indent : Points) (level : Nat) : LambdaBody → Except Misplaced Points
  | .expression value => do return points " " ++ (← exprText indent level value)
  | .block statements => do
    let lines ← stmtsLines indent (level + 1) statements
    return points "\n" ++ joined "\n" (braced indent level lines)

def declarationText (indent : Points) (level : Nat) : Declaration → Except Misplaced Points
  | .mk typeName name none => return points typeName ++ points " " ++ identifierText name
  | .mk typeName name (some value) => do
    return points typeName ++ points " " ++ identifierText name ++ points " = " ++
      (← exprText indent level value)

def optionText (indent : Points) (level : Nat) : Option Expr → Except Misplaced Points
  | none => return []
  | some e => exprText indent level e

def declaredText (indent : Points) (level : Nat) : Option Declaration → Except Misplaced Points
  | none => return []
  | some d => declarationText indent level d

def stmtLines (indent : Points) (level : Nat) : Stmt → Except Misplaced (List Points)
  | .block statements => do return braced indent level (← stmtsLines indent (level + 1) statements)
  | .declaration d => do
    return [indentation indent level ++ (← declarationText indent level d) ++ points ";"]
  | .expression value => do
    return [indentation indent level ++ (← exprText indent level value) ++ points ";"]
  | .ifElse condition consequence alternative => do
    let conditionText ← exprText indent level condition
    let body ← stmtLines indent (consequence.levelUnder level) consequence
    let rest ← elseLines indent level alternative
    return (indentation indent level ++ points "if (" ++ conditionText ++ points ")") ::
      (body ++ rest)
  | .whileLoop condition body => do
    let conditionText ← exprText indent level condition
    let lines ← stmtLines indent (body.levelUnder level) body
    return (indentation indent level ++ points "while (" ++ conditionText ++ points ")") :: lines
  | .forLoop declared initializers condition updates body => do
    let declaredPart ← declaredText indent level declared
    let starts ← if declared.isSome then pure [] else exprTexts indent level initializers
    let conditionText ← optionText indent level condition
    let updateTexts ← exprTexts indent level updates
    let lines ← stmtLines indent (body.levelUnder level) body
    return (indentation indent level ++ points "for (" ++ declaredPart ++ joined ", " starts ++
      points "; " ++ conditionText ++ points "; " ++ joined ", " updateTexts ++ points ")") :: lines
  | .forEach typeName identifier source body => do
    let sourceText ← exprText indent level source
    let lines ← stmtLines indent (body.levelUnder level) body
    return (indentation indent level ++ points "foreach (" ++ points typeName ++ points " " ++
      identifierText identifier ++ points " in " ++ sourceText ++ points ")") :: lines
  | .switch subject sections => do
    let subjectText ← exprText indent level subject
    let lines ← sectionsLines indent (level + 1) sections
    return (indentation indent level ++ points "switch (" ++ subjectText ++ points ")") ::
      braced indent level lines
  | .tryCatch block catches finallyBlock => do
    let blockText ← stmtsLines indent (level + 1) block
    let catchText ← catchesLines indent level catches
    let finallyText ← finallyLines indent level finallyBlock
    return (indentation indent level ++ points "try") ::
      (braced indent level blockText ++ catchText ++ finallyText)
  | .returnValue none => return [indentation indent level ++ points "return;"]
  | .returnValue (some value) => do
    return [indentation indent level ++ points "return " ++ (← exprText indent level value) ++
      points ";"]
  | .breakOut => return [indentation indent level ++ points "break;"]
  | .continueOn => return [indentation indent level ++ points "continue;"]
  | .throwValue value => do
    return [indentation indent level ++ points "throw " ++ (← exprText indent level value) ++
      points ";"]
  | .foreign category => throw (.statement category)

def stmtsLines (indent : Points) (level : Nat) : List Stmt → Except Misplaced (List Points)
  | [] => return []
  | s :: rest => do
    let lines ← stmtLines indent level s
    return lines ++ (← stmtsLines indent level rest)

/-- The lines of an alternative; an `if` there goes on the line of its `else`. -/
def elseLines (indent : Points) (level : Nat) : Option Stmt → Except Misplaced (List Points)
  | none => return []
  | some (.ifElse condition consequence alternative) => do
    let conditionText ← exprText indent level condition
    let body ← stmtLines indent (consequence.levelUnder level) consequence
    let rest ← elseLines indent level alternative
    return (indentation indent level ++ points "else if (" ++ conditionText ++ points ")") ::
      (body ++ rest)
  | some s => do
    let body ← stmtLines indent (s.levelUnder level) s
    return (indentation indent level ++ points "else") :: body

/-- The lines of switch sections; labels stand at the given level, statements one deeper. -/
def sectionsLines (indent : Points) (level : Nat) :
    List SwitchSection → Except Misplaced (List Points)
  | [] => return []
  | .mk labels statements :: rest => do
    let labelText ← labelsLines indent level labels
    let body ← stmtsLines indent (level + 1) statements
    return labelText ++ body ++ (← sectionsLines indent level rest)

def labelsLines (indent : Points) (level : Nat) : List SwitchLabel → Except Misplaced (List Points)
  | [] => return []
  | .case value :: rest => do
    let text ← exprText indent level value
    return (indentation indent level ++ points "case " ++ text ++ points ":") ::
      (← labelsLines indent level rest)
  | .fallback :: rest => do
    return (indentation indent level ++ points "default:") :: (← labelsLines indent level rest)

def catchesLines (indent : Points) (level : Nat) : List CatchClause → Except Misplaced (List Points)
  | [] => return []
  | .mk typeName identifier block :: rest => do
    let head := match given? identifier with
      | some name => points typeName ++ points " " ++ identifierText name
      | none => points typeName
    let body ← stmtsLines indent (level + 1) block
    return (indentation indent level ++ points "catch (" ++ head ++ points ")") ::
      (braced indent level body ++ (← catchesLines indent level rest))

def finallyLines (indent : Points) (level : Nat) :
    Option (List Stmt) → Except Misplaced (List Points)
  | none => return []
  | some block => do
    return (indentation indent level ++ points "finally") ::
      braced indent level (← stmtsLines indent (level + 1) block)

end

/-! ### Programs -/

def Using.text (u : Using) : Points :=
  match given? u.alias with
  | some name => points "using " ++ points name ++ points " = " ++ points u.name ++ points ";"
  | none => points "using " ++ points u.name ++ points ";"

def Method.lines (indent : Points) (m : Method) : Except Misplaced (List Points) := do
  let parameters := m.parameters.map fun p =>
    points p.typeName ++ points " " ++ identifierText p.name
  let head := joined " " (m.modifiers.map points ++ [points m.returnType, identifierText m.name])
  return (head ++ points "(" ++ joined ", " parameters ++ points ")") ::
    braced indent 0 (← stmtsLines indent 1 m.body)

def Member.lines (indent : Points) : Member → Except Misplaced (List Points)
  | method m => m.lines indent
  | statement s => stmtLines indent 0 s
  | foreign category => throw (.member category)

def Member.isMethod : Member → Bool
  | method _ => true
  | _ => false

/-- The lines of members after some lines. A blank line goes before the first member, and around
methods; `apart` says that one goes before the next member in any case. -/
def membersLines (indent : Points) (apart : Bool) (lines : List Points) :
    List Member → Except Misplaced (List Points)
  | [] => return lines
  | m :: rest => do
    let blank := if !lines.isEmpty && (apart || m.isMethod) then [[]] else []
    let more ← m.lines indent
    membersLines indent m.isMethod (lines ++ blank ++ more) rest

def render (indent : Points) (u : CompilationUnit) : Except Misplaced Points := do
  let lines ← membersLines indent true (u.usings.map Using.text) u.members
  return if lines.isEmpty then [] else joined "\n" lines ++ points "\n"

def fourSpaces : Points := points "    "

end GroovySharp.CSharp
