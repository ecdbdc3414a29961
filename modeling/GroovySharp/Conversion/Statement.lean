import GroovySharp.Conversion.Build
import GroovySharp.Conversion.Types

/-!
# Statements in C#

For each statement of the source language, the C# that its converted parts are put together to.
-/

namespace GroovySharp.Conversion

open CSharp Grammar Text

variable (site : Site) (children : List Child)

/-! ### Variables -/

def declaredType? : Option String :=
  (firstLeaf? [.commandName] children).map fun l => typeName (String.ofList l.text)

def declaration : Build Declaration := do
  let name ← nameText site children [.name]
  match firstLeaf? [.assign] children, partsOf children with
  | some op, value :: _ =>
    if op.text ≠ ['='] then .fail (.unsupported site (.declarationOperator op.text))
    else
      let initializer ← value.expr
      let declared := (declaredType? children).getD "var"
      if declared = "var" then
        .usesSystem (isLambda initializer)
        return .mk (inferredType initializer) name (some initializer)
      else return .mk declared name (some initializer)
  | _, _ => .fail (.missing site site.kind .initializer)

/-! ### Statements -/

def ifStatement : Build Stmt := do
  let condition ← (← nthPart site children 0 .condition).expr
  let consequence ← (← nthPart site children 1 .body).body
  match (partsOf children)[2]? with
  | some p => return .ifElse condition consequence (some (← p.body))
  | none => return .ifElse condition consequence none

def whileStatement : Build Stmt := do
  let condition ← (← nthPart site children 0 .condition).expr
  return .whileLoop condition (← (← nthPart site children 1 .body).body)

def isForClause (p : Part) : Bool :=
  p.site.kind == .forInit || p.site.kind == .forCondition || p.site.kind == .forUpdate

/-- What a counting loop starts with: a declaration, or expressions. -/
def forStart : Option Part → Build (Option Declaration × List Expr)
  | none => return (none, [])
  | some p => do
    match ← p.result with
    | .statement (.declaration d) => return (some d, [])
    | .expression e => return (none, [e])
    | other => p.misplaced .part other

def classicFor : Build Stmt := do
  let body ← required site .body ((partsOf children).filter fun p => !isForClause p).getLast?
  let (declared, initializers) ← forStart (firstPart? .forInit children)
  let condition ← match firstPart? .forCondition children with
    | some p => some <$> p.expr
    | none => pure none
  let updates ← match firstPart? .forUpdate children with
    | some p => p.updates
    | none => pure []
  return .forLoop declared initializers condition updates (← body.body)

def forInit : Build Product := do
  if hasLeaf .name children then return .statement (.declaration (← declaration site children))
  else return .expression (← (← nthPart site children 0 .initializer).expr)

/-- The condition of a counting loop. Its operator becomes `<` unless it is to be kept. -/
def forCondition (options : Options) (site : Site) (children : List Child) : Build Expr := do
  match ← (← nthPart site children 0 .condition).expr with
  | .binary op left right =>
    if op = .less ∨ options.preserveForCondition then return .binary op left right
    else
      .warn ⟨op, site.span.start.line⟩
      return .binary .less left right
  | condition => return condition

def forEachStatement : Build Stmt := do
  let identifier ← nameText site children [.name]
  let source ← (← nthPart site children 0 .iterable).expr
  return .forEach "var" identifier source (← (← nthPart site children 1 .body).body)

/-- The sections of a switch, and the labels left over at its end. Cases without statements share the
section of the next case. -/
def switchSections (labels : List SwitchLabel) :
    List (Expr × List Stmt) → List SwitchSection × List SwitchLabel
  | [] => ([], labels)
  | (value, statements) :: rest =>
    let labels := labels ++ [.case value]
    if statements.isEmpty then switchSections labels rest
    else
      let (sections, left) := switchSections [] rest
      (.mk labels (terminated statements) :: sections, left)

def afterDefault? : List Child → Option (List Child)
  | [] => none
  | .leaf l :: rest => if l.kind = .terminal .defaultWord then some rest else afterDefault? rest
  | .part _ :: rest => afterDefault? rest

def switchStatement : Build Stmt := do
  let subject ← (← nthPart site children 0 .subject).expr
  let cases ← eachPart Part.switchCase
    ((partsOf children).filter fun p => p.site.kind == .switchCase)
  let (sections, labels) := switchSections [] cases
  match afterDefault? children with
  | some rest =>
    let statements ← stmtsOf (partsOf rest)
    return .switch subject (sections ++ [.mk (labels ++ [.fallback]) (terminated statements)])
  | none =>
    if labels.isEmpty then return .switch subject sections
    else return .switch subject (sections ++ [.mk labels [.breakOut]])

def switchCase : Build Product := do
  let value ← (← nthPart site children 0 .caseValue).expr
  return .switchCase value (← stmtsOf ((partsOf children).drop 1))

def tryStatement : Build Stmt := do
  let block ← required site .block (firstPart? .block children)
  let catches ← eachPart Part.handler
    ((partsOf children).filter fun p => p.site.kind == .catchClause)
  let finallyBlock ← match firstPart? .finallyClause children with
    | some p => some <$> p.blockStmts
    | none => pure none
  if catches.isEmpty && finallyBlock.isNone then .fail (.missing site site.kind .handler)
  else return .tryCatch (← block.blockStmts) catches finallyBlock

def catchClause : Build CatchClause := do
  let caught := (declaredType? children).getD "Exception"
  .usesSystem (caught == "Exception")
  let name ← nameText site children [.name]
  return .mk caught (some name) (← (← nthPart site children 0 .block).blockStmts)

def returnStatement : Build Stmt := do
  match partsOf children with
  | p :: _ => return .returnValue (some (← p.expr))
  | [] => return .returnValue none

end GroovySharp.Conversion
