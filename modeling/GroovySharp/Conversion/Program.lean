import GroovySharp.Conversion.Expression
import GroovySharp.Conversion.Statement

/-!
# Programs in C#

The conversion of whole trees: declarations, imports, and the choice of what each construct becomes.
-/

namespace GroovySharp.Conversion

open CSharp Grammar Text

/-! ### Declarations -/

def lastSegment (name : String) : String :=
  String.ofList ((name.toList.reverse.takeWhile (· != '.')).reverse)

def dottedName (leaves : List Leaf) : String :=
  ".".intercalate (leaves.map fun l => String.ofList l.text)

/-- An import: of a namespace with a wildcard, else of a type under its last name. -/
def importDirective (site : Site) (children : List Child) : Build Using := do
  let part ← nthPart site children 0 .qualifiedName
  match ← part.result with
  | .name name =>
    return if hasLeaf .wildcard children then { name } else { name, «alias» := some (lastSegment name) }
  | other => .fail (.nameless other.category)

/-- A method. Without `void`, its type is dynamic if its body returns a value. -/
def methodDeclaration (site : Site) (children : List Child) : Build Method := do
  let name ← nameText site children [.callName]
  let parameters ← match firstPart? .parameters children with
    | some p => p.parameters
    | none => pure []
  let body ← required site .body (firstPart? .block children)
  let returnType :=
    if !hasLeaf .voidWord children && anyReturnsValue body.children then "dynamic" else "void"
  return { returnType, name, parameters, body := ← body.blockStmts }

def parameter (site : Site) (children : List Child) : Build Parameter := do
  let typeName := (declaredType? children).getD "dynamic"
  return { typeName, name := ← nameText site children [.name] }

/-! ### Programs -/

def programParts : List Part → Build (List Using × List Member)
  | [] => return ([], [])
  | p :: ps => do
    match ← p.result with
    | .nothing => programParts ps
    | .importing u =>
      let (usings, members) ← programParts ps
      return (u :: usings, members)
    | .method m =>
      let (usings, members) ← programParts ps
      return (usings, .method m :: members)
    | .statement s =>
      let (usings, members) ← programParts ps
      return (usings, .statement s :: members)
    | other => p.misplaced .topLevel other

def isSystemUsing (u : Using) : Bool := u.name == "System" && u.alias.isNone

def withSystem (options : Options) (needed : Bool) (usings : List Using) : List Using :=
  if needed && options.implicitSystemUsing && !usings.any isSystemUsing then
    { name := "System" } :: usings
  else usings

def compilationUnit (options : Options) (children : List Child) : Build CompilationUnit :=
  match programParts (partsOf children) with
  | .error f => .error f
  | .ok ((usings, members), notes) =>
    .ok ({ usings := withSystem options notes.needsSystem usings, members }, notes)

/-! ### All constructs -/

def assemble (options : Options) (site : Site) (children : List Child) : Build Product :=
  match site.kind with
  | .compilationUnit => .program <$> compilationUnit options children
  | .importDirective => .importing <$> importDirective site children
  | .qualifiedName => return .name (dottedName (leavesOf children))
  | .methodDeclaration => .method <$> methodDeclaration site children
  | .parameters => .parameters <$> eachPart Part.parameter (partsOf children)
  | .parameter => .parameter <$> parameter site children
  | .localDeclaration => (fun d => .statement (.declaration d)) <$> declaration site children
  | .expressionStatement => do
    return .statement (.expression (← (← nthPart site children 0 .expression).expr))
  | .commandCall => .expression <$> commandCall site children
  | .block => (fun ss => .statement (.block ss)) <$> stmtsOf (partsOf children)
  | .ifStatement => .statement <$> ifStatement site children
  | .whileStatement => .statement <$> whileStatement site children
  | .classicFor => .statement <$> classicFor site children
  | .forInit => forInit site children
  | .forCondition => .expression <$> forCondition options site children
  | .forUpdate => .updates <$> exprsOf (partsOf children)
  | .forIn | .forEach => .statement <$> forEachStatement site children
  | .switchStatement => .statement <$> switchStatement site children
  | .switchCase => switchCase site children
  | .tryStatement => .statement <$> tryStatement site children
  | .catchClause => .handler <$> catchClause site children
  | .finallyClause => do
    return .statement (.block (← (← nthPart site children 0 .block).blockStmts))
  | .returnStatement => .statement <$> returnStatement children
  | .breakStatement => return .statement .breakOut
  | .continueStatement => return .statement .continueOn
  | .throwStatement => do
    return .statement (.throwValue (← (← nthPart site children 0 .expression).expr))
  | .emptyStatement => return .nothing
  | .assignmentExpression => .expression <$> assignmentExpression site children
  | .ternaryExpression => .expression <$> ternaryExpression site children
  | .binaryExpression => .expression <$> binaryExpression site children
  | .unaryExpression => .expression <$> unaryExpression site children
  | .postfixExpression => .expression <$> postfixExpression site children
  | .memberAccess => .expression <$> memberOf site children [.name]
  | .methodCall => .expression <$> methodCall site children
  | .indexExpression => .expression <$> indexExpression site children
  | .callExpression => .expression <$> callExpression site children
  | .objectCreation => .expression <$> objectCreation site children
  | .creationType => return .name (typeName (dottedName (leavesOf children)))
  | .arguments => .arguments <$> eachPart listedArgument (partsOf children)
  | .namedArgument => .argument <$> namedArgument site children
  | .closure => .expression <$> closure children
  | .closureParameters => return .names ((leavesOf children).map fun l => String.ofList l.text)
  | .identifier => do return .expression (.identifier (← nameText site children [.name]))
  | .integerLiteral => .expression <$> integerLiteral site children
  | .decimalLiteral => .expression <$> decimalLiteral site children
  | .stringLiteral => .expression <$> stringLiteral site children
  | .gstring => .expression <$> gstring site children
  | .booleanLiteral => .expression <$> booleanLiteral site children
  | .nullLiteral => return .expression (.literal .null)
  | .listLiteral => (fun es => .expression (.arrayCreation "object" es)) <$> exprsOf (partsOf children)
  | .mapLiteral | .mapEntry => .fail (.unsupported site (.construct site.kind))

/-! ### Trees -/

mutual

def product (options : Options) : Tree → Build Product
  | .leaf _ => return .nothing
  | .node kind children span text => assemble options ⟨kind, span, text⟩ (prepared options children)

def prepared (options : Options) : List Tree → List Child
  | [] => []
  | .leaf l :: rest => .leaf l :: prepared options rest
  | .node kind children span text :: rest =>
    .part ⟨⟨kind, span, text⟩, children, product options (.node kind children span text)⟩ ::
      prepared options rest

end

def convert (options : Options) : Tree → Except Fault (CompilationUnit × List Warning)
  | .leaf l => .error (.mismatch ⟨.compilationUnit, l.span, l.text⟩ .program l.kind.label)
  | .node kind children span text =>
    if kind = .compilationUnit then
      match compilationUnit options (prepared options children) with
      | .error f => .error f
      | .ok (u, notes) => .ok (u, notes.warnings)
    else .error (.mismatch ⟨kind, span, text⟩ .program kind.label)

end GroovySharp.Conversion
