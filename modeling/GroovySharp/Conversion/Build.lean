import GroovySharp.Conversion.Fault
import GroovySharp.CSharp.Model

/-!
# Building C# from parts

What the conversion of one construct gives: a product, or a fault, together with notes about the
program as a whole.
-/

namespace GroovySharp.Conversion

open CSharp

structure Options where
  preserveForCondition : Bool := false
  /-- Programs that need the `System` namespace import it. -/
  implicitSystemUsing : Bool := true
  deriving Repr, DecidableEq

/-- The condition of a counting loop got the operator `<` in place of another one. -/
structure Warning where
  operator : BinaryOp
  /-- The line of the condition, zero if not known. -/
  line : Nat
  deriving Repr, DecidableEq

def Warning.message (w : Warning) : String :=
  "for-loop condition operator '" ++ w.operator.text ++ "' rewritten to '<' (line " ++
    (if w.line = 0 then "?" else toString w.line) ++ ")"

structure Notes where
  /-- The program uses a name of the `System` namespace. -/
  needsSystem : Bool := false
  warnings : List Warning := []
  deriving Repr, DecidableEq

def Notes.append (a b : Notes) : Notes :=
  ⟨a.needsSystem || b.needsSystem, a.warnings ++ b.warnings⟩

def Build (α : Type) := Except Fault (α × Notes)

namespace Build

def pure {α : Type} (a : α) : Build α := .ok (a, {})

/-- One step after the other; the notes of both are kept. -/
def bind {α β : Type} (x : Build α) (f : α → Build β) : Build β :=
  match x with
  | .error e => .error e
  | .ok (a, n) =>
    match f a with
    | .error e => .error e
    | .ok (b, m) => .ok (b, n.append m)

instance : Monad Build where
  pure := Build.pure
  bind := Build.bind

def fail {α : Type} (f : Fault) : Build α := .error f

def usesSystem (b : Bool) : Build Unit := .ok ((), ⟨b, []⟩)

def warn (w : Warning) : Build Unit := .ok ((), ⟨false, [w]⟩)

end Build

/-! ### Products -/

inductive Product
  | expression (e : Expr)
  | statement (s : Stmt)
  | nothing
  | importing (u : Using)
  | method (m : Method)
  | name (s : String)
  | parameter (p : Parameter)
  | parameters (ps : List Parameter)
  | names (ns : List String)
  | updates (es : List Expr)
  | switchCase (value : Expr) (statements : List Stmt)
  | handler (c : CatchClause)
  | argument (a : Argument)
  | arguments (xs : List Argument)
  | program (u : CompilationUnit)

def Product.category : Product → String
  | expression e => e.category
  | statement s => s.category
  | nothing => "NoneType"
  | importing _ => "UsingDirective"
  | method _ => "MethodDeclaration"
  | name _ => "str"
  | parameter _ => "Parameter"
  | parameters _ | names _ | updates _ | switchCase .. => "tuple"
  | handler _ => "CatchClause"
  | argument _ => "Argument"
  | arguments _ => "ArgumentList"
  | program _ => "CompilationUnit"

/-! ### Parts -/

structure Part where
  site : Site
  children : List Tree
  result : Build Product

inductive Child
  | leaf (l : Leaf)
  | part (p : Part)

namespace Child

def leaf? : Child → Option Leaf
  | leaf l => some l
  | part _ => none

def part? : Child → Option Part
  | leaf _ => none
  | part p => some p

end Child

def partsOf (children : List Child) : List Part := children.filterMap Child.part?

def leavesOf (children : List Child) : List Leaf := children.filterMap Child.leaf?

def firstPart? (kind : Kind) (children : List Child) : Option Part :=
  (partsOf children).find? fun p => p.site.kind == kind

def firstLeaf? (terminals : List Grammar.Terminal) (children : List Child) : Option Leaf :=
  (leavesOf children).find? fun l => terminals.any fun t => l.kind == .terminal t

def hasLeaf (t : Grammar.Terminal) (children : List Child) : Bool :=
  (firstLeaf? [t] children).isSome

def required {α : Type} (site : Site) (role : Role) : Option α → Build α
  | some a => return a
  | none => .fail (.missing site site.kind role)

def nthPart (site : Site) (children : List Child) (n : Nat) (role : Role) : Build Part :=
  required site role (partsOf children)[n]?

def nameText (site : Site) (children : List Child) (terminals : List Grammar.Terminal) :
    Build String := do
  let l ← required site .name (firstLeaf? terminals children)
  return String.ofList l.text

namespace Part

def misplaced {α : Type} (p : Part) (place : Place) (product : Product) : Build α :=
  .fail (.mismatch p.site place product.category)

/-- What is selected of a part's result; another result is out of place. -/
def take {α : Type} (place : Place) (select : Product → Option α) (p : Part) : Build α := do
  let product ← p.result
  match select product with
  | some a => return a
  | none => p.misplaced place product

def expr : Part → Build Expr := take .expression fun
  | .expression e => some e
  | _ => none

def stmt? : Part → Build (Option Stmt) := take .statement fun
  | .statement s => some (some s)
  | .nothing => some none
  | _ => none

def body (p : Part) : Build Stmt := do
  return (← p.stmt?).getD (.block [])

def blockStmts (p : Part) : Build (List Stmt) := do
  match ← p.stmt? with
  | some (.block statements) => return statements
  | some s => p.misplaced .block (.statement s)
  | none => p.misplaced .block .nothing

def created : Part → Build Created := take .part fun
  | .name s => some (.type s)
  | .arguments xs => some (.arguments xs)
  | .expression e => some (.expression e)
  | .statement s => some (.statement s)
  | _ => none

def parameter : Part → Build Parameter := take .part fun
  | .parameter q => some q
  | _ => none

def parameters : Part → Build (List Parameter) := take .part fun
  | .parameters ps => some ps
  | _ => none

def names : Part → Build (List String) := take .part fun
  | .names ns => some ns
  | _ => none

def updates : Part → Build (List Expr) := take .part fun
  | .updates es => some es
  | _ => none

def switchCase : Part → Build (Expr × List Stmt) := take .part fun
  | .switchCase value statements => some (value, statements)
  | _ => none

def handler : Part → Build CatchClause := take .part fun
  | .handler c => some c
  | _ => none

def argument : Part → Build Argument := take .part fun
  | .argument a => some a
  | _ => none

def arguments : Part → Build (List Argument) := take .part fun
  | .arguments xs => some xs
  | _ => none

end Part

/-- The results of a step for each part, in order. -/
def eachPart {α : Type} (f : Part → Build α) : List Part → Build (List α)
  | [] => return []
  | p :: ps => do
    let a ← f p
    let rest ← eachPart f ps
    return a :: rest

def stmtsOf (ps : List Part) : Build (List Stmt) := do
  return (← eachPart Part.stmt? ps).filterMap id

def exprsOf (ps : List Part) : Build (List Expr) := eachPart Part.expr ps

end GroovySharp.Conversion
