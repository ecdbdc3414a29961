import GroovySharp.CSharp.Render

/-!
# The atoms of C# programs

The names and literals of a model in the order of its fields.
-/

namespace GroovySharp.CSharp

open Unicode

inductive Atom
  | name (s : String)
  | literal (value : Literal)
  | foreign (category : String)
  deriving Repr, DecidableEq

mutual

def Expr.atoms : Expr → List Atom
  | .identifier name => [.name name]
  | .literal value => [.literal value]
  | .interpolated contents => contentsAtoms contents
  | .binary _ left right => left.atoms ++ right.atoms
  | .prefixed _ operand => operand.atoms
  | .postfixed _ operand => operand.atoms
  | .assignment _ target value => target.atoms ++ value.atoms
  | .conditional condition whenTrue whenFalse => condition.atoms ++ (whenTrue.atoms ++ whenFalse.atoms)
  | .memberAccess target _ _ => target.atoms
  | .invocation callee arguments => callee.atoms ++ argumentsAtoms arguments
  | .elementAccess target index => target.atoms ++ index.atoms
  | .objectCreation created arguments => created.atoms ++ argumentsAtoms arguments
  | .arrayCreation _ elements => exprsAtoms elements
  | .lambda _ body => body.atoms
  | .foreign category => [.foreign category]

def exprsAtoms : List Expr → List Atom
  | [] => []
  | e :: es => e.atoms ++ exprsAtoms es

def Created.atoms : Created → List Atom
  | .type _ => []
  | .arguments xs => argumentsAtoms xs
  | .expression e => e.atoms
  | .statement s => s.atoms

def Content.atoms : Content → List Atom
  | .text _ => []
  | .hole value => value.atoms

def contentsAtoms : List Content → List Atom
  | [] => []
  | c :: cs => c.atoms ++ contentsAtoms cs

def Argument.atoms : Argument → List Atom
  | .mk value _ => value.atoms

def argumentsAtoms : List Argument → List Atom
  | [] => []
  | a :: rest => a.atoms ++ argumentsAtoms rest

def LambdaBody.atoms : LambdaBody → List Atom
  | .expression value => value.atoms
  | .block statements => stmtsAtoms statements

def optionAtoms : Option Expr → List Atom
  | none => []
  | some e => e.atoms

def Declaration.atoms : Declaration → List Atom
  | .mk _ _ initializer => optionAtoms initializer

def declaredAtoms : Option Declaration → List Atom
  | none => []
  | some d => d.atoms

def Stmt.atoms : Stmt → List Atom
  | .block statements => stmtsAtoms statements
  | .declaration d => d.atoms
  | .expression value => value.atoms
  | .ifElse condition consequence alternative => condition.atoms ++ (consequence.atoms ++ alternativeAtoms alternative)
  | .whileLoop condition body => condition.atoms ++ body.atoms
  | .forLoop declared initializers condition updates body =>
    declaredAtoms declared ++ (exprsAtoms initializers ++
      (optionAtoms condition ++ (exprsAtoms updates ++ body.atoms)))
  | .forEach _ _ source body => source.atoms ++ body.atoms
  | .switch subject sections => subject.atoms ++ sectionsAtoms sections
  | .breakOut => []
  | .continueOn => []
  | .returnValue value => optionAtoms value
  | .throwValue value => value.atoms
  | .tryCatch block catches finallyBlock => stmtsAtoms block ++ (catchesAtoms catches ++ finallyAtoms finallyBlock)
  | .foreign category => [.foreign category]

def stmtsAtoms : List Stmt → List Atom
  | [] => []
  | s :: rest => s.atoms ++ stmtsAtoms rest

def alternativeAtoms : Option Stmt → List Atom
  | none => []
  | some s => s.atoms

def SwitchLabel.atoms : SwitchLabel → List Atom
  | .case value => value.atoms
  | .fallback => []

def labelsAtoms : List SwitchLabel → List Atom
  | [] => []
  | l :: rest => l.atoms ++ labelsAtoms rest

def SwitchSection.atoms : SwitchSection → List Atom
  | .mk labels statements => labelsAtoms labels ++ stmtsAtoms statements

def sectionsAtoms : List SwitchSection → List Atom
  | [] => []
  | s :: rest => s.atoms ++ sectionsAtoms rest

def CatchClause.atoms : CatchClause → List Atom
  | .mk _ _ block => stmtsAtoms block

def catchesAtoms : List CatchClause → List Atom
  | [] => []
  | c :: rest => c.atoms ++ catchesAtoms rest

def finallyAtoms : Option (List Stmt) → List Atom
  | none => []
  | some block => stmtsAtoms block

end

def Member.atoms : Member → List Atom
  | method m => stmtsAtoms m.body
  | statement s => s.atoms
  | foreign category => [.foreign category]

def CompilationUnit.atoms (u : CompilationUnit) : List Atom := u.members.flatMap Member.atoms

/-! ### Models without foreign nodes -/

def Native (as : List Atom) : Prop := ∀ category, .foreign category ∉ as

@[simp] theorem native_append {as bs : List Atom} : Native (as ++ bs) ↔ Native as ∧ Native bs := by
  simp only [Native, List.mem_append, not_or, forall_and]

@[simp] theorem not_native_foreign {category : String} : ¬ Native [.foreign category] :=
  fun h => h category List.mem_cons_self

end GroovySharp.CSharp
