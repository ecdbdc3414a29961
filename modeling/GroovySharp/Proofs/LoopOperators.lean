import GroovySharp.Conversion.Statement

/-!
# The operators of counting loops

A pass over a C# program that puts `<` for the operator at the top of each condition of a counting loop
and collects the operators that it replaces.
-/

namespace GroovySharp.CSharp

open Conversion List

/-! ### The pass -/

/-- What a part of a program is rewritten to, and the operators that were replaced in it. -/
structure Rewritten (α : Type) where
  result : α
  replaced : List BinaryOp

instance : Applicative Rewritten where
  pure a := ⟨a, []⟩
  map f x := ⟨f x.result, x.replaced⟩
  seq f x := ⟨f.result (x ()).result, f.replaced ++ (x ()).replaced⟩

def Rewritten.lessTop (x : Rewritten Expr) : Rewritten Expr :=
  match x.result with
  | .binary op left right =>
    if op = .less then x else ⟨.binary .less left right, x.replaced ++ [op]⟩
  | _ => x

mutual

def Expr.lessened : Expr → Rewritten Expr
  | .identifier name => pure (.identifier name)
  | .literal value => pure (.literal value)
  | .interpolated contents => .interpolated <$> contentsLessened contents
  | .binary op left right => .binary op <$> left.lessened <*> right.lessened
  | .prefixed op operand => .prefixed op <$> operand.lessened
  | .postfixed op operand => .postfixed op <$> operand.lessened
  | .assignment op target value => .assignment op <$> target.lessened <*> value.lessened
  | .conditional condition whenTrue whenFalse =>
    .conditional <$> condition.lessened <*> whenTrue.lessened <*> whenFalse.lessened
  | .memberAccess target name nullable => (.memberAccess · name nullable) <$> target.lessened
  | .invocation callee arguments => .invocation <$> callee.lessened <*> argumentsLessened arguments
  | .elementAccess target index => .elementAccess <$> target.lessened <*> index.lessened
  | .objectCreation created arguments =>
    .objectCreation <$> created.lessened <*> argumentsLessened arguments
  | .arrayCreation elementType elements => .arrayCreation elementType <$> exprsLessened elements
  | .lambda parameters body => .lambda parameters <$> body.lessened
  | .foreign category => pure (.foreign category)

def exprsLessened : List Expr → Rewritten (List Expr)
  | [] => pure []
  | e :: es => .cons <$> e.lessened <*> exprsLessened es

def Created.lessened : Created → Rewritten Created
  | .type name => pure (.type name)
  | .arguments xs => .arguments <$> argumentsLessened xs
  | .expression e => .expression <$> e.lessened
  | .statement s => .statement <$> s.lessened

def Content.lessened : Content → Rewritten Content
  | .text value => pure (.text value)
  | .hole value => .hole <$> value.lessened

def contentsLessened : List Content → Rewritten (List Content)
  | [] => pure []
  | c :: cs => .cons <$> c.lessened <*> contentsLessened cs

def Argument.lessened : Argument → Rewritten Argument
  | .mk value name => (.mk · name) <$> value.lessened

def argumentsLessened : List Argument → Rewritten (List Argument)
  | [] => pure []
  | a :: rest => .cons <$> a.lessened <*> argumentsLessened rest

def LambdaBody.lessened : LambdaBody → Rewritten LambdaBody
  | .expression value => .expression <$> value.lessened
  | .block statements => .block <$> stmtsLessened statements

def optionLessened : Option Expr → Rewritten (Option Expr)
  | none => pure none
  | some e => some <$> e.lessened

def conditionLessened : Option Expr → Rewritten (Option Expr)
  | none => pure none
  | some e => some <$> e.lessened.lessTop

def Declaration.lessened : Declaration → Rewritten Declaration
  | .mk typeName name initializer => .mk typeName name <$> optionLessened initializer

def declaredLessened : Option Declaration → Rewritten (Option Declaration)
  | none => pure none
  | some d => some <$> d.lessened

def Stmt.lessened : Stmt → Rewritten Stmt
  | .block statements => .block <$> stmtsLessened statements
  | .declaration d => .declaration <$> d.lessened
  | .expression value => .expression <$> value.lessened
  | .ifElse condition consequence alternative =>
    .ifElse <$> condition.lessened <*> consequence.lessened <*> alternativeLessened alternative
  | .whileLoop condition body => .whileLoop <$> condition.lessened <*> body.lessened
  | .forLoop declared initializers condition updates body =>
    .forLoop <$> declaredLessened declared <*> exprsLessened initializers <*>
      conditionLessened condition <*> exprsLessened updates <*> body.lessened
  | .forEach typeName identifier source body =>
    .forEach typeName identifier <$> source.lessened <*> body.lessened
  | .switch subject sections => .switch <$> subject.lessened <*> sectionsLessened sections
  | .breakOut => pure .breakOut
  | .continueOn => pure .continueOn
  | .returnValue value => .returnValue <$> optionLessened value
  | .throwValue value => .throwValue <$> value.lessened
  | .tryCatch block catches finallyBlock =>
    -- Handlers are converted before the block.
    (fun catches finallyBlock block => .tryCatch block catches finallyBlock) <$>
      catchesLessened catches <*> finallyLessened finallyBlock <*> stmtsLessened block
  | .foreign category => pure (.foreign category)

def stmtsLessened : List Stmt → Rewritten (List Stmt)
  | [] => pure []
  | s :: rest => .cons <$> s.lessened <*> stmtsLessened rest

def alternativeLessened : Option Stmt → Rewritten (Option Stmt)
  | none => pure none
  | some s => some <$> s.lessened

def SwitchLabel.lessened : SwitchLabel → Rewritten SwitchLabel
  | .case value => .case <$> value.lessened
  | .fallback => pure .fallback

def labelsLessened : List SwitchLabel → Rewritten (List SwitchLabel)
  | [] => pure []
  | l :: rest => .cons <$> l.lessened <*> labelsLessened rest

def SwitchSection.lessened : SwitchSection → Rewritten SwitchSection
  | .mk labels statements => .mk <$> labelsLessened labels <*> stmtsLessened statements

def sectionsLessened : List SwitchSection → Rewritten (List SwitchSection)
  | [] => pure []
  | s :: rest => .cons <$> s.lessened <*> sectionsLessened rest

def CatchClause.lessened : CatchClause → Rewritten CatchClause
  | .mk typeName identifier block => .mk typeName identifier <$> stmtsLessened block

def catchesLessened : List CatchClause → Rewritten (List CatchClause)
  | [] => pure []
  | c :: rest => .cons <$> c.lessened <*> catchesLessened rest

def finallyLessened : Option (List Stmt) → Rewritten (Option (List Stmt))
  | none => pure none
  | some block => some <$> stmtsLessened block

end

def Member.lessened : Member → Rewritten Member
  | .method m => (fun body => .method { m with body }) <$> stmtsLessened m.body
  | .statement s => .statement <$> s.lessened
  | .foreign category => pure (.foreign category)

def Rewritten.each {α : Type} (f : α → Rewritten α) : List α → Rewritten (List α)
  | [] => pure []
  | a :: rest => .cons <$> f a <*> each f rest

/-- The program with `<` at the top of the conditions of its counting loops, and the operators that stood
there before, from left to right. -/
def CompilationUnit.lessened (u : CompilationUnit) : Rewritten CompilationUnit :=
  .mk u.usings <$> Rewritten.each Member.lessened u.members

/-! ### What the pass keeps -/

section

variable {α β : Type} (a : α) (g : α → β) (f : Rewritten (α → β)) (x : Rewritten α)

@[simp] theorem Rewritten.result_pure : (pure a : Rewritten α).result = a := rfl

@[simp] theorem Rewritten.result_map : (g <$> x).result = g x.result := rfl

@[simp] theorem Rewritten.result_seq : (f <*> x).result = f.result x.result := rfl

end

theorem category_lessened (e : Expr) : e.lessened.result.category = e.category := by
  cases e <;> rfl

theorem stmtCategory_lessened (s : Stmt) : s.lessened.result.category = s.category := by
  cases s <;> rfl

theorem isJump_lessened (s : Stmt) : s.lessened.result.isJump = s.isJump := by
  cases s <;> rfl

theorem isConsoleCall_lessened (e : Expr) : isConsoleCall e.lessened.result = isConsoleCall e := by
  cases e <;> try rfl
  next callee arguments =>
    cases callee <;> try rfl
    next target _ _ =>
      cases target <;> try rfl
      next name =>
        by_cases hname : name = "Console"
        · subst hname
          rfl
        · simp [isConsoleCall, Expr.lessened, hname]

theorem any_isJump_lessened (ss : List Stmt) : (stmtsLessened ss).result.any Stmt.isJump = ss.any Stmt.isJump := by
  induction ss with
  | nil => rfl
  | cons s ss ih =>
    rw [any_cons, ← ih, ← isJump_lessened]
    rfl

theorem stmtsLessened_append (a b : List Stmt) :
    stmtsLessened (a ++ b) = (· ++ ·) <$> stmtsLessened a <*> stmtsLessened b := by
  induction a with
  | nil => rfl
  | cons s a ih =>
    rw [cons_append, stmtsLessened, ih, stmtsLessened]
    simp [Functor.map, Seq.seq]

theorem terminated_lessened (ss : List Stmt) : stmtsLessened (terminated ss) = terminated <$> stmtsLessened ss := by
  cases h : ss.any Stmt.isJump with
  | true => simp [terminated, h, any_isJump_lessened, Functor.map]
  | false =>
    simp [terminated, h, any_isJump_lessened, stmtsLessened_append, Functor.map, Seq.seq, stmtsLessened,
      Stmt.lessened, pure]

theorem or_eq_or {a b c d : Bool} (h : a = c) (h' : b = d) : (a || b) = (c || d) := by rw [h, h']

mutual

theorem yieldsValue_lessened : ∀ s : Stmt, yieldsValue s.lessened.result = yieldsValue s
  | .block ss => anyYieldsValue_lessened ss
  | .declaration _ => rfl
  | .expression _ => rfl
  | .ifElse _ s o => or_eq_or (yieldsValue_lessened s) (optionYieldsValue_lessened o)
  | .whileLoop _ s => yieldsValue_lessened s
  | .forLoop _ _ _ _ s => yieldsValue_lessened s
  | .forEach _ _ _ s => yieldsValue_lessened s
  | .switch _ ss => sectionsYieldValue_lessened ss
  | .breakOut => rfl
  | .continueOn => rfl
  | .returnValue none => rfl
  | .returnValue (some _) => rfl
  | .throwValue _ => rfl
  | .tryCatch ss cs o => or_eq_or (or_eq_or (anyYieldsValue_lessened ss) (catchesYieldValue_lessened cs))
      (finallyYieldsValue_lessened o)
  | .foreign _ => rfl

theorem anyYieldsValue_lessened : ∀ ss : List Stmt, anyYieldsValue (stmtsLessened ss).result = anyYieldsValue ss
  | [] => rfl
  | s :: ss => or_eq_or (yieldsValue_lessened s) (anyYieldsValue_lessened ss)

theorem optionYieldsValue_lessened :
    ∀ o : Option Stmt, optionYieldsValue (alternativeLessened o).result = optionYieldsValue o
  | none => rfl
  | some s => yieldsValue_lessened s

theorem sectionsYieldValue_lessened :
    ∀ ss : List SwitchSection, sectionsYieldValue (sectionsLessened ss).result = sectionsYieldValue ss
  | [] => rfl
  | .mk _ ss :: rest => or_eq_or (anyYieldsValue_lessened ss) (sectionsYieldValue_lessened rest)

theorem catchesYieldValue_lessened :
    ∀ cs : List CatchClause, catchesYieldValue (catchesLessened cs).result = catchesYieldValue cs
  | [] => rfl
  | .mk _ _ ss :: rest => or_eq_or (anyYieldsValue_lessened ss) (catchesYieldValue_lessened rest)

theorem finallyYieldsValue_lessened :
    ∀ o : Option (List Stmt), finallyYieldsValue (finallyLessened o).result = finallyYieldsValue o
  | none => rfl
  | some ss => anyYieldsValue_lessened ss

end

theorem inferredType_lessened (e : Expr) : inferredType e.lessened.result = inferredType e := by
  cases e <;> try rfl
  next ps body =>
    have hbody : bodyYieldsValue body.lessened.result = bodyYieldsValue body := by
      cases body with
      | expression e => exact congrArg not (isConsoleCall_lessened e)
      | block ss => exact anyYieldsValue_lessened ss
    simp [Expr.lessened, inferredType, delegateType, hbody]

theorem isLambda_lessened (e : Expr) : isLambda e.lessened.result = isLambda e := by
  cases e <;> rfl

/-! ### Sections of switches -/

def casesLessened : List (Expr × List Stmt) → Rewritten (List (Expr × List Stmt))
  | [] => pure []
  | (value, statements) :: rest =>
    .cons <$> (.mk <$> value.lessened <*> stmtsLessened statements) <*> casesLessened rest

theorem labelsLessened_append (a b : List SwitchLabel) :
    labelsLessened (a ++ b) = (· ++ ·) <$> labelsLessened a <*> labelsLessened b := by
  induction a with
  | nil => rfl
  | cons l a ih =>
    rw [cons_append, labelsLessened, ih, labelsLessened]
    simp [Functor.map, Seq.seq]

theorem sectionsLessened_append (a b : List SwitchSection) :
    sectionsLessened (a ++ b) = (· ++ ·) <$> sectionsLessened a <*> sectionsLessened b := by
  induction a with
  | nil => rfl
  | cons l a ih =>
    rw [cons_append, sectionsLessened, ih, sectionsLessened]
    simp [Functor.map, Seq.seq]

theorem switchSections_lessened (labels : List SwitchLabel) (cases : List (Expr × List Stmt)) :
    (Prod.mk <$> sectionsLessened (switchSections labels cases).1 <*>
        labelsLessened (switchSections labels cases).2 : Rewritten _) =
      switchSections <$> labelsLessened labels <*> casesLessened cases := by
  induction cases generalizing labels with
  | nil => simp [switchSections, casesLessened, sectionsLessened, Functor.map, Seq.seq, pure]
  | cons c cases ih =>
    obtain ⟨value, ss⟩ := c
    have hempty : (stmtsLessened ss).result.isEmpty = ss.isEmpty := by cases ss <;> rfl
    cases h : ss.isEmpty with
    | true =>
      have hlater := ih (labels ++ [.case value])
      simp only [switchSections, h, if_true]
      rw [hlater, isEmpty_iff.mp h]
      simp [labelsLessened_append, casesLessened, labelsLessened, SwitchLabel.lessened,
        stmtsLessened, switchSections, Functor.map, Seq.seq, pure]
    | false =>
      obtain ⟨hresult, hreplaced⟩ := Rewritten.mk.inj (ih [])
      simp only [switchSections, h, Bool.false_eq_true, if_false, sectionsLessened, SwitchSection.lessened,
        labelsLessened_append, terminated_lessened, casesLessened, Functor.map, Seq.seq, hempty,
        Rewritten.mk.injEq]
      refine ⟨?_, ?_⟩
      · change (_, _) = switchSections [] _ at hresult
        rw [← hresult]
        rfl
      · simp [labelsLessened, SwitchLabel.lessened, Functor.map, Seq.seq, pure]
        exact hreplaced

end GroovySharp.CSharp
