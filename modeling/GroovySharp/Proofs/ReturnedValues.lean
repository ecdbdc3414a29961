import GroovySharp.Proofs.SwitchSections

/-!
# Returned values

Whether a body returns a value is asked of its tree for methods and of the converted statements for
closures.
-/

namespace GroovySharp

open CSharp Grammar Text Unicode List

/-! ### Returned values in texts -/

namespace CSharp

open Conversion

def Line.isReturned : Line → Bool
  | plain _ => false
  | returned .. => true

section

variable (indent : Points)

@[simp] theorem any_bracedLines (level : Nat) (lines : List Line) :
    (bracedLines indent level lines).any Line.isReturned = lines.any Line.isReturned := by
  simp [bracedLines, Line.isReturned]

theorem any_labelsPieces (level : Nat) (ls : List SwitchLabel) :
    (labelsPieces indent level ls).any Line.isReturned = false := by
  induction ls with
  | nil => rfl
  | cons l ls ih => cases l <;> simpa [labelsPieces, Line.isReturned] using ih

attribute [local simp] stmtPieces yieldsValue Line.isReturned

mutual

theorem any_stmtPieces (level : Nat) : (s : Stmt) → (stmtPieces indent level s).any Line.isReturned = yieldsValue s
  | .block statements => by rw [stmtPieces, any_bracedLines, yieldsValue, any_stmtsPieces _ statements]
  | .ifElse condition consequence alternative => by
    simp [any_stmtPieces _ consequence, any_elsePieces level alternative]
  | .whileLoop condition body => by simp [any_stmtPieces _ body]
  | .forLoop declared initializers condition updates body => by simp [any_stmtPieces _ body]
  | .forEach typeName identifier source body => by simp [any_stmtPieces _ body]
  | .switch subject sections => by simp [any_sectionsPieces _ sections]
  | .tryCatch block catches finallyBlock => by
    simp [any_stmtsPieces _ block, any_catchesPieces level catches, any_finallyPieces level finallyBlock, Bool.or_assoc]
  | .returnValue none => rfl
  | .returnValue (some value) => rfl
  | .declaration _ => rfl
  | .expression _ => rfl
  | .breakOut => rfl
  | .continueOn => rfl
  | .throwValue _ => rfl
  | .foreign _ => rfl

theorem any_stmtsPieces (level : Nat) :
    (ss : List Stmt) → (stmtsPieces indent level ss).any Line.isReturned = anyYieldsValue ss
  | [] => rfl
  | s :: rest => by rw [stmtsPieces, any_append, anyYieldsValue, any_stmtPieces level s, any_stmtsPieces level rest]

theorem any_elsePieces (level : Nat) :
    (s : Option Stmt) → (elsePieces indent level s).any Line.isReturned = optionYieldsValue s
  | none => rfl
  | some s => by
    have hs := any_stmtPieces (s.levelUnder level) s
    rw [optionYieldsValue]
    cases s with
    | ifElse condition consequence alternative =>
      simp [elsePieces, any_stmtPieces _ consequence, any_elsePieces level alternative]
    | _ => exact hs

theorem any_sectionsPieces (level : Nat) :
    (ss : List SwitchSection) → (sectionsPieces indent level ss).any Line.isReturned = sectionsYieldValue ss
  | [] => rfl
  | .mk labels statements :: rest => by
    rw [sectionsPieces, sectionsYieldValue, any_append, any_append, any_labelsPieces,
      any_stmtsPieces _ statements, any_sectionsPieces level rest, Bool.false_or]

theorem any_catchesPieces (level : Nat) :
    (cs : List CatchClause) → (catchesPieces indent level cs).any Line.isReturned = catchesYieldValue cs
  | [] => rfl
  | .mk typeName identifier block :: rest => by
    simp [catchesPieces, catchesYieldValue, any_stmtsPieces _ block, any_catchesPieces level rest]

theorem any_finallyPieces (level : Nat) : (block : Option (List Stmt)) →
      (finallyPieces indent level block).any Line.isReturned = finallyYieldsValue block
  | none => rfl
  | some block => by simp [finallyPieces, finallyYieldsValue, any_stmtsPieces _ block]

end

end

end CSharp

/-! ### Returned values in trees -/

namespace Conversion

section

variable {options : Options} {t : Tree} {ts : List Tree} {k : Kind} {children : List Tree} {span : Span}
  {text : Chars}

theorem anyReturnsValue_eq_any (ts : List Tree) : anyReturnsValue ts = ts.any returnsValue := by
  induction ts with
  | nil => rfl
  | cons t ts ih => rw [anyReturnsValue, ih, any_cons]

theorem returnsValue_node (hk : k ∉ [.closure, .returnStatement]) :
    returnsValue (.node k children span text) = children.any returnsValue := by
  simp only [mem_cons, not_mem_nil, or_false, not_or] at hk
  simp [returnsValue, hk.1, hk.2, anyReturnsValue_eq_any]

/-- The constructs in which a value can be returned. -/
def returning : List Kind :=
  [.compilationUnit, .methodDeclaration, .block, .ifStatement, .whileStatement, .classicFor, .forIn, .forEach,
    .switchStatement, .switchCase, .tryStatement, .catchClause, .finallyClause, .returnStatement]

theorem returnsValue_of_quiet (hf : Formed t) (hk : ∀ k ∈ t.kind?, k ∉ returning) : returnsValue t = false := by
  induction hf with
  | leaf => rfl
  | @node k children span text pattern hp hfits hc ih =>
    have hquiet := hk k rfl
    by_cases hclosure : k = .closure
    · simp [returnsValue, hclosure]
    · have hreturn : k ≠ .returnStatement := by rintro rfl; exact hquiet (by decide)
      rw [returnsValue_node (by simp [hclosure, hreturn]), any_eq_false]
      intro t ht
      have hinner : ∀ pattern ∈ k.patterns, ∀ k' ∈ pattern.flatMap (·.shape.kinds), k' ∉ returning := by
        cases k <;> first | exact absurd rfl hclosure | exact absurd (by decide) hquiet | decide
      rw [ih t ht fun k' hk' => hinner pattern hp k' (kind_mem_of_fits hfits ht hk')]
      decide

theorem returnsValue_of_admits {ks : List Kind} (hf : Formed t) (hs : (kindsOf ks).admits t = true)
    (hks : ∀ k ∈ ks, k ∉ returning) : returnsValue t = false := by
  refine returnsValue_of_quiet hf fun k hk => ?_
  obtain ⟨k', _, _, _, rfl, hk'⟩ := exists_node_of_admits hs
  cases hk
  exact hks _ hk'

/-! ### Converted statements -/

def Product.yields : Product → Bool
  | statement s => yieldsValue s
  | switchCase _ ss => anyYieldsValue ss
  | handler (.mk _ _ block) => anyYieldsValue block
  | method m => anyYieldsValue m.body
  | _ => false

attribute [local simp] Product.yields yieldsValue

def Yields (options : Options) (t : Tree) : Prop :=
  Ensures (product options t) fun p => p.yields = returnsValue t

def YieldsNode (options : Options) (k : Kind) : Prop :=
  ∀ ⦃children : List Tree⦄ ⦃span : Span⦄ ⦃text : Chars⦄, Fits k.pattern children →
    (∀ t ∈ children, Formed t) → (∀ t ∈ children, Yields options t) →
    Yields options (.node k children span text)

theorem yields_leaf (l : Leaf) : Yields options (.leaf l) := .pure rfl

theorem Yields.result (h : Yields options t) :
    Ensures (partOf options t).result fun p => p.yields = returnsValue t := by
  cases t <;> exact h

theorem Yields.stmt? (h : Yields options t) :
    Ensures (partOf options t).stmt? fun s => optionYieldsValue s = returnsValue t := by
  refine h.result.then fun p hp => ?_
  cases p <;> first | exact .pure hp | exact .fail _

theorem Yields.body (h : Yields options t) :
    Ensures (partOf options t).body fun s => yieldsValue s = returnsValue t := by
  refine h.stmt?.then fun s hs => .pure ?_
  cases s <;> exact hs

theorem Yields.blockStmts (h : Yields options t) :
    Ensures (partOf options t).blockStmts fun ss => anyYieldsValue ss = returnsValue t := by
  refine h.stmt?.then fun s hs => ?_
  rcases s with _ | s
  · exact .fail _
  · cases s <;> first | exact .pure hs | exact .fail _

theorem Yields.switchCase (h : Yields options t) :
    Ensures (partOf options t).switchCase fun c => anyYieldsValue c.2 = returnsValue t := by
  refine h.result.then fun p hp => ?_
  cases p <;> first | exact .pure hp | exact .fail _

theorem Yields.handler (h : Yields options t) :
    Ensures (partOf options t).handler fun c => catchesYieldValue [c] = returnsValue t := by
  refine h.result.then fun p hp => ?_
  cases p with
  | handler c =>
    obtain ⟨typeName, identifier, block⟩ := c
    exact .pure ((Bool.or_false _).trans hp)
  | _ => exact .fail _

theorem stmtsOf_yields (h : ∀ t ∈ ts, Yields options t) :
    Ensures (stmtsOf (ts.map (partOf options))) fun ss => anyYieldsValue ss = ts.any returnsValue := by
  refine (eachPart_ensures fun t ht => (h t ht).stmt?).then fun ss hss => .pure ?_
  clear h
  induction hss with
  | nil => rfl
  | @cons t s ts ss hs _ ih =>
    rw [any_cons, ← hs, ← ih]
    cases s <;> rfl

theorem cases_yield (h : ∀ t ∈ ts, Yields options t) :
    Ensures (eachPart Part.switchCase (ts.map (partOf options))) fun cs =>
      cs.any (fun c => anyYieldsValue c.2) = ts.any returnsValue := by
  intro cs n hcs
  have hall := eachPart_ensures (fun t ht => (h t ht).switchCase) cs n hcs
  clear hcs h
  induction hall with
  | nil => rfl
  | cons hc _ ih => rw [any_cons, any_cons, hc, ih]

theorem handlers_yield (h : ∀ t ∈ ts, Yields options t) :
    Ensures (eachPart Part.handler (ts.map (partOf options))) fun cs =>
      catchesYieldValue cs = ts.any returnsValue := by
  intro cs n hcs
  have hall := eachPart_ensures (fun t ht => (h t ht).handler) cs n hcs
  clear hcs h
  induction hall with
  | nil => rfl
  | @cons t c ts cs hc _ ih =>
    obtain ⟨typeName, identifier, block⟩ := c
    rw [any_cons, ← hc, ← ih]
    simp [catchesYieldValue]

theorem anyYieldsValue_append (a b : List Stmt) : anyYieldsValue (a ++ b) = (anyYieldsValue a || anyYieldsValue b) := by
  induction a with
  | nil => rfl
  | cons s a ih => rw [cons_append, anyYieldsValue, ih, anyYieldsValue, Bool.or_assoc]

theorem anyYieldsValue_terminated (ss : List Stmt) : anyYieldsValue (terminated ss) = anyYieldsValue ss := by
  unfold terminated
  split
  · rfl
  · simp [anyYieldsValue_append, anyYieldsValue]

theorem sectionsYieldValue_append (a b : List SwitchSection) :
    sectionsYieldValue (a ++ b) = (sectionsYieldValue a || sectionsYieldValue b) := by
  induction a with
  | nil => rfl
  | cons s a ih =>
    obtain ⟨labels, statements⟩ := s
    rw [cons_append, sectionsYieldValue, ih, sectionsYieldValue, Bool.or_assoc]

theorem switchSections_yield (labels : List SwitchLabel) (cases : List (Expr × List Stmt)) :
    sectionsYieldValue (switchSections labels cases).1 = cases.any fun c => anyYieldsValue c.2 := by
  induction cases generalizing labels with
  | nil => rfl
  | cons c cases ih =>
    obtain ⟨value, statements⟩ := c
    rw [switchSections, any_cons]
    cases statements with
    | nil => exact ih _
    | cons s ss => simp [sectionsYieldValue, anyYieldsValue_terminated, ih]

/-! ### Constructs -/

theorem yields_of_assemble {α : Type} {g : α → Product} {x : Build α} (hk : k ∉ [.closure, .returnStatement])
    (hx : assemble options ⟨k, span, text⟩ (children.map (childOf options)) = g <$> x)
    (h : Ensures x fun a => (g a).yields = children.any returnsValue) :
    Yields options (.node k children span text) := by
  unfold Yields
  rw [product_node, returnsValue_node hk, hx]
  exact .map h

theorem quiet_of_option {o : Option Tree} {ks : List Kind} (hf : ∀ t ∈ o, Formed t)
    (ho : ∀ t ∈ o, (kindsOf ks).admits t = true) (hk : ∀ k ∈ ks, k ∉ returning) :
    o.toList.any returnsValue = false := by
  cases o with
  | none => rfl
  | some t => simp [returnsValue_of_admits (hf t rfl) (ho t rfl) hk]

theorem block_yields : YieldsNode options .block := by
  rintro children span text hf - hc
  obtain ⟨ts, _, rfl, hts, rfl⟩ := hf
  rw [append_nil] at hc ⊢
  refine yields_of_assemble (g := fun ss => .statement (.block ss)) (x := stmtsOf (partsOf _)) (by decide) rfl ?_
  rw [children_of_admits hts, partsOf_parts]
  exact stmtsOf_yields hc

theorem ifStatement_yields : YieldsNode options .ifStatement := by
  intro children span text hf hq hc
  refine yields_of_assemble (x := ifStatement _ _) (by decide) rfl ?_
  obtain ⟨a, _, rfl, ha, b, _, rfl, hb, rfl | ⟨d, _, rfl, hd, rfl⟩⟩ := hf
  · simp only [forall_mem_cons] at hq hc
    rw [map_cons, map_cons, childOf_of_admits ha, childOf_of_admits hb, map_nil]
    simp only [ifStatement, nthPart_zero, nthPart_succ, partsOf_part, partsOf_nil, getElem?_cons_succ, getElem?_nil]
    refine .bind fun _ => hc.2.1.body.then fun _ h => .pure ?_
    simp [optionYieldsValue, h, returnsValue_of_admits hq.1 ha (by decide)]
  · simp only [forall_mem_cons] at hq hc
    rw [map_cons, map_cons, map_cons, childOf_of_admits ha, childOf_of_admits hb, childOf_of_admits hd, map_nil]
    simp only [ifStatement, nthPart_zero, nthPart_succ, partsOf_part, getElem?_cons_succ, getElem?_cons_zero]
    refine .bind fun _ => hc.2.1.body.then fun _ h => hc.2.2.1.body.then fun _ h' => .pure ?_
    simp [optionYieldsValue, h, h', returnsValue_of_admits hq.1 ha (by decide)]

theorem whileStatement_yields : YieldsNode options .whileStatement := by
  intro children span text hf hq hc
  obtain ⟨a, _, rfl, ha, b, _, rfl, hb, rfl⟩ := hf
  simp only [forall_mem_cons] at hq hc
  refine yields_of_assemble (x := whileStatement _ _) (by decide) rfl ?_
  rw [map_cons, map_cons, childOf_of_admits ha, childOf_of_admits hb, map_nil]
  simp only [whileStatement, nthPart_zero, nthPart_succ]
  refine .bind fun _ => hc.2.1.body.then fun _ h => .pure ?_
  simp [h, returnsValue_of_admits hq.1 ha (by decide)]

theorem classicFor_yields : YieldsNode options .classicFor := by
  intro children span text hf hq hc
  obtain ⟨oi, oc, ou, b, rfl, hi, hcond, hu, hb, heq⟩ :=
    classicFor_of_fits options ⟨.classicFor, span, text⟩ hf
  refine yields_of_assemble (x := classicFor _ _) (by decide) rfl ?_
  rw [heq]
  refine .bind fun _ => .bind fun _ => .bind fun _ => (hc b (by simp)).body.then fun _ h => .pure ?_
  simp only [Product.yields, yieldsValue, h, any_append,
    quiet_of_option (fun t ht => hq t (by simp [Option.mem_def.mp ht])) hi (by decide),
    quiet_of_option (fun t ht => hq t (by simp [Option.mem_def.mp ht])) hcond (by decide),
    quiet_of_option (fun t ht => hq t (by simp [Option.mem_def.mp ht])) hu (by decide)]
  simp

theorem forEachStatement_yields (hk : k = .forIn ∨ k = .forEach) (hf : Fits (Kind.pattern .forIn) children)
    (hq : ∀ t ∈ children, Formed t) (hc : ∀ t ∈ children, Yields options t) :
    Yields options (.node k children span text) := by
  obtain ⟨ls, _, rfl, hls, n, _, rfl, hn, a, _, rfl, ha, b, _, rfl, hb, rfl⟩ := exists_tokens_of_fits hf
  obtain ⟨l, rfl, hl⟩ := exists_token_of_single hn
  refine yields_of_assemble (g := .statement) (x := forEachStatement ⟨k, span, text⟩ _)
    (by rcases hk with rfl | rfl <;> decide) (by rcases hk with rfl | rfl <;> rfl) ?_
  rw [map_append, map_childOf_tokens, map_cons, map_cons, map_cons, map_nil,
    childOf_leaf, childOf_of_admits ha, childOf_of_admits hb, forEachStatement_eq _ _ _ hls hl]
  refine .bind fun _ => (hc b (by simp)).body.then fun _ h => .pure ?_
  simp [h, returnsValue, returnsValue_of_admits (hq a (by simp)) ha (by decide)]

theorem switchStatement_yields : YieldsNode options .switchStatement := by
  intro children span text hf hq hc
  obtain ⟨a, _, rfl, ha, cs, _, rfl, hcs, d, _, rfl, hd, ss, _, rfl, hss, rfl⟩ := hf
  obtain ⟨l, rfl, hl⟩ := exists_token_of_single hd
  rw [append_nil] at hq hc ⊢
  refine yields_of_assemble (x := switchStatement _ _) (by decide) rfl ?_
  rw [map_cons, childOf_of_admits ha, map_append, children_of_admits hcs, map_cons,
    childOf_leaf, children_of_admits hss, switchStatement_eq _ (kind_ne_of_admits options ha (by decide))
      (kinds_of_single options hcs) (kinds_ne_of_admits options hss (by decide)) hl]
  refine .bind fun _ => (cases_yield fun t ht => hc t (by simp [ht])).then fun _ h =>
    (stmtsOf_yields fun t ht => hc t (by simp [ht])).then fun _ h' => .pure ?_
  simp [sectionsYieldValue_append, switchSections_yield, sectionsYieldValue, anyYieldsValue_terminated,
    h, h', returnsValue, returnsValue_of_admits (hq a (by simp)) ha (by decide)]

theorem defaultless_yields (hf : Fits [.one expressionShape, .many (kindsOf [.switchCase])] children)
    (hq : ∀ t ∈ children, Formed t) (hc : ∀ t ∈ children, Yields options t) :
    Yields options (.node .switchStatement children span text) := by
  obtain ⟨a, _, rfl, ha, cs, _, rfl, hcs, rfl⟩ := hf
  rw [append_nil] at hq hc ⊢
  refine yields_of_assemble (x := switchStatement _ _) (by decide) rfl ?_
  rw [map_cons, childOf_of_admits ha, children_of_admits hcs,
    switchStatement_eq_bare _ (kind_ne_of_admits options ha (by decide)) (kinds_of_single options hcs)]
  refine .bind fun _ => (cases_yield fun t ht => hc t (by simp [ht])).then fun _ h => ?_
  have hquiet := returnsValue_of_admits (hq a (by simp)) ha (by decide)
  split
  · refine .pure ?_
    simp [switchSections_yield, h, hquiet]
  · refine .pure ?_
    simp [sectionsYieldValue_append, switchSections_yield, sectionsYieldValue, anyYieldsValue, h, hquiet]

theorem switchCase_yields : YieldsNode options .switchCase := by
  intro children span text hf hq hc
  obtain ⟨a, _, rfl, ha, ts, _, rfl, hts, rfl⟩ := hf
  rw [append_nil] at hq hc ⊢
  unfold Yields
  rw [product_switchCase options ha hts, returnsValue_node (by decide)]
  refine .bind fun _ => (stmtsOf_yields fun t ht => hc t (by simp [ht])).then fun _ h => .pure ?_
  simp [h, returnsValue_of_admits (hq a (by simp)) ha (by decide)]

theorem tryStatement_yields : YieldsNode options .tryStatement := by
  rintro children span text hf - hc
  obtain ⟨b, cs, o, rfl, hb, hcs, ho, heq⟩ := tryStatement_of_fits options ⟨.tryStatement, span, text⟩ hf
  have hfinally : Ensures (optionally (fun f => some <$> f.blockStmts) none (o.map (partOf options)))
      fun block => finallyYieldsValue block = o.toList.any returnsValue := by
    cases o with
    | none => exact .pure rfl
    | some f => exact .map fun ss n h => by simpa [finallyYieldsValue] using (hc f (by simp)).blockStmts ss n h
  refine yields_of_assemble (x := tryStatement _ _) (by decide) rfl ?_
  rw [heq]
  refine (handlers_yield fun t ht => hc t (by simp [ht])).then fun _ h => hfinally.then fun _ h' => ?_
  split
  · exact .fail _
  · refine (hc b mem_cons_self).blockStmts.then fun _ h'' => .pure ?_
    simp [h, h', h'', Bool.or_assoc]

theorem catchClause_yields : YieldsNode options .catchClause := by
  rintro children span text hf - hc
  obtain ⟨ls, _, rfl, hls, n, _, rfl, hn, a, _, rfl, ha, rfl⟩ := exists_tokens_of_fits hf
  obtain ⟨l, rfl, hl⟩ := exists_token_of_single hn
  refine yields_of_assemble (x := catchClause _ _) (by decide) rfl ?_
  rw [map_append, map_childOf_tokens, map_cons, map_cons, map_nil, childOf_leaf, childOf_of_admits ha, catchClause]
  simp only [nthPart, required, partsOf_append, partsOf_tokens, partsOf_leaf, partsOf_part, nil_append,
    getElem?_cons_zero, Build.pure_bind]
  refine .bind fun _ => .bind fun _ => (hc a (by simp)).blockStmts.then fun _ h => .pure ?_
  simp [h, returnsValue]

theorem finallyClause_yields : YieldsNode options .finallyClause := by
  rintro children span text hf - hc
  obtain ⟨a, _, rfl, ha, rfl⟩ := hf
  unfold Yields
  rw [product_node, returnsValue_node (by decide), map_cons, childOf_of_admits ha, map_nil]
  simp only [assemble, nthPart, required, partsOf_part, getElem?_cons_zero, Build.pure_bind]
  refine (hc a mem_cons_self).blockStmts.then fun _ h => .pure ?_
  simp [h]

theorem methodDeclaration_yields : YieldsNode options .methodDeclaration := by
  intro children span text hf hq hc
  obtain ⟨ls, l, o, b, rfl, hls, hl, ho, hb, heq⟩ :=
    methodDeclaration_of_fits options ⟨.methodDeclaration, span, text⟩ hf
  have hquiet := quiet_of_option (fun t ht => hq t (by simp [Option.mem_def.mp ht])) ho (by decide)
  refine yields_of_assemble (x := methodDeclaration _ _) (by decide) rfl ?_
  rw [heq]
  refine .bind fun _ => (hc b (by simp)).blockStmts.then fun _ h => .pure ?_
  simp [h, hquiet, returnsValue]

theorem returnStatement_yields : YieldsNode options .returnStatement := by
  rintro children span text hf hq -
  obtain ⟨o, _, rfl, ho, rfl⟩ := exists_option_of_fits hf
  unfold Yields
  rw [product_node]
  change Ensures (Product.statement <$> returnStatement _) _
  cases o with
  | none => exact .pure rfl
  | some a =>
    rw [Option.toList_some, append_nil, map_cons, childOf_of_admits (ho a rfl), returnStatement]
    refine .map (.bind fun _ => .pure ?_)
    obtain ⟨k, children, span, text, rfl, -⟩ := exists_node_of_admits (ho a rfl)
    simp [returnsValue, isNode]

theorem yields_of_quiet (hf : Formed (.node k children span text)) (hk : k ∉ returning) :
    Yields options (.node k children span text) := by
  have hquiet := returnsValue_of_quiet hf fun _ h => by cases h; exact hk
  unfold Yields
  rw [hquiet]
  by_cases hplain : k ∈ [.localDeclaration, .expressionStatement, .breakStatement, .continueStatement,
    .throwStatement, .mapEntry]
  · rw [product_node]
    simp only [mem_cons, not_mem_nil, or_false] at hplain
    rcases hplain with rfl | rfl | rfl | rfl | rfl | rfl
    · exact .map (x := declaration _ _) fun _ _ _ => rfl
    · exact .bind fun _ => .bind fun _ => .pure rfl
    · exact .pure rfl
    · exact .pure rfl
    · exact .bind fun _ => .bind fun _ => .pure rfl
    · exact .fail _
  · intro p n hp
    obtain ⟨hgives, -⟩ := gives_of_product hf (by rintro rfl; exact hplain (by decide)) hp
    cases k <;> first
      | exact absurd (by decide) hk
      | exact absurd (by decide) hplain
      | exact hgives ▸ rfl
      | (rcases hgives with ⟨_, rfl⟩ | ⟨_, rfl⟩ <;> rfl)
      | (obtain ⟨_, rfl⟩ := hgives; rfl)

/-- Outside programs as a whole, the trees and what they are converted to agree on returned values, by
induction on the tree. -/
theorem yields_of_formed (hf : Formed t) (ht : t.kind? ≠ some .compilationUnit) : Yields options t := by
  induction hf with
  | leaf => exact yields_leaf _
  | @node k children span text pattern hp hfits hq ih =>
    have hinner : ∀ pattern ∈ k.patterns, .compilationUnit ∉ pattern.flatMap (·.shape.kinds) := by
      cases k <;> decide
    have hc : ∀ t ∈ children, Yields options t := fun t ht =>
      ih t ht fun h => hinner pattern hp (kind_mem_of_fits hfits ht h)
    have hone {q : List Item} (hq : k.patterns = [q]) : Fits q children := by
      rw [hq, mem_singleton] at hp
      exact hp ▸ hfits
    by_cases hk : k ∈ returning
    · simp only [returning, mem_cons, not_mem_nil, or_false] at hk
      rcases hk with rfl | rfl | rfl | rfl | rfl | rfl | rfl | rfl | rfl | rfl | rfl | rfl | rfl | rfl
      · exact absurd rfl ht
      · exact methodDeclaration_yields (hone rfl) hq hc
      · exact block_yields (hone rfl) hq hc
      · exact ifStatement_yields (hone rfl) hq hc
      · exact whileStatement_yields (hone rfl) hq hc
      · exact classicFor_yields (hone rfl) hq hc
      · exact forEachStatement_yields (.inl rfl) (hone rfl) hq hc
      · exact forEachStatement_yields (.inr rfl) (hone rfl) hq hc
      · simp only [Kind.patterns, mem_cons, not_mem_nil, or_false] at hp
        rcases hp with rfl | rfl
        · exact switchStatement_yields hfits hq hc
        · exact defaultless_yields hfits hq hc
      · exact switchCase_yields (hone rfl) hq hc
      · exact tryStatement_yields (hone rfl) hq hc
      · exact catchClause_yields (hone rfl) hq hc
      · exact finallyClause_yields (hone rfl) hq hc
      · exact returnStatement_yields (hone rfl) hq hc
    · exact yields_of_quiet (.node hp hfits hq) hk

end

/-! ### Bodies as closures -/

section

variable {options : Options} {front body : List Tree} {names : List String} {span span' : Span}
  {text text' : Chars}

/-- The trees before the body of a closure, and the parameters they give it. -/
inductive ClosureHead : List Tree → List String → Prop
  | implicit : ClosureHead [] ["it"]
  | none {arrow : Leaf} (h : arrow.kind = .terminal .arrow) : ClosureHead [.leaf arrow] []
  | named {ls : List Leaf} {span : Span} {text : Chars} {arrow : Leaf}
    (h : arrow.kind = .terminal .arrow) :
    ClosureHead [.node .closureParameters (ls.map .leaf) span text, .leaf arrow]
      (ls.map fun l => String.ofList l.text)

/-- The declaration of a variable without a type whose value is the closure of a body. -/
def assignedClosure (name op : Leaf) (front body : List Tree) (span span' : Span) (text text' : Chars) :
    Tree :=
  .node .localDeclaration [.leaf name, .leaf op, .node .closure (front ++ body) span text] span' text'

theorem closureBody_eq {ps : List Part} (h : ∀ p, ps = [p] → p.site.kind ≠ .expressionStatement) :
    closureBody ps = LambdaBody.block <$> stmtsOf ps := by
  match ps with
  | [] => rfl
  | _ :: _ :: _ => rfl
  | [p] =>
    have hp := h p rfl
    simp only [closureBody, stmtsOf, eachPart, map_eq_pure_bind, bind_assoc, pure_bind]
    refine bind_congr fun s => ?_
    rcases s with _ | s
    · rfl
    · cases s <;> simp [hp]

theorem closure_product (hhead : ClosureHead front names) (hbody : ∀ t ∈ body, statementShape.admits t = true) :
    product options (.node .closure (front ++ body) span text) =
      (fun b => .expression (.lambda names b)) <$> closureBody (body.map (partOf options)) := by
  have hkinds := kinds_ne_of_admits options (k := .closureParameters) hbody (by decide)
  rw [product_node, map_append, children_of_admits hbody]
  generalize body.map (partOf options) = ps at hkinds ⊢
  cases hhead with
  | implicit =>
    change Product.expression <$> closure (([] : List Leaf).map .leaf ++ _) = _
    rw [closure_eq_unnamed [] hkinds]
    simp [hasLeaf, firstLeaf?]
  | @none arrow h =>
    change Product.expression <$> closure ([arrow].map .leaf ++ _) = _
    rw [closure_eq_unnamed [arrow] hkinds]
    simp [hasLeaf, firstLeaf?, h]
  | @named ls span text arrow h =>
    have hnames : (partOf options (.node .closureParameters (ls.map .leaf) span text)).names =
        pure (ls.map fun l => String.ofList l.text) := by
      change (product options _ >>= _) = _
      rw [product_node, map_childOf_tokens]
      simp [assemble]
    change Product.expression <$> closure (.part _ :: ([arrow].map .leaf ++ _)) = _
    rw [closure_eq_named [arrow] rfl hkinds, hnames]
    simp

theorem isFunc_delegateType (n : Nat) (ss : List Stmt) :
    ("Func<".toList.isPrefixOf (delegateType n (.block ss)).toList) = anyYieldsValue ss := by
  have hbody : bodyYieldsValue (.block ss) = anyYieldsValue ss := rfl
  rw [delegateType, hbody]
  cases anyYieldsValue ss with
  | false =>
    rw [if_neg Bool.false_ne_true]
    split
    · decide
    · simp [String.toList_append, List.isPrefixOf]
  | true => simp [String.toList_append]

theorem assignedClosure_becomes {name op : Leaf} (hname : name.kind = .terminal .name)
    (hop : op.kind = .terminal .assign) (htext : op.text = ['=']) (hhead : ClosureHead front names)
    (hbody : ∀ t ∈ body, statementShape.admits t = true)
    (hsingle : ∀ t, body = [t] → t.kind? ≠ some .expressionStatement) {ss : List Stmt} {n : Notes}
    (hss : stmtsOf (body.map (partOf options)) = .ok (ss, n)) :
    Becomes options (assignedClosure name op front body span span' text text')
      (.statement (.declaration (.mk (delegateType names.length (.block ss)) (String.ofList name.text)
        (some (.lambda names (.block ss)))))) := by
  have hclosure : closureBody (body.map (partOf options)) = .block <$> stmtsOf (body.map (partOf options)) := by
    refine closureBody_eq fun p hp => ?_
    obtain ⟨t, rfl, rfl⟩ := map_eq_singleton_iff.mp hp
    have hkind := (kind_of_admits options (hbody t mem_cons_self)).2
    exact fun h => hsingle t rfl (h ▸ hkind)
  obtain ⟨m, hproduct⟩ : Becomes options (.node .closure (front ++ body) span text)
      (.expression (.lambda names (.block ss))) := by
    unfold Becomes
    rw [closure_product hhead hbody, hclosure, hss]
    exact ⟨_, rfl⟩
  have hexpr : (partOf options (.node .closure (front ++ body) span text)).expr =
      .ok (.lambda names (.block ss), m.append {}) := by
    change (product options _ >>= _) = _
    rw [hproduct]
    rfl
  have hdeclaration (site : Site) (p : Part) : declaration site [.leaf name, .leaf op, .part p] = (do
      let e ← p.expr
      Build.usesSystem (isLambda e)
      return .mk (inferredType e) (String.ofList name.text) (some e)) := by
    simp [declaration, nameText, firstLeaf?, required, declaredType?, hname, hop, htext]
  unfold Becomes assignedClosure
  rw [product_node]
  change ∃ n, (fun d => Product.statement (.declaration d)) <$> declaration _ [.leaf name, .leaf op, .part _] = _
  rw [hdeclaration, hexpr]
  exact ⟨_, rfl⟩

end

/-! ### Both answers -/

theorem block_returns {options : Options} {body : List Tree} {span : Span} {text : Chars} {p : Product}
    (hf : Formed (.node .block body span text)) (h : Becomes options (.node .block body span text) p) :
    ∃ ss n, p = .statement (.block ss) ∧ stmtsOf (body.map (partOf options)) = .ok (ss, n) ∧
      returnsValue (.node .block body span text) = anyYieldsValue ss ∧ ∀ t ∈ body, statementShape.admits t = true := by
  obtain ⟨m, hm⟩ := h
  have hyields := yields_of_formed hf (by simp [Tree.kind?]) p m hm
  cases hf with | node hp hfits hc =>
  simp only [Kind.patterns, mem_singleton] at hp
  subst hp
  obtain ⟨ts, _, rfl, hts, rfl⟩ := hfits
  rw [append_nil] at hm hyields ⊢
  rw [product_node, children_of_admits hts] at hm
  change (fun ss => Product.statement (.block ss)) <$> stmtsOf (partsOf _) = _ at hm
  rw [partsOf_parts] at hm
  obtain ⟨ss, n, _, hss, hpure, -⟩ := Build.bind_eq_ok hm
  cases hpure
  exact ⟨ss, n, rfl, hss, hyields.symm, hts⟩

theorem method_returns {options : Options} {children : List Tree} {span : Span} {text : Chars} {p : Product}
    (hf : Formed (.node .methodDeclaration children span text))
    (h : Becomes options (.node .methodDeclaration children span text) p) (indent : Points) :
    ∃ m, p = .method m ∧ stmtsLines indent 1 m.body = .ok ((stmtsPieces indent 1 m.body).map Line.text) ∧
      (m.returnType = "dynamic" ↔ (∀ l, .leaf l ∈ children → l.kind ≠ .terminal .voidWord) ∧
        ∃ line ∈ stmtsPieces indent 1 m.body, line.isReturned = true) := by
  obtain ⟨n, hn⟩ := h
  obtain ⟨-, hatoms⟩ := gives_of_product hf (by decide) hn
  have hnative := hatoms ▸ native_atoms (.node .methodDeclaration children span text)
  cases hf with | node hp hfits hc =>
  simp only [Kind.patterns, mem_singleton] at hp
  subst hp
  obtain ⟨ls, l, o, b, rfl, hls, hl, ho, hb, heq⟩ :=
    methodDeclaration_of_fits options ⟨.methodDeclaration, span, text⟩ hfits
  obtain ⟨k, body, bspan, btext, rfl, hk⟩ := exists_node_of_admits hb
  cases mem_singleton.mp hk
  rw [product_node] at hn
  change Product.method <$> methodDeclaration _ _ = _ at hn
  rw [heq] at hn
  obtain ⟨m, _, _, hm, hpure, -⟩ := Build.bind_eq_ok hn
  cases hpure
  obtain ⟨parameters, _, _, -, hm, -⟩ := Build.bind_eq_ok hm
  obtain ⟨ss, n', _, hss, hm, -⟩ := Build.bind_eq_ok hm
  cases hm
  refine ⟨_, rfl, ?_, ?_⟩
  · rcases stmtsLines_writes indent 1 ss with h | ⟨hfails, -⟩
    · exact h
    · exact absurd hnative hfails
  · have hbody : anyReturnsValue body = (stmtsPieces indent 1 ss).any Line.isReturned := by
      rw [any_stmtsPieces, (yields_of_formed (hc _ (by simp)) (by simp [Tree.kind?])).blockStmts ss n' hss,
        returnsValue_node (by decide), anyReturnsValue_eq_any]
    have hvoid : ls.isEmpty = true ↔ ∀ l', .leaf l' ∈ ls.map Tree.leaf ++ .leaf l :: (o.toList ++
        [.node .block body bspan btext]) → l'.kind ≠ .terminal .voidWord := by
      constructor
      · intro hnil l' hl'
        rcases o with _ | t
        · simp_all
        · obtain ⟨_, _, _, _, rfl, -⟩ := exists_node_of_admits (ho t rfl)
          simp_all
      · intro hall
        cases ls with
        | nil => rfl
        | cons m ls => exact absurd (hls m mem_cons_self) (hall m (by simp))
    rw [← hvoid, ← any_eq_true, ← hbody]
    change (if (ls.isEmpty && anyReturnsValue body) = true then "dynamic" else "void") = _ ↔ _
    cases ls.isEmpty <;> cases anyReturnsValue body <;> simp

/-- The two ways to tell whether a body returns a value agree. For each block of a program that is
converted, its tree and its statements do; so the closure of the same statements is declared with `Func`
exactly if the tree of the block returns a value, unless it is a single expression. A method without
`void` is dynamic exactly if a line of its body outside lambdas returns a value. -/
theorem returned_values_agree {source : Chars} {t : Tree} (hread : Program.read source = .ok t)
    (options : Options) (indent : Points) : (∀ body span text p, .node .block body span text ∈ t.subtrees →
      Becomes options (.node .block body span text) p →
      ∃ ss, p = .statement (.block ss) ∧ returnsValue (.node .block body span text) = anyYieldsValue ss ∧
        ∀ name op front names span₁ span₂ text₁ text₂, name.kind = .terminal .name →
          op.kind = .terminal .assign → op.text = ['='] → ClosureHead front names →
          (∀ t, body = [t] → t.kind? ≠ some .expressionStatement) →
          ∃ type, Becomes options (assignedClosure name op front body span₁ span₂ text₁ text₂)
              (.statement (.declaration (.mk type (String.ofList name.text) (some (.lambda names (.block ss)))))) ∧
            "Func<".toList.isPrefixOf type.toList = returnsValue (.node .block body span text)) ∧
    ∀ children span text p, .node .methodDeclaration children span text ∈ t.subtrees →
      Becomes options (.node .methodDeclaration children span text) p →
      ∃ m, p = .method m ∧ stmtsLines indent 1 m.body = .ok ((stmtsPieces indent 1 m.body).map Line.text) ∧
        (m.returnType = "dynamic" ↔ (∀ l, .leaf l ∈ children → l.kind ≠ .terminal .voidWord) ∧
          ∃ line ∈ stmtsPieces indent 1 m.body, line.isReturned = true) := by
  have hf := (Program.read_formed hread).1
  refine ⟨fun body span text p hnode hp => ?_, fun children span text p hnode hp =>
    method_returns (hf.of_mem_subtrees hnode) hp indent⟩
  obtain ⟨ss, n, rfl, hss, hreturns, hbody⟩ := block_returns (hf.of_mem_subtrees hnode) hp
  refine ⟨ss, rfl, hreturns, fun name op front names _ _ _ _ hname hop htext hhead hsingle => ?_⟩
  refine ⟨_, assignedClosure_becomes hname hop htext hhead hbody hsingle hss, ?_⟩
  rw [isFunc_delegateType, hreturns]

/-- A method that returns from a block inside its body, and the closure of the statements of the body. -/
theorem returned_values_agree_nested :
    ∃ t, Program.read "def f() \x7b if (x) \x7b return 1; \x7d \x7d".toList = .ok t ∧
      (∃ children span text m, .node .methodDeclaration children span text ∈ t.subtrees ∧
        Becomes {} (.node .methodDeclaration children span text) (.method m) ∧ m.returnType = "dynamic" ∧
        ∃ line ∈ stmtsPieces [] 1 m.body, line.isReturned = true) ∧
      ∃ body span text type ss, .node .block body span text ∈ t.subtrees ∧
        returnsValue (.node .block body span text) = true ∧
        Becomes {} (assignedClosure ⟨.terminal .name, ['g'], span⟩ ⟨.terminal .assign, ['='], span⟩ [] body
          span span [] []) (.statement (.declaration (.mk type "g" (some (.lambda ["it"] (.block ss)))))) ∧
        "Func<".toList.isPrefixOf type.toList = true := by
  obtain ⟨t, ht, hp⟩ := Source.exists_of_toOption_any
    (x := Program.read "def f() \x7b if (x) \x7b return 1; \x7d \x7d".toList)
    (p := fun t => (t.subtrees.any fun n => n.kind? == some .methodDeclaration &&
        (product {} n).toOption.any fun r => match r.1 with
          | .method m => m.returnType == "dynamic"
          | _ => false) &&
      t.subtrees.any fun n => n.kind? == some .block && (product {} n).toOption.any fun _ =>
        returnsValue n && n.subtrees.all fun s => s.kind? != some .expressionStatement)
    (by decide +kernel)
  obtain ⟨hmethod, hblock⟩ := Bool.and_eq_true_iff.mp hp
  obtain ⟨hblocks, hmethods⟩ := returned_values_agree ht {} []
  refine ⟨t, ht, ?_, ?_⟩
  · obtain ⟨children, span, text, p, notes, hn, hproduct, hp⟩ := exists_product_of_any hmethod
    obtain ⟨m, rfl, -, hreturns⟩ := hmethods children span text p hn ⟨notes, hproduct⟩
    have hdynamic : m.returnType = "dynamic" := beq_iff_eq.mp hp
    exact ⟨children, span, text, m, hn, ⟨notes, hproduct⟩, hdynamic, (hreturns.mp hdynamic).2⟩
  · obtain ⟨body, span, text, p, notes, hn, hproduct, hp⟩ := exists_product_of_any hblock
    obtain ⟨hreturns, hkinds⟩ := Bool.and_eq_true_iff.mp hp
    obtain ⟨ss, -, -, hclosure⟩ := hblocks body span text p hn ⟨notes, hproduct⟩
    have hsingle : ∀ s, body = [s] → s.kind? ≠ some .expressionStatement := by
      rintro s rfl
      simpa using all_eq_true.mp hkinds s (mem_subtrees_of_child (by simp) (self_mem_subtrees _))
    obtain ⟨type, htype, hfunc⟩ := hclosure ⟨.terminal .name, ['g'], span⟩ ⟨.terminal .assign, ['='], span⟩ []
      ["it"] span span [] [] rfl rfl rfl .implicit hsingle
    exact ⟨body, span, text, type, ss, hn, hreturns, htype, hfunc.trans hreturns⟩

end Conversion

end GroovySharp
