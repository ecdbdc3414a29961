import GroovySharp.Proofs.ExpressionConversion

/-!
# The conversion of statements and declarations

For each kind of statement, clause and declaration: if its children are converted as they should be, it
is.
-/

namespace GroovySharp.Conversion

open CSharp Grammar Text List GroovySharp.Tree Option

section

variable {options : Options} {long : Prop} {silent : Bool} {k : Kind} {t : Tree}
  {children ts : List Tree} {span : Span}
  {text : Chars}

attribute [local simp] passes_node refused offends usesSystem Product.atoms Stmt.atoms allAtoms required nthPart

/-! ### Optional nodes -/

theorem exists_option_of_fits {s : Shape} {items : List Item} (hf : Fits (.optional s :: items) ts) :
    ∃ (o : Option Tree) (rest : List Tree), ts = o.toList ++ rest ∧ (∀ t ∈ o, s.admits t = true) ∧ Fits items rest := by
  rcases hf with hf | ⟨t, rest, rfl, ht, hrest⟩
  · exact ⟨none, ts, rfl, by simp, hf⟩
  · exact ⟨some t, rest, rfl, by simpa using ht, hrest⟩

def optionally {α : Type} (f : Part → Build α) (a : α) : Option Part → Build α
  | some p => f p
  | none => pure a

variable {o : Option Tree} {l : Leaf} {p : Part} {cs : List Part}

theorem optionally_meets {α : Type} {f : Part → Build α} {a : α} {atoms : α → List Atom} (ha : atoms a = [])
    (h : ∀ t ∈ o, Meets long silent (f (partOf options t)) (t.Passes silent) fun b => atoms b = t.atoms) :
    Meets long silent (optionally f a (o.map (partOf options))) (∀ t ∈ o, t.Passes silent)
      fun b => atoms b = allAtoms o.toList := by
  cases o with
  | none => exact .gives (by simp) rfl (fun _ => rfl) ha
  | some t =>
    refine ((h t rfl).mono fun b hb => ?_).congr (by simp)
    rw [hb, toList_some, allAtoms, allAtoms, append_nil]

/-! ### Simple statements -/

theorem wrapping_converts {g : Expr → Product} (hf : Fits [.one expressionShape] children)
    (hc : ∀ t ∈ children, Converts options long silent t) (hx : ∀ cs, assemble options ⟨k, span, text⟩ cs =
      (do return g (← (← nthPart ⟨k, span, text⟩ cs 0 .expression).expr)))
    (hg : ∀ e, gives k (g e) ∧ (g e).atoms = e.atoms) (hlead : ∀ l, leadAtoms k l = [])
    (ho : (Tree.node k children span text).refused silent = false) :
    Converts options long silent (.node k children span text) := by
  obtain ⟨a, _, rfl, ha, rfl⟩ := hf
  have heq : assemble options ⟨k, span, text⟩ ([a].map (childOf options)) =
      (do return g (← (partOf options a).expr)) := by
    rw [hx, map_cons, childOf_of_admits ha]
    simp
  intro _
  rw [product_node, heq, atoms_of_lead hlead]
  refine (((hc a mem_cons_self).expr ha).next fun e h₁ => .pure ?_).congr ?_
  · rw [(hg e).2, h₁, allAtoms, allAtoms, append_nil]
    exact ⟨(hg e).1, rfl⟩
  · simp [ho, -refused]

theorem returnStatement_converts : ConvertsNode options long silent .returnStatement := by
  rintro children span text hf - hc
  obtain ⟨o, _, rfl, ho, rfl⟩ := exists_option_of_fits hf
  refine converts_of_assemble (x := returnStatement _) rfl (fun s => ⟨s, rfl⟩) ?_
  rw [atoms_of_lead fun _ => rfl]
  cases o with
  | none =>
    refine .gives ?_ rfl (fun _ => rfl) rfl
    simp
  | some a =>
    have ha := ho a rfl
    rw [toList_some, append_nil, map_cons, childOf_of_admits ha, returnStatement]
    refine (((hc a (by simp)).expr ha).next fun _ h₁ => .pure ?_).congr ?_
    · simp [optionAtoms, h₁]
    · simp

theorem bare_converts {p : Product} (hx : assemble options ⟨k, span, text⟩ [] = pure p)
    (hp : gives k p) (hatoms : p.atoms = []) (ho : (Tree.node k [] span text).refused silent = false) :
    Converts options long silent (.node k [] span text) := by
  intro _
  rw [product_node, map_nil, hx]
  refine .gives ?_ rfl (fun _ => rfl) ⟨hp, ?_⟩
  · simp [ho, -refused]
  · rw [hatoms]
    rfl

theorem block_converts : ConvertsNode options long silent .block := by
  rintro children span text hf - hc
  obtain ⟨ts, _, rfl, hts, rfl⟩ := hf
  rw [append_nil] at hc ⊢
  refine converts_of_assemble (g := fun ss => .statement (.block ss))
    (x := stmtsOf (partsOf (ts.map (childOf options)))) rfl (fun ss => ⟨ss, rfl⟩) ?_
  rw [children_of_admits hts, partsOf_parts, atoms_of_lead fun _ => rfl]
  refine ((stmtsOf_meets hc hts).mono fun ss hss => ?_).congr ?_
  · rw [Product.atoms, Stmt.atoms, hss]
  · simp

/-! ### Branches and loops -/

theorem ifStatement_converts : ConvertsNode options long silent .ifStatement := by
  rintro children span text hf - hc
  refine converts_of_assemble (x := ifStatement _ _) rfl (fun s => ⟨s, rfl⟩) ?_
  rw [atoms_of_lead fun _ => rfl]
  obtain ⟨a, _, rfl, ha, b, _, rfl, hb, rfl | ⟨d, _, rfl, hd, rfl⟩⟩ := hf
  · simp only [forall_mem_cons] at hc
    rw [map_cons, map_cons, childOf_of_admits ha, childOf_of_admits hb, map_nil]
    simp only [ifStatement, nthPart_zero, nthPart_succ, partsOf_part, partsOf_nil, getElem?_cons_succ, getElem?_nil]
    refine ((hc.1.expr ha).bind fun _ h₁ => (hc.2.1.body hb).next fun _ h₂ => .pure ?_).congr ?_
    · simp [alternativeAtoms, h₁, h₂]
    · simp
  · simp only [forall_mem_cons] at hc
    rw [map_cons, map_cons, map_cons, childOf_of_admits ha, childOf_of_admits hb, childOf_of_admits hd, map_nil]
    simp only [ifStatement, nthPart_zero, nthPart_succ, partsOf_part, getElem?_cons_succ, getElem?_cons_zero]
    refine ((hc.1.expr ha).bind fun _ h₁ => (hc.2.1.body hb).bind fun _ h₂ =>
      (hc.2.2.1.body hd).next fun _ h₃ => .pure ?_).congr ?_
    · simp [alternativeAtoms, h₁, h₂, h₃]
    · simp

theorem whileStatement_converts : ConvertsNode options long silent .whileStatement := by
  rintro children span text hf - hc
  obtain ⟨a, _, rfl, ha, b, _, rfl, hb, rfl⟩ := hf
  simp only [forall_mem_cons] at hc
  refine converts_of_assemble (x := whileStatement _ _) rfl (fun s => ⟨s, rfl⟩) ?_
  rw [map_cons, map_cons, childOf_of_admits ha, childOf_of_admits hb, map_nil, atoms_of_lead fun _ => rfl]
  simp only [whileStatement, nthPart_zero, nthPart_succ]
  refine ((hc.1.expr ha).bind fun _ h₁ => (hc.2.1.body hb).next fun _ h₂ => .pure ?_).congr ?_
  · simp [h₁, h₂]
  · simp

/-! ### Variables -/

/-- What a declaration with a value has: its operator and the tree of its value. -/
structure Declares (options : Options) (children : List Tree) (o : Leaf) (a : Tree) : Prop where
  value : expressionShape.admits a = true
  member : a ∈ children
  name : ∃ l, firstLeaf? [.name] (children.map (childOf options)) = some l
  operator : firstLeaf? [.assign] (children.map (childOf options)) = some o
  parts : partsOf (children.map (childOf options)) = [partOf options a]
  atoms : allAtoms children = a.atoms
  passes (silent : Bool) : (∀ t ∈ children, t.Passes silent) ↔ a.Passes silent
  named : anyToken (fun l => l.kind = .terminal .name) children = true
  assigns : anyToken (fun l => l.kind = .terminal .assign) children = true
  compound : anyToken (fun l => l.kind = .terminal .assign && l.text ≠ ['=']) children = decide (o.text ≠ ['='])
  untyped : (!anyToken (fun l => l.kind = .terminal .commandName &&
      String.ofList l.text ∉ ["def", "var"]) children) =
    decide ((declaredType? (children.map (childOf options))).getD "var" = "var")
  closed : (children.any fun t => t.kind? = some .closure) = decide (a.kind? = some .closure)

theorem typeName_cases (name : String) :
    (name, typeName name) ∈ typeNames ∨ (∀ p ∈ typeNames, name ≠ p.1) ∧ typeName name = name := by
  unfold typeName
  cases h : typeNames.lookup name with
  | some v =>
    obtain ⟨a, b, hab, -⟩ := lookup_eq_some_iff.mp h
    exact .inl (by rw [hab]; simp)
  | none => exact .inr ⟨by simpa using lookup_eq_none_iff.mp h, rfl⟩

theorem typeName_eq_var (name : String) : typeName name = "var" ↔ name ∈ ["def", "var"] := by
  rcases typeName_cases name with h | ⟨hnot, h⟩
  · have hall : ∀ p ∈ typeNames, p.2 = "var" ↔ p.1 ∈ ["def", "var"] := by decide
    exact hall _ h
  · have hdef : name ≠ "def" := hnot ("def", "var") (by decide)
    simp [h, hdef]

theorem typeName_eq_exception (name : String) : typeName name = "Exception" ↔ name = "Exception" := by
  rcases typeName_cases name with h | ⟨-, h⟩
  · have hall : ∀ p ∈ typeNames, p.2 = "Exception" ↔ p.1 = "Exception" := by decide
    exact hall _ h
  · rw [h]

theorem exists_declares (options : Options)
    (hf : Fits (Kind.pattern .localDeclaration) children) : ∃ o a, Declares options children o a := by
  rcases hf with hf | ⟨c, _, rfl, hc, hf⟩
  · obtain ⟨n, _, rfl, hn, o, _, rfl, ho, a, _, rfl, ha, rfl⟩ := hf
    obtain ⟨n, rfl, hkn⟩ := exists_token_of_single hn
    obtain ⟨o, rfl, hko⟩ := exists_token_of_single ho
    refine ⟨o, a, ha, by simp, ⟨n, ?_⟩, ?_, ?_, ?_, fun _ => ?_, ?_, ?_, ?_, ?_, ?_⟩ <;>
      simp [firstLeaf?, childOf_of_admits ha, Tree.atoms, kind?, declaredType?, passes_token hkn (by decide),
        passes_token hko (by decide), anyToken, leaf?_of_admits ha, hkn, hko]
  · obtain ⟨n, _, rfl, hn, o, _, rfl, ho, a, _, rfl, ha, rfl⟩ := hf
    obtain ⟨c, rfl, hkc⟩ := exists_token_of_single hc
    obtain ⟨n, rfl, hkn⟩ := exists_token_of_single hn
    obtain ⟨o, rfl, hko⟩ := exists_token_of_single ho
    refine ⟨o, a, ha, by simp, ⟨n, ?_⟩, ?_, ?_, ?_, fun _ => ?_, ?_, ?_, ?_, ?_, ?_⟩ <;>
      simp [firstLeaf?, childOf_of_admits ha, Tree.atoms, kind?, declaredType?, typeName_eq_var,
        passes_token hkn (by decide), passes_token hko (by decide), passes_token hkc (by decide), anyToken,
        leaf?_of_admits ha, hkn, hko, hkc]

theorem Declares.meets {o : Leaf} {a : Tree} (h : Declares options children o a)
    (hc : ∀ t ∈ children, Converts options long silent t) (site : Site) :
    Meets long silent (declaration site (children.map (childOf options))) (o.text = ['='] ∧ a.Passes silent ∧
        ((decide ((declaredType? (children.map (childOf options))).getD "var" = "var") &&
          decide (a.kind? = some .closure)) && silent) = false) fun d => d.atoms = a.atoms := by
  obtain ⟨l, hl⟩ := h.name
  simp only [declaration, nameText, hl, h.operator, h.parts, required, Build.pure_bind]
  by_cases ho : o.text = ['=']
  · simp only [ne_eq, ho, not_true, if_false, true_and]
    refine (((hc a h.member).expr h.value).also fun _ _ => isLambda_of_expr h.value).bind ?_
    rintro e ⟨he, hlambda⟩
    split
    · next hvar =>
      rw [← hlambda, decide_eq_true hvar, Bool.true_and]
      refine (Meets.usesSystem _).next fun _ _ => .pure ?_
      rw [Declaration.atoms, optionAtoms, he]
    · next hvar =>
      refine (Meets.pure ?_).congr (by simp [hvar])
      rw [Declaration.atoms, optionAtoms, he]
  · simp only [ne_eq, ho, not_false_eq_true, if_true, false_and]
    exact Meets.unsupported

theorem localDeclaration_converts : ConvertsNode options long silent .localDeclaration := by
  rintro children span text hf - hc
  obtain ⟨o, a, h⟩ := exists_declares options hf
  refine converts_of_assemble (g := fun d => .statement (.declaration d)) (x := declaration _ _) rfl
    (fun d => ⟨_, rfl⟩) ?_
  rw [atoms_of_lead fun _ => rfl, h.atoms]
  refine ((h.meets hc _).mono fun d hd => ?_).congr ?_
  · rw [Product.atoms, Stmt.atoms, hd]
  · simp only [passes_node, refused, offends, usesSystem, h.named, h.assigns, h.compound,
      h.untyped, h.closed, h.passes, Bool.or_eq_false_iff]
    simp [and_left_comm, and_comm]

theorem bareDeclaration_converts (hf : Fits [.one (tokensOf [.name])] children) :
    Converts options long silent (.node .localDeclaration children span text) := by
  obtain ⟨n, _, rfl, hn, rfl⟩ := hf
  obtain ⟨l, rfl, hl⟩ := exists_token_of_single hn
  refine converts_of_assemble (g := fun d => .statement (.declaration d)) (x := declaration _ _) rfl
    (fun d => ⟨_, rfl⟩) ?_
  have heq : declaration ⟨.localDeclaration, span, text⟩ [.leaf l] =
      .fail (.missing ⟨.localDeclaration, span, text⟩ .localDeclaration .initializer) := by
    simp [declaration, nameText, firstLeaf?, hl]
  rw [map_cons, childOf_leaf, map_nil, heq]
  exact Meets.missing.congr (by simp [anyToken, leaf?, hl])

/-! ### Counting loops -/

theorem forInit_converts : ConvertsNode options long silent .forInit := by
  rintro children span text hf - hc
  obtain ⟨o, a, h⟩ := exists_declares options hf
  obtain ⟨l, hl⟩ := h.name
  have hname : hasLeaf .name (children.map (childOf options)) = true := by rw [hasLeaf, hl]; rfl
  have heq : assemble options ⟨.forInit, span, text⟩ (children.map (childOf options)) =
      (fun d => Product.statement (.declaration d)) <$>
        declaration ⟨.forInit, span, text⟩ (children.map (childOf options)) := by
    simp only [assemble, forInit, hname, if_true]
    rfl
  refine converts_of_assemble heq (fun d => .inl ⟨d, rfl⟩) ?_
  rw [atoms_of_lead fun _ => rfl, h.atoms]
  refine ((h.meets hc _).mono fun d hd => ?_).congr ?_
  · rw [Product.atoms, Stmt.atoms, hd]
  · simp only [passes_node, refused, offends, usesSystem, h.named, h.compound, h.untyped,
      h.closed, h.passes, Bool.or_eq_false_iff]
    simp [and_left_comm, and_comm]

theorem forInit_expression_converts (hf : Fits [.one expressionShape] children)
    (hc : ∀ t ∈ children, Converts options long silent t) :
    Converts options long silent (.node .forInit children span text) := by
  obtain ⟨a, _, rfl, ha, rfl⟩ := hf
  have heq : assemble options ⟨.forInit, span, text⟩ [.part (partOf options a)] =
      Product.expression <$> (partOf options a).expr := by
    simp [assemble, forInit, hasLeaf, firstLeaf?]
  refine converts_of_assemble (x := (partOf options a).expr) ?_ (fun e => .inr ⟨e, rfl⟩) ?_
  · rw [map_cons, childOf_of_admits ha, map_nil, heq]
  · rw [atoms_of_lead fun _ => rfl]
    refine (((hc a mem_cons_self).expr ha).mono fun _ h₁ => ?_).congr ?_
    · simp [h₁]
    · simp [anyToken, leaf?_of_admits ha]

theorem forCondition_converts : ConvertsNode options long silent .forCondition := by
  rintro children span text hf - hc
  obtain ⟨a, _, rfl, ha, rfl⟩ := hf
  refine converts_of_assemble (x := forCondition _ _ _) rfl (fun e => ⟨e, rfl⟩) ?_
  rw [map_cons, childOf_of_admits ha, map_nil, atoms_of_lead fun _ => rfl]
  simp only [forCondition, nthPart, required, partsOf_part, getElem?_cons_zero, Build.pure_bind]
  refine (((hc a mem_cons_self).expr ha).next fun e he => ?_).congr ?_
  · have hall : allAtoms [a] = e.atoms := by rw [allAtoms, allAtoms, append_nil, he]
    rw [hall]
    split
    · split
      · exact .pure rfl
      · exact (Meets.warn _).next fun _ _ => .pure (by simp [Expr.atoms])
    · exact .pure rfl
  · simp

theorem forUpdate_converts : ConvertsNode options long silent .forUpdate := by
  rintro children span text hf - hc
  obtain ⟨ts, _, rfl, hts, rfl⟩ := hf
  rw [append_nil] at hc ⊢
  refine converts_of_assemble (x := exprsOf (partsOf (ts.map (childOf options)))) rfl (fun es => ⟨es, rfl⟩) ?_
  rw [children_of_admits hts, partsOf_parts, atoms_of_lead fun _ => rfl]
  refine (exprsOf_meets hc hts).congr ?_
  simp

theorem Converts.updates (h : Converts options long silent t) (hs : (kindsOf [.forUpdate]).admits t = true) :
    Meets long silent (partOf options t).updates (t.Passes silent) fun es => exprsAtoms es = t.atoms := by
  refine h.takeOne hs (by decide) ?_
  rintro _ ⟨es, rfl⟩ hatoms
  exact .pure hatoms

theorem Converts.condition (h : Converts options long silent t) (hs : (kindsOf [.forCondition]).admits t = true) :
    Meets long silent (partOf options t).expr (t.Passes silent) fun e => e.atoms = t.atoms := by
  refine h.takeOne hs (by decide) ?_
  rintro _ ⟨e, rfl⟩ hatoms
  exact .pure hatoms

theorem forStart_meets (h : ∀ t ∈ o, Converts options long silent t)
    (hs : ∀ t ∈ o, (kindsOf [.forInit]).admits t = true) :
    Meets long silent (forStart (o.map (partOf options))) (∀ t ∈ o, t.Passes silent)
      fun r => declaredAtoms r.1 ++ exprsAtoms r.2 = allAtoms o.toList := by
  cases o with
  | none => exact .gives (by simp) rfl (fun _ => rfl) rfl
  | some t =>
    refine ((h t rfl).take (hs t rfl) (by decide) fun k hk p hp hatoms => ?_).congr (by simp)
    obtain rfl := mem_singleton.mp hk
    rcases hp with ⟨d, rfl⟩ | ⟨e, rfl⟩
    · refine .pure ?_
      rw [toList_some, allAtoms, allAtoms, ← hatoms]
      simp [declaredAtoms, exprsAtoms]
    · refine .pure ?_
      rw [toList_some, allAtoms, allAtoms, ← hatoms]
      simp [declaredAtoms, exprsAtoms]

theorem classicFor_eq {oi oc ou : Option Part} {b : Part} (site : Site)
    (hi : ∀ p ∈ oi, p.site.kind = .forInit) (hc : ∀ p ∈ oc, p.site.kind = .forCondition)
    (hu : ∀ p ∈ ou, p.site.kind = .forUpdate) (hb : isForClause b = false) :
    classicFor site ((oi.toList ++ (oc.toList ++ (ou.toList ++ [b]))).map .part) = (do
      let start ← forStart oi
      let condition ← optionally (fun p => some <$> p.expr) none oc
      let updates ← optionally Part.updates [] ou
      return .forLoop start.1 start.2 condition updates (← b.body)) := by
  have hkb : b.site.kind ≠ .forInit ∧ b.site.kind ≠ .forCondition ∧ b.site.kind ≠ .forUpdate := by
    simpa [isForClause, not_or, and_assoc] using hb
  obtain ⟨hb₁, hb₂, hb₃⟩ := hkb
  rcases oi with _ | i <;> rcases oc with _ | c <;> rcases ou with _ | u <;>
    simp_all [classicFor, firstPart?, isForClause, optionally]

theorem kinds_of_option (options : Options) (h : ∀ t ∈ o, (kindsOf [k]).admits t = true) :
    ∀ p ∈ o.map (partOf options), p.site.kind = k := by
  intro p hp
  obtain ⟨t, ht, rfl⟩ := map_eq_some_iff.mp hp
  exact kind_of_single options (h t ht)

theorem classicFor_of_fits (options : Options) (site : Site) (hf : Fits (Kind.pattern .classicFor) children) :
    ∃ (oi oc ou : Option Tree) (b : Tree), children = oi.toList ++ (oc.toList ++ (ou.toList ++ [b])) ∧
      (∀ t ∈ oi, (kindsOf [.forInit]).admits t = true) ∧ (∀ t ∈ oc, (kindsOf [.forCondition]).admits t = true) ∧
      (∀ t ∈ ou, (kindsOf [.forUpdate]).admits t = true) ∧ statementShape.admits b = true ∧
      classicFor site (children.map (childOf options)) = (do
        let start ← forStart (oi.map (partOf options))
        let condition ← optionally (fun p => some <$> p.expr) none (oc.map (partOf options))
        let updates ← optionally Part.updates [] (ou.map (partOf options))
        return .forLoop start.1 start.2 condition updates (← (partOf options b).body)) := by
  have hall : ∀ t ∈ children, (kindsOf (.forInit :: .forCondition :: .forUpdate :: statementKinds)).admits t = true :=
    admits_of_fits hf (by decide)
  obtain ⟨oi, _, rfl, hi, hf⟩ := exists_option_of_fits hf
  obtain ⟨oc, _, rfl, hcond, hf⟩ := exists_option_of_fits hf
  obtain ⟨ou, _, rfl, hu, b, _, rfl, hb, rfl⟩ := exists_option_of_fits hf
  have hbody : isForClause (partOf options b) = false := by
    have hkind := (kind_of_admits options hb).1
    unfold isForClause
    generalize (partOf options b).site.kind = k at hkind
    cases k <;> first | rfl | exact absurd hkind (by decide)
  have hparts : (oi.toList ++ (oc.toList ++ (ou.toList ++ [b]))).map (partOf options) =
      (oi.map (partOf options)).toList ++ ((oc.map (partOf options)).toList ++
        ((ou.map (partOf options)).toList ++ [partOf options b])) := by
    simp only [map_append, toList_map, map_cons, map_nil]
  refine ⟨oi, oc, ou, b, rfl, hi, hcond, hu, hb, ?_⟩
  rw [children_of_admits hall, hparts, classicFor_eq _ (kinds_of_option options hi)
    (kinds_of_option options hcond) (kinds_of_option options hu) hbody]

theorem classicFor_converts : ConvertsNode options long silent .classicFor := by
  rintro children span text hf - hc
  obtain ⟨oi, oc, ou, b, rfl, hi, hcond, hu, hb, heq⟩ :=
    classicFor_of_fits options ⟨.classicFor, span, text⟩ hf
  refine converts_of_assemble (x := classicFor _ _) rfl (fun s => ⟨s, rfl⟩) ?_
  rw [heq, atoms_of_lead fun _ => rfl]
  have hmem {o : Option Tree} (h : ∀ t ∈ o, t ∈ oi.toList ++ (oc.toList ++ (ou.toList ++ [b]))) :
      ∀ t ∈ o, Converts options long silent t := fun t ht => hc t (h t ht)
  have hci := hmem (o := oi) fun t ht => by simp [mem_def.mp ht]
  have hcc := hmem (o := oc) fun t ht => by simp [mem_def.mp ht]
  have hcu := hmem (o := ou) fun t ht => by simp [mem_def.mp ht]
  have hcb := hc b (by simp)
  have hcondition : Meets long silent (optionally (fun p => some <$> p.expr) none (oc.map (partOf options)))
      (∀ t ∈ oc, t.Passes silent) fun e => optionAtoms e = allAtoms oc.toList := by
    refine optionally_meets rfl fun t ht => ((hcc t ht).condition (hcond t ht)).map fun e he => ?_
    rw [optionAtoms, he]
  have hupdates : Meets long silent (optionally Part.updates [] (ou.map (partOf options)))
      (∀ t ∈ ou, t.Passes silent) fun es => exprsAtoms es = allAtoms ou.toList :=
    optionally_meets rfl fun t ht => (hcu t ht).updates (hu t ht)
  refine ((forStart_meets hci hi).bind fun _ h₁ => hcondition.bind fun _ h₂ => hupdates.bind fun _ h₃ =>
    (hcb.body hb).next fun _ h₄ => .pure ?_).congr ?_
  · rw [Product.atoms, Stmt.atoms, allAtoms_append, allAtoms_append, allAtoms_append, ← h₁, h₂, h₃, h₄]
    simp
  · simp [or_imp, forall_and]

/-! ### Loops over collections -/

theorem forEachStatement_eq (site : Site) {ls : List Leaf} (p q : Part)
    (hls : ∀ m ∈ ls, m.kind = .terminal .commandName) (hl : l.kind = .terminal .name) :
    forEachStatement site (ls.map .leaf ++ [Child.leaf l, Child.part p, Child.part q]) = (do
      let source ← p.expr
      let body ← q.body
      return .forEach "var" (String.ofList l.text) source body) := by
  have hname : firstLeaf? [.name] (ls.map .leaf ++ [Child.leaf l, Child.part p, Child.part q]) = some l :=
    firstLeaf?_behind (a := ls) (b := []) (by simp) hls (by decide) (mem_singleton.mpr rfl) hl
  simp [forEachStatement, nameText, hname]

theorem forEachStatement_converts (hk : k = .forIn ∨ k = .forEach) (hf : Fits (Kind.pattern .forIn) children)
    (hc : ∀ t ∈ children, Converts options long silent t) :
    Converts options long silent (.node k children span text) := by
  obtain ⟨ls, _, rfl, hls, n, _, rfl, hn, a, _, rfl, ha, b, _, rfl, hb, rfl⟩ := exists_tokens_of_fits hf
  obtain ⟨l, rfl, hl⟩ := exists_token_of_single hn
  have hlead : ∀ l, leadAtoms k l = [] := by rcases hk with rfl | rfl <;> exact fun _ => rfl
  refine converts_of_assemble (g := .statement) (x := forEachStatement ⟨k, span, text⟩
    ((ls.map leaf ++ [leaf l, a, b]).map (childOf options))) ?_ ?_ ?_
  · rcases hk with rfl | rfl <;> rfl
  · rcases hk with rfl | rfl <;> exact fun s => ⟨s, rfl⟩
  · rw [atoms_of_lead hlead, map_append, map_childOf_tokens, map_cons, map_cons,
      map_cons, map_nil, childOf_leaf, childOf_of_admits ha, childOf_of_admits hb,
      forEachStatement_eq _ _ _ hls hl]
    refine (((hc a (by simp)).expr ha).bind fun _ h₁ => ((hc b (by simp)).body hb).next fun _ h₂ =>
      .pure ?_).congr ?_
    · simp [allAtoms_append, allAtoms_tokens, Tree.atoms, h₁, h₂]
    · have ho : (Tree.node k (ls.map .leaf ++ [.leaf l, a, b]) span text).refused silent = false := by
        rcases hk with rfl | rfl <;> rfl
      simp only [passes_node, ho, forall_mem_append, iff_true_intro (passes_tokens hls (by decide)), forall_mem_cons,
        passes_token hl (by decide), true_and]
      simp

/-! ### Switches -/

theorem Converts.switchCase (h : Converts options long silent t) (hs : (kindsOf [.switchCase]).admits t = true) :
    Meets long silent (partOf options t).switchCase (t.Passes silent)
      fun c => c.1.atoms ++ stmtsAtoms c.2 = t.atoms := by
  refine h.takeOne hs (by decide) ?_
  rintro _ ⟨value, statements, rfl⟩ hatoms
  exact .pure hatoms

theorem product_switchCase (options : Options) {a : Tree} (ha : expressionShape.admits a = true)
    (hts : ∀ t ∈ ts, statementShape.admits t = true) : product options (.node .switchCase (a :: ts) span text) = (do
      let value ← (partOf options a).expr
      return .switchCase value (← stmtsOf (ts.map (partOf options)))) := by
  rw [product_node, map_cons, childOf_of_admits ha, children_of_admits hts]
  simp only [assemble, switchCase, nthPart_zero, partsOf_part, partsOf_parts, drop_succ_cons, drop_zero]

theorem switchCase_converts : ConvertsNode options long silent .switchCase := by
  rintro children span text hf - hc
  obtain ⟨a, _, rfl, ha, ts, _, rfl, hts, rfl⟩ := hf
  rw [append_nil] at hc ⊢
  simp only [forall_mem_cons] at hc
  intro _
  rw [product_switchCase options ha hts, atoms_of_lead fun _ => rfl]
  refine ((hc.1.expr ha).bind fun value h₁ => (stmtsOf_meets hc.2 hts).next fun ss h₂ => .pure ?_).congr ?_
  · rw [Product.atoms, h₁, h₂, allAtoms]
    exact ⟨⟨value, ss, rfl⟩, rfl⟩
  · simp

def casesAtoms (cases : List (Expr × List Stmt)) : List Atom :=
  cases.flatMap fun c => c.1.atoms ++ stmtsAtoms c.2

theorem stmtsAtoms_append (a b : List Stmt) : stmtsAtoms (a ++ b) = stmtsAtoms a ++ stmtsAtoms b := by
  induction a with
  | nil => rfl
  | cons s a ih => rw [cons_append, stmtsAtoms, ih, stmtsAtoms, append_assoc]

theorem stmtsAtoms_terminated (ss : List Stmt) : stmtsAtoms (terminated ss) = stmtsAtoms ss := by
  unfold terminated
  split
  · rfl
  · rw [stmtsAtoms_append]
    simp [stmtsAtoms]

theorem labelsAtoms_append (a b : List SwitchLabel) : labelsAtoms (a ++ b) = labelsAtoms a ++ labelsAtoms b := by
  induction a with
  | nil => rfl
  | cons l a ih => rw [cons_append, labelsAtoms, ih, labelsAtoms, append_assoc]

theorem sectionsAtoms_append (a b : List SwitchSection) :
    sectionsAtoms (a ++ b) = sectionsAtoms a ++ sectionsAtoms b := by
  induction a with
  | nil => rfl
  | cons s a ih => rw [cons_append, sectionsAtoms, ih, sectionsAtoms, append_assoc]

theorem switchSections_atoms (labels : List SwitchLabel) (cases : List (Expr × List Stmt)) :
    sectionsAtoms (switchSections labels cases).1 ++ labelsAtoms (switchSections labels cases).2 =
      labelsAtoms labels ++ casesAtoms cases := by
  induction cases generalizing labels with
  | nil => simp [switchSections, sectionsAtoms, casesAtoms]
  | cons c cases ih =>
    obtain ⟨value, statements⟩ := c
    have hlabels : labelsAtoms (labels ++ [SwitchLabel.case value]) = labelsAtoms labels ++ value.atoms := by
      rw [labelsAtoms_append]
      simp [labelsAtoms, SwitchLabel.atoms]
    rw [switchSections]
    cases statements with
    | nil =>
      have hstep := ih (labels ++ [SwitchLabel.case value])
      simpa [casesAtoms, hlabels, stmtsAtoms] using hstep
    | cons s ss =>
      have hstep := ih []
      simp only [labelsAtoms, nil_append] at hstep
      simp only [isEmpty_cons, Bool.false_eq_true, if_false, sectionsAtoms, SwitchSection.atoms,
        hlabels, stmtsAtoms_terminated, append_assoc, hstep]
      simp [casesAtoms]

theorem switchCases_meets (h : ∀ t ∈ ts, Converts options long silent t)
    (hs : ∀ t ∈ ts, (kindsOf [.switchCase]).admits t = true) :
    Meets long silent (eachPart Part.switchCase (ts.map (partOf options))) (∀ t ∈ ts, t.Passes silent)
      fun cs => casesAtoms cs = allAtoms ts := by
  refine (eachPart_meets fun t ht => (h t ht).switchCase (hs t ht)).mono fun cs hcs => ?_
  clear h hs
  induction hcs with
  | nil => rfl
  | cons hfirst _ ih => rw [casesAtoms, flatMap_cons, hfirst, allAtoms, ← ih, casesAtoms]

theorem afterDefault?_parts (ps : List Part) (cs : List Child) :
    afterDefault? (ps.map .part ++ cs) = afterDefault? cs := by
  induction ps with
  | nil => rfl
  | cons p ps ih => rw [map_cons, cons_append, afterDefault?, ih]

theorem filter_cases {ss : List Part} (hp : p.site.kind ≠ .switchCase)
    (hcs : ∀ c ∈ cs, c.site.kind = .switchCase) (hss : ∀ s ∈ ss, s.site.kind ≠ .switchCase) :
    (p :: (cs ++ ss)).filter (fun p => p.site.kind == .switchCase) = cs := by
  have hkeep : cs.filter (fun p => p.site.kind == .switchCase) = cs :=
    filter_eq_self.mpr fun c hc => by simpa using hcs c hc
  have hdrop : ss.filter (fun p => p.site.kind == .switchCase) = [] :=
    filter_eq_nil_iff.mpr fun s hs => by simpa using hss s hs
  rw [filter_cons_of_neg (by simpa using hp), filter_append, hkeep, hdrop, append_nil]

theorem switchStatement_eq (site : Site) {ss : List Part} (hp : p.site.kind ≠ .switchCase)
    (hcs : ∀ c ∈ cs, c.site.kind = .switchCase) (hss : ∀ s ∈ ss, s.site.kind ≠ .switchCase)
    (hl : l.kind = .terminal .defaultWord) :
    switchStatement site (.part p :: (cs.map .part ++ .leaf l :: ss.map .part)) = (do
      let subject ← p.expr
      let cases ← eachPart Part.switchCase cs
      let statements ← stmtsOf ss
      return .switch subject ((switchSections [] cases).1 ++
        [.mk ((switchSections [] cases).2 ++ [.fallback]) (terminated statements)])) := by
  have hafter : afterDefault? (.part p :: (cs.map .part ++ .leaf l :: ss.map .part)) = some (ss.map .part) := by
    rw [afterDefault?, afterDefault?_parts, afterDefault?, if_pos hl]
  simp only [switchStatement, hafter, partsOf_part, partsOf_append, partsOf_parts, partsOf_leaf,
    filter_cases hp hcs hss, nthPart, required, getElem?_cons_zero, Build.pure_bind]

theorem switchStatement_eq_bare (site : Site) (hp : p.site.kind ≠ .switchCase)
    (hcs : ∀ c ∈ cs, c.site.kind = .switchCase) : switchStatement site (.part p :: cs.map .part) = (do
      let subject ← p.expr
      let cases ← eachPart Part.switchCase cs
      if (switchSections [] cases).2.isEmpty then return .switch subject (switchSections [] cases).1
      else return .switch subject ((switchSections [] cases).1 ++
        [.mk (switchSections [] cases).2 [.breakOut]])) := by
  have hfilter := filter_cases hp hcs (forall_mem_nil _)
  have hafter : afterDefault? (.part p :: cs.map .part) = none := by
    rw [afterDefault?, ← append_nil (cs.map Child.part), afterDefault?_parts, afterDefault?]
  rw [append_nil] at hfilter
  simp only [switchStatement, hafter, partsOf_part, partsOf_parts, hfilter, nthPart, required,
    getElem?_cons_zero, Build.pure_bind]

theorem switchStatement_converts : ConvertsNode options long silent .switchStatement := by
  rintro children span text hf - hc
  obtain ⟨a, _, rfl, ha, cs, _, rfl, hcs, d, _, rfl, hd, ss, _, rfl, hss, rfl⟩ := hf
  obtain ⟨l, rfl, hl⟩ := exists_token_of_single hd
  rw [append_nil] at hc ⊢
  have hcases : ∀ t ∈ cs, Converts options long silent t := fun t ht => hc t (by simp [ht])
  have hstmts : ∀ t ∈ ss, Converts options long silent t := fun t ht => hc t (by simp [ht])
  refine converts_of_assemble (x := switchStatement _ _) rfl (fun s => ⟨s, rfl⟩) ?_
  rw [atoms_of_lead fun _ => rfl, map_cons, childOf_of_admits ha, map_append,
    children_of_admits hcs, map_cons, childOf_leaf, children_of_admits hss,
    switchStatement_eq _ (kind_ne_of_admits options ha (by decide)) (kinds_of_single options hcs)
      (kinds_ne_of_admits options hss (by decide)) hl]
  refine (((hc a mem_cons_self).expr ha).bind fun _ h₁ => (switchCases_meets hcases hcs).bind
    fun cases h₂ => (stmtsOf_meets hstmts hss).next fun _ h₃ => .pure ?_).congr ?_
  · have hsections := switchSections_atoms [] cases
    simp only [labelsAtoms, nil_append] at hsections
    simp [sectionsAtoms_append, sectionsAtoms, SwitchSection.atoms, labelsAtoms_append, labelsAtoms,
      SwitchLabel.atoms, stmtsAtoms_terminated, Tree.atoms, allAtoms_append, ← h₁, ← h₂, ← h₃, ← hsections]
  · simp [passes_token hl (by decide), or_imp, forall_and]

theorem defaultless_converts (hf : Fits [.one expressionShape, .many (kindsOf [.switchCase])] children)
    (hc : ∀ t ∈ children, Converts options long silent t) :
    Converts options long silent (.node .switchStatement children span text) := by
  obtain ⟨a, _, rfl, ha, cs, _, rfl, hcs, rfl⟩ := hf
  rw [append_nil] at hc ⊢
  have hcases : ∀ t ∈ cs, Converts options long silent t := fun t ht => hc t (mem_cons_of_mem _ ht)
  refine converts_of_assemble (x := switchStatement _ _) rfl (fun s => ⟨s, rfl⟩) ?_
  rw [atoms_of_lead fun _ => rfl, map_cons, childOf_of_admits ha, children_of_admits hcs,
    switchStatement_eq_bare _ (kind_ne_of_admits options ha (by decide)) (kinds_of_single options hcs)]
  refine (((hc a mem_cons_self).expr ha).bind fun _ h₁ => (switchCases_meets hcases hcs).next
    fun cases h₂ => ?_).congr ?_
  · have hsections := switchSections_atoms [] cases
    simp only [labelsAtoms, nil_append] at hsections
    split
    · next hempty =>
      rw [isEmpty_iff.mp hempty] at hsections
      refine .pure ?_
      simp [labelsAtoms, ← h₁, ← h₂, ← hsections]
    · refine .pure ?_
      simp [sectionsAtoms_append, sectionsAtoms, SwitchSection.atoms, stmtsAtoms, ← h₁, ← h₂, ← hsections]
  · simp

/-! ### Exceptions -/

theorem Converts.handler (h : Converts options long silent t) (hs : (kindsOf [.catchClause]).admits t = true) :
    Meets long silent (partOf options t).handler (t.Passes silent) fun c => c.atoms = t.atoms := by
  refine h.takeOne hs (by decide) ?_
  rintro _ ⟨c, rfl⟩ hatoms
  exact .pure hatoms

theorem handlers_meets (h : ∀ t ∈ ts, Converts options long silent t)
    (hs : ∀ t ∈ ts, (kindsOf [.catchClause]).admits t = true) :
    Meets long silent (eachPart Part.handler (ts.map (partOf options))) (∀ t ∈ ts, t.Passes silent)
      fun cs => catchesAtoms cs = allAtoms ts ∧ cs.length = ts.length := by
  refine (eachPart_meets fun t ht => (h t ht).handler (hs t ht)).mono fun cs hcs => ?_
  refine ⟨?_, hcs.length_eq.symm⟩
  clear h hs
  induction hcs with
  | nil => rfl
  | cons hfirst _ ih => rw [catchesAtoms, hfirst, allAtoms, ih]

theorem finallyClause_converts : ConvertsNode options long silent .finallyClause := by
  rintro children span text hf - hc
  obtain ⟨a, _, rfl, ha, rfl⟩ := hf
  have hblock : (kindsOf [.block, .finallyClause]).admits a = true := Shape.admits_of_within (by decide) ha
  have heq : assemble options ⟨.finallyClause, span, text⟩ ([a].map (childOf options)) =
      (fun ss => Product.statement (.block ss)) <$> (partOf options a).blockStmts := by
    rw [map_cons, childOf_of_admits ha]
    simp [assemble]
  refine converts_of_assemble heq (fun ss => ⟨ss, rfl⟩) ?_
  rw [atoms_of_lead fun _ => rfl]
  refine (((hc a mem_cons_self).blockStmts hblock).mono fun _ h₁ => ?_).congr ?_
  · simp [h₁]
  · simp

theorem catchClause_converts : ConvertsNode options long silent .catchClause := by
  rintro children span text hf - hc
  have huses : (Tree.node .catchClause children span text).usesSystem =
      ((declaredType? (children.map (childOf options))).getD "Exception" == "Exception") := by
    rcases hf with hf | ⟨c, _, rfl, hcommand, hf⟩
    · obtain ⟨n, _, rfl, hn, a, _, rfl, ha, rfl⟩ := hf
      obtain ⟨n, rfl, hkn⟩ := exists_token_of_single hn
      simp [anyToken, leaf?_of_admits ha, hkn, declaredType?, firstLeaf?, childOf_of_admits ha]
    · obtain ⟨n, _, rfl, hn, a, _, rfl, ha, rfl⟩ := hf
      obtain ⟨c, rfl, hkc⟩ := exists_token_of_single hcommand
      obtain ⟨n, rfl, hkn⟩ := exists_token_of_single hn
      rw [Bool.eq_iff_iff]
      simp [anyToken, leaf?_of_admits ha, hkn, hkc, declaredType?, firstLeaf?, childOf_of_admits ha,
        typeName_eq_exception]
  obtain ⟨ls, _, rfl, hls, n, _, rfl, hn, a, _, rfl, ha, rfl⟩ := exists_tokens_of_fits hf
  obtain ⟨l, rfl, hl⟩ := exists_token_of_single hn
  have hblock : (kindsOf [.block, .finallyClause]).admits a = true := Shape.admits_of_within (by decide) ha
  have hname : firstLeaf? [.name] (ls.map .leaf ++ [Child.leaf l, Child.part (partOf options a)]) = some l :=
    firstLeaf?_behind (a := ls) (b := []) (by simp) hls (by decide) (mem_singleton.mpr rfl) hl
  refine converts_of_assemble (x := catchClause _ _) rfl (fun c => ⟨c, rfl⟩) ?_
  rw [map_append, map_childOf_tokens, map_cons, map_cons, map_nil, childOf_leaf, childOf_of_admits ha] at huses ⊢
  rw [atoms_of_lead fun _ => rfl, catchClause]
  simp only [nameText, hname, nthPart, required, partsOf_append, partsOf_tokens, partsOf_leaf, partsOf_part,
    nil_append, getElem?_cons_zero, Build.pure_bind]
  refine ((Meets.usesSystem _).bind fun _ _ => ((hc a (by simp)).blockStmts hblock).next fun _ h₁ =>
    .pure ?_).congr ?_
  · simp [CatchClause.atoms, Tree.atoms, allAtoms_append, allAtoms_tokens, h₁]
  · simp only [passes_node, refused, offends, huses, forall_mem_append,
      forall_mem_cons, iff_true_intro (passes_tokens hls (by decide)),
      passes_token hl (by decide), true_and]
    simp

theorem tryStatement_eq (site : Site) {o : Option Part} (hp : p.site.kind = .block)
    (hcs : ∀ c ∈ cs, c.site.kind = .catchClause) (ho : ∀ f ∈ o, f.site.kind = .finallyClause) :
    tryStatement site ((p :: (cs ++ o.toList)).map .part) = (do
      let catches ← eachPart Part.handler cs
      let finallyBlock ← optionally (fun f => some <$> f.blockStmts) none o
      if catches.isEmpty && finallyBlock.isNone then .fail (.missing site site.kind .handler)
      else return .tryCatch (← p.blockStmts) catches finallyBlock) := by
  have hfirst : firstPart? .block ((p :: (cs ++ o.toList)).map .part) = some p := by
    rw [firstPart?, partsOf_parts, find?_cons_of_pos (by simp [hp])]
  have hcatch : (p :: (cs ++ o.toList)).filter (fun p => p.site.kind == .catchClause) = cs := by
    have hkeep : cs.filter (fun p => p.site.kind == .catchClause) = cs :=
      filter_eq_self.mpr fun c hc => by simpa using hcs c hc
    have hdrop : o.toList.filter (fun p => p.site.kind == .catchClause) = [] :=
      filter_eq_nil_iff.mpr fun f hf => by simp [ho f (mem_toList.mp hf)]
    rw [filter_cons_of_neg (by simp [hp]), filter_append, hkeep, hdrop, append_nil]
  have hfinally : firstPart? .finallyClause ((p :: (cs ++ o.toList)).map .part) = o := by
    have hnone : cs.find? (fun p => p.site.kind == .finallyClause) = none :=
      find?_eq_none.mpr fun c hc => by simp [hcs c hc]
    rw [firstPart?, partsOf_parts, find?_cons_of_neg (by simp [hp]), find?_append, hnone, none_or]
    cases o with
    | none => rfl
    | some f => simp [ho f rfl]
  rw [tryStatement, hfirst, partsOf_parts, hcatch, hfinally]
  cases o with
  | none | some f => simp [optionally]

theorem tryStatement_of_fits (options : Options) (site : Site) (hf : Fits (Kind.pattern .tryStatement) children) :
    ∃ (b : Tree) (cs : List Tree) (o : Option Tree), children = b :: (cs ++ o.toList) ∧
      (kindsOf [.block]).admits b = true ∧
      (∀ t ∈ cs, (kindsOf [.catchClause]).admits t = true) ∧ (∀ t ∈ o, (kindsOf [.finallyClause]).admits t = true) ∧
      tryStatement site (children.map (childOf options)) = (do
        let catches ← eachPart Part.handler (cs.map (partOf options))
        let finallyBlock ← optionally (fun f => some <$> f.blockStmts) none (o.map (partOf options))
        if catches.isEmpty && finallyBlock.isNone then .fail (.missing site site.kind .handler)
        else return .tryCatch (← (partOf options b).blockStmts) catches finallyBlock) := by
  have hall : ∀ t ∈ children, (kindsOf [.block, .catchClause, .finallyClause]).admits t = true :=
    admits_of_fits hf (by decide)
  obtain ⟨b, _, rfl, hb, cs, _, rfl, hcs, hf⟩ := hf
  obtain ⟨o, _, rfl, ho, rfl⟩ := exists_option_of_fits hf
  rw [append_nil] at hall ⊢
  refine ⟨b, cs, o, rfl, hb, hcs, ho, ?_⟩
  rw [children_of_admits hall, map_cons, map_append, ← toList_map,
    tryStatement_eq _ (kind_of_single options hb) (kinds_of_single options hcs) (kinds_of_option options ho)]

theorem tryStatement_converts : ConvertsNode options long silent .tryStatement := by
  rintro children span text hf - hc
  obtain ⟨b, cs, o, rfl, hb, hcs, ho, heq⟩ := tryStatement_of_fits options ⟨.tryStatement, span, text⟩ hf
  have hblock : (kindsOf [.block, .finallyClause]).admits b = true := Shape.admits_of_within (by decide) hb
  have hbody := (hc b mem_cons_self).blockStmts hblock
  have hhandlers := handlers_meets (fun t ht => hc t (by simp [ht])) hcs
  have hoffends : (Tree.node .tryStatement (b :: (cs ++ o.toList)) span text).refused silent =
      (cs.isEmpty && o.isNone) := by
    simp only [refused, offends, usesSystem, Bool.false_and, Bool.or_false]
    cases cs with
    | cons c cs => simp [kind?_of_single (hcs c mem_cons_self)]
    | nil =>
      cases o with
      | none => simp [kind?_of_single hb]
      | some f => simp [kind?_of_single (ho f rfl)]
  refine converts_of_assemble (x := tryStatement _ _) rfl (fun s => ⟨s, rfl⟩) ?_
  rw [heq, atoms_of_lead fun _ => rfl, allAtoms, allAtoms_append]
  cases o with
  | none =>
    simp only [map_none, optionally, Build.pure_bind, isNone_none, Bool.and_true] at hoffends ⊢
    refine (hhandlers.bind (d := cs ≠ [] ∧ b.Passes silent) fun catches h₁ => ?_).congr ?_
    · have hempty : catches.isEmpty = true ↔ cs = [] := by rw [isEmpty_iff_length_eq_zero, h₁.2, length_eq_zero_iff]
      split
      · next h => exact Meets.missing.congr (by simp [hempty.mp h])
      · next h =>
        refine (hbody.next fun ss h₂ => .pure ?_).congr (by simp [hempty.not.mp h])
        simp [finallyAtoms, h₁.1, h₂]
    · rw [passes_node, hoffends, toList_none, append_nil, forall_mem_cons]
      simp only [ne_eq, isEmpty_eq_false_iff]
      tauto
  | some f =>
    have hfinally : Meets long silent (optionally (fun f => some <$> f.blockStmts) none
        ((some f).map (partOf options))) (f.Passes silent)
        fun s => ∃ ss, s = some ss ∧ stmtsAtoms ss = f.atoms :=
      ((hc f (by simp)).blockStmts (Shape.admits_of_within (by decide) (ho f rfl))).map fun ss hss => ⟨ss, rfl, hss⟩
    refine (hhandlers.bind (d := f.Passes silent ∧ b.Passes silent) fun catches h₁ => hfinally.bind ?_).congr ?_
    · rintro _ ⟨ss, rfl, hss⟩
      simp only [isNone_some, Bool.and_false, Bool.false_eq_true, if_false]
      refine hbody.next fun _ h₂ => .pure ?_
      simp [finallyAtoms, h₁.1, h₂, hss]
    · rw [passes_node, hoffends, toList_some]
      simp only [forall_mem_cons, forall_mem_append, isNone_some, Bool.and_false, true_and]
      tauto

/-! ### Methods -/

theorem Converts.parameter (h : Converts options long silent t) (hs : (kindsOf [.parameter]).admits t = true) :
    Meets long silent (partOf options t).parameter (t.Passes silent) fun _ => t.atoms = [] := by
  refine h.takeOne hs (by decide) ?_
  rintro _ ⟨q, rfl⟩ hatoms
  exact .pure hatoms.symm

theorem Converts.parameters (h : Converts options long silent t) (hs : (kindsOf [.parameters]).admits t = true) :
    Meets long silent (partOf options t).parameters (t.Passes silent) fun _ => [] = t.atoms := by
  refine h.takeOne hs (by decide) ?_
  rintro _ ⟨ps, rfl⟩ hatoms
  exact .pure hatoms

theorem parameter_converts : ConvertsNode options long silent .parameter := by
  rintro children span text hf - -
  obtain ⟨ls, _, rfl, hls, n, _, rfl, hn, rfl⟩ := exists_tokens_of_fits hf
  obtain ⟨l, rfl, hl⟩ := exists_token_of_single hn
  have hname : firstLeaf? [.name] (ls.map .leaf ++ [Child.leaf l]) = some l :=
    firstLeaf?_behind (a := ls) (b := []) (by simp) hls (by decide) (mem_singleton.mpr rfl) hl
  refine converts_of_assemble (x := parameter _ _) rfl (fun q => ⟨q, rfl⟩) ?_
  rw [atoms_of_lead fun _ => rfl, map_append, map_childOf_tokens, map_cons, map_nil, childOf_leaf, parameter]
  simp only [nameText, hname, required, Build.pure_bind]
  refine (Meets.pure ?_).congr ?_
  · simp [allAtoms_append, allAtoms_tokens, Tree.atoms]
  · simp only [passes_node, refused, offends, usesSystem, forall_mem_append, forall_mem_cons,
      iff_true_intro (passes_tokens hls (by decide)), passes_token hl (by decide), true_and]
    simp

theorem parameters_converts : ConvertsNode options long silent .parameters := by
  rintro children span text hf - hc
  obtain ⟨ts, _, rfl, hts, rfl⟩ := hf
  rw [append_nil] at hc ⊢
  refine converts_of_assemble (x := eachPart Part.parameter (partsOf (ts.map (childOf options)))) rfl
    (fun ps => ⟨ps, rfl⟩) ?_
  rw [children_of_admits hts, partsOf_parts, atoms_of_lead fun _ => rfl]
  refine ((eachPart_meets fun t ht => (hc t ht).parameter (hts t ht)).mono fun ps hps => ?_).congr ?_
  · clear hc hts
    rw [Product.atoms]
    induction hps with
    | nil => rfl
    | cons hfirst _ ih => rw [allAtoms, hfirst, ← ih, nil_append]
  · simp

theorem methodDeclaration_eq (site : Site) {ls : List Leaf} {o : Option Part} {b : Part}
    (hls : ∀ m ∈ ls, m.kind = .terminal .voidWord) (hl : l.kind = .terminal .callName)
    (ho : ∀ p ∈ o, p.site.kind = .parameters) (hb : b.site.kind = .block) :
    methodDeclaration site (ls.map .leaf ++ Child.leaf l :: (o.toList ++ [b]).map .part) = (do
      let parameters ← optionally Part.parameters [] o
      let returnType := if ls.isEmpty && anyReturnsValue b.children then "dynamic" else "void"
      return { returnType, name := String.ofList l.text, parameters, body := ← b.blockStmts }) := by
  have hname : firstLeaf? [.callName] (ls.map .leaf ++ Child.leaf l :: (o.toList ++ [b]).map .part) = some l :=
    firstLeaf?_behind (a := ls) (b := []) (by simp) hls (by decide) (mem_singleton.mpr rfl) hl
  have hparameters : firstPart? .parameters (ls.map .leaf ++ Child.leaf l :: (o.toList ++ [b]).map .part) =
      o := by
    cases o with
    | none => simp [firstPart?, hb]
    | some p => simp [firstPart?, ho p rfl]
  have hbody : firstPart? .block (ls.map .leaf ++ Child.leaf l :: (o.toList ++ [b]).map .part) = some b := by
    cases o with
    | none => simp [firstPart?, hb]
    | some p => simp [firstPart?, ho p rfl, hb]
  have hvoid : hasLeaf .voidWord (ls.map .leaf ++ Child.leaf l :: (o.toList ++ [b]).map .part) = !ls.isEmpty := by
    cases ls with
    | nil => simp [hasLeaf, firstLeaf?, hl]
    | cons m ls => simp [hasLeaf, firstLeaf?, hls m]
  rw [methodDeclaration, nameText, hname, hparameters, hbody, hvoid, Bool.not_not]
  cases o with
  | none | some p => simp [optionally]

theorem methodDeclaration_of_fits (options : Options) (site : Site)
    (hf : Fits (Kind.pattern .methodDeclaration) children) : ∃ (ls : List Leaf) (l : Leaf) (o : Option Tree) (b : Tree),
      children = ls.map .leaf ++ .leaf l :: (o.toList ++ [b]) ∧ (∀ m ∈ ls, m.kind = .terminal .voidWord) ∧
      l.kind = .terminal .callName ∧ (∀ t ∈ o, (kindsOf [.parameters]).admits t = true) ∧
      (kindsOf [.block]).admits b = true ∧ methodDeclaration site (children.map (childOf options)) = (do
        let parameters ← optionally Part.parameters [] (o.map (partOf options))
        let returnType :=
          if ls.isEmpty && anyReturnsValue (partOf options b).children then "dynamic" else "void"
        return { returnType, name := String.ofList l.text, parameters, body := ← (partOf options b).blockStmts }) := by
  obtain ⟨ls, _, rfl, hls, n, _, rfl, hn, hf⟩ := exists_tokens_of_fits hf
  have hall : ∀ t ∈ _, (kindsOf [.parameters, .block]).admits t = true := admits_of_fits hf (by decide)
  obtain ⟨o, _, rfl, ho, b, _, rfl, hb, rfl⟩ := exists_option_of_fits hf
  obtain ⟨l, rfl, hl⟩ := exists_token_of_single hn
  refine ⟨ls, l, o, b, rfl, hls, hl, ho, hb, ?_⟩
  rw [map_append, map_childOf_tokens, map_cons, childOf_leaf, children_of_admits hall,
    map_append, ← toList_map, map_cons, map_nil,
    methodDeclaration_eq _ hls hl (kinds_of_option options ho) (kind_of_single options hb)]

theorem methodDeclaration_converts : ConvertsNode options long silent .methodDeclaration := by
  rintro children span text hf - hc
  obtain ⟨ls, l, o, b, rfl, hls, hl, ho, hb, heq⟩ :=
    methodDeclaration_of_fits options ⟨.methodDeclaration, span, text⟩ hf
  have hblock : (kindsOf [.block, .finallyClause]).admits b = true := Shape.admits_of_within (by decide) hb
  have hparameters : Meets long silent (optionally Part.parameters [] (o.map (partOf options)))
      (∀ t ∈ o, t.Passes silent) fun _ => [] = allAtoms o.toList :=
    optionally_meets rfl fun t ht => (hc t (by simp [mem_def.mp ht])).parameters (ho t ht)
  refine converts_of_assemble (x := methodDeclaration _ _) rfl (fun m => ⟨m, rfl⟩) ?_
  rw [heq, atoms_of_lead fun _ => rfl]
  refine (hparameters.bind fun _ h₁ => ((hc b (by simp)).blockStmts hblock).next fun _ h₂ => .pure ?_).congr ?_
  · simp [Tree.atoms, allAtoms_append, allAtoms_tokens, ← h₁, h₂]
  · simp only [passes_node, refused, offends, usesSystem, forall_mem_append, forall_mem_cons,
      iff_true_intro (passes_tokens hls (by decide)), passes_token hl (by decide), true_and]
    simp

/-! ### Programs -/

theorem importDirective_converts : ConvertsNode options long silent .importDirective := by
  rintro children span text hf - hc
  obtain ⟨a, _, rfl, ha, hf⟩ := hf
  obtain ⟨ls, _, rfl, hls, rfl⟩ := exists_tokens_of_fits hf
  rw [append_nil] at hc ⊢
  refine converts_of_assemble (x := importDirective _ _) rfl (fun u => ⟨u, rfl⟩) ?_
  rw [atoms_of_lead fun _ => rfl, map_cons, childOf_of_admits ha, map_childOf_tokens, importDirective]
  simp only [nthPart, required, partsOf_part, getElem?_cons_zero, Build.pure_bind]
  refine ((hc a mem_cons_self).take ha (by decide) fun k hk p hp hatoms => ?_).congr ?_
  · obtain rfl := mem_singleton.mp hk
    obtain ⟨s, rfl⟩ := hp
    refine .pure ?_
    rw [allAtoms, allAtoms_tokens, append_nil, ← hatoms]
    rfl
  · simp only [passes_node, refused, offends, usesSystem, forall_mem_cons,
      iff_true_intro (passes_tokens hls (by decide)), Bool.false_and, Bool.or_self, and_true, true_and]

theorem programParts_meets (h : ∀ t ∈ ts, Converts options long silent t) (hs : ∀ t ∈ ts, unitShape.admits t = true) :
    Meets long silent (programParts (ts.map (partOf options))) (∀ t ∈ ts, t.Passes silent)
      fun r => r.2.flatMap Member.atoms = allAtoms ts := by
  induction ts with
  | nil => exact .gives (by simp) rfl (fun _ => rfl) rfl
  | cons t ts ih =>
    simp only [forall_mem_cons] at h hs ⊢
    have hrest := ih h.2 hs.2
    rw [map_cons, programParts]
    refine h.1.bind hs.1 (by decide) fun k hk p hp hatoms => ?_
    have hp : p = .nothing ∨ (∃ u, p = .importing u) ∨ (∃ m, p = .method m) ∨ ∃ s, p = .statement s := by
      cases k <;> first
        | exact .inl hp | exact .inr (.inl hp) | exact .inr (.inr (.inl hp))
        | exact .inr (.inr (.inr hp)) | exact absurd hk (by decide) | skip
      obtain ⟨ss, rfl⟩ := hp
      exact .inr (.inr (.inr ⟨_, rfl⟩))
    rcases hp with rfl | ⟨u, rfl⟩ | ⟨m, rfl⟩ | ⟨s, rfl⟩
    · refine hrest.mono fun r hr => ?_
      rw [hr, allAtoms, ← hatoms]
      rfl
    · refine hrest.next fun r hr => .pure ?_
      rw [hr, allAtoms, ← hatoms]
      rfl
    · refine hrest.next fun r hr => .pure ?_
      rw [flatMap_cons, hr, allAtoms, ← hatoms]
      rfl
    · refine hrest.next fun r hr => .pure ?_
      rw [flatMap_cons, hr, allAtoms, ← hatoms]
      rfl

theorem compilationUnit_meets (hf : Fits [.many unitShape] children)
    (hc : ∀ t ∈ children, Converts options long silent t) :
    Meets long silent (compilationUnit options (children.map (childOf options)))
      ((Tree.node .compilationUnit children span text).Passes silent)
      fun u => u.atoms = (Tree.node .compilationUnit children span text).atoms := by
  obtain ⟨ts, _, rfl, hts, rfl⟩ := hf
  rw [append_nil] at hc ⊢
  rw [atoms_of_lead fun _ => rfl, children_of_admits hts, compilationUnit, partsOf_parts]
  have hpasses : (Tree.node .compilationUnit ts span text).Passes silent ↔ ∀ t ∈ ts, t.Passes silent := by
    simp
  cases programParts_meets hc hts with
  | gives h hx hn hr =>
    rw [hx]
    exact .gives (hpasses.mpr h) rfl hn hr
  | fails h hx he =>
    rw [hx]
    exact .fails (hpasses.not.mpr h) rfl he
  | noted h hs hx =>
    refine .noted (hpasses.not.mpr h) hs fun u n hu => ?_
    split at hu
    · cases hu
    · next hparts =>
      cases hu
      exact hx _ _ hparts

theorem compilationUnit_converts (hf : Fits [.many unitShape] children)
    (hc : ∀ t ∈ children, Converts options long silent t) :
    Converts options long silent (.node .compilationUnit children span text) :=
  converts_of_assemble rfl (fun u => ⟨u, rfl⟩) (compilationUnit_meets hf hc)

end

end GroovySharp.Conversion
