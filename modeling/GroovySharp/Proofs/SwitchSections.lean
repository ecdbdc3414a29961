import GroovySharp.Proofs.ConversionOutcome

/-!
# Sections of switches

The arms of a switch are its labels, each with the statements behind it.
-/

namespace GroovySharp

open CSharp Grammar Text List

theorem Formed.of_mem_subtrees {t n : Tree} (h : Formed t) (hn : n ∈ t.subtrees) : Formed n := by
  induction h with
  | leaf hl =>
    obtain rfl := mem_singleton.mp hn
    exact .leaf hl
  | node hp hf hc ih =>
    rw [Tree.subtrees, Tree.allSubtrees_eq_flatMap, mem_cons, mem_flatMap] at hn
    rcases hn with rfl | ⟨t, ht, hn⟩
    · exact .node hp hf hc
    · exact ih t ht hn

namespace Conversion

/-! ### Converted parts -/

section

variable {options : Options} {t : Tree} {ts : List Tree} {k : Kind} {children : List Tree} {span : Span}
  {text : Chars} {p : Product}

def Becomes (options : Options) (t : Tree) (p : Product) : Prop := ∃ n, product options t = .ok (p, n)

theorem exists_product_of_any {q : Tree → Product × Notes → Bool}
    (h : (t.subtrees.any fun n => n.kind? == some k && (product options n).toOption.any fun r => q n r) = true) :
    ∃ children span text p notes, .node k children span text ∈ t.subtrees ∧
      product options (.node k children span text) = .ok (p, notes) ∧
      q (.node k children span text) (p, notes) = true := by
  obtain ⟨n, hn, h⟩ := any_eq_true.mp h
  obtain ⟨hk, h⟩ := Bool.and_eq_true_iff.mp h
  cases n with
  | leaf => cases hk
  | node k' children span text =>
    cases beq_iff_eq.mp hk
    obtain ⟨⟨p, notes⟩, hp, hq⟩ := Source.exists_of_toOption_any h
    exact ⟨children, span, text, p, notes, hn, hp, hq⟩

theorem ensures_result : Ensures (partOf options t).result (Becomes options t) := by
  cases t <;> exact fun p n h => ⟨n, h⟩

theorem ensures_expr : Ensures (partOf options t).expr fun e => Becomes options t (.expression e) := by
  refine ensures_result.then fun p hp => ?_
  cases p <;> first | exact .pure hp | exact .fail _

theorem ensures_stmt? : Ensures (partOf options t).stmt? fun s => Becomes options t (s.elim .nothing .statement) := by
  refine ensures_result.then fun p hp => ?_
  cases p <;> first | exact .pure hp | exact .fail _

theorem eachPart_ensures {α : Type} {f : Part → Build α} {Q : Tree → α → Prop}
    (h : ∀ t ∈ ts, Ensures (f (partOf options t)) (Q t)) :
    Ensures (eachPart f (ts.map (partOf options))) (List.Forall₂ Q ts) := by
  induction ts with
  | nil => exact .pure .nil
  | cons t ts ih =>
    rw [forall_mem_cons] at h
    exact h.1.then fun _ ha => (ih h.2).then fun _ has => .pure (.cons ha has)

/-- The statements that the trees are converted to, without those of empty statements. -/
inductive Statements (options : Options) : List Tree → List Stmt → Prop
  | nil : Statements options [] []
  | cons {t : Tree} {s : Stmt} {ts : List Tree} {ss : List Stmt} (h : Becomes options t (.statement s))
    (hrest : Statements options ts ss) : Statements options (t :: ts) (s :: ss)
  | skip {t : Tree} {ts : List Tree} {ss : List Stmt} (h : t.kind? = some .emptyStatement)
    (hrest : Statements options ts ss) : Statements options (t :: ts) ss

theorem emptyStatement_of_nothing (hf : Formed t) (hs : statementShape.admits t = true)
    (h : Becomes options t .nothing) : t.kind? = some .emptyStatement := by
  obtain ⟨k, children, span, text, rfl, hk⟩ := exists_node_of_admits hs
  obtain ⟨n, hn⟩ := h
  obtain ⟨hgives, -⟩ := gives_of_product hf (by rintro rfl; exact absurd hk (by decide)) hn
  cases k <;> first | rfl | exact absurd hk (by decide) | simp [gives] at hgives

theorem stmtsOf_ensures (hf : ∀ t ∈ ts, Formed t) (hs : ∀ t ∈ ts, statementShape.admits t = true) :
    Ensures (stmtsOf (ts.map (partOf options))) (Statements options ts) := by
  refine (eachPart_ensures fun t _ => ensures_stmt?).then fun ss hss => .pure ?_
  induction hss with
  | nil => exact .nil
  | @cons t s ts ss h _ ih =>
    rw [forall_mem_cons] at hf hs
    cases s with
    | none => exact .skip (emptyStatement_of_nothing hf.1 hs.1 h) (ih hf.2 hs.2)
    | some s => exact .cons h (ih hf.2 hs.2)

end

/-! ### Arms -/

end Conversion

abbrev CSharp.Arm := SwitchLabel × List Stmt

def CSharp.SwitchSection.labels : SwitchSection → List SwitchLabel
  | .mk labels _ => labels

def CSharp.SwitchSection.statements : SwitchSection → List Stmt
  | .mk _ statements => statements

namespace Conversion

/-- The arms of a switch of the given cases and the statements behind `default`. -/
def armsOf (cases : List (Expr × List Stmt)) (fallback : Option (List Stmt)) : List Arm :=
  cases.map (fun c => (.case c.1, c.2)) ++ fallback.toList.map fun ss => (.fallback, ss)

/-- The sections keep the labels and the statements of the arms. An arm without statements stands in
the section of the next arm, and statements without a jump get a `break`. -/
structure Arranged (arms : List Arm) (sections : List SwitchSection) : Prop where
  labels : sections.flatMap SwitchSection.labels = arms.map (·.1)
  labelled : ∀ s ∈ sections, s.labels ≠ []
  closed : ∀ s ∈ sections, s.statements.any Stmt.isJump = true
  shared : ∀ front a b back, arms = front ++ a :: b :: back → a.2 = [] →
    ∃ before s after l r, sections = before ++ s :: after ∧ s.labels = l ++ a.1 :: b.1 :: r ∧
      before.flatMap SwitchSection.labels ++ l = front.map (·.1)
  statements : ∃ given : List (List Stmt), sections.map SwitchSection.statements = given.map terminated ∧
    given.flatten = arms.flatMap (·.2)

theorem any_isJump_terminated (ss : List Stmt) : (terminated ss).any Stmt.isJump = true := by
  unfold terminated
  split
  · assumption
  · simp [Stmt.isJump]

/-- The sections of arms behind labels that have no statements yet. -/
def grouped (labels : List SwitchLabel) : List Arm → List SwitchSection
  | [] => if labels = [] then [] else [.mk labels (terminated [])]
  | (l, ss) :: arms =>
    if ss = [] then grouped (labels ++ [l]) arms
    else .mk (labels ++ [l]) (terminated ss) :: grouped [] arms

theorem grouped_cases (labels : List SwitchLabel) (cases : List (Expr × List Stmt)) (rest : List Arm) :
    grouped labels (cases.map (fun c => (SwitchLabel.case c.1, c.2)) ++ rest) =
      (switchSections labels cases).1 ++ grouped (switchSections labels cases).2 rest := by
  induction cases generalizing labels with
  | nil => rfl
  | cons c cases ih =>
    obtain ⟨value, ss⟩ := c
    cases ss with
    | nil => exact ih _
    | cons s ss =>
      simp only [map_cons, cons_append, grouped, switchSections, reduceCtorEq, if_false,
        isEmpty_cons, Bool.false_eq_true, ih]

theorem labels_grouped (labels : List SwitchLabel) (arms : List Arm) :
    (grouped labels arms).flatMap SwitchSection.labels = labels ++ arms.map (·.1) := by
  fun_induction grouped labels arms with
  | case1 => rfl
  | case2 labels h => simp [SwitchSection.labels]
  | case3 labels l arms ih => simpa using ih
  | case4 labels l ss arms h ih => simp [SwitchSection.labels, ih]

theorem labels_ne_nil_of_grouped (labels : List SwitchLabel) (arms : List Arm) :
    ∀ s ∈ grouped labels arms, s.labels ≠ [] ∧ s.statements.any Stmt.isJump = true := by
  fun_induction grouped labels arms with
  | case1 => exact forall_mem_nil _
  | case2 labels h => exact forall_mem_singleton.mpr ⟨h, rfl⟩
  | case3 labels l arms ih => exact ih
  | case4 labels l ss arms h ih =>
    exact forall_mem_cons.mpr ⟨⟨by simp [SwitchSection.labels], any_isJump_terminated ss⟩, ih⟩

theorem statements_grouped (labels : List SwitchLabel) (arms : List Arm) :
    ∃ given : List (List Stmt), (grouped labels arms).map SwitchSection.statements = given.map terminated ∧
      given.flatten = arms.flatMap (·.2) := by
  fun_induction grouped labels arms with
  | case1 => exact ⟨[], rfl, rfl⟩
  | case2 labels h => exact ⟨[[]], rfl, rfl⟩
  | case3 labels l arms ih => simpa using ih
  | case4 labels l ss arms h ih =>
    obtain ⟨given, hmap, hflat⟩ := ih
    exact ⟨ss :: given, by simp [SwitchSection.statements, hmap], by simp [hflat]⟩

/-- The first arm stands in the first section, behind the labels. -/
theorem grouped_cons (labels : List SwitchLabel) (a : Arm) (arms : List Arm) :
    ∃ s after r, grouped labels (a :: arms) = s :: after ∧ s.labels = labels ++ a.1 :: r := by
  induction arms generalizing labels a with
  | nil =>
    obtain ⟨l, ss⟩ := a
    rw [grouped]
    split
    · exact ⟨_, _, [], by rw [grouped, if_neg (by simp)], rfl⟩
    · exact ⟨_, _, [], rfl, rfl⟩
  | cons b arms ih =>
    obtain ⟨l, ss⟩ := a
    rw [grouped]
    split
    · obtain ⟨s, after, r, hs, hlabels⟩ := ih (labels ++ [l]) b
      exact ⟨s, after, b.1 :: r, hs, by simpa using hlabels⟩
    · exact ⟨_, _, [], rfl, rfl⟩

theorem shared_grouped (labels : List SwitchLabel) {arms front back : List Arm} {a b : Arm}
    (h : arms = front ++ a :: b :: back) (ha : a.2 = []) :
    ∃ before s after l r, grouped labels arms = before ++ s :: after ∧ s.labels = l ++ a.1 :: b.1 :: r ∧
      before.flatMap SwitchSection.labels ++ l = labels ++ front.map (·.1) := by
  subst h
  induction front generalizing labels with
  | nil =>
    obtain ⟨s, after, r, hs, hlabels⟩ := grouped_cons (labels ++ [a.1]) b back
    refine ⟨[], s, after, labels, r, ?_, by simpa using hlabels, by simp⟩
    rw [nil_append, grouped, if_pos ha, hs, nil_append]
  | cons c front ih =>
    obtain ⟨lc, ss⟩ := c
    rw [cons_append, grouped]
    split
    · obtain ⟨before, s, after, l, r, hs, hlabels, hbefore⟩ := ih (labels ++ [lc])
      exact ⟨before, s, after, l, r, hs, hlabels, by simpa using hbefore⟩
    · obtain ⟨before, s, after, l, r, hs, hlabels, hbefore⟩ := ih []
      refine ⟨_ :: before, s, after, l, r, by rw [hs, cons_append], hlabels, ?_⟩
      simpa [SwitchSection.labels] using hbefore

theorem arranged_grouped (arms : List Arm) : Arranged arms (grouped [] arms) where
  labels := labels_grouped [] arms
  labelled s hs := (labels_ne_nil_of_grouped [] arms s hs).1
  closed s hs := (labels_ne_nil_of_grouped [] arms s hs).2
  shared _ _ _ _ h ha := shared_grouped [] h ha
  statements := statements_grouped [] arms

theorem grouped_fallback (labels : List SwitchLabel) (ss : List Stmt) :
    grouped labels [(.fallback, ss)] = [.mk (labels ++ [.fallback]) (terminated ss)] := by
  cases ss <;> simp [grouped]

/-! ### Switches -/

section

variable {options : Options} {children : List Tree} {span : Span} {text : Chars}

/-- The parts of the case are converted to the value and the statements. -/
def CaseBecomes (options : Options) (t : Tree) (c : Expr × List Stmt) : Prop :=
  ∃ v ss span text, t = .node .switchCase (v :: ss) span text ∧ Becomes options v (.expression c.1) ∧
    Statements options ss c.2

structure SwitchBecomes (options : Options) (children : List Tree) (cases : List (Expr × List Stmt))
    (fallback : Option (List Stmt)) : Prop where
  cases : List.Forall₂ (CaseBecomes options) (children.filter fun t => t.kind? = some .switchCase) cases
  present : fallback.isSome = true ↔ ∃ l, .leaf l ∈ children ∧ l.kind = .terminal .defaultWord
  statements : ∀ ss, fallback = some ss → ∃ front l back, children = front ++ .leaf l :: back ∧
    l.kind = .terminal .defaultWord ∧ Statements options back ss

theorem switchCase_ensures {t : Tree} (hf : Formed t) (hs : (kindsOf [.switchCase]).admits t = true) :
    Ensures (partOf options t).switchCase (CaseBecomes options t) := by
  obtain ⟨k, children, span, text, rfl, hk⟩ := exists_node_of_admits hs
  obtain rfl := mem_singleton.mp hk
  cases hf with | node hp hfits hc =>
  simp only [Kind.patterns, mem_singleton] at hp
  subst hp
  obtain ⟨a, _, rfl, ha, ts, _, rfl, hts, rfl⟩ := hfits
  rw [append_nil] at hc ⊢
  have hstmts : Ensures (stmtsOf (ts.map (partOf options))) (Statements options ts) :=
    stmtsOf_ensures (fun t ht => hc t (mem_cons_of_mem _ ht)) hts
  rw [Part.switchCase, partOf, product_switchCase options ha hts]
  refine Ensures.then (Q := fun p => ∃ e ss, p = .switchCase e ss ∧ Becomes options a (.expression e) ∧
    Statements options ts ss) (ensures_expr.then fun e he => hstmts.then fun ss hss => .pure ⟨e, ss, rfl, he, hss⟩) ?_
  rintro _ ⟨e, ss, rfl, he, hss⟩
  exact .pure ⟨a, ts, span, text, rfl, he, hss⟩

theorem kind?_ne_of_admits {t : Tree} {k : Kind} {ks : List Kind} (h : (kindsOf ks).admits t = true)
    (hk : k ∉ ks) : t.kind? ≠ some k := by
  obtain ⟨k', _, _, _, rfl, hk'⟩ := exists_node_of_admits h
  rintro ⟨⟩
  exact hk hk'

theorem filter_switchCases {a : Tree} {cs ss : List Tree} (ha : expressionShape.admits a = true)
    (hcs : ∀ t ∈ cs, (kindsOf [.switchCase]).admits t = true) (hss : ∀ t ∈ ss, t.kind? ≠ some .switchCase) :
    (a :: (cs ++ ss)).filter (fun t => t.kind? = some .switchCase) = cs := by
  have hhead : a.kind? ≠ some .switchCase := kind?_ne_of_admits ha (by decide)
  have hkind : ∀ t ∈ cs, t.kind? = some .switchCase := fun t ht => by
    obtain ⟨k, _, _, _, rfl, hk⟩ := exists_node_of_admits (hcs t ht)
    rw [mem_singleton.mp hk]
    rfl
  rw [filter_cons_of_neg (by simpa using hhead), filter_append,
    filter_eq_self.mpr (by simpa using hkind), filter_eq_nil_iff.mpr (by simpa using hss),
    append_nil]

theorem switch_ensures (hf : Formed (.node .switchStatement children span text)) :
    Ensures (product options (.node .switchStatement children span text)) fun p =>
      ∃ subject sections cases fallback, p = .statement (.switch subject sections) ∧
        SwitchBecomes options children cases fallback ∧ Arranged (armsOf cases fallback) sections := by
  cases hf with | node hp hfits hc =>
  simp only [Kind.patterns, mem_cons, not_mem_nil, or_false] at hp
  rcases hp with rfl | rfl
  · obtain ⟨a, _, rfl, ha, cs, _, rfl, hcs, d, _, rfl, hd, ss, _, rfl, hss, rfl⟩ := hfits
    obtain ⟨l, rfl, hl⟩ := exists_token_of_single hd
    rw [append_nil] at hc ⊢
    rw [product_node, map_cons, childOf_of_admits ha, map_append, children_of_admits hcs,
      map_cons, childOf_leaf, children_of_admits hss]
    change Ensures (Product.statement <$> switchStatement _ _) _
    rw [switchStatement_eq _ (kind_ne_of_admits options ha (by decide)) (kinds_of_single options hcs)
      (kinds_ne_of_admits options hss (by decide)) hl]
    refine .map (ensures_expr.then fun subject _ =>
      (eachPart_ensures fun t ht => switchCase_ensures (hc t (by simp [ht])) (hcs t ht)).then fun cases hcases =>
        (stmtsOf_ensures (fun t ht => hc t (by simp [ht])) hss).then fun statements hstatements =>
          .pure ⟨subject, _, cases, some statements, rfl, ⟨?_, ?_, ?_⟩, ?_⟩)
    · rwa [filter_switchCases ha hcs]
      exact forall_mem_cons.mpr ⟨by rintro ⟨⟩, fun t ht => kind?_ne_of_admits (hss t ht) (by decide)⟩
    · exact iff_of_true rfl ⟨l, by simp, hl⟩
    · rintro _ ⟨⟩
      exact ⟨a :: cs, l, ss, rfl, hl, hstatements⟩
    · rw [← grouped_fallback, ← grouped_cases]
      exact arranged_grouped _
  · obtain ⟨a, _, rfl, ha, cs, _, rfl, hcs, rfl⟩ := hfits
    rw [append_nil] at hc ⊢
    rw [product_node, map_cons, childOf_of_admits ha, children_of_admits hcs]
    change Ensures (Product.statement <$> switchStatement _ _) _
    rw [switchStatement_eq_bare _ (kind_ne_of_admits options ha (by decide)) (kinds_of_single options hcs)]
    refine .map (ensures_expr.then fun subject _ =>
      (eachPart_ensures fun t ht => switchCase_ensures (hc t (by simp [ht])) (hcs t ht)).then fun cases hcases => ?_)
    have hparts : SwitchBecomes options (a :: cs) cases none := by
      refine ⟨?_, iff_of_false (by rintro ⟨⟩) ?_, by rintro _ ⟨⟩⟩
      · have hfilter := filter_switchCases ha hcs (forall_mem_nil _)
        rw [append_nil] at hfilter
        rwa [hfilter]
      · rintro ⟨l, hl, -⟩
        rcases mem_cons.mp hl with rfl | hl
        · cases ha
        · cases hcs _ hl
    have harranged : Arranged (armsOf cases none)
        ((switchSections [] cases).1 ++ grouped (switchSections [] cases).2 []) := by
      rw [← grouped_cases]
      exact arranged_grouped _
    rw [grouped] at harranged
    split
    · next hempty =>
      rw [if_pos (isEmpty_iff.mp hempty), append_nil] at harranged
      exact .pure ⟨subject, _, cases, none, rfl, hparts, harranged⟩
    · next hempty =>
      rw [if_neg (hempty ∘ isEmpty_iff.mpr)] at harranged
      exact .pure ⟨subject, _, cases, none, rfl, hparts, harranged⟩

/-- A switch of a program that is converted becomes a switch whose sections keep what its cases and its
`default` are converted to. -/
theorem switch_arranged {source : Chars} {t : Tree} (hread : Program.read source = .ok t)
    (hnode : .node .switchStatement children span text ∈ t.subtrees) {p : Product} {notes : Notes}
    (h : product options (.node .switchStatement children span text) = .ok (p, notes)) :
    ∃ subject sections cases fallback, p = .statement (.switch subject sections) ∧
      SwitchBecomes options children cases fallback ∧ Arranged (armsOf cases fallback) sections :=
  switch_ensures ((Program.read_formed hread).1.of_mem_subtrees hnode) p notes h

theorem switch_arranged_shared : ∃ t children span text subject sections notes,
      Program.read "switch (x) \x7b case 1: case 2: ; f(); case 3: ; default: ; \x7d".toList = .ok t ∧
      .node .switchStatement children span text ∈ t.subtrees ∧ product {} (.node .switchStatement children span text) =
        .ok (.statement (.switch subject sections), notes) ∧ sections.map (·.labels.length) = [2, 2] ∧
      ∃ cases fallback, SwitchBecomes {} children cases fallback ∧ Arranged (armsOf cases fallback) sections := by
  obtain ⟨t, ht, hp⟩ := Source.exists_of_toOption_any
    (x := Program.read "switch (x) \x7b case 1: case 2: ; f(); case 3: ; default: ; \x7d".toList)
    (p := fun t => t.subtrees.any fun n => n.kind? == some .switchStatement &&
      (product {} n).toOption.any fun r => match r.1 with
        | .statement (.switch _ sections) => sections.map (·.labels.length) == [2, 2]
        | _ => false)
    (by decide +kernel)
  obtain ⟨children, span, text, p, notes, hn, hproduct, hp⟩ := exists_product_of_any hp
  obtain ⟨subject, sections, cases, fallback, rfl, hparts, harranged⟩ := switch_arranged ht hn hproduct
  exact ⟨t, children, span, text, subject, sections, notes, ht, hn, hproduct, beq_iff_eq.mp hp, cases,
    fallback, hparts, harranged⟩

end

end Conversion

end GroovySharp
