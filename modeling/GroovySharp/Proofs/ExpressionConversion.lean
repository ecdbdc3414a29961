import GroovySharp.Proofs.ConversionSteps

/-!
# The conversion of expressions

For each kind of expression: if its children are converted as they should be, it is.
-/

namespace GroovySharp.Conversion

open CSharp Grammar Text List GroovySharp.Tree Terminal

theorem product_node (options : Options) (k : Kind) (children : List Tree) (span : Span)
    (text : Chars) : product options (.node k children span text) =
      assemble options ⟨k, span, text⟩ (children.map (childOf options)) := by
  rw [product, prepared_eq_map]

section

variable {options : Options} {long : Prop} {silent : Bool} {k : Kind} {t : Tree}
  {children ts : List Tree} {span : Span}
  {text : Chars}

theorem converts_of_assemble {α : Type} {g : α → Product} {x : Build α}
    (hx : assemble options ⟨k, span, text⟩ (children.map (childOf options)) = g <$> x)
    (hg : ∀ a, gives k (g a)) (h : Meets long silent x ((Tree.node k children span text).Passes silent)
      fun a => (g a).atoms = (Tree.node k children span text).atoms) :
    Converts options long silent (.node k children span text) := by
  intro _
  rw [product_node, hx]
  exact h.map fun a ha => ⟨hg a, ha⟩

theorem atoms_of_lead (h : ∀ l, leadAtoms k l = []) : (Tree.node k children span text).atoms = allAtoms children := by
  cases children with
  | nil => rfl
  | cons t ts =>
    cases t with
    | leaf l => rw [atoms, h, nil_append]
    | node => rfl

theorem atoms_of_token (l : Leaf) :
    (Tree.node k (.leaf l :: children) span text).atoms = leadAtoms k l ++ allAtoms children := by
  rw [atoms, allAtoms, atoms, nil_append]

variable {ks : List Kind} {l : Leaf}

theorem kind_of_admits (options : Options) (h : (kindsOf ks).admits t = true) :
    (partOf options t).site.kind ∈ ks ∧ t.kind? = some (partOf options t).site.kind := by
  obtain ⟨k, children, span, text, rfl, hk⟩ := exists_node_of_admits h
  exact ⟨hk, rfl⟩

theorem kind_of_single (options : Options) (h : (kindsOf [k]).admits t = true) : (partOf options t).site.kind = k :=
  mem_singleton.mp (kind_of_admits options h).1

theorem kind?_of_single (h : (kindsOf [k]).admits t = true) : t.kind? = some k := by
  obtain ⟨k', children, span, text, rfl, hk⟩ := exists_node_of_admits h
  rw [mem_singleton.mp hk]
  rfl

theorem kinds_of_single (options : Options) (h : ∀ t ∈ ts, (kindsOf [k]).admits t = true) :
    ∀ p ∈ ts.map (partOf options), p.site.kind = k := by
  intro p hp
  obtain ⟨t, ht, rfl⟩ := mem_map.mp hp
  exact kind_of_single options (h t ht)

theorem kind_ne_of_admits (options : Options) (h : (kindsOf ks).admits t = true) (hk : k ∉ ks) :
    (partOf options t).site.kind ≠ k :=
  fun heq => hk (heq ▸ (kind_of_admits options h).1)

theorem kinds_ne_of_admits (options : Options) (h : ∀ t ∈ ts, (kindsOf ks).admits t = true)
    (hk : k ∉ ks) : ∀ p ∈ ts.map (partOf options), p.site.kind ≠ k := by
  intro p hp
  obtain ⟨t, ht, rfl⟩ := mem_map.mp hp
  exact kind_ne_of_admits options (h t ht) hk

theorem leaves_of_admits (h : ∀ t ∈ ts, (kindsOf ks).admits t = true) : ts.filterMap leaf? = [] :=
  filterMap_eq_nil_iff.mpr fun t ht => leaf?_of_admits (h t ht)

theorem anyToken_lead (h : ∀ t ∈ ts, (kindsOf ks).admits t = true) (p : Leaf → Bool) (l : Leaf) :
    anyToken p (.leaf l :: ts) = p l := by
  rw [anyToken, filterMap_cons, leaves_of_admits h]
  exact Bool.or_false _

theorem kinds_of_admits (options : Options) (h : ∀ t ∈ ts, (kindsOf ks).admits t = true) :
    ts.filterMap kind? = ts.map fun t => (partOf options t).site.kind := by
  rw [← filterMap_eq_map]
  exact filterMap_congr fun t ht => (kind_of_admits options (h t ht)).2

/-! ### Optional tokens -/

theorem exists_tokens_of_fits {k : Terminal} {items : List Item} (hf : Fits (.optional (tokensOf [k]) :: items) ts) :
    ∃ (ls : List Leaf) (rest : List Tree), ts = ls.map .leaf ++ rest ∧
      (∀ l ∈ ls, l.kind = .terminal k) ∧ Fits items rest := by
  rcases hf with hf | ⟨o, rest, rfl, ho, hrest⟩
  · exact ⟨[], ts, rfl, by simp, hf⟩
  · obtain ⟨l, rfl, hl⟩ := exists_token_of_single ho
    exact ⟨[l], rest, rfl, by simpa using hl, hrest⟩

theorem allAtoms_tokens (ls : List Leaf) : allAtoms (ls.map .leaf) = [] := by
  induction ls with
  | nil => rfl
  | cons l ls ih => rw [map_cons, allAtoms, ih, atoms, nil_append]

theorem map_childOf_tokens (options : Options) (ls : List Leaf) :
    (ls.map Tree.leaf).map (childOf options) = ls.map .leaf := by
  rw [map_map]
  rfl

@[simp] theorem partsOf_tokens (ls : List Leaf) : partsOf (ls.map .leaf) = [] := by
  induction ls with
  | nil => rfl
  | cons l ls ih => rw [map_cons, partsOf_leaf, ih]

@[simp] theorem leavesOf_tokens (ls : List Leaf) : leavesOf (ls.map .leaf) = ls := by
  induction ls with
  | nil => rfl
  | cons l ls ih => rw [map_cons, leavesOf_leaf, ih]

theorem passes_tokens {ls : List Leaf} {k : Terminal} (h : ∀ l ∈ ls, l.kind = .terminal k)
    (hk : k ≠ .integer) : ∀ t ∈ ls.map Tree.leaf, t.Passes silent := by
  intro t ht
  obtain ⟨l, hl, rfl⟩ := mem_map.mp ht
  exact passes_token (h l hl) hk

theorem firstLeaf?_behind {cs : List Child} {a b : List Leaf} {names : List Terminal}
    {k j : Terminal} (hcs : leavesOf cs = a ++ l :: b) (ha : ∀ m ∈ a, m.kind = .terminal j)
    (hj : j ∉ names) (hk : k ∈ names) (hl : l.kind = .terminal k) : firstLeaf? names cs = some l := by
  have hnone : a.find? (fun m => names.any fun t => m.kind == .terminal t) = none := by
    refine find?_eq_none.mpr fun m hm => ?_
    rw [ha m hm]
    simp only [any_eq_true, beq_iff_eq, LeafKind.terminal.injEq, not_exists, not_and]
    rintro t ht rfl
    exact hj ht
  have hsome : (names.any fun t => l.kind == .terminal t) = true := by
    rw [hl]
    simpa using hk
  rw [firstLeaf?, hcs, find?_append, hnone, Option.none_or, find?_cons, hsome]

theorem firstLeaf?_leaf {names : List Terminal} {k : Terminal} (hk : k ∈ names) (hl : l.kind = .terminal k)
    (cs : List Child) : firstLeaf? names (.leaf l :: cs) = some l := by
  have hsome : (names.any fun t => l.kind == .terminal t) = true := by
    rw [hl]
    simpa using hk
  rw [firstLeaf?, leavesOf_leaf, find?_cons, hsome]

theorem firstLeaf?_part (names : List Terminal) (p : Part) (cs : List Child) :
    firstLeaf? names (.part p :: cs) = firstLeaf? names cs := rfl

/-! ### Operators -/

attribute [local simp] passes_node refused offends usesSystem Product.atoms Expr.atoms allAtoms required

section

variable {α : Type} (site : Site) (role : Role) (n : Nat) (p : Part) (cs : List Child)

theorem nthPart_zero (f : Part → Build α) : (nthPart site (.part p :: cs) 0 role >>= f) = f p :=
  Build.pure_bind ..

theorem nthPart_succ : nthPart site (.part p :: cs) (n + 1) role = nthPart site cs n role := rfl

theorem nthPart_leaf : nthPart site (.leaf l :: cs) n role = nthPart site cs n role := rfl

theorem required_some (a : α) {β : Type} (f : α → Build β) : (required site role (some a) >>= f) = f a :=
  Build.pure_bind ..

end

theorem ternaryExpression_converts : ConvertsNode options long silent .ternaryExpression := by
  rintro children span text hf - hc
  obtain ⟨a, _, rfl, ha, b, _, rfl, hb, d, _, rfl, hd, rfl⟩ := hf
  simp only [forall_mem_cons] at hc
  obtain ⟨hca, hcb, hcd, -⟩ := hc
  refine converts_of_assemble (x := ternaryExpression _ _) rfl (fun e => ⟨e, rfl⟩) ?_
  rw [map_cons, map_cons, map_cons, childOf_of_admits ha, childOf_of_admits hb,
    childOf_of_admits hd, map_nil, atoms_of_lead fun _ => rfl]
  simp only [ternaryExpression, nthPart_zero, nthPart_succ]
  refine ((hca.expr ha).bind fun _ h₁ => (hcb.expr hb).bind fun _ h₂ =>
    (hcd.expr hd).next fun _ h₃ => .pure ?_).congr ?_
  · simp [h₁, h₂, h₃]
  · simp

theorem ofText?_eq_none_iff (h : operatorTokens.admits (.leaf l) = true) (hs : l.spelled = true) :
    BinaryOp.ofText? (String.ofList l.text) = none ↔ l.text = ['*', '*'] ∨ l.text = ['<', '=', '>'] := by
  obtain ⟨l, k, hleaf, hk, hl⟩ := exists_token_of_admits h
  obtain rfl := Tree.leaf.inj hleaf
  simp only [Leaf.spelled, hl] at hs
  simp only [mem_cons, not_mem_nil, or_false] at hk
  rcases hk with rfl | rfl | rfl | rfl | rfl | rfl | rfl | rfl | rfl | rfl | rfl | rfl | rfl | rfl | rfl <;>
  · simp only [spells, fixedText?, Option.all_some, beq_iff_eq] at hs
    rw [← hs]
    decide

theorem binaryExpression_converts : ConvertsNode options long silent .binaryExpression := by
  intro children span text hf hform hc
  obtain ⟨a, _, rfl, ha, o, _, rfl, ho, b, _, rfl, hb, rfl⟩ := hf
  obtain ⟨l, k, rfl, hk, hl⟩ := exists_token_of_admits ho
  simp only [forall_mem_cons] at hc hform
  obtain ⟨hca, -, hcb, -⟩ := hc
  obtain ⟨-, hspelled, -⟩ := hform
  have htoken : (Tree.leaf l).Passes silent := passes_token_of_mem hk hl (by decide)
  refine converts_of_assemble (x := binaryExpression _ _) rfl (fun e => ⟨e, rfl⟩) ?_
  rw [map_cons, map_cons, map_cons, childOf_of_admits ha, childOf_leaf,
    childOf_of_admits hb, map_nil, atoms_of_lead fun _ => rfl]
  have hnone := ofText?_eq_none_iff ho hspelled.spelled
  have hoffends : (Tree.node .binaryExpression [a, .leaf l, b] span text).refused silent = true ↔
      l.text = ['*', '*'] ∨ l.text = ['<', '=', '>'] := by
    obtain ⟨_, _, _, _, rfl, -⟩ := exists_node_of_admits ha
    obtain ⟨_, _, _, _, rfl, -⟩ := exists_node_of_admits hb
    simp [anyToken, leaf?]
  simp only [binaryExpression, operatorText?, leavesOf_part, leavesOf_leaf, head?_cons, Option.map_some, required_some]
  cases hop : BinaryOp.ofText? (String.ofList l.text) with
  | none =>
    have hbad := hoffends.mpr (hnone.mp hop)
    exact Meets.unsupported.congr (by simp [-refused, hbad])
  | some op =>
    have hgood := Bool.eq_false_iff.mpr (hoffends.not.mpr fun h => by simp [hnone.mpr h] at hop)
    simp only [nthPart_zero, nthPart_succ, nthPart_leaf]
    refine ((hca.expr ha).bind fun _ h₁ => (hcb.expr hb).next fun _ h₂ => .pure ?_).congr ?_
    · simp [atoms, h₁, h₂]
    · simp [-refused, hgood, htoken]

theorem exists_assignOp (hl : l.kind = .terminal .assign) (hs : l.spelled = true) :
    ∃ op, AssignOp.ofText? (String.ofList l.text) = some op := by
  simp only [Leaf.spelled, hl, spells, contains_iff_mem, mem_cons, not_mem_nil, or_false] at hs
  rcases hs with h | h | h | h | h | h <;> rw [h] <;> exact ⟨_, rfl⟩

theorem assignmentExpression_converts : ConvertsNode options long silent .assignmentExpression := by
  intro children span text hf hform hc
  obtain ⟨a, _, rfl, ha, o, _, rfl, ho, b, _, rfl, hb, rfl⟩ := hf
  obtain ⟨l, rfl, hl⟩ := exists_token_of_single ho
  simp only [forall_mem_cons] at hc hform
  obtain ⟨hca, -, hcb, -⟩ := hc
  obtain ⟨op, hop⟩ := exists_assignOp hl hform.2.1.spelled
  refine converts_of_assemble (x := assignmentExpression _ _) rfl (fun e => ⟨e, rfl⟩) ?_
  rw [map_cons, map_cons, map_cons, childOf_of_admits ha, childOf_leaf,
    childOf_of_admits hb, map_nil, atoms_of_lead fun _ => rfl]
  simp only [assignmentExpression, firstLeaf?_part, firstLeaf?_leaf mem_cons_self hl, required_some, hop,
    nthPart_zero, nthPart_succ, nthPart_leaf]
  refine ((hca.expr ha).bind fun _ h₁ => (hcb.expr hb).next fun _ h₂ => .pure ?_).congr ?_
  · simp [atoms, h₁, h₂]
  · simp [passes_token hl (by decide)]

theorem unaryExpression_converts : ConvertsNode options long silent .unaryExpression := by
  intro children span text hf hform hc
  obtain ⟨o, _, rfl, ho, a, _, rfl, ha, rfl⟩ := hf
  obtain ⟨l, k, rfl, hk, hl⟩ := exists_token_of_admits ho
  simp only [forall_mem_cons] at hc hform
  obtain ⟨op, hop⟩ : ∃ op, leadingOp? l.text = some op := by
    have hs := hform.1.spelled
    simp only [Leaf.spelled, hl] at hs
    simp only [mem_cons, not_mem_nil, or_false] at hk
    rcases hk with rfl | rfl <;>
    · simp only [spells, fixedText?, Option.all_some, beq_iff_eq] at hs
      rw [← hs]
      exact ⟨_, rfl⟩
  refine converts_of_assemble (x := unaryExpression _ _) rfl (fun e => ⟨e, rfl⟩) ?_
  rw [map_cons, map_cons, childOf_of_admits ha, childOf_leaf, map_nil, atoms_of_lead fun _ => rfl]
  simp only [unaryExpression, operatorText?, leavesOf_leaf, head?_cons, Option.map_some, Option.bind_some, hop,
    required_some, nthPart_leaf, nthPart_zero]
  refine ((hc.2.1.expr ha).next fun _ h₁ => .pure ?_).congr ?_
  · simp [atoms, h₁]
  · simp [passes_token_of_mem hk hl (by decide)]

theorem postfixExpression_converts : ConvertsNode options long silent .postfixExpression := by
  intro children span text hf hform hc
  obtain ⟨a, _, rfl, ha, o, _, rfl, ho, rfl⟩ := hf
  obtain ⟨l, k, rfl, hk, hl⟩ := exists_token_of_admits ho
  simp only [forall_mem_cons] at hc hform
  obtain ⟨op, hop⟩ : ∃ op, trailingOp? l.text = some op := by
    have hs := hform.2.1.spelled
    simp only [Leaf.spelled, hl] at hs
    simp only [mem_cons, not_mem_nil, or_false] at hk
    rcases hk with rfl | rfl <;>
    · simp only [spells, fixedText?, Option.all_some, beq_iff_eq] at hs
      rw [← hs]
      exact ⟨_, rfl⟩
  refine converts_of_assemble (x := postfixExpression _ _) rfl (fun e => ⟨e, rfl⟩) ?_
  rw [map_cons, map_cons, childOf_of_admits ha, childOf_leaf, map_nil, atoms_of_lead fun _ => rfl]
  simp only [postfixExpression, operatorText?, leavesOf_part, leavesOf_leaf, head?_cons, Option.map_some,
    Option.bind_some, hop, required_some, nthPart_zero]
  refine ((hc.1.expr ha).next fun _ h₁ => .pure ?_).congr ?_
  · simp [atoms, h₁]
  · simp [passes_token_of_mem hk hl (by decide)]

theorem indexExpression_converts : ConvertsNode options long silent .indexExpression := by
  rintro children span text hf - hc
  obtain ⟨a, _, rfl, ha, b, _, rfl, hb, rfl⟩ := hf
  simp only [forall_mem_cons] at hc
  refine converts_of_assemble (x := indexExpression _ _) rfl (fun e => ⟨e, rfl⟩) ?_
  rw [map_cons, map_cons, childOf_of_admits ha, childOf_of_admits hb, map_nil, atoms_of_lead fun _ => rfl]
  simp only [indexExpression, nthPart_zero, nthPart_succ]
  refine ((hc.1.expr ha).bind fun _ h₁ => (hc.2.1.expr hb).next fun _ h₂ => .pure ?_).congr ?_
  · simp [h₁, h₂]
  · simp

theorem listLiteral_converts : ConvertsNode options long silent .listLiteral := by
  rintro children span text hf - hc
  obtain ⟨ts, _, rfl, hts, rfl⟩ := hf
  rw [append_nil] at hc ⊢
  refine converts_of_assemble (g := fun es => .expression (.arrayCreation "object" es))
    (x := exprsOf (partsOf (ts.map (childOf options)))) rfl (fun es => ⟨_, rfl⟩) ?_
  rw [children_of_admits hts, partsOf_parts, atoms_of_lead fun _ => rfl]
  refine ((exprsOf_meets hc hts).mono fun es hes => ?_).congr ?_
  · simpa only [Product.atoms, Expr.atoms] using hes
  · simp

theorem mapLiteral_converts : Converts options long silent (.node .mapLiteral children span text) := by
  intro _
  rw [product_node]
  exact Meets.unsupported.congr (by simp)

/-! ### Calls -/

theorem callee_meets (name : String) :
    Meets long silent (callee name) ((decide (name ∈ ["println", "print"]) && silent) = false)
      fun e => e.atoms = [.name (calledName name)] := by
  by_cases hname : name ∈ ["println", "print"]
  · have hcalled : calledName name = "Console" := if_pos (by simpa using hname)
    obtain ⟨method, hm⟩ : ∃ method, consoleMethod? name = some method := by
      rcases mem_pair.mp hname with rfl | rfl
      · exact ⟨_, rfl⟩
      · exact ⟨_, rfl⟩
    rw [callee, hm, decide_eq_true hname]
    refine (Meets.usesSystem true).next fun _ _ => .pure ?_
    rw [Expr.atoms, Expr.atoms, hcalled]
  · have hcalled : calledName name = name := if_neg (by simpa using hname)
    have hm : consoleMethod? name = none := by
      unfold consoleMethod?
      split
      · exact absurd (by simp) hname
      · exact absurd (by simp) hname
      · rfl
    rw [callee, hm, decide_eq_false hname]
    refine (Meets.pure ?_).congr (by simp)
    rw [Expr.atoms, hcalled]

theorem Converts.argument (h : Converts options long silent t) (hs : (kindsOf [.namedArgument]).admits t = true) :
    Meets long silent (partOf options t).argument (t.Passes silent) fun a => a.atoms = t.atoms := by
  refine h.takeOne hs (by decide) ?_
  rintro _ ⟨a, rfl⟩ hatoms
  exact .pure hatoms

theorem Converts.arguments (h : Converts options long silent t) (hs : (kindsOf [.arguments]).admits t = true) :
    Meets long silent (partOf options t).arguments (t.Passes silent) fun xs => argumentsAtoms xs = t.atoms := by
  refine h.takeOne hs (by decide) ?_
  rintro _ ⟨xs, rfl⟩ hatoms
  exact .pure hatoms

theorem Converts.listedArgument (h : Converts options long silent t) (hs : argumentShape.admits t = true) :
    Meets long silent (listedArgument (partOf options t)) (t.Passes silent) fun a => a.atoms = t.atoms := by
  obtain ⟨k, children, span, text, rfl, hk⟩ := exists_node_of_admits hs
  unfold Conversion.listedArgument
  rcases mem_cons.mp hk with rfl | hk
  · exact h.argument rfl
  · have hne : (k == Kind.namedArgument) = false := by
      cases k <;> first | rfl | exact absurd hk (by decide)
    have hexpr : expressionShape.admits (.node k children span text) = true :=
      contains_iff_mem.mpr hk
    simp only [partOf, hne, Bool.false_eq_true, if_false]
    refine (h.expr hexpr).next fun e he => .pure ?_
    rw [Argument.atoms, he]

theorem Converts.callArguments (h : Converts options long silent t)
    (hs : (kindsOf [.arguments, .closure]).admits t = true) :
    Meets long silent (callArguments (partOf options t)) (t.Passes silent) fun xs => argumentsAtoms xs = t.atoms := by
  obtain ⟨k, children, span, text, rfl, hk⟩ := exists_node_of_admits hs
  unfold Conversion.callArguments
  simp only [mem_cons, not_mem_nil, or_false] at hk
  rcases hk with rfl | rfl
  · exact h.arguments rfl
  · refine (h.expr rfl).next fun e he => .pure ?_
    rw [argumentsAtoms, argumentsAtoms, Argument.atoms, he, append_nil]

theorem argumentsAtoms_append (xs ys : List Argument) :
    argumentsAtoms (xs ++ ys) = argumentsAtoms xs ++ argumentsAtoms ys := by
  induction xs with
  | nil => rfl
  | cons x xs ih => rw [cons_append, argumentsAtoms, ih, argumentsAtoms, append_assoc]

theorem callTail_admits (hf : Fits [.optional (kindsOf [.arguments]), .optional (kindsOf [.closure])] ts) :
    ∀ t ∈ ts, (kindsOf [.arguments, .closure]).admits t = true :=
  admits_of_fits hf (by decide)

theorem callTail_meets (h : ∀ t ∈ ts, Converts options long silent t)
    (hf : Fits [.optional (kindsOf [.arguments]), .optional (kindsOf [.closure])] ts) :
    Meets long silent (eachPart callArguments (ts.map (partOf options))) (∀ t ∈ ts, t.Passes silent)
      fun xss => argumentsAtoms xss.flatten = allAtoms ts := by
  have hs := callTail_admits hf
  refine (eachPart_meets fun t ht => (h t ht).callArguments (hs t ht)).mono fun xss hxss => ?_
  clear h hs hf
  induction hxss with
  | nil => rfl
  | cons hfirst _ ih => rw [flatten_cons, argumentsAtoms_append, allAtoms, hfirst, ih]

theorem arguments_converts : ConvertsNode options long silent .arguments := by
  rintro children span text hf - hc
  obtain ⟨ts, _, rfl, hts, rfl⟩ := hf
  rw [append_nil] at hc ⊢
  refine converts_of_assemble (x := eachPart listedArgument (partsOf (ts.map (childOf options)))) rfl
    (fun xs => ⟨_, rfl⟩) ?_
  rw [children_of_admits hts, partsOf_parts, atoms_of_lead fun _ => rfl]
  refine ((eachPart_meets fun t ht => (hc t ht).listedArgument (hts t ht)).mono fun xs hxs => ?_).congr ?_
  · clear hc hts
    rw [Product.atoms]
    induction hxs with
    | nil => rfl
    | cons hfirst _ ih => rw [argumentsAtoms, allAtoms, hfirst, ih]
  · simp

theorem namedArgument_converts : ConvertsNode options long silent .namedArgument := by
  rintro children span text hf - hc
  obtain ⟨o, _, rfl, ho, a, _, rfl, ha, rfl⟩ := hf
  obtain ⟨l, rfl, hl⟩ := exists_token_of_single ho
  simp only [forall_mem_cons] at hc
  refine converts_of_assemble (x := namedArgument _ _) rfl (fun e => ⟨e, rfl⟩) ?_
  rw [map_cons, map_cons, childOf_of_admits ha, childOf_leaf, map_nil, atoms_of_lead fun _ => rfl]
  simp only [namedArgument, nameText, firstLeaf?_leaf mem_cons_self hl, required_some, nthPart_leaf, nthPart_zero,
    Build.pure_bind]
  refine ((hc.2.1.expr ha).next fun _ h₁ => .pure ?_).congr ?_
  · simp [Argument.atoms, atoms, h₁]
  · simp [passes_token hl (by decide)]

theorem memberOf_meets {a : Tree} {safe : List Leaf} {names : List Terminal} {k : Terminal}
    (h : Converts options long silent a) (ha : expressionShape.admits a = true)
    (hsafe : ∀ s ∈ safe, s.kind = .terminal .safeDot) (hnames : .safeDot ∉ names) (hk : k ∈ names)
    (hl : l.kind = .terminal k) (site : Site) (ps : List Part) : Meets long silent
      (memberOf site (.part (partOf options a) :: (safe.map .leaf ++ Child.leaf l :: ps.map .part)) names)
      (a.Passes silent) fun e => e.atoms = a.atoms := by
  have hname : firstLeaf? names
      (.part (partOf options a) :: (safe.map .leaf ++ Child.leaf l :: ps.map .part)) = some l :=
    firstLeaf?_behind (a := safe) (b := []) (by simp) hsafe hnames hk hl
  simp only [memberOf, nthPart, nameText, required, hname, partsOf_part, getElem?_cons_zero, Build.pure_bind]
  refine (h.expr ha).next fun e he => .pure ?_
  rw [Expr.atoms, he]

theorem memberAccess_converts : ConvertsNode options long silent .memberAccess := by
  rintro children span text hf - hc
  obtain ⟨a, _, rfl, ha, hf⟩ := hf
  obtain ⟨safe, _, rfl, hsafe, o, _, rfl, ho, rfl⟩ := exists_tokens_of_fits hf
  obtain ⟨l, rfl, hl⟩ := exists_token_of_single ho
  refine converts_of_assemble (x := memberOf _ _ [.name]) rfl (fun e => ⟨e, rfl⟩) ?_
  rw [map_cons, map_append, map_childOf_tokens, childOf_of_admits ha, map_cons,
    childOf_leaf, map_nil, atoms_of_lead fun _ => rfl]
  refine ((memberOf_meets (hc a mem_cons_self) ha hsafe (by decide) (mem_singleton.mpr rfl) hl
    _ []).mono fun _ h₁ => ?_).congr ?_
  · simp [atoms, allAtoms_append, allAtoms_tokens, h₁]
  · simp only [passes_node, refused, offends, usesSystem, forall_mem_cons, forall_mem_append,
      iff_true_intro (passes_tokens hsafe (by decide)), passes_token hl (by decide), true_and]
    simp

theorem methodCall_converts : ConvertsNode options long silent .methodCall := by
  rintro children span text hf - hc
  obtain ⟨a, _, rfl, ha, hf⟩ := hf
  obtain ⟨safe, _, rfl, hsafe, o, tail, rfl, ho, htail⟩ := exists_tokens_of_fits hf
  obtain ⟨l, k, rfl, hk, hl⟩ := exists_token_of_admits ho
  have hcs : ∀ t ∈ tail, Converts options long silent t := fun t ht => hc t (by simp [ht])
  refine converts_of_assemble (x := methodCall _ _) rfl (fun e => ⟨e, rfl⟩) ?_
  rw [map_cons, map_append, map_childOf_tokens, childOf_of_admits ha, map_cons,
    childOf_leaf, children_of_admits (callTail_admits htail), atoms_of_lead fun _ => rfl, methodCall]
  simp only [partsOf_part, partsOf_append, partsOf_tokens, partsOf_leaf, partsOf_parts, nil_append,
    drop_succ_cons, drop_zero]
  refine ((memberOf_meets (hc a mem_cons_self) ha hsafe (by decide) hk hl _ _).bind fun _ h₁ =>
    (callTail_meets hcs htail).next fun _ h₂ => .pure ?_).congr ?_
  · simp [atoms, allAtoms_append, allAtoms_tokens, h₁, h₂]
  · simp only [passes_node, refused, offends, usesSystem, forall_mem_cons, forall_mem_append,
      iff_true_intro (passes_tokens hsafe (by decide)), passes_token_of_mem hk hl (by decide),
      Bool.false_and, Bool.or_self, true_and]

theorem callExpression_converts : ConvertsNode options long silent .callExpression := by
  rintro children span text hf - hc
  obtain ⟨o, tail, rfl, ho, htail⟩ := hf
  obtain ⟨l, k, rfl, hk, hl⟩ := exists_token_of_admits ho
  refine converts_of_assemble (x := callExpression _ _) rfl (fun e => ⟨e, rfl⟩) ?_
  rw [map_cons, childOf_leaf, children_of_admits (callTail_admits htail), atoms_of_token]
  simp only [callExpression, nameText, firstLeaf?_leaf hk hl, required_some, Build.pure_bind, partsOf_leaf,
    partsOf_parts]
  have hcs : ∀ t ∈ tail, Converts options long silent t := fun t ht => hc t (mem_cons_of_mem _ ht)
  refine ((callee_meets _).bind fun _ h₁ => (callTail_meets hcs htail).next fun _ h₂ =>
    .pure ?_).congr ?_
  · simp [leadAtoms, h₁, h₂]
  · simp only [passes_node, refused, offends, usesSystem, forall_mem_cons,
      passes_token_of_mem hk hl (by decide), true_and, Bool.false_or,
      anyToken_lead (callTail_admits htail)]

theorem argumentsAtoms_map (es : List Expr) : argumentsAtoms (es.map fun e => .mk e none) = exprsAtoms es := by
  induction es with
  | nil => rfl
  | cons e es ih => rw [map_cons, argumentsAtoms, ih, Argument.atoms, exprsAtoms]

theorem commandCall_converts : ConvertsNode options long silent .commandCall := by
  rintro children span text hf - hc
  obtain ⟨o, _, rfl, ho, a, _, rfl, ha, ts, _, rfl, hts, rfl⟩ := hf
  obtain ⟨l, rfl, hl⟩ := exists_token_of_single ho
  rw [append_nil] at hc ⊢
  have hall : ∀ t ∈ a :: ts, expressionShape.admits t = true := by simpa only [forall_mem_cons] using ⟨ha, hts⟩
  have hcs : ∀ t ∈ a :: ts, Converts options long silent t := fun t ht => hc t (mem_cons_of_mem _ ht)
  have hoffends : (Tree.node .commandCall (.leaf l :: a :: ts) span text).refused silent =
      (isTypeName (String.ofList l.text) && (ts.map (partOf options)).isEmpty &&
        (partOf options a).site.kind == .identifier ||
        decide (String.ofList l.text ∈ ["println", "print"]) && silent) := by
    rw [refused, usesSystem, offends, anyToken_lead hall, anyToken_lead hall,
      filterMap_cons, kinds_of_admits options hall]
    cases ts with
    | nil => simp [kind?, Bool.beq_eq_decide_eq]
    | cons => simp [kind?]
  refine converts_of_assemble (x := commandCall _ _) rfl (fun e => ⟨e, rfl⟩) ?_
  rw [map_cons, childOf_leaf, children_of_admits hall, atoms_of_token, map_cons]
  simp only [commandCall, nameText, firstLeaf?_leaf mem_cons_self hl, required_some, Build.pure_bind, partsOf_leaf,
    partsOf_parts]
  split
  · next hbad =>
    refine Meets.missing.congr ?_
    rw [passes_node, hoffends, hbad]
    simp
  · next hgood =>
    refine ((callee_meets _).bind fun _ h₁ => (exprsOf_meets hcs hall).next fun _ h₂ =>
      .pure ?_).congr ?_
    · simp [leadAtoms, argumentsAtoms_map, h₁, h₂]
    · rw [passes_node, hoffends, Bool.not_eq_true _ |>.mp hgood]
      simp [passes_token hl (by decide)]

/-! ### Creation -/

theorem Converts.created (h : Converts options long silent t) (hs : (kindsOf [.creationType]).admits t = true) :
    Meets long silent (partOf options t).created (t.Passes silent) fun c => c.atoms = t.atoms := by
  refine h.takeOne hs (by decide) ?_
  rintro _ ⟨s, rfl⟩ hatoms
  refine .pure ?_
  rw [← hatoms, Created.atoms, Product.atoms]

theorem objectCreation_converts : ConvertsNode options long silent .objectCreation := by
  rintro children span text hf - hc
  obtain ⟨a, _, rfl, ha, b, _, rfl, hb, rfl⟩ := hf
  simp only [forall_mem_cons] at hc
  have hkind : (partOf options a).site.kind ≠ .arguments := by
    rw [kind_of_single options ha]
    decide
  refine converts_of_assemble (x := objectCreation _ _) rfl (fun e => ⟨e, rfl⟩) ?_
  rw [map_cons, map_cons, childOf_of_admits ha, childOf_of_admits hb, map_nil, atoms_of_lead fun _ => rfl]
  simp only [objectCreation, firstPart?, partsOf_part, find?_cons, beq_false_of_ne hkind, kind_of_single options hb,
    BEq.rfl, nthPart_zero]
  refine ((hc.1.created ha).bind fun _ h₁ => (hc.2.1.arguments hb).next fun _ h₂ => .pure ?_).congr ?_
  · simp [h₁, h₂]
  · simp

theorem tokens_convert {g : List Leaf → Product}
    (hx : ∀ cs, assemble options ⟨k, span, text⟩ cs = pure (g (leavesOf cs)))
    (hg : ∀ ls, gives k (g ls) ∧ (g ls).atoms = []) (hlead : ∀ l, leadAtoms k l = [])
    (hoffends : (Tree.node k children span text).refused silent = false)
    (hf : ∀ t ∈ children, (tokensOf [.name, .callName]).admits t = true) :
    Converts options long silent (.node k children span text) := by
  have htokens : allAtoms children = [] ∧ ∀ t ∈ children, t.Passes silent := by
    clear hoffends
    induction children with
    | nil => simp
    | cons t ts ih =>
      obtain ⟨l, k, rfl, hk, hl⟩ := exists_token_of_admits (hf t mem_cons_self)
      obtain ⟨hatoms, hts⟩ := ih fun t ht => hf t (mem_cons_of_mem _ ht)
      refine ⟨by rw [allAtoms, hatoms, atoms, nil_append], ?_⟩
      simpa only [forall_mem_cons] using ⟨passes_token_of_mem hk hl (by decide), hts⟩
  intro _
  rw [product_node, hx, atoms_of_lead hlead, htokens.1]
  refine (Meets.pure (P := fun p => gives k p ∧ p.atoms = []) (hg _)).congr ?_
  simp only [passes_node, hoffends, true_and, iff_true]
  exact htokens.2

/-! ### Closures -/

theorem closureBody_meets (h : ∀ t ∈ ts, Converts options long silent t)
    (hs : ∀ t ∈ ts, statementShape.admits t = true) :
    Meets long silent (closureBody (ts.map (partOf options))) (∀ t ∈ ts, t.Passes silent)
      fun b => b.atoms = allAtoms ts := by
  have hseveral : Meets long silent (do return LambdaBody.block (← stmtsOf (ts.map (partOf options))))
      (∀ t ∈ ts, t.Passes silent) fun b => b.atoms = allAtoms ts := by
    refine (stmtsOf_meets h hs).next fun ss hss => .pure ?_
    rw [LambdaBody.atoms, hss]
  rcases ts with _ | ⟨t, _ | ⟨t', ts⟩⟩
  · exact hseveral
  · simp only [forall_mem_singleton] at h hs
    refine ((h.stmt? hs).next fun s hs => ?_).congr (by simp)
    have hall : allAtoms [t] = alternativeAtoms s := by rw [allAtoms, allAtoms, append_nil, hs]
    rw [hall]
    split
    · split
      · exact .pure (by simp [LambdaBody.atoms, alternativeAtoms, Stmt.atoms])
      · exact .pure (by simp [LambdaBody.atoms, alternativeAtoms, stmtsAtoms])
    · cases s with
      | none | some s => exact .pure (by simp [LambdaBody.atoms, alternativeAtoms, stmtsAtoms])
  · exact hseveral

theorem Converts.names (h : Converts options long silent t) (hs : (kindsOf [.closureParameters]).admits t = true) :
    Meets long silent (partOf options t).names (t.Passes silent) fun _ => t.atoms = [] := by
  refine h.takeOne hs (by decide) ?_
  rintro _ ⟨ns, rfl⟩ hatoms
  exact .pure hatoms.symm

theorem closure_eq_named {p : Part} {ps : List Part} (ls : List Leaf)
    (hp : p.site.kind = .closureParameters) (hps : ∀ q ∈ ps, q.site.kind ≠ .closureParameters) :
    closure (.part p :: (ls.map .leaf ++ ps.map .part)) = (do
      let parameters ← p.names
      let body ← closureBody ps
      return .lambda parameters body) := by
  have hfilter : ps.filter (fun q => q.site.kind != .closureParameters) = ps :=
    filter_eq_self.mpr fun q hq => by simpa using hps q hq
  simp [closure, firstPart?, hp, hfilter]

theorem closure_eq_unnamed {ps : List Part} (ls : List Leaf) (hps : ∀ q ∈ ps, q.site.kind ≠ .closureParameters) :
    closure (ls.map .leaf ++ ps.map .part) = (do
      let body ← closureBody ps
      return .lambda (if hasLeaf .arrow (ls.map .leaf ++ ps.map .part) then [] else ["it"]) body) := by
  have hfind : ps.find? (fun q => q.site.kind == .closureParameters) = none :=
    find?_eq_none.mpr fun q hq => by simpa using hps q hq
  have hfilter : ps.filter (fun q => q.site.kind != .closureParameters) = ps :=
    filter_eq_self.mpr fun q hq => by simpa using hps q hq
  simp [closure, firstPart?, hfind, hfilter]

theorem closure_converts : ConvertsNode options long silent .closure := by
  rintro children span text hf - hc
  refine converts_of_assemble (x := closure _) rfl (fun e => ⟨e, rfl⟩) ?_
  rw [atoms_of_lead fun _ => rfl]
  rcases hf with hf | ⟨a, _, rfl, ha, hf⟩
  · obtain ⟨ls, _, rfl, hls, ts, _, rfl, hts, rfl⟩ := exists_tokens_of_fits hf
    rw [append_nil] at hc ⊢
    have hcs : ∀ t ∈ ts, Converts options long silent t := fun t ht => hc t (mem_append_right _ ht)
    rw [map_append, map_childOf_tokens, children_of_admits hts,
      closure_eq_unnamed _ (kinds_ne_of_admits options hts (by decide))]
    refine ((closureBody_meets hcs hts).next fun _ h₁ => .pure ?_).congr ?_
    · simp [allAtoms_append, allAtoms_tokens, h₁]
    · simp only [passes_node, refused, offends, usesSystem, forall_mem_append,
        iff_true_intro (passes_tokens hls (by decide)), Bool.false_and, Bool.or_self, true_and]
  · obtain ⟨ls, _, rfl, hls, ts, _, rfl, hts, rfl⟩ := exists_tokens_of_fits hf
    rw [append_nil] at hc ⊢
    have hcs : ∀ t ∈ ts, Converts options long silent t := fun t ht =>
      hc t (mem_cons_of_mem _ (mem_append_right _ ht))
    rw [map_cons, childOf_of_admits ha, map_append, map_childOf_tokens, children_of_admits hts,
      closure_eq_named _ (kind_of_single options ha) (kinds_ne_of_admits options hts (by decide))]
    refine (((hc a mem_cons_self).names ha).bind fun _ h₁ => (closureBody_meets hcs hts).next
      fun _ h₂ => .pure ?_).congr ?_
    · simp [allAtoms_append, allAtoms_tokens, h₁, h₂]
    · simp only [passes_node, refused, offends, usesSystem, forall_mem_cons, forall_mem_append,
        iff_true_intro (passes_tokens hls (by decide)), Bool.false_and, Bool.or_self, true_and]

/-! ### Literals -/

theorem atom_converts {e : Expr} (hx : assemble options ⟨k, span, text⟩ [.leaf l] = pure (.expression e))
    (hk : ∀ e, gives k (.expression e)) (he : e.atoms = leadAtoms k l) (hl : (Tree.leaf l).Passes silent)
    (ho : (Tree.node k [.leaf l] span text).refused silent = false) :
    Converts options long silent (.node k [.leaf l] span text) := by
  intro _
  rw [product_node, map_cons, childOf_leaf, map_nil, hx, atoms_of_token]
  have hatoms : (Product.expression e).atoms = leadAtoms k l ++ allAtoms [] := by
    rw [Product.atoms, he, allAtoms, append_nil]
  have hpasses : (Tree.node k [.leaf l] span text).Passes silent := by simp [-refused, ho, hl]
  exact (Meets.pure ⟨hk e, hatoms⟩).congr (iff_true_intro hpasses)

theorem identifier_converts : ConvertsNode options long silent .identifier := by
  rintro children span text hf - -
  obtain ⟨o, _, rfl, ho, rfl⟩ := hf
  obtain ⟨l, rfl, hl⟩ := exists_token_of_single ho
  refine atom_converts (e := .identifier (String.ofList l.text)) ?_ (fun e => ⟨e, rfl⟩) rfl
    (passes_token hl (by decide)) rfl
  simp [assemble, nameText, firstLeaf?, hl]

theorem decimalLiteral_converts : ConvertsNode options long silent .decimalLiteral := by
  rintro children span text hf - -
  obtain ⟨o, _, rfl, ho, rfl⟩ := hf
  obtain ⟨l, rfl, hl⟩ := exists_token_of_single ho
  refine atom_converts (e := .literal (.decimal (Unicode.ofChars l.text))) ?_ (fun e => ⟨e, rfl⟩) rfl
    (passes_token hl (by decide)) rfl
  simp [assemble, decimalLiteral, firstLeaf?, hl]

theorem stringLiteral_converts : ConvertsNode options long silent .stringLiteral := by
  rintro children span text hf - -
  obtain ⟨o, _, rfl, ho, rfl⟩ := hf
  obtain ⟨l, k, rfl, hk, hl⟩ := exists_token_of_admits ho
  refine atom_converts (e := .literal (.string (unescape (between (if l.kind = .terminal .tripleString then 3 else 1)
      (if l.kind = .terminal .tripleString then 3 else 1) l.text)))) ?_ (fun e => ⟨e, rfl⟩) ?_
    (passes_token_of_mem hk hl (by decide)) rfl
  · simp [assemble, stringLiteral, firstLeaf?_leaf hk hl]
  · rw [Expr.atoms]
    rfl

theorem booleanLiteral_converts : ConvertsNode options long silent .booleanLiteral := by
  rintro children span text hf - -
  obtain ⟨o, _, rfl, ho, rfl⟩ := hf
  obtain ⟨l, k, rfl, hk, hl⟩ := exists_token_of_admits ho
  refine atom_converts (e := .literal (if l.kind = .terminal .trueWord then .true else .false)) ?_
    (fun e => ⟨e, rfl⟩) ?_ (passes_token_of_mem hk hl (by decide)) rfl
  · simp only [mem_cons, not_mem_nil, or_false] at hk
    rcases hk with rfl | rfl
    · simp [assemble, booleanLiteral, hasLeaf, firstLeaf?, hl]
    · simp [assemble, booleanLiteral, hasLeaf, firstLeaf?, hl]
  · rw [Expr.atoms]
    rfl

theorem nullLiteral_converts : ConvertsNode options long silent .nullLiteral := by
  rintro children span text hf - -
  obtain ⟨o, _, rfl, ho, rfl⟩ := hf
  obtain ⟨l, rfl, hl⟩ := exists_token_of_single ho
  exact atom_converts (e := .literal .null) rfl (fun e => ⟨e, rfl⟩) rfl (passes_token hl (by decide)) rfl

/-! ### Numbers -/

theorem integerLiteral_converts (hf : Fits [.one (tokensOf [.integer])] children)
    (hform : ∀ t ∈ children, Formed t) (hlong : ∀ l, .leaf l ∈ children → maxDigits < l.text.length → long) :
    Converts options long silent (.node .integerLiteral children span text) := by
  obtain ⟨o, _, rfl, ho, rfl⟩ := hf
  obtain ⟨l, rfl, hl⟩ := exists_token_of_single ho
  have hspelled := (hform _ mem_cons_self).spelled
  simp only [Leaf.spelled, hl, spells, Bool.and_eq_true, Bool.not_eq_true', isEmpty_eq_false_iff] at hspelled
  have hread := readInteger_digits hspelled.1 hspelled.2
  have hoverlong : (Tree.leaf l).overlong = decide (maxDigits < l.text.length) := by simp [overlong, hl]
  have hoffends : (Tree.node .integerLiteral [.leaf l] span text).refused silent =
      decide (2 ^ 31 - 1 < numeralValue l.text) := by
    simp [anyToken, leaf?]
  refine converts_of_assemble (x := integerLiteral _ _) rfl (fun e => ⟨e, rfl⟩) ?_
  rw [map_cons, childOf_leaf, map_nil, atoms_of_token]
  simp only [integerLiteral, firstLeaf?, leavesOf_leaf, leavesOf_nil, find?_cons, hl, any_cons,
    any_nil, BEq.rfl, Bool.or_false, required, Build.pure_bind, hread]
  by_cases hdigits : maxDigits < l.text.length
  · rw [if_pos hdigits]
    refine (Meets.fail (f := .numeral _) (hlong l mem_cons_self hdigits)).congr ?_
    simp [passes_leaf, hoverlong, hdigits]
  · rw [if_neg hdigits]
    by_cases hwide : 2 ^ 31 - 1 < numeralValue l.text
    · have hfits : fitsInt32 (numeralValue l.text) = false := by
        simp only [fitsInt32, Bool.and_eq_false_iff, decide_eq_false_iff_not]
        omega
      simp only [hfits, Bool.false_eq_true, if_false]
      rw [decide_eq_true hwide] at hoffends
      exact Meets.unsupported.congr (by simp [-refused, hoffends])
    · have hfits : fitsInt32 (numeralValue l.text) = true := by
        simp only [fitsInt32, Bool.and_eq_true, decide_eq_true_eq]
        omega
      simp only [hfits, if_true]
      rw [decide_eq_false hwide] at hoffends
      refine (Meets.pure ?_).congr ?_
      · rw [Product.atoms, Expr.atoms, allAtoms, leadAtoms, append_nil]
      · simp [-refused, passes_leaf, hoverlong, hdigits, hoffends]

/-! ### Interpolated strings -/

def stringShape : Shape :=
  { expressionShape with tokens := [.gstringBegin, .gstringPart, .gstringEnd] }

theorem exists_piece (h : stringShape.admits t = true) :
    (∃ l, t = .leaf l ∧ ∀ silent, (Tree.leaf l).Passes silent) ∨ expressionShape.admits t = true := by
  cases t with
  | node => exact .inr h
  | leaf l =>
    have hmem : l.kind ∈ stringShape.tokens := contains_iff_mem.mp h
    have hne : l.kind ≠ .terminal .integer := by
      intro heq
      rw [heq] at hmem
      exact absurd hmem (by decide)
    exact .inl ⟨l, rfl, fun _ => passes_leaf.mpr (by simp [overlong, hne])⟩

theorem gstringContents_meets (h : ∀ t ∈ ts, Converts options long silent t)
    (hs : ∀ t ∈ ts, stringShape.admits t = true) :
    Meets long silent (gstringContents (ts.map (childOf options))) (∀ t ∈ ts, t.Passes silent)
      fun cs => contentsAtoms cs = allAtoms ts := by
  induction ts with
  | nil => exact .gives (by simp) rfl (fun _ => rfl) rfl
  | cons t ts ih =>
    simp only [forall_mem_cons] at h hs ⊢
    have hrest := ih h.2 hs.2
    rcases exists_piece hs.1 with ⟨l, rfl, hl⟩ | ht
    · rw [map_cons, childOf_leaf, gstringContents]
      refine (hrest.next fun cs hcs => ?_).congr (by simp [hl])
      split
      · exact .pure (by rw [hcs, allAtoms, atoms, nil_append])
      · exact .pure (by rw [contentsAtoms, Content.atoms, hcs, allAtoms, atoms])
    · rw [map_cons, childOf_of_admits ht, gstringContents]
      refine (h.1.expr ht).bind fun e he => hrest.next fun cs hcs => .pure ?_
      rw [contentsAtoms, Content.atoms, he, hcs, allAtoms]

theorem gstring_converts : ConvertsNode options long silent .gstring := by
  rintro children span text hf - hc
  have hall : ∀ t ∈ children, stringShape.admits t = true := admits_of_fits hf (by decide)
  have hstarts : startsGstring (children.map (childOf options)) = true := by
    obtain ⟨b, rest, rfl, hb, -⟩ := hf
    cases b with
    | node => cases hb
    | leaf l =>
      have hkind : l.kind = .gstringBegin := mem_singleton.mp (contains_iff_mem.mp hb)
      simp [startsGstring, hkind]
  refine converts_of_assemble (x := gstring _ _) rfl (fun e => ⟨e, rfl⟩) ?_
  rw [gstring, if_pos hstarts, atoms_of_lead fun _ => rfl]
  refine ((gstringContents_meets hc hall).next fun cs hcs => .pure ?_).congr ?_
  · rw [Product.atoms, Expr.atoms, hcs]
  · simp

/-! ### Lambdas -/

def Ensures {α : Type} (x : Build α) (P : α → Prop) : Prop := ∀ a n, x = .ok (a, n) → P a

section

variable {α β : Type} {x : Build α} {f : α → Build β} {P : β → Prop}

theorem Ensures.pure {b : β} (h : P b) : Ensures (pure b) P := by
  rintro _ _ ⟨⟩
  exact h

theorem Ensures.fail (e : Fault) : Ensures (Build.fail e) P := nofun

theorem Ensures.bind (hf : ∀ a, Ensures (f a) P) : Ensures (x >>= f) P := by
  intro b n h
  obtain ⟨a, -, l, -, hfa, -⟩ := Build.bind_eq_ok h
  exact hf a b l hfa

theorem Ensures.then {Q : α → Prop} (hx : Ensures x Q) (hf : ∀ a, Q a → Ensures (f a) P) : Ensures (x >>= f) P := by
  intro b n h
  obtain ⟨a, m, l, ha, hfa, -⟩ := Build.bind_eq_ok h
  exact hf a (hx a m ha) b l hfa

theorem Ensures.map {g : α → β} (h : Ensures x fun a => P (g a)) : Ensures (g <$> x) P := by
  intro b n hb
  obtain ⟨a, m, _, ha, hpure, -⟩ := Build.bind_eq_ok hb
  cases hpure
  exact h a m ha

end

theorem assemble_isLambda {k : Kind} (hk : k ∈ expressionShape.kinds) (span : Span) (text : Chars)
    (cs : List Child) : Ensures (assemble options ⟨k, span, text⟩ cs)
      fun p => ∀ e, p = .expression e → isLambda e = decide (k = .closure) := by
  cases k <;> first | exact absurd hk (by decide) | skip
  all_goals
    simp only [assemble, commandCall, assignmentExpression, ternaryExpression, binaryExpression,
      unaryExpression, postfixExpression, memberOf, methodCall, indexExpression, callExpression,
      objectCreation, closure, integerLiteral, decimalLiteral, stringLiteral, gstring, booleanLiteral]
    repeat' first
      | exact .fail _
      | exact .pure fun _ h => by cases h; rfl
      | exact fun _ _ _ _ h => by cases h; rfl
      | refine .map ?_
      | refine .bind fun _ => ?_
      | split

theorem isLambda_of_expr (hs : expressionShape.admits t = true) {e : Expr} {n : Notes}
    (h : (partOf options t).expr = .ok (e, n)) : isLambda e = decide (t.kind? = some .closure) := by
  obtain ⟨k, children, span, text, rfl, hk⟩ := exists_node_of_admits hs
  obtain ⟨p, m, l, hresult, hp, -⟩ := Build.bind_eq_ok h
  rw [partOf, product_node] at hresult
  cases p <;> cases hp
  rw [assemble_isLambda hk span text _ _ m hresult e rfl]
  simp [kind?]

end

end GroovySharp.Conversion
