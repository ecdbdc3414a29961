import GroovySharp.Proofs.ConversionOutcome
import GroovySharp.Proofs.LoopOperators

/-!
# Conversions that keep the conditions of loops

Two conversions of one tree, of which only the first keeps the operators of counting loops, go step by
step alike.
-/

namespace GroovySharp.Conversion

open CSharp Grammar Text List CSharp.Expr

/-! ### Steps that go alike -/

/-- Both steps fail with the same fault, or the result of the second is the rewritten result of the first;
the second has warnings for the replaced operators that are not among those given. -/
inductive Echoes {α : Type} (ℓ : α → Rewritten α) (w : List BinaryOp) : Build α → Build α → Prop
  | fails (f : Fault) : Echoes ℓ w (.error f) (.error f)
  | gives {a b : α} {s : Bool} {ws : List Warning} (h : ℓ a = ⟨b, w ++ ws.map Warning.operator⟩) :
    Echoes ℓ w (.ok (a, ⟨s, []⟩)) (.ok (b, ⟨s, ws⟩))

section

variable {α β γ : Type} {ℓ : α → Rewritten α} {κ : β → Rewritten β} {w : List BinaryOp}
  {x y : Build α} {f g : α → Build β} {z : Build γ}

theorem Echoes.pure {a b : α} (h : ℓ a = ⟨b, w⟩) : Echoes ℓ w (pure a) (pure b) :=
  .gives (by simpa using h)

theorem Echoes.bind (hx : Echoes ℓ [] x y)
    (hf : ∀ a, Echoes κ (w ++ (ℓ a).replaced) (f a) (g (ℓ a).result)) : Echoes κ w (x >>= f) (y >>= g) := by
  cases hx with
  | fails e => exact .fails e
  | @gives a b s ws h =>
    have hfa := hf a
    rw [h] at hfa
    change Echoes κ w (Build.bind _ _) (Build.bind _ _)
    simp only [Build.bind]
    generalize f a = u at hfa ⊢
    generalize g b = v at hfa ⊢
    cases hfa with
    | fails e => exact .fails e
    | gives h' => exact .gives (by simpa [Notes.append] using h')

theorem Echoes.same {f g : γ → Build β} (hz : Echoes Pure.pure [] z z)
    (hf : ∀ c, Echoes κ w (f c) (g c)) : Echoes κ w (z >>= f) (z >>= g) :=
  hz.bind fun c => by simpa [Pure.pure] using hf c

theorem Echoes.map {g : α → β} (hx : Echoes ℓ [] x y) (hg : ∀ a, κ (g a) = g <$> ℓ a) :
    Echoes κ [] (g <$> x) (g <$> y) :=
  hx.bind fun a => .pure (hg a)

theorem Echoes.required (site : Site) (role : Role) (o : Option γ) :
    Echoes Pure.pure [] (required site role o) (required site role o) := by
  cases o with
  | none => exact .fails _
  | some c => exact .pure rfl

theorem Echoes.fail {f f' : Fault} (h : f' = f) : Echoes ℓ w (Build.fail f) (Build.fail f') := by
  rw [h]
  exact .fails f

theorem Echoes.usesSystem (b : Bool) : Echoes Pure.pure [] (Build.usesSystem b) (Build.usesSystem b) := .gives rfl

theorem Echoes.warn {a b : α} {x : Warning} (h : ℓ a = ⟨b, w ++ [x.operator]⟩) :
    Echoes ℓ w (Pure.pure a) (Build.warn x >>= fun _ => Pure.pure b) := .gives h

theorem Echoes.nameText (site : Site) (cs : List Child) (terminals : List Terminal) :
    Echoes Pure.pure [] (nameText site cs terminals) (nameText site cs terminals) :=
  .same (.required ..) fun _ => .pure rfl

end

/-! ### Products -/

/-- A product with `<` at the top of the conditions of its counting loops. -/
def Product.lessened : Product → Rewritten Product
  | expression e => expression <$> e.lessened
  | statement s => statement <$> s.lessened
  | method m => (fun body => method { m with body }) <$> stmtsLessened m.body
  | updates es => updates <$> exprsLessened es
  | switchCase value statements => switchCase <$> value.lessened <*> stmtsLessened statements
  | handler c => handler <$> c.lessened
  | argument a => argument <$> a.lessened
  | arguments xs => arguments <$> argumentsLessened xs
  | program u => program <$> u.lessened
  | p => pure p

def Product.conditionLessened : Product → Rewritten Product
  | expression e => expression <$> e.lessened.lessTop
  | p => p.lessened

theorem productCategory_lessened (p : Product) : p.lessened.result.category = p.category := by
  cases p with
  | expression e => exact category_lessened e
  | statement s => exact stmtCategory_lessened s
  | _ => rfl

section

variable {α β : Type} {ℓ : α → Rewritten α} {κ : β → Rewritten β} {w : List BinaryOp} {b : Bool} {t : Tree}
  {ts : List Tree} {site : Site}

def Alike (ℓ : α → Rewritten α) (b : Bool) (f : Part → Build α) (t : Tree) : Prop :=
  Echoes ℓ [] (f (partOf ⟨true, b⟩ t)) (f (partOf ⟨false, b⟩ t))

def Agrees (ℓ : α → Rewritten α) (b : Bool) (f : List Child → Build α) (ts : List Tree) : Prop :=
  Echoes ℓ [] (f (ts.map (childOf ⟨true, b⟩))) (f (ts.map (childOf ⟨false, b⟩)))

def Twins (b : Bool) (t : Tree) : Prop := Alike Product.lessened b Part.result t

/-! ### Parts -/

theorem site_alike (t : Tree) : (partOf ⟨false, b⟩ t).site = (partOf ⟨true, b⟩ t).site := by
  cases t <;> rfl

theorem children_alike (t : Tree) : (partOf ⟨false, b⟩ t).children = (partOf ⟨true, b⟩ t).children := by
  cases t <;> rfl

theorem Echoes.misplaced (t : Tree) (place : Place) (p : Product) : Echoes ℓ w ((partOf ⟨true, b⟩ t).misplaced place p)
      ((partOf ⟨false, b⟩ t).misplaced place p.lessened.result) := by
  unfold Part.misplaced
  rw [productCategory_lessened, site_alike]
  exact .fails _

/-- What is selected of a product is rewritten with it. -/
theorem Twins.take (h : Twins b t) {place : Place} {select : Product → Option α}
    (hs : ∀ p, (select p).map ℓ = (select p.lessened.result).map fun a => ⟨a, p.lessened.replaced⟩) :
    Alike ℓ b (Part.take place select) t := by
  refine h.bind fun p => ?_
  have hp := hs p
  cases hselect : select p with
  | none =>
    rw [hselect, Option.map_none, eq_comm, Option.map_eq_none_iff] at hp
    rw [hp]
    exact .misplaced t place p
  | some a =>
    rw [hselect, Option.map_some, eq_comm, Option.map_eq_some_iff] at hp
    obtain ⟨a', ha', ha⟩ := hp
    rw [ha']
    exact .pure ha.symm

theorem Twins.expr (h : Twins b t) : Alike lessened b Part.expr t :=
  h.take fun p => by cases p <;> rfl

theorem Twins.stmt? (h : Twins b t) : Alike alternativeLessened b Part.stmt? t :=
  h.take fun p => by cases p <;> rfl

theorem Twins.body (h : Twins b t) : Alike Stmt.lessened b Part.body t := by
  refine h.stmt?.bind fun s => .pure ?_
  cases s <;> rfl

theorem Twins.blockStmts (h : Twins b t) : Alike stmtsLessened b Part.blockStmts t := by
  refine h.stmt?.bind fun s => ?_
  rcases s with _ | s
  · exact .misplaced t _ .nothing
  · cases s <;> first | exact .pure rfl | exact .misplaced t _ (.statement _)

theorem Twins.arguments (h : Twins b t) : Alike argumentsLessened b Part.arguments t :=
  h.take fun p => by cases p <;> rfl

theorem Twins.listedArgument (h : Twins b t) : Alike Argument.lessened b listedArgument t := by
  unfold Alike Conversion.listedArgument
  rw [site_alike]
  split
  · exact h.take fun p => by cases p <;> rfl
  · exact h.expr.bind fun e => .pure rfl

theorem Twins.callArguments (h : Twins b t) : Alike argumentsLessened b callArguments t := by
  unfold Alike Conversion.callArguments
  rw [site_alike]
  split
  · exact h.arguments
  · refine h.expr.bind fun e => .pure ?_
    simp [argumentsLessened, Argument.lessened, Functor.map, Seq.seq, pure]

/-! ### Children -/

theorem leaves_alike : leavesOf (ts.map (childOf ⟨false, b⟩)) = leavesOf (ts.map (childOf ⟨true, b⟩)) := by
  rw [leavesOf_children, leavesOf_children]

theorem firstLeaf?_alike (terminals : List Terminal) : firstLeaf? terminals (ts.map (childOf ⟨false, b⟩)) =
      firstLeaf? terminals (ts.map (childOf ⟨true, b⟩)) := by
  rw [firstLeaf?, firstLeaf?, leaves_alike]

theorem hasLeaf_alike (terminal : Terminal) :
    hasLeaf terminal (ts.map (childOf ⟨false, b⟩)) = hasLeaf terminal (ts.map (childOf ⟨true, b⟩)) := by
  rw [hasLeaf, hasLeaf, firstLeaf?_alike]

theorem declaredType?_alike :
    declaredType? (ts.map (childOf ⟨false, b⟩)) = declaredType? (ts.map (childOf ⟨true, b⟩)) := by
  rw [declaredType?, declaredType?, firstLeaf?_alike]

theorem nameText_alike (terminals : List Terminal) : nameText site (ts.map (childOf ⟨false, b⟩)) terminals =
      nameText site (ts.map (childOf ⟨true, b⟩)) terminals := by
  rw [nameText, nameText, firstLeaf?_alike]

theorem operatorText?_alike :
    operatorText? (ts.map (childOf ⟨false, b⟩)) = operatorText? (ts.map (childOf ⟨true, b⟩)) := by
  rw [operatorText?, operatorText?, leaves_alike]

theorem startsGstring_alike :
    startsGstring (ts.map (childOf ⟨false, b⟩)) = startsGstring (ts.map (childOf ⟨true, b⟩)) := by
  rcases ts with _ | ⟨_ | _, _⟩ <;> rfl

theorem nth_echoes {n : Nat} {role : Role} {f g : Part → Build α}
    (hf : ∀ t ∈ ts, Echoes ℓ w (f (partOf ⟨true, b⟩ t)) (g (partOf ⟨false, b⟩ t))) :
    Echoes ℓ w (nthPart site (ts.map (childOf ⟨true, b⟩)) n role >>= f)
      (nthPart site (ts.map (childOf ⟨false, b⟩)) n role >>= g) := by
  rw [nthPart, nthPart, partsOf_children, partsOf_children, getElem?_map, getElem?_map]
  cases ht : (ts.filter isNode)[n]? with
  | none => exact .fails _
  | some t =>
    simp only [Option.map_some, required, Build.pure_bind]
    exact hf t (mem_of_mem_filter (mem_of_getElem? ht))

theorem nth_expr {n : Nat} {role : Role} {f g : Expr → Build α} (hc : ∀ t ∈ ts, Twins b t)
    (hf : ∀ e, Echoes ℓ (w ++ e.lessened.replaced) (f e) (g e.lessened.result)) :
    Echoes ℓ w (nthPart site (ts.map (childOf ⟨true, b⟩)) n role >>= fun p => p.expr >>= f)
      (nthPart site (ts.map (childOf ⟨false, b⟩)) n role >>= fun p => p.expr >>= g) :=
  nth_echoes fun t ht => (hc t ht).expr.bind hf

theorem eachPart_echoes {f : Part → Build α} {ℓs : List α → Rewritten (List α)}
    (hnil : ℓs [] = pure []) (hcons : ∀ a as, ℓs (a :: as) = .cons <$> ℓ a <*> ℓs as) (h : ∀ t ∈ ts, Alike ℓ b f t) :
    Echoes ℓs [] (eachPart f (ts.map (partOf ⟨true, b⟩))) (eachPart f (ts.map (partOf ⟨false, b⟩))) := by
  induction ts with
  | nil => exact .pure hnil
  | cons t ts ih =>
    simp only [forall_mem_cons] at h
    exact h.1.bind fun a => (ih h.2).bind fun as => .pure (hcons a as)

theorem exprsOf_echoes (h : ∀ t ∈ ts, Twins b t) :
    Echoes exprsLessened [] (exprsOf (ts.map (partOf ⟨true, b⟩))) (exprsOf (ts.map (partOf ⟨false, b⟩))) :=
  eachPart_echoes rfl (fun _ _ => rfl) fun t ht => (h t ht).expr

theorem stmtsLessened_filterMap (ss : List (Option Stmt)) :
    stmtsLessened (ss.filterMap id) = (·.filterMap id) <$> Rewritten.each alternativeLessened ss := by
  induction ss with
  | nil => rfl
  | cons s ss ih =>
    cases s with
    | none =>
      rw [filterMap_cons_none rfl, ih]
      rfl
    | some s =>
      change stmtsLessened (s :: ss.filterMap id) = _
      rw [stmtsLessened, ih]
      rfl

theorem stmtsOf_echoes (h : ∀ t ∈ ts, Twins b t) :
    Echoes stmtsLessened [] (stmtsOf (ts.map (partOf ⟨true, b⟩))) (stmtsOf (ts.map (partOf ⟨false, b⟩))) := by
  have heach : Echoes (Rewritten.each alternativeLessened) [] _ _ :=
    eachPart_echoes rfl (fun _ _ => rfl) fun t ht => (h t ht).stmt?
  exact heach.bind fun ss => .pure (stmtsLessened_filterMap ss)

theorem parts_of_twins (hc : ∀ t ∈ ts, Twins b t) : ∀ t ∈ ts.filter isNode, Twins b t :=
  fun t ht => hc t (mem_of_mem_filter ht)

theorem firstPart?_children (options : Options) (k : Kind) :
    firstPart? k (ts.map (childOf options)) = (ts.find? (·.kind? = some k)).map (partOf options) := by
  induction ts with
  | nil => rfl
  | cons t ts ih =>
    cases t with
    | leaf l => exact ih
    | node k' children span text =>
      unfold firstPart? at ih ⊢
      rw [map_cons, childOf, partsOf_part, find?_cons, find?_cons, ih]
      by_cases hk : k' = k
      · simp [partOf, Tree.kind?, hk]
      · simp [partOf, Tree.kind?, hk, beq_false_of_ne hk]

theorem filter_children (options : Options) (q : Kind → Bool) :
    (partsOf (ts.map (childOf options))).filter (fun p => q p.site.kind) =
      (ts.filter fun t => t.kind?.any q).map (partOf options) := by
  induction ts with
  | nil => rfl
  | cons t ts ih =>
    cases t with
    | leaf l => exact ih
    | node k' children span text =>
      rw [map_cons, childOf, partsOf_part, filter_cons, ih, filter_cons]
      by_cases hk : q k' = true <;> simp [partOf, Tree.kind?, hk]

/-! ### Expressions -/

theorem callee_echoes (name : String) : Echoes lessened [] (callee name) (callee name) := by
  unfold callee
  split
  · exact .same (.usesSystem _) fun _ => .pure rfl
  · exact .pure rfl

theorem argumentsLessened_map (es : List Expr) :
    argumentsLessened (es.map fun e => .mk e none) = (·.map fun e => .mk e none) <$> exprsLessened es := by
  induction es with
  | nil => rfl
  | cons e es ih =>
    rw [map_cons, argumentsLessened, ih]
    rfl

theorem argumentsLessened_append (xs ys : List Argument) :
    argumentsLessened (xs ++ ys) = (· ++ ·) <$> argumentsLessened xs <*> argumentsLessened ys := by
  induction xs with
  | nil => rfl
  | cons x xs ih =>
    rw [cons_append, argumentsLessened, ih, argumentsLessened]
    simp [Functor.map, Seq.seq]

theorem argumentsLessened_flatten (xss : List (List Argument)) :
    argumentsLessened xss.flatten = List.flatten <$> Rewritten.each argumentsLessened xss := by
  induction xss with
  | nil => rfl
  | cons xs xss ih =>
    rw [flatten_cons, argumentsLessened_append, ih]
    rfl

theorem callTail_echoes (h : ∀ t ∈ ts, Twins b t) :
    Echoes (Rewritten.each argumentsLessened) [] (eachPart callArguments (ts.map (partOf ⟨true, b⟩)))
      (eachPart callArguments (ts.map (partOf ⟨false, b⟩))) :=
  eachPart_echoes rfl (fun _ _ => rfl) fun t ht => (h t ht).callArguments

section

variable (hc : ∀ t ∈ ts, Twins b t)

include hc

theorem commandCall_agrees : Agrees lessened b (commandCall site) ts := by
  unfold Agrees commandCall
  rw [nameText_alike, partsOf_children, partsOf_children]
  refine .same (.nameText ..) fun name => ?_
  have hparts := parts_of_twins hc
  generalize ts.filter isNode = nodes at hparts ⊢
  cases nodes with
  | nil => exact .fails _
  | cons t rest =>
    simp only [map_cons, isEmpty_map, site_alike]
    split
    · exact .fails _
    · refine (callee_echoes name).bind fun target => (exprsOf_echoes hparts).bind fun es => .pure ?_
      rw [lessened, argumentsLessened_map]
      rfl

theorem memberOf_agrees (names : List Terminal) :
    Agrees lessened b (memberOf site · names) ts := by
  unfold Agrees memberOf
  simp only [nameText_alike, hasLeaf_alike]
  exact nth_expr hc fun target => .same (.nameText ..) fun name => .pure rfl

theorem methodCall_agrees : Agrees lessened b (methodCall site) ts := by
  unfold Agrees methodCall
  rw [partsOf_children, partsOf_children, ← map_drop, ← map_drop]
  refine (memberOf_agrees hc _).bind fun target => (callTail_echoes fun t ht => parts_of_twins hc t
    (mem_of_mem_drop ht)).bind fun xss => .pure ?_
  rw [lessened, argumentsLessened_flatten]
  rfl

theorem callExpression_agrees : Agrees lessened b (callExpression site) ts := by
  unfold Agrees callExpression
  rw [nameText_alike, partsOf_children, partsOf_children]
  refine .same (.nameText ..) fun name => (callee_echoes name).bind fun target =>
    (callTail_echoes (parts_of_twins hc)).bind fun xss => .pure ?_
  rw [lessened, argumentsLessened_flatten]
  rfl

theorem objectCreation_agrees : Agrees lessened b (objectCreation site) ts := by
  unfold Agrees objectCreation
  rw [firstPart?_children, firstPart?_children]
  have hcreated {t : Tree} (h : Twins b t) : Alike Created.lessened b Part.created t :=
    h.take fun p => by cases p <;> rfl
  refine nth_echoes fun t ht => (hcreated (hc t ht)).bind fun created => ?_
  cases hfirst : ts.find? (·.kind? = some .arguments) with
  | none => exact .pure (by simp [lessened, argumentsLessened, Functor.map, Seq.seq, pure])
  | some t => exact (hc t (mem_of_find?_eq_some hfirst)).arguments.bind fun xs => .pure rfl

theorem closureBody_echoes :
    Echoes LambdaBody.lessened [] (closureBody (ts.map (partOf ⟨true, b⟩)))
      (closureBody (ts.map (partOf ⟨false, b⟩))) := by
  have hone (s : Stmt) : (LambdaBody.block [s]).lessened = (fun s => .block [s]) <$> s.lessened := by
    simp [LambdaBody.lessened, stmtsLessened, Functor.map, Seq.seq, pure]
  rcases ts with _ | ⟨t, _ | ⟨t', ts⟩⟩
  · exact (stmtsOf_echoes (forall_mem_nil _)).bind fun ss => .pure rfl
  · refine (hc t mem_cons_self).stmt?.bind fun s => ?_
    rcases s with _ | s
    · exact .pure rfl
    · cases s <;> try exact .pure (hone _)
      dsimp only [alternativeLessened, Rewritten.result_map, Stmt.lessened]
      rw [site_alike]
      split
      · exact .pure rfl
      · exact .pure (hone _)
  · exact (stmtsOf_echoes hc).bind fun ss => .pure rfl

theorem closure_agrees : Agrees lessened b closure ts := by
  unfold Agrees closure
  have hbody := closureBody_echoes fun t ht => hc t (mem_of_mem_filter (p := fun t =>
    t.kind?.any (· != .closureParameters)) ht)
  rw [filter_children _ (· != .closureParameters), filter_children _ (· != .closureParameters),
    firstPart?_children, firstPart?_children]
  rw [hasLeaf_alike]
  cases hfirst : ts.find? (·.kind? = some .closureParameters) with
  | none => exact .same (.pure rfl) fun names => hbody.bind fun body => .pure rfl
  | some t =>
    have hnames : Alike pure b Part.names t := (hc t (mem_of_find?_eq_some hfirst)).take fun p => by cases p <;> rfl
    exact hnames.bind fun names => hbody.bind fun body => .pure rfl

theorem gstringContents_agrees : Agrees contentsLessened b gstringContents ts := by
  induction ts with
  | nil => exact .pure rfl
  | cons t ts ih =>
    simp only [forall_mem_cons] at hc
    cases t with
    | leaf l =>
      refine (ih hc.2).bind fun cs => ?_
      split <;> exact .pure rfl
    | node => exact hc.1.expr.bind fun e => (ih hc.2).bind fun cs => .pure rfl

end

/-! ### Statements -/

theorem exists_afterDefault (ts : List Tree) : ∃ o : Option (List Tree), (∀ rest ∈ o, rest ⊆ ts) ∧
    ∀ options, afterDefault? (ts.map (childOf options)) = o.map (·.map (childOf options)) := by
  induction ts with
  | nil => exact ⟨none, nofun, fun _ => rfl⟩
  | cons t ts ih =>
    obtain ⟨o, ho, heq⟩ := ih
    have hlater : ∀ rest ∈ o, rest ⊆ t :: ts := fun rest hr x hx =>
      mem_cons_of_mem t (ho rest hr hx)
    cases t with
    | node => exact ⟨o, hlater, heq⟩
    | leaf l =>
      by_cases hl : l.kind = .terminal .defaultWord
      · exact ⟨some ts, by simp, fun _ => if_pos hl⟩
      · exact ⟨o, hlater, fun options => (if_neg hl).trans (heq options)⟩

theorem forStart_echoes {o : Option Tree} (hc : ∀ t ∈ o, Twins b t) :
    Echoes (fun r => .mk <$> declaredLessened r.1 <*> exprsLessened r.2) []
      (forStart (o.map (partOf ⟨true, b⟩))) (forStart (o.map (partOf ⟨false, b⟩))) := by
  cases o with
  | none => exact .pure rfl
  | some t =>
    refine (hc t rfl).bind fun p => ?_
    cases p <;> try exact .misplaced t _ _
    case expression e => exact .pure (by simp [declaredLessened, exprsLessened, Functor.map, Seq.seq, pure]; rfl)
    case statement s =>
      cases s <;> first
        | exact .pure (by simp [declaredLessened, exprsLessened, Functor.map, Seq.seq, pure]; rfl)
        | exact .misplaced t _ (.statement _)

theorem classicFor_agrees (hc : ∀ t ∈ ts, t.kind? ≠ some .forCondition → Twins b t)
    (hcondition : ∀ t ∈ ts, t.kind? = some .forCondition → Alike Product.conditionLessened b Part.result t) :
    Agrees Stmt.lessened b (classicFor site) ts := by
  have hkind {k : Kind} (hk : k ≠ .forCondition) {t : Tree} (ht : ts.find? (·.kind? = some k) = some t) :
      Twins b t := by
    have hfound : t.kind? = some k := by simpa using find?_some ht
    exact hc t (mem_of_find?_eq_some ht) (by simpa [hfound] using hk)
  have hexpr {t : Tree} (ht : ts.find? (·.kind? = some .forCondition) = some t) :
      Alike (fun e => e.lessened.lessTop) b Part.expr t := by
    have hfound : t.kind? = some .forCondition := by simpa using find?_some ht
    refine (hcondition t (mem_of_find?_eq_some ht) hfound).bind fun p => ?_
    cases p <;> first | exact .pure rfl | exact .misplaced t _ _
  unfold Agrees classicFor
  have hbodies (options : Options) : (partsOf (ts.map (childOf options))).filter (fun p => !isForClause p) =
      (ts.filter _).map (partOf options) :=
    filter_children options fun k => !(k == .forInit || k == .forCondition || k == .forUpdate)
  rw [hbodies, hbodies, getLast?_map, getLast?_map]
  simp only [firstPart?_children]
  cases hlast : (ts.filter _).getLast? with
  | none => exact .fails _
  | some t =>
    obtain ⟨ht, hother⟩ := mem_filter.mp (mem_of_getLast? hlast)
    have hbody := (hc t ht fun hk => by simp [hk] at hother).body
    simp only [Option.map_some, required, Build.pure_bind]
    refine (forStart_echoes fun t ht => hkind (by decide) ht).bind fun start => ?_
    cases hupdates : ts.find? (·.kind? = some .forUpdate) with
    | none =>
      cases hfirst : ts.find? (·.kind? = some .forCondition) with
      | none =>
        refine hbody.bind fun s => .pure ?_
        simp [Stmt.lessened, conditionLessened, exprsLessened, Functor.map, Seq.seq, pure]
      | some c =>
        refine ((hexpr hfirst).map (g := some) (κ := conditionLessened) fun _ => rfl).bind fun condition =>
          hbody.bind fun s => .pure ?_
        simp [Stmt.lessened, exprsLessened, Functor.map, Seq.seq, pure]
    | some u =>
      have hupdates : Alike exprsLessened b Part.updates u :=
        (hkind (by decide) hupdates).take fun p => by cases p <;> rfl
      cases hfirst : ts.find? (·.kind? = some .forCondition) with
      | none =>
        refine hupdates.bind fun us => hbody.bind fun s => .pure ?_
        simp [Stmt.lessened, conditionLessened, Functor.map, Seq.seq, pure]
      | some c =>
        exact ((hexpr hfirst).map (g := some) (κ := conditionLessened) fun _ => rfl).bind fun condition =>
          hupdates.bind fun us => hbody.bind fun s => .pure rfl

section

variable (hc : ∀ t ∈ ts, Twins b t)

include hc

theorem declaration_agrees : Agrees Declaration.lessened b (declaration site) ts := by
  unfold Agrees declaration
  rw [nameText_alike, firstLeaf?_alike, declaredType?_alike, partsOf_children, partsOf_children]
  refine .same (.nameText ..) fun name => ?_
  have hparts := parts_of_twins hc
  generalize ts.filter isNode = nodes at hparts ⊢
  cases firstLeaf? [.assign] (ts.map (childOf ⟨true, b⟩)) with
  | none => exact .fails _
  | some op =>
    cases nodes with
    | nil => exact .fails _
    | cons t rest =>
      change Echoes _ _ (if op.text ≠ ['='] then _ else _) (if op.text ≠ ['='] then _ else _)
      split
      · exact .fails _
      · refine (hparts t mem_cons_self).expr.bind fun e => ?_
        rw [isLambda_lessened, inferredType_lessened]
        dsimp only
        split
        · exact .same (.usesSystem _) fun _ => .pure rfl
        · exact .pure rfl

theorem ifStatement_agrees : Agrees Stmt.lessened b (ifStatement site) ts := by
  unfold Agrees ifStatement
  refine nth_expr hc fun condition => nth_echoes fun t ht => (hc t ht).body.bind fun consequence => ?_
  rw [partsOf_children, partsOf_children, getElem?_map, getElem?_map]
  cases ht : (ts.filter isNode)[2]? with
  | none => exact .pure (by simp [Stmt.lessened, alternativeLessened, Functor.map, Seq.seq, pure])
  | some t => exact (parts_of_twins hc t (mem_of_getElem? ht)).body.bind fun s => .pure rfl

theorem catchClause_agrees : Agrees CatchClause.lessened b (catchClause site) ts := by
  unfold Agrees catchClause
  rw [nameText_alike, declaredType?_alike]
  exact .same (.usesSystem _) fun _ => .same (.nameText ..) fun name =>
    nth_echoes fun t ht => (hc t ht).blockStmts.bind fun ss => .pure rfl

theorem tryStatement_agrees : Agrees Stmt.lessened b (tryStatement site) ts := by
  unfold Agrees tryStatement
  have hhandler {t : Tree} (h : Twins b t) : Alike CatchClause.lessened b Part.handler t :=
    h.take fun p => by cases p <;> rfl
  have hhandlers : Echoes catchesLessened [] _ _ := eachPart_echoes rfl (fun _ _ => rfl) fun t ht =>
    hhandler (hc t (mem_of_mem_filter (p := fun t => t.kind?.any (· == .catchClause)) ht))
  rw [filter_children _ (· == .catchClause), filter_children _ (· == .catchClause),
    firstPart?_children, firstPart?_children, firstPart?_children, firstPart?_children]
  cases hblock : ts.find? (·.kind? = some .block) with
  | none => exact .fails _
  | some t =>
    have hbody := (hc t (mem_of_find?_eq_some hblock)).blockStmts
    simp only [Option.map_some, required, Build.pure_bind]
    refine hhandlers.bind fun catches => ?_
    have hempty : (catchesLessened catches).result.isEmpty = catches.isEmpty := by cases catches <;> rfl
    cases hfinally : ts.find? (·.kind? = some .finallyClause) with
    | none =>
      simp only [Option.map_none, hempty]
      split
      · exact .fails _
      · exact hbody.bind fun ss => .pure (by simp [Stmt.lessened, finallyLessened, Functor.map, Seq.seq, pure])
    | some f =>
      have hblocks := (hc f (mem_of_find?_eq_some hfinally)).blockStmts
      refine (hblocks.map (g := some) (κ := finallyLessened) fun _ => rfl).bind fun o => ?_
      have hnone : (finallyLessened o).result.isNone = o.isNone := by cases o <;> rfl
      rw [hempty, hnone]
      split
      · exact .fails _
      · exact hbody.bind fun ss => .pure rfl

theorem switchStatement_agrees : Agrees Stmt.lessened b (switchStatement site) ts := by
  unfold Agrees switchStatement
  have hcase {t : Tree} (h : Twins b t) :
      Alike (fun c => .mk <$> c.1.lessened <*> stmtsLessened c.2) b Part.switchCase t :=
    h.take fun p => by cases p <;> rfl
  have hcases : Echoes casesLessened [] _ _ := eachPart_echoes rfl (fun _ _ => rfl) fun t ht =>
    hcase (hc t (mem_of_mem_filter (p := fun t => t.kind?.any (· == .switchCase)) ht))
  obtain ⟨o, ho, hafter⟩ := exists_afterDefault ts
  rw [filter_children _ (· == .switchCase), filter_children _ (· == .switchCase), hafter, hafter]
  refine nth_expr hc fun subject => hcases.bind fun cases => ?_
  obtain ⟨hresult, hreplaced⟩ := Rewritten.mk.inj (switchSections_lessened [] cases)
  change (_, _) = switchSections [] _ at hresult
  rw [← hresult]
  clear hresult
  generalize switchSections [] cases = r at hreplaced ⊢
  obtain ⟨sections, labels⟩ := r
  have hreplaced : (casesLessened cases).replaced =
    (sectionsLessened sections).replaced ++ (labelsLessened labels).replaced := hreplaced.symm
  rw [hreplaced]
  have hlast (labels : List SwitchLabel) (ss : List Stmt) :
      (Stmt.switch subject (sections ++ [.mk labels ss])).lessened =
        ⟨.switch subject.lessened.result ((sectionsLessened sections).result ++
            [.mk (labelsLessened labels).result (stmtsLessened ss).result]),
          subject.lessened.replaced ++ ((sectionsLessened sections).replaced ++
            ((labelsLessened labels).replaced ++ (stmtsLessened ss).replaced))⟩ := by
    simp [Stmt.lessened, sectionsLessened_append, sectionsLessened, SwitchSection.lessened, Functor.map, Seq.seq, pure]
  cases o with
  | some rest =>
    simp only [Option.map_some, partsOf_children]
    have hrest : ∀ t ∈ rest, Twins b t := fun t ht => hc t (ho rest rfl ht)
    refine (stmtsOf_echoes (parts_of_twins hrest)).bind fun ss => .pure ?_
    rw [hlast, labelsLessened_append, terminated_lessened]
    simp [labelsLessened, SwitchLabel.lessened, Functor.map, Seq.seq, pure]
  | none =>
    have hempty : (labelsLessened labels).result.isEmpty = labels.isEmpty := by cases labels <;> rfl
    simp only [Option.map_none, hempty]
    split
    · next hnil =>
      rw [isEmpty_iff.mp hnil]
      exact .pure (by simp [Stmt.lessened, labelsLessened, Functor.map, Seq.seq, pure])
    · refine .pure ?_
      rw [hlast]
      simp [stmtsLessened, Stmt.lessened, Functor.map, Seq.seq, pure]

theorem forCondition_echoes :
    Echoes (fun e => e.lessened.lessTop) [] (forCondition ⟨true, b⟩ site (ts.map (childOf ⟨true, b⟩)))
      (forCondition ⟨false, b⟩ site (ts.map (childOf ⟨false, b⟩))) := by
  refine nth_expr hc fun e => ?_
  cases e <;> try exact .pure rfl
  next op left right =>
    dsimp only [lessened, Rewritten.result_seq, Rewritten.result_map]
    rw [if_pos (.inr rfl)]
    split
    · next h =>
      obtain rfl : op = .less := by simpa using h
      exact .pure rfl
    · next h => exact .warn (by simp_all [Rewritten.lessTop, lessened])

theorem methodDeclaration_agrees :
    Agrees (fun m => (fun body => { m with body }) <$> stmtsLessened m.body) b (methodDeclaration site) ts := by
  unfold Agrees methodDeclaration
  simp only [nameText_alike, hasLeaf_alike, firstPart?_children]
  have hparameters {t : Tree} (h : Twins b t) : Alike pure b Part.parameters t :=
    h.take fun p => by cases p <;> rfl
  refine .same (.nameText ..) fun name => ?_
  cases hblock : ts.find? (·.kind? = some .block) with
  | none =>
    cases hfirst : ts.find? (·.kind? = some .parameters) with
    | none => exact .fails _
    | some t => exact (hparameters (hc t (mem_of_find?_eq_some hfirst))).bind fun ps => .fails _
  | some body =>
    have hbody := (hc body (mem_of_find?_eq_some hblock)).blockStmts
    simp only [Option.map_some, required, Build.pure_bind, children_alike]
    cases hfirst : ts.find? (·.kind? = some .parameters) with
    | none => exact hbody.bind fun ss => .pure rfl
    | some t => exact (hparameters (hc t (mem_of_find?_eq_some hfirst))).bind fun ps => hbody.bind fun ss => .pure rfl

theorem importDirective_agrees : Agrees pure b (importDirective site) ts := by
  unfold Agrees importDirective
  rw [hasLeaf_alike]
  refine nth_echoes fun t ht => (hc t ht).bind fun p => ?_
  cases p with
  | name s => exact .pure rfl
  | _ => exact .fail (congrArg Fault.nameless (productCategory_lessened _))

end

/-! ### Programs -/

section

variable (hc : ∀ t ∈ ts, Twins b t)

include hc

theorem programParts_echoes :
    Echoes (fun r => .mk r.1 <$> Rewritten.each Member.lessened r.2) []
      (programParts (ts.map (partOf ⟨true, b⟩))) (programParts (ts.map (partOf ⟨false, b⟩))) := by
  induction ts with
  | nil => exact .pure rfl
  | cons t ts ih =>
    simp only [forall_mem_cons] at hc
    refine hc.1.bind fun p => ?_
    cases p <;> first
      | exact ih hc.2
      | exact (ih hc.2).bind fun r => .pure rfl
      | exact .misplaced t _ _

theorem compilationUnit_echoes :
    Echoes CompilationUnit.lessened [] (compilationUnit ⟨true, b⟩ (ts.map (childOf ⟨true, b⟩)))
      (compilationUnit ⟨false, b⟩ (ts.map (childOf ⟨false, b⟩))) := by
  unfold compilationUnit
  rw [partsOf_children, partsOf_children]
  have hparts := programParts_echoes (parts_of_twins hc)
  generalize programParts ((ts.filter isNode).map (partOf ⟨true, b⟩)) = x at hparts ⊢
  generalize programParts ((ts.filter isNode).map (partOf ⟨false, b⟩)) = y at hparts ⊢
  cases hparts with
  | fails f => exact .fails f
  | gives h =>
    obtain ⟨hresult, hreplaced⟩ := Rewritten.mk.inj h
    subst hresult
    exact .gives (by rw [← hreplaced]; rfl)

end

theorem expression_echoes {x y : Build Expr} (h : Echoes lessened [] x y) :
    Echoes Product.lessened [] (Product.expression <$> x) (Product.expression <$> y) :=
  h.map fun _ => rfl

theorem statement_echoes {x y : Build Stmt} (h : Echoes Stmt.lessened [] x y) :
    Echoes Product.lessened [] (Product.statement <$> x) (Product.statement <$> y) :=
  h.map fun _ => rfl

/-- All constructs but counting loops and their conditions are put together alike. -/
theorem assemble_agrees {k : Kind} {span : Span} {text : Chars} (hk : k ≠ .forCondition)
    (hloop : k ≠ .classicFor) (hc : ∀ t ∈ ts, Twins b t) :
    Echoes Product.lessened [] (assemble ⟨true, b⟩ ⟨k, span, text⟩ (ts.map (childOf ⟨true, b⟩)))
      (assemble ⟨false, b⟩ ⟨k, span, text⟩ (ts.map (childOf ⟨false, b⟩))) := by
  have hparts := parts_of_twins hc
  cases k <;> simp only [assemble, leaves_alike, partsOf_children]
  case compilationUnit => exact (compilationUnit_echoes hc).map fun _ => rfl
  case importDirective => exact (importDirective_agrees hc).map fun _ => rfl
  case methodDeclaration => exact (methodDeclaration_agrees hc).map fun _ => rfl
  case parameters =>
    have hparameter {t : Tree} (h : Twins b t) : Alike pure b Part.parameter t :=
      h.take fun p => by cases p <;> rfl
    have heach : Echoes pure [] _ _ := eachPart_echoes rfl (fun _ _ => rfl) fun t ht => hparameter (hparts t ht)
    exact heach.map fun _ => rfl
  case parameter =>
    rw [parameter, parameter, nameText_alike, declaredType?_alike]
    exact Echoes.map (ℓ := pure) (.same (.nameText ..) fun name => .pure rfl) fun _ => rfl
  case localDeclaration => exact (declaration_agrees hc).map fun _ => rfl
  case expressionStatement | throwStatement => exact nth_expr hc fun e => .pure rfl
  case commandCall => exact expression_echoes (commandCall_agrees hc)
  case block => exact (stmtsOf_echoes hparts).map fun _ => rfl
  case ifStatement => exact statement_echoes (ifStatement_agrees hc)
  case whileStatement =>
    exact statement_echoes (nth_expr hc fun condition =>
      nth_echoes fun t ht => (hc t ht).body.bind fun s => .pure rfl)
  case classicFor => exact absurd rfl hloop
  case forCondition => exact absurd rfl hk
  case forInit =>
    rw [forInit, forInit, hasLeaf_alike]
    split
    · exact (declaration_agrees hc).bind fun d => .pure rfl
    · exact nth_expr hc fun e => .pure rfl
  case forUpdate | listLiteral => exact (exprsOf_echoes hparts).map fun _ => rfl
  case forIn | forEach =>
    rw [forEachStatement, forEachStatement, nameText_alike]
    exact statement_echoes (.same (.nameText ..) fun name => nth_expr hc fun e =>
      nth_echoes fun t ht => (hc t ht).body.bind fun s => .pure rfl)
  case switchStatement => exact statement_echoes (switchStatement_agrees hc)
  case switchCase =>
    rw [switchCase, switchCase, partsOf_children, partsOf_children, ← map_drop, ← map_drop]
    exact nth_expr hc fun e => (stmtsOf_echoes fun t ht => hparts t (mem_of_mem_drop ht)).bind fun ss => .pure rfl
  case tryStatement => exact statement_echoes (tryStatement_agrees hc)
  case catchClause => exact (catchClause_agrees hc).map fun _ => rfl
  case finallyClause => exact nth_echoes fun t ht => (hc t ht).blockStmts.bind fun ss => .pure rfl
  case returnStatement =>
    rw [returnStatement, returnStatement, partsOf_children, partsOf_children]
    generalize ts.filter isNode = nodes at hparts ⊢
    cases nodes with
    | nil => exact statement_echoes (.pure rfl)
    | cons t rest => exact statement_echoes ((hparts t mem_cons_self).expr.bind fun e => .pure rfl)
  case assignmentExpression | binaryExpression =>
    simp only [assignmentExpression, binaryExpression, firstLeaf?_alike, operatorText?_alike]
    refine expression_echoes (.same (.required ..) fun l => ?_)
    split
    · exact .fails _
    · exact nth_expr hc fun left => nth_expr hc fun right => .pure rfl
  case ternaryExpression =>
    exact expression_echoes (nth_expr hc fun c => nth_expr hc fun t => nth_expr hc fun e => .pure rfl)
  case unaryExpression | postfixExpression =>
    simp only [unaryExpression, postfixExpression, operatorText?_alike]
    exact expression_echoes (.same (.required ..) fun op => nth_expr hc fun e => .pure rfl)
  case memberAccess => exact expression_echoes (memberOf_agrees hc _)
  case methodCall => exact expression_echoes (methodCall_agrees hc)
  case indexExpression => exact expression_echoes (nth_expr hc fun target => nth_expr hc fun e => .pure rfl)
  case callExpression => exact expression_echoes (callExpression_agrees hc)
  case objectCreation => exact expression_echoes (objectCreation_agrees hc)
  case arguments =>
    have heach : Echoes argumentsLessened [] _ _ :=
      eachPart_echoes rfl (fun _ _ => rfl) fun t ht => (hparts t ht).listedArgument
    exact heach.map fun _ => rfl
  case namedArgument =>
    rw [namedArgument, namedArgument, nameText_alike]
    exact Echoes.map (ℓ := Argument.lessened) (nth_expr hc fun e => .same (.nameText ..) fun name => .pure rfl)
      fun _ => rfl
  case closure => exact expression_echoes (closure_agrees hc)
  case identifier =>
    rw [nameText_alike]
    exact .same (.nameText ..) fun name => .pure rfl
  case integerLiteral =>
    rw [integerLiteral, integerLiteral, firstLeaf?_alike]
    refine expression_echoes (.same (.required ..) fun l => ?_)
    split
    · exact .fails _
    · split
      · exact .pure rfl
      · exact .fails _
  case decimalLiteral | stringLiteral =>
    simp only [decimalLiteral, stringLiteral, firstLeaf?_alike]
    exact expression_echoes (.same (.required ..) fun l => .pure rfl)
  case gstring =>
    rw [gstring, gstring, startsGstring_alike]
    split
    · exact expression_echoes ((gstringContents_agrees hc).bind fun cs => .pure rfl)
    · exact .fails _
  case booleanLiteral =>
    rw [booleanLiteral, booleanLiteral, hasLeaf_alike, hasLeaf_alike]
    split
    · exact .pure rfl
    · split
      · exact .pure rfl
      · exact .fails _
  all_goals first | exact .pure rfl | exact .fails _

theorem twins_of_formed (hf : Formed t) : (t.kind? ≠ some .forCondition → Twins b t) ∧
    (t.kind? = some .forCondition → Alike Product.conditionLessened b Part.result t) := by
  induction hf with
  | leaf => exact ⟨fun _ => .pure rfl, nofun⟩
  | @node k children span text pattern hp hfits _ ih =>
    have hpatterns : ∀ k : Kind, k ≠ .classicFor → ∀ p ∈ k.patterns, .forCondition ∉ p.flatMap (·.shape.kinds) := by
      intro k hk
      cases k <;> first | exact absurd rfl hk | decide
    have hc (hk : k ≠ .classicFor) : ∀ t ∈ children, Twins b t := fun t ht =>
      (ih t ht).1 fun hcondition => hpatterns k hk pattern hp (kind_mem_of_fits hfits ht hcondition)
    unfold Twins Alike
    rw [partOf, partOf, product_node, product_node]
    refine ⟨fun hk => ?_, fun hk => ?_⟩
    · by_cases hloop : k = .classicFor
      · subst hloop
        exact statement_echoes (classicFor_agrees (fun t ht => (ih t ht).1) fun t ht => (ih t ht).2)
      · exact assemble_agrees (fun h => hk (congrArg some h)) hloop (hc hloop)
    · obtain rfl : k = .forCondition := Option.some.inj hk
      exact (forCondition_echoes (hc (by decide))).map fun _ => rfl

/-- Keeping the conditions of loops has no other effect: both conversions fail alike, and otherwise the one
that does not keep them gives the result of the other with `<` in the conditions of its counting loops,
and a warning for each operator that was replaced. -/
theorem convert_lessened {source : Chars} (b : Bool) (h : Program.read source = .ok t) :
    (∃ f, convert ⟨true, b⟩ t = .error f ∧ convert ⟨false, b⟩ t = .error f) ∨
    ∃ unit warnings, convert ⟨true, b⟩ t = .ok (unit, []) ∧
      convert ⟨false, b⟩ t = .ok (unit.lessened.result, warnings) ∧
      warnings.map Warning.operator = unit.lessened.replaced := by
  obtain ⟨hformed, hunit⟩ := Program.read_formed h
  obtain ⟨k, children, span, text, rfl, hk⟩ := exists_node_of_admits hunit
  obtain rfl := mem_singleton.mp hk
  cases hformed with
  | node hp hf hc =>
    have hechoes := compilationUnit_echoes (b := b) fun t ht => (twins_of_formed (hc t ht)).1 fun hcondition => by
      obtain rfl := mem_singleton.mp hp
      exact absurd (kind_mem_of_fits hf ht hcondition) (by decide)
    simp only [convert, if_true, prepared_eq_map]
    generalize compilationUnit ⟨true, b⟩ _ = x at hechoes ⊢
    generalize compilationUnit ⟨false, b⟩ _ = y at hechoes ⊢
    cases hechoes with
    | fails f => exact .inl ⟨f, rfl, rfl⟩
    | @gives unit unit' _ warnings h => exact .inr ⟨unit, warnings, rfl, by rw [h], by rw [h]; rfl⟩

theorem convert_lessened_nested : ∃ t unit warnings,
      Program.read "for (f = \x7b for (; a > 0;) \x7b \x7d \x7d; b <= c; ) \x7b d >= 1; \x7d".toList = .ok t ∧
      convert ⟨true, true⟩ t = .ok (unit, []) ∧ convert ⟨false, true⟩ t = .ok (unit.lessened.result, warnings) ∧
      warnings.map Warning.operator = [.greater, .lessEqual] := by
  obtain ⟨t, ht, hp⟩ := Source.exists_of_toOption_any
    (x := Program.read "for (f = \x7b for (; a > 0;) \x7b \x7d \x7d; b <= c; ) \x7b d >= 1; \x7d".toList)
    (p := fun t => (convert ⟨true, true⟩ t).toOption.any fun r =>
      r.1.lessened.replaced == [.greater, .lessEqual])
    (by decide +kernel)
  rcases convert_lessened true ht with ⟨f, hon, -⟩ | ⟨unit, warnings, hon, hoff, hw⟩
  · rw [hon] at hp
    cases hp
  · rw [hon] at hp
    exact ⟨t, unit, warnings, ht, hon, hoff, hw.trans (beq_iff_eq.mp hp)⟩

end

end GroovySharp.Conversion
