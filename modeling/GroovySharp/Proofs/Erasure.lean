import GroovySharp.Program

/-!
# Trees without positions

What a tree says apart from where it stands: spans and the texts of nodes are left out, and so are the
empty statements in lists of statements.
-/

namespace GroovySharp

open Text

def Kind.holdsStatements : Kind → Bool
  | .compilationUnit | .block | .closure | .switchStatement | .switchCase => true
  | _ => false

namespace Tree

def isEmptyStatement : Tree → Bool
  | .node .emptyStatement [] _ _ => true
  | _ => false

def withoutEmpty (ts : List Tree) : List Tree := ts.filter fun t => !t.isEmptyStatement

def counted (k : Kind) (ts : List Tree) : List Tree :=
  if k.holdsStatements then withoutEmpty ts else ts

mutual

def erased : Tree → Tree
  | .leaf l => .leaf { l with span := .empty }
  | .node k children _ _ => .node k (counted k (allErased children)) .empty []

def allErased : List Tree → List Tree
  | [] => []
  | t :: ts => erased t :: allErased ts

end

theorem allErased_append (a b : List Tree) : allErased (a ++ b) = allErased a ++ allErased b := by
  induction a with
  | nil => rfl
  | cons t a ih => rw [List.cons_append, allErased, allErased, ih, List.cons_append]

theorem withoutEmpty_append (a b : List Tree) : withoutEmpty (a ++ b) = withoutEmpty a ++ withoutEmpty b :=
  List.filter_append ..

theorem counted_congr {k : Kind} {a b : List Tree} (h : withoutEmpty a = withoutEmpty b)
    (hk : k.holdsStatements = false → a = b) : counted k a = counted k b := by
  unfold counted
  cases hs : k.holdsStatements with
  | true => exact h
  | false => exact hk hs

theorem isEmptyStatement_iff {t : Tree} :
    t.isEmptyStatement = true ↔ ∃ span text, t = .node .emptyStatement [] span text := by
  constructor
  · intro h
    unfold isEmptyStatement at h
    split at h
    · exact ⟨_, _, rfl⟩
    · cases h
  · rintro ⟨span, text, rfl⟩
    rfl

/-! ### Trees of fragments -/

mutual

theorem erased_within (origin : Position) : ∀ t : Tree, (t.within origin).erased = t.erased
  | .leaf l => rfl
  | .node k children span text => by rw [within, erased, erased, allErased_within origin children]

theorem allErased_within (origin : Position) : ∀ ts : List Tree, allErased (allWithin origin ts) = allErased ts
  | [] => rfl
  | t :: ts => by rw [allWithin, allErased, allErased, erased_within origin t, allErased_within origin ts]

end

end Tree

namespace Program

open GroovySharp.Tree

/-! ### Holes -/

def Agree {ε α β : Type} (e : α → β) (x y : Except ε α) : Prop :=
  x.toOption.map e = y.toOption.map e

variable {ε α β : Type}

theorem Agree.refl (e : α → β) (x : Except ε α) : Agree e x x := rfl

variable {x y : Except ε α} {e : α → β}

theorem Agree.trans {x y z : Except ε α} (hxy : Agree e x y) (hyz : Agree e y z) : Agree e x z :=
  Eq.trans hxy hyz

theorem Agree.symm (h : Agree e x y) : Agree e y x :=
  Eq.symm h

theorem Agree.exists_ok (h : Agree e x y) {a : α} (hx : x = .ok a) : ∃ b, y = .ok b ∧ e b = e a := by
  subst hx
  cases y with
  | error f => cases h
  | ok b => exact ⟨b, rfl, (Option.some.inj h).symm⟩

theorem Agree.bind {γ δ : Type} {e' : γ → δ} {f g : α → Except ε γ}
    (h : Agree e x y) (hfg : ∀ a b, e a = e b → Agree e' (f a) (g b)) : Agree e' (x >>= f) (y >>= g) := by
  cases x with
  | error ex =>
    cases y with
    | error ey => rfl
    | ok b => cases h
  | ok a =>
    cases y with
    | error ey => cases h
    | ok b => exact hfg a b (Option.some.inj h)

theorem Agree.map {γ : Type} (h : Agree e x y) (g : β → γ) : Agree (fun a => g (e a)) x y := by
  have hmap := congrArg (Option.map g) h
  simpa [Agree, Function.comp_def] using hmap

theorem readHole_agree (origin origin' : Position) (source : Chars) :
    Agree erased (readHole origin source) (readHole origin' source) := by
  unfold readHole
  cases Grammar.parse Grammar.ExpressionTable.table source with
  | error stop => rfl
  | ok piece => simp [Agree, Except.toOption, erased_within]

theorem readHoles_agree (base base' : Position) (span span' : Span) (kind : LeafKind) (holes : List Interpolated.Hole) :
    Agree allErased (readHoles base span kind holes) (readHoles base' span' kind holes) := by
  induction holes generalizing kind with
  | nil => rfl
  | cons hole holes ih =>
    refine (readHole_agree _ _ hole.source).bind fun tree tree' htree => ?_
    refine (ih .gstringPart).bind fun rest rest' hrest => ?_
    simp [Agree, Except.toOption, pure, Except.pure, allErased, erased, htree, hrest]

theorem readInterpolated_agree (raw : Chars) (token token' span span' : Span) :
    Agree erased (readInterpolated raw token span) (readInterpolated raw token' span') := by
  unfold readInterpolated
  cases Interpolated.split raw with | mk holes tail
  refine (readHoles_agree _ _ _ _ _ _).bind fun children children' hchildren => ?_
  cases tail with
  | openHole | emptyHole | badName => rfl
  | text last =>
    simp [Agree, Except.toOption, pure, Except.pure, erased, allErased, allErased_append, hchildren,
      counted, Kind.holdsStatements]

/-! ### Expanded trees -/

theorem expand_of_not_literal {k : Kind} {children : List Tree} (span : Span) (text : Chars)
    (h : ∀ l rest, k = .stringLiteral → children ≠ .leaf l :: rest) :
    expand (.node k children span text) = (do return .node k (← expandAll children) span text) := by
  rw [expand]
  exact h

theorem expand_literal (l : Leaf) (rest : List Tree) (span : Span) (text : Chars) :
    expand (.node .stringLiteral (.leaf l :: rest) span text) =
      if l.kind = .terminal .doubleString ∧ Interpolated.isInterpolated l.text = true then
        readInterpolated l.text l.span span
      else do return .node .stringLiteral (← expandAll (.leaf l :: rest)) span text := by
  rw [expand, expandAll, expand]
  cases expandAll rest <;> rfl

theorem expand_emptyStatement (span : Span) (text : Chars) :
    expand (.node .emptyStatement [] span text) = .ok (.node .emptyStatement [] span text) := by
  rw [expand_of_not_literal _ _ (by simp), expandAll]
  rfl

theorem leaf_of_allErased {ts : List Tree} {l : Leaf} {rest : List Tree}
    (h : allErased ts = .leaf l :: rest) : ∃ l' rest', ts = .leaf l' :: rest' := by
  cases ts with
  | nil => cases h
  | cons t ts =>
    cases t with
    | leaf l' => exact ⟨l', ts, rfl⟩
    | node k children span text => cases (List.cons.inj h).1

theorem expandAll_withoutEmpty (ts : List Tree) :
    Agree (fun es => withoutEmpty (allErased es)) (expandAll ts) (expandAll (withoutEmpty ts)) := by
  induction ts with
  | nil => rfl
  | cons t ts ih =>
    cases ht : t.isEmptyStatement with
    | true =>
      obtain ⟨span, text, rfl⟩ := isEmptyStatement_iff.mp ht
      have hdrop : withoutEmpty (.node .emptyStatement [] span text :: ts) = withoutEmpty ts := rfl
      rw [hdrop, expandAll, expand_emptyStatement]
      refine Agree.trans ?_ ih
      cases expandAll ts <;> rfl
    | false =>
      have hkeep : withoutEmpty (t :: ts) = t :: withoutEmpty ts := by simp [withoutEmpty, ht]
      rw [hkeep, expandAll, expandAll]
      refine (Agree.refl erased (expand t)).bind fun e e' he => ?_
      refine ih.bind fun es es' hes => ?_
      have hcons : ∀ es, withoutEmpty (allErased (e :: es)) =
          withoutEmpty [e.erased] ++ withoutEmpty (allErased es) :=
        fun es => withoutEmpty_append [e.erased] (allErased es)
      have hcons' : ∀ es, withoutEmpty (allErased (e' :: es)) =
          withoutEmpty [e'.erased] ++ withoutEmpty (allErased es) :=
        fun es => withoutEmpty_append [e'.erased] (allErased es)
      simp only [Agree, pure, Except.pure, Except.toOption, Option.map_some, hcons, hcons', he, hes]

theorem expandAll_counted {k : Kind} {ts ts' : List Tree} (h : Agree allErased (expandAll ts) (expandAll ts')) :
    Agree (fun es => counted k (allErased es)) (expandAll ts) (expandAll (counted k ts')) := by
  unfold counted
  cases hk : k.holdsStatements with
  | false => exact h.map id
  | true => exact (h.map withoutEmpty).trans (expandAll_withoutEmpty ts')

mutual

theorem expand_agree : ∀ t : Tree, Agree erased (expand t) (expand t.erased)
  | .leaf l => rfl
  | .node k children span text => by
    have hchildren := expandAll_counted (k := k) (expandAll_agree children)
    have hnode : Agree erased (do return .node k (← expandAll children) span text)
        (do return .node k (← expandAll (counted k (allErased children))) .empty []) := by
      refine hchildren.bind fun es es' hes => ?_
      simp only [Agree, pure, Except.pure, Except.toOption, Option.map_some, erased, hes]
    by_cases hlit : ∃ l rest, k = .stringLiteral ∧ children = .leaf l :: rest
    · obtain ⟨l, rest, rfl, rfl⟩ := hlit
      have herased : (node .stringLiteral (.leaf l :: rest) span text).erased =
          .node .stringLiteral (.leaf { l with span := .empty } :: allErased rest) .empty [] := rfl
      rw [herased, expand_literal, expand_literal]
      split
      · exact readInterpolated_agree ..
      · exact hnode
    · have hself : ∀ l rest, k = .stringLiteral → children ≠ .leaf l :: rest :=
        fun l rest hk hc => hlit ⟨l, rest, hk, hc⟩
      have hchild : ∀ l rest, k = .stringLiteral → counted k (allErased children) ≠ .leaf l :: rest := by
        rintro l rest rfl hc
        obtain ⟨l', rest', hc'⟩ := leaf_of_allErased hc
        exact hself l' rest' rfl hc'
      rw [erased, expand_of_not_literal _ _ hself, expand_of_not_literal _ _ hchild]
      exact hnode

theorem expandAll_agree : ∀ ts : List Tree, Agree allErased (expandAll ts) (expandAll (allErased ts))
  | [] => rfl
  | t :: ts => by
    rw [expandAll, allErased, expandAll]
    refine (expand_agree t).bind fun e e' he => ?_
    refine (expandAll_agree ts).bind fun es es' hes => ?_
    simp [Agree, Except.toOption, pure, Except.pure, allErased, he, hes]

end

theorem exists_expand {t t' e : Tree} (h : t.erased = t'.erased) (he : expand t = .ok e) :
    ∃ e', expand t' = .ok e' ∧ e'.erased = e.erased := by
  have hagree : Agree erased (expand t) (expand t') := by
    refine (expand_agree t).trans ?_
    rw [h]
    exact (expand_agree t').symm
  exact hagree.exists_ok he

end Program

end GroovySharp
