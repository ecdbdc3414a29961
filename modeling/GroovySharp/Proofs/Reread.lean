import GroovySharp.Proofs.EditedCore

/-!
# Reading a line a second time

A normalized text is read again in a state that mirrors the first one.
-/

namespace GroovySharp.Source

open Text List

/-- The second state is the first with other remembered blocks, and follows no chain that the first
does not. -/
structure Mirrors (skips : List Nat) (s s' : Nesting) : Prop where
  opened : s'.opened = s.opened
  closures : s'.closures = s.closures
  headerDepth : s'.headerDepth = s.headerDepth
  headerIsControl : s'.headerIsControl = s.headerIsControl
  skips : s'.skips = skips
  inChain : s'.inChain = true → s.inChain = true

def Context.again (ctx : Context) (l : Line) (next : Chars) : Context :=
  { ctx with line := l, core := l.core, nextCore := next }

theorem Nesting.depth_congr {s s' : Nesting} (h : s'.opened = s.opened) (d : Delimiter) : s'.depth d = s.depth d := by
  rw [depth, lines, h, depth, lines]

namespace Mirrors

variable {k : List Nat} {s s' : Nesting}

theorem depth_eq (h : Mirrors k s s') (d : Delimiter) : s'.depth d = s.depth d :=
  Nesting.depth_congr h.opened d

theorem innermost_eq (h : Mirrors k s s') : s'.innermost = s.innermost := by simp only [Nesting.innermost, h.opened]

theorem contextOf_eq {absorbed absorbed' : Nesting} (h : Mirrors k s s')
    (ha : Mirrors k absorbed absorbed') (l l' : Line) (rest rest' : List Line) :
    contextOf s' absorbed' l' rest' = (contextOf s absorbed l rest).again l' (nextCore rest') := by
  simp only [contextOf, Context.again, h.depth_eq, h.innermost_eq, ha.depth_eq, ha.innermost_eq]

theorem absorb {absorbed : Nesting} {l : Line} (h : Mirrors k s s') (habsorb : s.absorb l = .ok absorbed) :
    ∃ absorbed', s'.absorb l = .ok absorbed' ∧ Mirrors k absorbed absorbed' := by
  cases hbody : l.isStringBody with
  | true =>
    simp only [Nesting.absorb, hbody, if_true] at habsorb ⊢
    cases habsorb
    exact ⟨s', rfl, h⟩
  | false =>
    simp only [Nesting.absorb, hbody, Bool.false_eq_true, if_false] at habsorb ⊢
    obtain ⟨opened, hopened, rfl⟩ := map_eq_ok.mp habsorb
    rw [h.opened, hopened]
    exact ⟨_, rfl, { h with opened := rfl }⟩

theorem settle {d d' : Nesting} {b : Nat} (hb : d.depth .brace = b) (hopened : d'.opened = d.opened)
    (hdepth : d'.headerDepth = d.headerDepth) (hcontrol : d'.headerIsControl = d.headerIsControl)
    (hchain : d'.inChain = true → d.inChain = true) (hclosures : d'.closures.dropWhile (fun c => decide (b < c.2)) =
      d.closures.dropWhile fun c => decide (b < c.2))
    (hskips : d'.skips.dropWhile (fun n => decide (b < n)) = k.dropWhile fun n => decide (b < n)) :
    Mirrors (k.dropWhile fun n => decide (b < n)) d.settle d'.settle := by
  subst hb
  have hdepths := Nesting.depth_congr hopened
  refine ⟨hopened, ?_, ?_, hcontrol, ?_, hchain⟩
  · simp only [Nesting.settle, hdepths, hclosures]
  · simp only [Nesting.settle, hdepths, hdepth]
  · simp only [Nesting.settle, hdepths, hskips]

theorem settle_self {d d' : Nesting} {b : Nat} (h : Mirrors k d d') (hb : d.depth .brace = b) :
    Mirrors (k.dropWhile fun n => decide (b < n)) d.settle d'.settle :=
  settle hb h.opened h.headerDepth h.headerIsControl h.inChain (by rw [h.closures]) (by rw [h.skips])

end Mirrors

namespace LineRule

variable {k : List Nat} {s s' : Nesting} {ctx : Context} {next : Chars}

/-! ### A line that stayed as it was -/

theorem applyControlHeader_mirrors (h : Mirrors k s s') :
    (applyControlHeader { ctx with nextCore := next } s').1 = (applyControlHeader ctx s).1 ∧
      Mirrors k (applyControlHeader ctx s).2 (applyControlHeader { ctx with nextCore := next } s').2 := by
  simp only [applyControlHeader, h.headerDepth, h.headerIsControl]
  split
  · exact ⟨rfl, { h with headerDepth := rfl, headerIsControl := rfl }⟩
  · split
    · exact ⟨rfl, h⟩
    · split
      · split
        · exact ⟨rfl, { h with headerDepth := rfl, headerIsControl := rfl }⟩
        · exact ⟨rfl, h⟩
      · split
        · exact ⟨rfl, h⟩
        · exact ⟨rfl, h⟩
        · exact ⟨rfl, { h with headerDepth := rfl, headerIsControl := rfl }⟩

theorem applyStringEnd_mirrors (h : Mirrors k s s') (hnext : startsChain next = startsChain ctx.nextCore) :
    (applyStringEnd { ctx with nextCore := next } s').1 = (applyStringEnd ctx s).1 ∧
      Mirrors k (applyStringEnd ctx s).2 (applyStringEnd { ctx with nextCore := next } s').2 := by
  simp only [applyStringEnd, hnext]
  split
  · exact ⟨rfl, h⟩
  · split
    · exact ⟨rfl, { h with inChain := fun _ => rfl }⟩
    · split <;> exact ⟨rfl, h⟩

theorem apply_head_mirrors (h : Mirrors k s s')
    (hnext : startsChain next = startsChain ctx.nextCore) {r : LineRule} (hr : r ∈ headRules) :
    (apply r { ctx with nextCore := next } s').1 = (apply r ctx s).1 ∧
      Mirrors k (apply r ctx s).2 (apply r { ctx with nextCore := next } s').2 := by
  simp only [headRules, mem_cons, not_mem_nil, or_false] at hr
  rcases hr with rfl | rfl | rfl | rfl | rfl | rfl | rfl
  · exact ⟨rfl, h⟩
  · exact ⟨rfl, h⟩
  · exact ⟨rfl, h⟩
  · exact ⟨rfl, h⟩
  · exact applyControlHeader_mirrors h
  · exact applyStringEnd_mirrors h hnext
  · exact ⟨rfl, h⟩

theorem tryRules_rel {ctx' : Context} {R : Nesting → Nesting → Prop} {rules : List LineRule} (h : R s s')
    (hrules : ∀ r ∈ rules, ∀ s s', R s s' →
      (apply r ctx' s').1 = (apply r ctx s).1 ∧ R (apply r ctx s).2 (apply r ctx' s').2) :
    (tryRules ctx' rules s').1 = (tryRules ctx rules s).1 ∧ R (tryRules ctx rules s).2 (tryRules ctx' rules s').2 := by
  induction rules generalizing s s' with
  | nil => exact ⟨rfl, h⟩
  | cons r rules ih =>
    obtain ⟨hedit, hstate⟩ := hrules r (by simp) s s' h
    simp only [tryRules]
    cases hfirst : apply r ctx s with
    | mk edit s₁ =>
      cases hsecond : apply r ctx' s' with
      | mk edit' s₁' =>
        rw [hfirst, hsecond] at hedit hstate
        obtain rfl : edit' = edit := hedit
        cases edit' with
        | none => exact ih hstate fun r hr => hrules r (mem_cons_of_mem _ hr)
        | some e => exact ⟨rfl, hstate⟩

variable {s₁ d t t' : Nesting} {rule : LineRule} {edit : Edit} {l l' : Line}

theorem tryRules_rule {rules : List LineRule} {r : LineRule} {e : Edit}
    (h : tryRules ctx rules s = (some (r, e), s₁)) : r ∈ rules := by
  induction rules generalizing s with
  | nil => cases h
  | cons r' rules ih =>
    simp only [tryRules] at h
    split at h
    · cases h
      exact mem_cons_self
    · exact mem_cons_of_mem _ (ih h)

/-! ### What a second reading ends again -/

/-- The line asks for a semicolon again when it is read a second time: it was left alone for its end
although its shape asks for one, or it was ended with a plain semicolon and ends with an open block. -/
def asksAgain (l : Line) (rule : LineRule) (edit : Edit) : Bool :=
  if edit.apply l = l.text then
    rule == invalidTerminator && (shapeEdit l.core).apply l != l.text
  else edit == .terminate && l.asksForBlock

/-- The depths of blocks in closures that a second reading remembers at the line. Lines that were ended
open no blocks. -/
def remembered (ctx : Context) (s : Nesting) (rule : LineRule) (edit : Edit) (skips : List Nat) : List Nat :=
  if edit.apply ctx.line = ctx.line.text ∧ rule = invalidTerminator ∧ opensBlock ctx s = true then
    ctx.bracesAfter :: skips
  else skips

/-- A second reading ends something on the line again: the line asks for it, and neither an open
parenthesis, nor a closure that it closes, nor the end of a remembered block keeps it from that. -/
def disturbed (ctx : Context) (s : Nesting) (rule : LineRule) (edit : Edit) (skips : List Nat) : Bool :=
  asksAgain ctx.line rule edit && ctx.after != some .paren && !closesClosure ctx s &&
    !(remembered ctx s rule edit skips).head?.any fun d => Decidable.decide (ctx.bracesAfter < d)

def stillRemembered (ctx : Context) (s : Nesting) (rule : LineRule) (edit : Edit) (skips : List Nat) : List Nat :=
  (remembered ctx s rule edit skips).dropWhile fun d => Decidable.decide (ctx.bracesAfter < d)

/-- The second reading of a line, given its outcome: whether it leaves the line alone, and the state. -/
structure Rereads (ctx : Context) (s : Nesting) (rule : LineRule) (edit : Edit) (decided : Nesting)
    (skips : List Nat) (l : Line) (edit' : Edit) (decided' : Nesting) : Prop where
  text : edit'.apply l = l.text ↔ disturbed ctx s rule edit skips = false
  state : Mirrors (stillRemembered ctx s rule edit skips) decided.settle decided'.settle

theorem dropWhile_tail {α : Type} {p : α → Bool} {xs : List α} (h : xs.head?.any p = true) :
    xs.tail.dropWhile p = xs.dropWhile p := by
  cases xs with
  | nil => rfl
  | cons x xs =>
    have hx : p x = true := h
    simp [hx]

theorem rereads_same {s d' : Nesting} (h : Mirrors k d d') (hb : d.depth .brace = ctx.bracesAfter)
    (htext : edit.apply ctx.line = ctx.line.text) (hrule : rule ≠ invalidTerminator) :
    Rereads ctx s rule edit d k ctx.line edit d' := by
  have hremembered : remembered ctx s rule edit k = k := by simp [remembered, hrule]
  refine ⟨?_, ?_⟩
  · simp [disturbed, asksAgain, htext, hrule]
  · rw [stillRemembered, hremembered]
    exact h.settle_self hb

theorem closesClosure_congr {ctx ctx' : Context} (hb : ctx'.bracesAfter = ctx.bracesAfter)
    (h : t'.closures = t.closures) : closesClosure ctx' t' = closesClosure ctx t := by
  rw [closesClosure, closesClosure, hb, h]

/-- The rule for invalid ends changes nothing of the state but the innermost closure, which it drops if
the line closes it, and the remembered blocks. -/
structure InvalidEnd (ctx : Context) (t d : Nesting) : Prop where
  opened : d.opened = t.opened
  headerDepth : d.headerDepth = t.headerDepth
  headerIsControl : d.headerIsControl = t.headerIsControl
  inChain : d.inChain = t.inChain
  closures : d.closures = if closesClosure ctx t then t.closures.tail else t.closures

theorem invalidEnd (h : applyInvalidTerminator ctx t = (some edit, d)) : InvalidEnd ctx t d := by
  rw [applyInvalidTerminator_eq] at h
  split at h
  · cases h
  · split at h
    · next hcloses =>
      cases h
      exact ⟨rfl, rfl, rfl, rfl, by simp [hcloses]⟩
    · next hcloses =>
      split at h
      · cases h
        exact ⟨rfl, rfl, rfl, rfl, by simp [hcloses]⟩
      · cases h
        exact ⟨rfl, rfl, rfl, rfl, by simp [hcloses]⟩

theorem dropWhile_closures (ctx : Context) (t : Nesting) :
    (if closesClosure ctx t then t.closures.tail else t.closures).dropWhile
        (fun c => Decidable.decide (ctx.bracesAfter < c.2)) =
      t.closures.dropWhile fun c => Decidable.decide (ctx.bracesAfter < c.2) := by
  split
  · next hcloses => exact dropWhile_tail hcloses
  · rfl

theorem applyInvalidTerminator_of_invalid (h : endsInvalid ctx t = true) :
    ∃ edit d, applyInvalidTerminator ctx t = (some edit, d) ∧
      d.skips.dropWhile (fun n => Decidable.decide (ctx.bracesAfter < n)) =
        (skipsAfter ctx t).dropWhile (fun n => Decidable.decide (ctx.bracesAfter < n)) ∧
      (edit = if closesClosure ctx t then (if goesOn ctx then .keep else .terminate)
        else if (skipsAfter ctx t).head?.any fun n => Decidable.decide (ctx.bracesAfter < n) then .keep
        else shapeEdit ctx.core) := by
  rw [applyInvalidTerminator_eq, if_neg (by simp [h])]
  cases hcloses : closesClosure ctx t with
  | true => exact ⟨_, _, rfl, rfl, by simp⟩
  | false =>
    cases hskip : (skipsAfter ctx t).head?.any fun n => Decidable.decide (ctx.bracesAfter < n) with
    | true => exact ⟨_, _, rfl, dropWhile_tail hskip, by simp⟩
    | false => exact ⟨_, _, rfl, rfl, by simp⟩

theorem applyInvalidTerminator_eq_none_iff :
    applyInvalidTerminator ctx t = (none, d) ↔ endsInvalid ctx t = false ∧ d = t := by
  rw [applyInvalidTerminator_eq]
  cases hinvalid : endsInvalid ctx t with
  | false => simp [eq_comm]
  | true =>
    cases closesClosure ctx t <;>
      cases (skipsAfter ctx t).head?.any fun n => Decidable.decide (ctx.bracesAfter < n) <;> simp

theorem rereads_invalid (next : Chars) {s : Nesting} (h : Mirrors k t t')
    (hclosures : t.closures = s.closures) (hb : t.depth .brace = ctx.bracesAfter)
    (hparen : ctx.after ≠ some .paren) (htext : edit.apply ctx.line = ctx.line.text)
    (hcore : ctx.core = ctx.line.core) (happly : applyInvalidTerminator ctx t = (some edit, d)) :
    ∃ edit' d', applyInvalidTerminator { ctx with nextCore := next } t' = (some edit', d') ∧
      Rereads ctx s invalidTerminator edit d k ctx.line edit' d' := by
  have hinvalid : endsInvalid ctx t = true := by
    rw [← Bool.not_eq_false]
    intro hvalid
    rw [applyInvalidTerminator_eq_none_iff.mpr ⟨hvalid, rfl⟩] at happly
    cases happly
  have hcloses' : closesClosure { ctx with nextCore := next } t' = closesClosure ctx t :=
    closesClosure_congr rfl h.closures
  have hinvalid' : endsInvalid { ctx with nextCore := next } t' = true := by
    rw [endsInvalid, hcloses']
    exact hinvalid
  have hremembered : skipsAfter { ctx with nextCore := next } t' = remembered ctx s invalidTerminator edit k := by
    have hopens : opensBlock { ctx with nextCore := next } t' = opensBlock ctx s := by
      simp only [opensBlock, h.closures, hclosures]
    simp [skipsAfter, remembered, hopens, h.skips, htext]
  obtain ⟨edit', d', happly', hskips, hedit'⟩ := applyInvalidTerminator_of_invalid hinvalid'
  refine ⟨edit', d', happly', ?_, ?_⟩
  · have hclosesS : closesClosure ctx s = closesClosure ctx t :=
      closesClosure_congr rfl hclosures.symm
    rw [hedit', hcloses', hremembered, disturbed, hclosesS]
    cases hcloses : closesClosure ctx t with
    | true =>
      -- The edit depends on the closure alone, so it is the one that changed nothing before.
      obtain ⟨edit₀, d₀, happly₀, -, hedit⟩ := applyInvalidTerminator_of_invalid hinvalid
      rw [happly] at happly₀
      cases happly₀
      rw [hcloses, if_pos rfl] at hedit
      have hgoes : goesOn { ctx with nextCore := next } = goesOn ctx := rfl
      rw [hedit] at htext
      simp [hgoes, htext]
    | false =>
      cases hskip : (remembered ctx s invalidTerminator edit k).head?.any
          fun n => Decidable.decide (ctx.bracesAfter < n) with
      | true => simp [Edit.apply]
      | false => simp [asksAgain, htext, hparen, hcore]
  · have hd := invalidEnd happly
    have hd' := invalidEnd happly'
    refine Mirrors.settle ?_ ?_ ?_ ?_ ?_ ?_ ?_
    · rw [← hb]
      exact Nesting.depth_congr hd.opened .brace
    · rw [hd'.opened, hd.opened, h.opened]
    · rw [hd'.headerDepth, hd.headerDepth, h.headerDepth]
    · rw [hd'.headerIsControl, hd.headerIsControl, h.headerIsControl]
    · rw [hd'.inChain, hd.inChain]
      exact h.inChain
    · rw [hd'.closures, hd.closures, hcloses', h.closures]
    · rw [hskips, hremembered]

theorem rereads_end (next : Chars) {s : Nesting} (h : Mirrors k t t')
    (hclosures : t.closures = s.closures) (hb : t.depth .brace = ctx.bracesAfter)
    (htext : edit.apply ctx.line = ctx.line.text) (hcore : ctx.core = ctx.line.core)
    (hdecide : decide ctx endRules t = (rule, edit, d)) :
    ∃ rule' edit' d', decide { ctx with nextCore := next } endRules t' = (rule', edit', d') ∧
      Rereads ctx s rule edit d k ctx.line edit' d' := by
  rw [decide_end] at hdecide ⊢
  split at hdecide
  · next hclosure =>
    cases hdecide
    rw [if_pos hclosure]
    refine ⟨_, _, _, rfl, rereads_same ?_ hb htext (by decide)⟩
    exact { h with closures := by rw [h.closures] }
  · next hclosure =>
    rw [if_neg hclosure]
    split at hdecide
    · next hparen =>
      cases hdecide
      rw [if_pos hparen]
      exact ⟨_, _, _, rfl, rereads_same h hb htext (by decide)⟩
    · next hparen =>
      rw [if_neg hparen]
      split at hdecide
      · next hbracket =>
        cases hdecide
        rw [if_pos hbracket]
        exact ⟨_, _, _, rfl, rereads_same h hb htext (by decide)⟩
      · next hbracket =>
        rw [if_neg hbracket]
        split at hdecide
        · next e d₀ happly =>
          cases hdecide
          obtain ⟨edit', d', happly', hrereads⟩ :=
            rereads_invalid next h hclosures hb hparen htext hcore happly
          rw [happly']
          exact ⟨_, _, _, rfl, hrereads⟩
        · next d₀ happly =>
          obtain ⟨hvalid, rfl⟩ := applyInvalidTerminator_eq_none_iff.mp happly
          have hvalid' : endsInvalid { ctx with nextCore := next } t' = false := by
            have hcloses : closesClosure { ctx with nextCore := next } t' = closesClosure ctx d₀ :=
              closesClosure_congr rfl h.closures
            rw [endsInvalid, hcloses]
            exact hvalid
          rw [applyInvalidTerminator_eq_none_iff.mpr ⟨hvalid', rfl⟩]
          split at hdecide
          · next hafter =>
            cases hdecide
            exact ⟨_, _, _, if_pos hafter, rereads_same h hb htext (by decide)⟩
          · next hafter =>
            cases hdecide
            exact ⟨_, _, _, if_neg hafter, rereads_same h hb htext (by decide)⟩

theorem passesHead_of_none {s : Nesting} (h : tryRules ctx headRules s = (none, s₁)) :
    PassesHead ctx s s₁ ∧ ctx.line.endsInString = false := by
  rcases tryRules_head_cases ctx s with ⟨r, s₂, hkeep⟩ | ⟨s₂, hpass⟩
  · rw [h] at hkeep
    cases hkeep
  · rw [hpass.tryRules_eq] at h
    split at h
    · cases h
    · next s₃ hend =>
      have hsame : s₃ = s₂ := by
        unfold applyStringEnd at hend
        split at hend
        · cases hend
          rfl
        · split at hend
          · cases hend
          · split at hend <;> cases hend
      subst hsame
      split at h
      · cases h
      · next hstring =>
        cases h
        exact ⟨hpass, by simpa using hstring⟩

theorem rereads_unchanged (next : Chars) {s : Nesting} (h : Mirrors k s s')
    (hnext : startsChain next = startsChain ctx.nextCore) (hb : s.depth .brace = ctx.bracesAfter)
    (htext : edit.apply ctx.line = ctx.line.text) (hcore : ctx.core = ctx.line.core)
    (hended : ctx.line.codeEnd ≠ 0 → ctx.line.endsInString = false →
      Edit.terminate.apply ctx.line = ctx.line.text → endsOpen ctx.core = true)
    (hdecide : decide ctx all s = (rule, edit, d)) :
    ∃ rule' edit' d', decide { ctx with nextCore := next } all s' = (rule', edit', d') ∧
      Rereads ctx s rule edit d k ctx.line edit' d' := by
  have hdepth : d.depth .brace = ctx.bracesAfter := by
    have hopened := opened_decide ctx all s
    rw [hdecide] at hopened
    rw [← hb]
    exact Nesting.depth_congr hopened .brace
  obtain ⟨hedit, hstate⟩ := tryRules_rel h fun r hr _ _ h => apply_head_mirrors h hnext hr
  obtain ⟨hopened, hclosures⟩ := tryRules_head_nesting ctx s
  rw [decide_all] at hdecide ⊢
  cases hhead : tryRules ctx headRules s with
  | mk found s₁ =>
    cases hhead' : tryRules { ctx with nextCore := next } headRules s' with
    | mk found' s₁' =>
      rw [hhead, hhead'] at hedit hstate
      rw [hhead] at hdecide hopened hclosures
      obtain rfl : found' = found := hedit
      have hmirrors : Mirrors k s₁ s₁' := hstate
      cases found' with
      | some p =>
        obtain ⟨r, e⟩ := p
        cases hdecide
        have hrule : rule ≠ invalidTerminator := by
          rintro rfl
          have hmem := tryRules_rule hhead
          revert hmem
          decide
        exact ⟨_, _, _, rfl, rereads_same hmirrors hdepth htext hrule⟩
      | none =>
        obtain ⟨hpass, hstring⟩ := passesHead_of_none hhead
        simp only [tryRules_chain] at hdecide ⊢
        cases hchain : startsChain ctx.nextCore with
        | true =>
          rw [hchain] at hnext
          simp only [hchain, hnext, if_true] at hdecide ⊢
          cases hdecide
          refine ⟨_, _, _, rfl, rereads_same { hmirrors with inChain := fun _ => rfl } hdepth htext ?_⟩
          split <;> decide
        | false =>
          rw [hchain] at hnext
          -- A chain that ends on this line was left without a semicolon, so its statement goes on.
          have hopen : s₁.inChain = true → endsOpen ctx.core = true := by
            intro hin
            rw [← Bool.not_eq_false]
            intro hopen
            simp only [hchain, hin, hopen, Bool.false_eq_true, if_false, Bool.not_false, Bool.and_true,
              if_true] at hdecide
            cases hdecide
            rw [hended hpass.has_code hstring htext] at hopen
            cases hopen
          have hfirst : (s₁.inChain && !endsOpen ctx.core) = false := by
            cases hin : s₁.inChain with
            | false => rfl
            | true => rw [hopen hin]; rfl
          have hsecond : (s₁'.inChain && !endsOpen ctx.core) = false := by
            cases hin : s₁'.inChain with
            | false => rfl
            | true => rw [hopen (hmirrors.inChain hin)]; rfl
          simp only [hchain, hnext, hfirst, hsecond, Bool.false_eq_true, if_false] at hdecide ⊢
          have hb₁ : s₁.depth .brace = ctx.bracesAfter := (Nesting.depth_congr hopened .brace).trans hb
          have hunchained : Mirrors k { s₁ with inChain := false } { s₁' with inChain := false } :=
            { hmirrors with inChain := fun h => h }
          exact rereads_end next hunchained hclosures hb₁ htext hcore hdecide

/-! ### A line that was ended -/

/-- What a first reading leaves of the state when it ends a line. -/
structure EndsLine (ctx : Context) (s₁ d : Nesting) : Prop where
  no_string : ctx.line.endsInString = false
  no_chain : startsChain ctx.nextCore = false
  opened : d.opened = s₁.opened
  headerDepth : d.headerDepth = s₁.headerDepth
  headerIsControl : d.headerIsControl = s₁.headerIsControl
  closures : d.closures.dropWhile (fun c => Decidable.decide (ctx.bracesAfter < c.2)) =
    s₁.closures.dropWhile fun c => Decidable.decide (ctx.bracesAfter < c.2)

theorem applyStringEnd_of_ne_keep {s : Nesting} {e : Edit} (he : e ≠ .keep)
    (h : applyStringEnd ctx s = (some e, s₁)) : EndsLine ctx s s₁ := by
  unfold applyStringEnd at h
  split at h
  · cases h
  · next hstring =>
    split at h
    · cases h
      exact absurd rfl he
    · next hchain =>
      split at h
      · cases h
        exact absurd rfl he
      · cases h
        refine ⟨?_, by simpa using hchain, rfl, rfl, rfl, rfl⟩
        simp only [Bool.or_eq_true, not_or] at hstring
        simpa using hstring.1.2

theorem decide_end_of_ne_keep (he : edit ≠ .keep) (hstring : ctx.line.endsInString = false)
    (hchain : startsChain ctx.nextCore = false) (h : decide ctx endRules t = (rule, edit, d)) : EndsLine ctx t d := by
  rw [decide_end] at h
  split at h
  · cases h
    exact absurd rfl he
  · split at h
    · cases h
      exact absurd rfl he
    · split at h
      · cases h
        exact absurd rfl he
      · split at h
        · next e d₀ happly =>
          cases h
          have hd := invalidEnd happly
          refine ⟨hstring, hchain, hd.opened, hd.headerDepth, hd.headerIsControl, ?_⟩
          rw [hd.closures]
          exact dropWhile_closures ctx t
        · next d₀ happly =>
          obtain ⟨-, rfl⟩ := applyInvalidTerminator_eq_none_iff.mp happly
          split at h
          · cases h
            exact absurd rfl he
          · cases h
            exact ⟨hstring, hchain, rfl, rfl, rfl, rfl⟩

theorem endsLine_of_ne_keep {s : Nesting} (he : edit ≠ .keep)
    (h : decide ctx all s = (rule, edit, d)) : ∃ s₁, PassesHead ctx s s₁ ∧ EndsLine ctx s₁ d := by
  rw [decide_all] at h
  rcases tryRules_head_cases ctx s with ⟨r, s₁, hkeep⟩ | ⟨s₁, hpass⟩
  · rw [hkeep] at h
    cases h
    exact absurd rfl he
  · refine ⟨s₁, hpass, ?_⟩
    cases hhead : tryRules ctx headRules s with
    | mk found s₂ =>
      rw [hhead] at h
      cases found with
      | some p =>
        obtain ⟨r, e⟩ := p
        cases h
        rw [hpass.tryRules_eq] at hhead
        split at hhead
        · next e s₃ hend =>
          cases hhead
          exact applyStringEnd_of_ne_keep he hend
        · split at hhead
          · cases hhead
            exact absurd rfl he
          · cases hhead
      | none =>
        obtain ⟨hpass', hstring⟩ := passesHead_of_none hhead
        obtain rfl : s₂ = s₁ := by
          have hsame := hpass'.header.symm.trans hpass.header
          exact (Prod.mk.inj hsame).2
        simp only [tryRules_chain] at h
        cases hchain : startsChain ctx.nextCore with
        | true =>
          simp only [hchain, if_true] at h
          cases h
          exact absurd rfl he
        | false =>
          cases hexit : (s₂.inChain && !endsOpen ctx.core) with
          | true =>
            simp only [hchain, hexit, Bool.false_eq_true, if_false, if_true] at h
            cases h
            exact ⟨hstring, hchain, rfl, rfl, rfl, rfl⟩
          | false =>
            simp only [hchain, hexit, Bool.false_eq_true, if_false] at h
            have hends := decide_end_of_ne_keep he hstring hchain h
            exact { hends with }

theorem applyControlHeader_again (next : Chars) (h : Mirrors k s s')
    (hcore : Punctuated ctx.core l.core) (hlast : l.core.getLast? = some ';')
    (happly : applyControlHeader ctx s = (none, s₁)) :
    ∃ s₁', applyControlHeader (ctx.again l next) s' = (none, s₁') ∧ Mirrors k s₁ s₁' := by
  obtain ⟨x, hx⟩ := getLast?_eq_some_iff.mp hlast
  have hbrace : ['\x7b'].isSuffixOf l.core = false := by
    rw [hx, isSuffixOf_append_singleton]
    decide
  have hparen : [')'].isSuffixOf l.core = false := by
    rw [hx, isSuffixOf_append_singleton]
    decide
  have hbare : isBareHeader l.core = false := by
    refine isBareHeader_of_semicolon ?_
    rw [hx]
    simp
  simp only [applyControlHeader, Context.again, h.headerDepth, h.headerIsControl, hbrace, hparen,
    hbare, hcore.declarationOpen?_isSome, Bool.and_false, Bool.or_false, Bool.false_eq_true,
    if_false] at happly ⊢
  split at happly
  · next hclosing =>
    rw [if_pos hclosing]
    have hs₁ : s₁ = { s with headerDepth := 0 } := (Prod.mk.inj happly).2.symm
    subst hs₁
    exact ⟨_, rfl, { h with headerDepth := rfl, headerIsControl := rfl }⟩
  · next hclosing =>
    rw [if_neg hclosing]
    split at happly
    · cases happly
    · split at happly
      · next hnone =>
        rw [hcore.controlHeader?_none hnone]
        split at happly
        · next hopens =>
          cases happly
          exact ⟨_, if_pos hopens, { h with headerDepth := rfl, headerIsControl := rfl }⟩
        · next hopens =>
          cases happly
          exact ⟨_, if_neg hopens, h⟩
      · next group hgroup =>
        split at happly
        · next hearly =>
          cases happly
          obtain ⟨group', hgroup', hearly'⟩ := hcore.closesEarly hgroup hearly
          rw [hgroup']
          simp only [hearly']
          exact ⟨_, rfl, h⟩
        · cases happly
        · cases happly

/-- What an edit that changed a line leaves: a line whose code ends with a semicolon. -/
structure Reended (l : Line) (edit : Edit) (l' : Line) : Prop where
  not_blank : isBlank l'.text = false
  not_body : l.isStringBody = false → l'.isStringBody = false
  has_code : l'.codeEnd ≠ 0
  ends : l'.endsInString = l.endsInString
  after_close : isBlank (l'.masked.drop (l'.stringCloseAt?.getD 0)) = false
  core : Punctuated l.core l'.core
  last : l'.core.getLast? = some ';'
  terminate : Edit.terminate.apply l' = l'.text
  shape : (shapeEdit l'.core).apply l' = l'.text ↔ ¬(edit = .terminate ∧ l.asksForBlock = true)

theorem Reended.suppressed (h : Reended l edit l') : endsWithAny suppressingEnds l'.core = true := by
  obtain ⟨x, hx⟩ := getLast?_eq_some_iff.mp h.last
  refine any_eq_true.mpr ⟨[';'], by decide, ?_⟩
  rw [hx, isSuffixOf_append_singleton]
  rfl

theorem Reended.not_suffix (h : Reended l edit l') {c : Char} (hc : (c == ';') = false) :
    [c].isSuffixOf l'.core = false := by
  obtain ⟨x, hx⟩ := getLast?_eq_some_iff.mp h.last
  rw [hx, isSuffixOf_append_singleton, hc]

theorem Reended.not_closure (h : Reended l edit l') :
    (arrow.isSuffixOf l'.core || opensBareClosure l'.core) = false := by
  obtain ⟨x, hx⟩ := getLast?_eq_some_iff.mp h.last
  have harrow : arrow.isSuffixOf l'.core = false := by
    rw [hx]
    simp [arrow, List.isSuffixOf, List.isPrefixOf]
  have hbare : opensBareClosure l'.core = false := by
    rw [Bool.eq_false_iff]
    intro hbare
    have hbrace := opensBareClosure_getLast? hbare
    rw [h.last] at hbrace
    cases hbrace
  rw [harrow, hbare]
  rfl

/-- The states differ only in what settling at brace depth `b` forgets. -/
structure SettlesAlike (b : Nat) (t d : Nesting) : Prop where
  opened : d.opened = t.opened
  headerDepth : d.headerDepth = t.headerDepth
  headerIsControl : d.headerIsControl = t.headerIsControl
  inChain : d.inChain = t.inChain
  closures : d.closures.dropWhile (fun c => Decidable.decide (b < c.2)) =
    t.closures.dropWhile fun c => Decidable.decide (b < c.2)
  skips : d.skips.dropWhile (fun n => Decidable.decide (b < n)) = t.skips.dropWhile fun n => Decidable.decide (b < n)

theorem decide_end_reended (next : Chars) (h : Reended ctx.line edit l') (t : Nesting) :
    ∃ rule' edit' d', decide (ctx.again l' next) endRules t = (rule', edit', d') ∧ (edit'.apply l' = l'.text ↔
        ctx.after = some .paren ∨ closesClosure ctx t = true ∨
          (t.skips.head?.any fun n => Decidable.decide (ctx.bracesAfter < n)) = true ∨
          (shapeEdit l'.core).apply l' = l'.text) ∧ SettlesAlike ctx.bracesAfter t d' := by
  have hcloses : closesClosure (ctx.again l' next) t = closesClosure ctx t :=
    closesClosure_congr rfl rfl
  have hinvalid : endsInvalid (ctx.again l' next) t = true := by
    have hsuppressed : endsWithAny suppressingEnds (ctx.again l' next).core = true := h.suppressed
    rw [endsInvalid, hsuppressed]
    rfl
  have hskips : skipsAfter (ctx.again l' next) t = t.skips := by
    have hbrace : ['\x7b'].isSuffixOf (ctx.again l' next).core = false := h.not_suffix rfl
    simp [skipsAfter, opensBlock, hbrace]
  have hclosure : ¬(arrow.isSuffixOf (ctx.again l' next).core ||
      opensBareClosure (ctx.again l' next).core) = true := by
    have hnot := h.not_closure
    exact Bool.eq_false_iff.mp hnot
  have hbracket : ¬['['].isSuffixOf (ctx.again l' next).core = true :=
    Bool.eq_false_iff.mp (h.not_suffix rfl)
  have hafter : (ctx.again l' next).after = ctx.after := rfl
  rw [decide_end, if_neg hclosure, if_neg hbracket, hafter]
  by_cases hparen : ctx.after = some .paren
  · rw [if_pos hparen]
    refine ⟨_, _, _, rfl, ?_, ⟨rfl, rfl, rfl, rfl, rfl, rfl⟩⟩
    simp [hparen, Edit.apply]
  · rw [if_neg hparen]
    obtain ⟨edit', d', happly, hforget, hedit⟩ := applyInvalidTerminator_of_invalid hinvalid
    have hd := invalidEnd happly
    have hbraces : (ctx.again l' next).bracesAfter = ctx.bracesAfter := rfl
    have hcore : (ctx.again l' next).core = l'.core := rfl
    simp only [hskips, hbraces, hcore, hcloses] at hforget hedit
    rw [happly]
    refine ⟨_, _, _, rfl, ?_, hd.opened, hd.headerDepth, hd.headerIsControl, hd.inChain, ?_, hforget⟩
    · rw [hedit]
      cases closesClosure ctx t with
      | true =>
        have hkept : (if goesOn (ctx.again l' next) then Edit.keep else Edit.terminate).apply l' = l'.text := by
          split
          · rfl
          · exact h.terminate
        simpa using hkept
      | false =>
        cases hskip : t.skips.head?.any fun n => Decidable.decide (ctx.bracesAfter < n) with
        | true => simp [Edit.apply]
        | false => simp [hparen]
    · rw [hd.closures]
      exact dropWhile_closures (ctx.again l' next) t

theorem rereads_changed (next : Chars) {s : Nesting} (h : Mirrors k s s')
    (hnext : startsChain next = startsChain ctx.nextCore) (hb : s.depth .brace = ctx.bracesAfter)
    (hcore : ctx.core = ctx.line.core) (htext : edit.apply ctx.line ≠ ctx.line.text)
    (hl' : Reended ctx.line edit l') (hdecide : decide ctx all s = (rule, edit, d)) :
    ∃ rule' edit' d', decide (ctx.again l' next) all s' = (rule', edit', d') ∧
      Rereads ctx s rule edit d k l' edit' d' := by
  have hkeep : edit ≠ .keep := by
    rintro rfl
    exact htext rfl
  obtain ⟨s₁, hpass, hends⟩ := endsLine_of_ne_keep hkeep hdecide
  obtain ⟨s₁', hheader, hmirrors⟩ :=
    applyControlHeader_again next h (hcore ▸ hl'.core) hl'.last hpass.header
  have hpass' : PassesHead (ctx.again l' next) s' s₁' :=
    ⟨hl'.not_blank, hl'.not_body hpass.not_body, hl'.has_code, hpass.not_paren, hheader⟩
  have hstring : applyStringEnd (ctx.again l' next) s₁' = (none, s₁') := by
    simp [applyStringEnd, Context.again, hl'.after_close]
  have hno : (ctx.again l' next).line.endsInString = false := hl'.ends.trans hends.no_string
  have hhead : tryRules (ctx.again l' next) headRules s' = (none, s₁') := by
    rw [hpass'.tryRules_eq, hstring]
    simp [hno]
  have hchain : tryRules (ctx.again l' next) chainRules s₁' = (none, { s₁' with inChain := false }) := by
    have hnone : startsChain (ctx.again l' next).nextCore = false := hnext.trans hends.no_chain
    have hopen : endsOpen (ctx.again l' next).core = true := by
      have hsuppressed : endsWithAny suppressingEnds (ctx.again l' next).core = true := hl'.suppressed
      rw [endsOpen, hsuppressed, Bool.or_true]
    rw [tryRules_chain, hnone, hopen]
    simp
  obtain ⟨rule', edit', d', hend, hiff, hd'⟩ :=
    decide_end_reended next hl' { s₁' with inChain := false }
  have hclosures : s₁.closures = s.closures := by
    have hsame := closures_head ctx (r := controlHeader) (by decide) s
    simpa only [apply, hpass.header] using hsame
  have hremembered : remembered ctx s rule edit k = k := by simp [remembered, htext]
  refine ⟨rule', edit', d', ?_, ?_, ?_⟩
  · rw [decide_all, hhead]
    simp only [hchain]
    exact hend
  · have hcloses : closesClosure ctx { s₁' with inChain := false } = closesClosure ctx s :=
      closesClosure_congr rfl (hmirrors.closures.trans hclosures)
    have hskips : ({ s₁' with inChain := false } : Nesting).skips = k := hmirrors.skips
    rw [hiff, hcloses, hskips, hl'.shape, disturbed, hremembered]
    simp only [asksAgain, htext, if_false]
    by_cases hparen : ctx.after = some .paren <;>
      cases closesClosure ctx s <;>
      cases (k.head?.any fun n => Decidable.decide (ctx.bracesAfter < n)) <;>
      simp [hparen]
  · rw [stillRemembered, hremembered]
    have hdepth : d.depth .brace = ctx.bracesAfter := by
      have hopened := opened_decide ctx all s
      rw [hdecide] at hopened
      exact (Nesting.depth_congr hopened .brace).trans hb
    refine Mirrors.settle hdepth ?_ ?_ ?_ ?_ ?_ ?_
    · rw [hd'.opened, hends.opened]
      exact hmirrors.opened
    · rw [hd'.headerDepth, hends.headerDepth]
      exact hmirrors.headerDepth
    · rw [hd'.headerIsControl, hends.headerIsControl]
      exact hmirrors.headerIsControl
    · rw [hd'.inChain]
      intro hin
      cases hin
    · rw [hd'.closures, hends.closures]
      simp only [hmirrors.closures]
    · rw [hd'.skips]
      simp only [hmirrors.skips]

end LineRule

end GroovySharp.Source
