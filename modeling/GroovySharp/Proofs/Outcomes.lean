import GroovySharp.Proofs.Reread

/-!
# Every way to settle a line

The rules are tried in order and the first that applies settles the line.
-/

namespace GroovySharp.Source

open Text

namespace LineRule

variable {ctx : Context} {s s' : Nesting}

/-! ### Lines that cannot take a plain semicolon -/

def closesBlock (ctx : Context) (s : Nesting) : Bool :=
  (skipsAfter ctx s).head?.any fun d => Decidable.decide (ctx.bracesAfter < d)

def invalidEdit (ctx : Context) (s : Nesting) : Edit :=
  if closesClosure ctx s then (if goesOn ctx then .keep else .terminate)
  else if closesBlock ctx s then .keep
  else shapeEdit ctx.core

theorem applyInvalidTerminator_edit {edit : Edit} (h : applyInvalidTerminator ctx s = (some edit, s')) :
    endsInvalid ctx s = true ∧ edit = invalidEdit ctx s := by
  have hinvalid : endsInvalid ctx s = true := by
    rw [← Bool.not_eq_false]
    intro hvalid
    rw [applyInvalidTerminator_eq_none_iff.mpr ⟨hvalid, rfl⟩] at h
    cases h
  obtain ⟨edit', d, happly, -, hedit⟩ := applyInvalidTerminator_of_invalid hinvalid
  rw [h] at happly
  cases happly
  exact ⟨hinvalid, hedit⟩

theorem endsInvalid_congr (h : s'.closures = s.closures) : endsInvalid ctx s' = endsInvalid ctx s := by
  rw [endsInvalid, endsInvalid, closesClosure_congr rfl h]

theorem skipsAfter_congr (hclosures : s'.closures = s.closures) (hskips : s'.skips = s.skips) :
    skipsAfter ctx s' = skipsAfter ctx s := by
  rw [skipsAfter, skipsAfter, opensBlock, opensBlock, hclosures, hskips]

theorem invalidEdit_congr (hclosures : s'.closures = s.closures) (hskips : s'.skips = s.skips) :
    invalidEdit ctx s' = invalidEdit ctx s := by
  rw [invalidEdit, invalidEdit, closesClosure_congr rfl hclosures, closesBlock, closesBlock,
    skipsAfter_congr hclosures hskips]

/-! ### Outcomes -/

/-- The line has code, and its statement may end with it: it does not go on as a string. -/
structure MayEnd (ctx : Context) : Prop where
  has_code : ctx.line.codeEnd ≠ 0
  no_string : ctx.line.endsInString = false

/-- The rule that settles a line, what it relies on, and what becomes of the line. -/
inductive Outcome (ctx : Context) (s : Nesting) : LineRule → Edit → Prop
  | blank (h : isBlank ctx.line.text = true) : Outcome ctx s blank .keep
  | multilineStringBody (h : ctx.line.isStringBody = true) : Outcome ctx s multilineStringBody .keep
  | commentOnly (h : ctx.line.codeEnd = 0) : Outcome ctx s commentOnly .keep
  | parenContinuation (h : ctx.before = some .paren ∧ ctx.after = some .paren) :
    Outcome ctx s parenContinuation .keep
  | controlHeader : Outcome ctx s controlHeader .keep
  | stringGoesOn (h : startsChain ctx.nextCore = true ∨ ctx.after = some .paren ∨
      ctx.after = some .bracket) : Outcome ctx s multilineStringEnd .keep
  | stringEnds (hend : MayEnd ctx)
    (hrest : isBlank (ctx.line.masked.drop (ctx.line.stringCloseAt?.getD 0)) = true)
    (hparen : ctx.after ≠ some .paren) (hbracket : ctx.after ≠ some .bracket) :
    Outcome ctx s multilineStringEnd .terminate
  | multilineStringStart (h : ctx.line.endsInString = true) : Outcome ctx s multilineStringStart .keep
  | chainContinuation (h : startsChain ctx.nextCore = true) : Outcome ctx s chainContinuation .keep
  | chainExit (hend : MayEnd ctx) (hchain : s.inChain = true)
    (hnext : startsChain ctx.nextCore = false) (hopen : endsOpen ctx.core = false) :
    Outcome ctx s chainExit .terminate
  | chainEntry (h : startsChain ctx.nextCore = true) : Outcome ctx s chainEntry .keep
  | closureEntry (h : (arrow.isSuffixOf ctx.core || opensBareClosure ctx.core) = true) :
    Outcome ctx s closureEntry .keep
  | unbalancedLine (h : ctx.after = some .paren) : Outcome ctx s unbalancedLine .keep
  | enumerableEntry (h : ['['].isSuffixOf ctx.core = true) : Outcome ctx s enumerableEntry .keep
  | invalidTerminator (hend : MayEnd ctx) (hparen : ctx.after ≠ some .paren)
    (hbracket : ['['].isSuffixOf ctx.core = false) (hinvalid : endsInvalid ctx s = true) :
    Outcome ctx s invalidTerminator (invalidEdit ctx s)
  | enumerableContinuation (h : ctx.after = some .bracket) (hvalid : endsInvalid ctx s = false) :
    Outcome ctx s enumerableContinuation .keep
  | defaultInsert (hend : MayEnd ctx) (hparen : ctx.after ≠ some .paren)
    (hbracket : ctx.after ≠ some .bracket) (hvalid : endsInvalid ctx s = false) :
    Outcome ctx s defaultInsert .terminate

theorem Outcome.congr {rule : LineRule} {edit : Edit} (h : Outcome ctx s rule edit)
    (hchain : s'.inChain = s.inChain) (hclosures : s'.closures = s.closures)
    (hskips : s'.skips = s.skips) : Outcome ctx s' rule edit := by
  cases h with
  | blank h => exact .blank h
  | multilineStringBody h => exact .multilineStringBody h
  | commentOnly h => exact .commentOnly h
  | parenContinuation h => exact .parenContinuation h
  | controlHeader => exact .controlHeader
  | stringGoesOn h => exact .stringGoesOn h
  | stringEnds hend hrest hparen hbracket => exact .stringEnds hend hrest hparen hbracket
  | multilineStringStart h => exact .multilineStringStart h
  | chainContinuation h => exact .chainContinuation h
  | chainExit hend hin hnext hopen => exact .chainExit hend (hchain.trans hin) hnext hopen
  | chainEntry h => exact .chainEntry h
  | closureEntry h => exact .closureEntry h
  | unbalancedLine h => exact .unbalancedLine h
  | enumerableEntry h => exact .enumerableEntry h
  | invalidTerminator hend hparen hbracket hinvalid =>
    rw [← invalidEdit_congr hclosures hskips]
    exact .invalidTerminator hend hparen hbracket ((endsInvalid_congr hclosures).trans hinvalid)
  | enumerableContinuation h hvalid => exact .enumerableContinuation h ((endsInvalid_congr hclosures).trans hvalid)
  | defaultInsert hend hparen hbracket hvalid =>
    exact .defaultInsert hend hparen hbracket ((endsInvalid_congr hclosures).trans hvalid)

/-! ### The rules in their order -/

theorem applyControlHeader_frame (ctx : Context) (s : Nesting) : ∃ depth control, (applyControlHeader ctx s).2 =
      { s with headerDepth := depth, headerIsControl := control } := by
  unfold applyControlHeader
  split
  · exact ⟨0, s.headerIsControl, rfl⟩
  · split
    · exact ⟨s.headerDepth, s.headerIsControl, rfl⟩
    · split
      · split
        · exact ⟨ctx.parensBefore + 1, false, rfl⟩
        · exact ⟨s.headerDepth, s.headerIsControl, rfl⟩
      · split
        · exact ⟨s.headerDepth, s.headerIsControl, rfl⟩
        · exact ⟨s.headerDepth, s.headerIsControl, rfl⟩
        · exact ⟨ctx.parensBefore + 1, true, rfl⟩

variable {r : LineRule} {e : Edit}

theorem PassesHead.outcome {s₁ s₂ : Nesting} (hpass : PassesHead ctx s s₁)
    (h : tryRules ctx headRules s = (some (r, e), s₂)) : Outcome ctx s r e := by
  rw [hpass.tryRules_eq] at h
  split at h
  · next e' s₃ hstring =>
    cases h
    unfold applyStringEnd at hstring
    split at hstring
    · cases hstring
    · next hends =>
      simp only [Bool.or_eq_true, Bool.not_eq_true', not_or, Bool.not_eq_false, Bool.not_eq_true] at hends
      split at hstring
      · next hchain =>
        cases hstring
        exact .stringGoesOn (.inl hchain)
      · split at hstring
        · next hafter =>
          cases hstring
          exact .stringGoesOn (.inr hafter)
        · next hafter =>
          cases hstring
          obtain ⟨hparen, hbracket⟩ := not_or.mp hafter
          exact .stringEnds ⟨hpass.has_code, hends.1.2⟩ hends.2 hparen hbracket
  · split at h
    · next hends =>
      cases h
      exact .multilineStringStart hends
    · cases h

theorem tryRules_head_outcome {s₁ : Nesting} (h : tryRules ctx headRules s = (some (r, e), s₁)) :
    Outcome ctx s r e := by
  cases hblank : isBlank ctx.line.text with
  | true =>
    simp only [tryRules, headRules, apply, editIf, hblank, if_true] at h
    cases h
    exact .blank hblank
  | false =>
    cases hbody : ctx.line.isStringBody with
    | true =>
      simp [tryRules, headRules, apply, editIf, hblank, hbody] at h
      obtain ⟨⟨rfl, rfl⟩, -⟩ := h
      exact .multilineStringBody hbody
    | false =>
      by_cases hcode : ctx.line.codeEnd = 0
      · simp [tryRules, headRules, apply, editIf, hblank, hbody, hcode] at h
        obtain ⟨⟨rfl, rfl⟩, -⟩ := h
        exact .commentOnly hcode
      · by_cases hparen : ctx.before = some .paren ∧ ctx.after = some .paren
        · simp [tryRules, headRules, apply, editIf, hblank, hbody, hcode, hparen] at h
          obtain ⟨⟨rfl, rfl⟩, -⟩ := h
          exact .parenContinuation hparen
        · cases hheader : applyControlHeader ctx s with
          | mk edit s₂ =>
            cases edit with
            | none =>
              have hpass : PassesHead ctx s s₂ := ⟨hblank, hbody, hcode, hparen, hheader⟩
              exact hpass.outcome h
            | some e' =>
              have hnot : (ctx.before == some .paren && ctx.after == some .paren) = false := by simpa using hparen
              obtain rfl : e' = .keep := keepsLine_controlHeader ctx s e' s₂ hheader
              simp [tryRules, headRules, apply, editIf, hblank, hbody, hcode, hnot, hheader] at h
              obtain ⟨⟨rfl, rfl⟩, -⟩ := h
              exact .controlHeader

theorem decide_end_outcome (hend : MayEnd ctx) {d : Nesting} (hclosures : s'.closures = s.closures)
    (hskips : s'.skips = s.skips) (h : decide ctx endRules s' = (r, e, d)) : Outcome ctx s r e := by
  rw [decide_end] at h
  split at h
  · next hentry =>
    cases h
    exact .closureEntry hentry
  · split at h
    · next hparen =>
      cases h
      exact .unbalancedLine hparen
    · next hparen =>
      split at h
      · next hbracket =>
        cases h
        exact .enumerableEntry hbracket
      · next hbracket =>
        split at h
        · next happly =>
          cases h
          obtain ⟨hinvalid, rfl⟩ := applyInvalidTerminator_edit happly
          rw [endsInvalid_congr hclosures] at hinvalid
          rw [invalidEdit_congr hclosures hskips]
          exact .invalidTerminator hend hparen (Bool.not_eq_true _ ▸ hbracket) hinvalid
        · next happly =>
          obtain ⟨hvalid, -⟩ := applyInvalidTerminator_eq_none_iff.mp happly
          rw [endsInvalid_congr hclosures] at hvalid
          split at h
          · next hafter =>
            cases h
            exact .enumerableContinuation hafter hvalid
          · next hafter =>
            cases h
            exact .defaultInsert hend hparen hafter hvalid

theorem decide_outcome {d : Nesting} (h : decide ctx all s = (r, e, d)) : Outcome ctx s r e := by
  rw [decide_all] at h
  cases hhead : tryRules ctx headRules s with
  | mk found s₁ =>
    rw [hhead] at h
    cases found with
    | some p =>
      cases h
      exact tryRules_head_outcome hhead
    | none =>
      obtain ⟨hpass, hstring⟩ := passesHead_of_none hhead
      have hend : MayEnd ctx := ⟨hpass.has_code, hstring⟩
      obtain ⟨depth, control, hframe⟩ := applyControlHeader_frame ctx s
      rw [hpass.header] at hframe
      obtain rfl : s₁ = { s with headerDepth := depth, headerIsControl := control } := hframe
      simp only [tryRules_chain] at h
      cases hnext : startsChain ctx.nextCore with
      | true =>
        simp only [hnext, if_true] at h
        cases h
        split
        · exact .chainContinuation hnext
        · exact .chainEntry hnext
      | false =>
        cases hexit : (s.inChain && !endsOpen ctx.core) with
        | true =>
          simp only [hnext, hexit, Bool.false_eq_true, if_false, if_true] at h
          cases h
          simp only [Bool.and_eq_true, Bool.not_eq_true'] at hexit
          exact .chainExit hend hexit.1 hnext hexit.2
        | false =>
          simp only [hnext, hexit, Bool.false_eq_true, if_false] at h
          refine decide_end_outcome hend ?_ ?_ h
          · rfl
          · rfl

end LineRule

end GroovySharp.Source
