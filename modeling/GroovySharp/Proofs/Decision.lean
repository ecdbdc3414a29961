import GroovySharp.Source.LineRule

/-!
# What the rules do

How a decision goes through the rules, what rules do to the state, and the rule for lines that cannot
take a plain semicolon, cut into its parts.
-/

namespace GroovySharp.Source

open Text List

theorem opensBareClosure_getLast? {core : Chars} (h : opensBareClosure core = true) :
    core.getLast? = some '\x7b' := by
  unfold opensBareClosure at h
  split at h
  · next front hfront => rw [getLast?_eq_head?_reverse, hfront]; rfl
  · cases h

namespace LineRule

/-! ### Lines that cannot take a plain semicolon -/

def closesClosure (ctx : Context) (s : Nesting) : Bool :=
  s.closures.head?.any fun c => Decidable.decide (ctx.bracesAfter < c.2)

def endsInvalid (ctx : Context) (s : Nesting) : Bool :=
  endsWithAny suppressingEnds ctx.core || ['@'].isPrefixOf ctx.core || closesClosure ctx s

def opensBlock (ctx : Context) (s : Nesting) : Bool :=
  ['\x7b'].isSuffixOf ctx.core && !s.closures.isEmpty && !(['\x7d'].isPrefixOf ctx.core)

def skipsAfter (ctx : Context) (s : Nesting) : List Nat :=
  if opensBlock ctx s then ctx.bracesAfter :: s.skips else s.skips

def goesOn (ctx : Context) : Bool :=
  Decidable.decide (ctx.after = some .paren ∨ ctx.after = some .bracket ∨
    endsWithAny continuationEnds (dropTail (· == ';') ctx.core) = true)

def strippedEnd (core : Chars) : Chars :=
  dropTail (fun c => c == ' ' || c == '\t' || c == ';' || c == ')') core

def shapeEdit (core : Chars) : Edit :=
  if ['\x7d'].isSuffixOf (strippedEnd core) && hasWord arrow core then .terminate
  else if ['\x7d'].isSuffixOf (strippedEnd core) && (strippedEnd core).contains '\x7b' then
    .terminateBlock
  else if "import ".toList.isPrefixOf core then .terminate
  else if ['-', '-'].isSuffixOf core || ['+', '+'].isSuffixOf core then .terminate
  else .keep

theorem applyInvalidTerminator_eq (ctx : Context) (s : Nesting) : applyInvalidTerminator ctx s =
      if endsInvalid ctx s = false then (none, s) else if closesClosure ctx s then
        (some (if goesOn ctx then .keep else .terminate),
          { s with skips := skipsAfter ctx s, closures := s.closures.tail })
      else if (skipsAfter ctx s).head?.any fun d => Decidable.decide (ctx.bracesAfter < d) then
        (some .keep, { s with skips := (skipsAfter ctx s).tail })
      else (some (shapeEdit ctx.core), { s with skips := skipsAfter ctx s }) := by
  have hopened : (if opensBlock ctx s then { s with skips := ctx.bracesAfter :: s.skips } else s) =
      { s with skips := skipsAfter ctx s } := by
    rw [skipsAfter]
    split <;> rfl
  change (if (!endsInvalid ctx s) = true then (none, s) else
      let s' := if opensBlock ctx s then { s with skips := ctx.bracesAfter :: s.skips } else s
      if closesClosure ctx s then
        (some (if ctx.after = some .paren ∨ ctx.after = some .bracket ∨
          endsWithAny continuationEnds (dropTail (· == ';') ctx.core) = true then .keep
          else .terminate), { s' with closures := s'.closures.tail })
      else if s'.skips.head?.any fun d => Decidable.decide (ctx.bracesAfter < d) then
        (some .keep, { s' with skips := s'.skips.tail })
      else (some (shapeEdit ctx.core), s')) = _
  simp only [hopened, goesOn, Bool.not_eq_true', decide_eq_true_eq]

variable {ctx : Context} {s : Nesting}

theorem decide_invariant {P : Nesting → Prop} (h : ∀ r s, P s → P (apply r ctx s).2)
    (rules : List LineRule) (hs : P s) : P (decide ctx rules s).2.2 := by
  induction rules generalizing s with
  | nil => exact hs
  | cons r rules ih =>
    have hr := h r s hs
    rw [decide]
    split
    · next e s' he => rwa [he] at hr
    · next s' he =>
      rw [he] at hr
      exact ih hr

/-! ### What a rule does to the state -/

/-- Rules leave the open delimiters alone. They drop the innermost closure, add one where a line opens
a closure, or keep the closures as they are. -/
theorem apply_nesting (r : LineRule) (ctx : Context) (s : Nesting) : (apply r ctx s).2.opened = s.opened ∧
      ((apply r ctx s).2.closures = s.closures ∨ (apply r ctx s).2.closures = s.closures.tail ∨
        (arrow.isSuffixOf ctx.core || opensBareClosure ctx.core) = true ∧
          (apply r ctx s).2.closures = (ctx.line.number, ctx.bracesAfter) :: s.closures) := by
  cases r with
  | controlHeader =>
    simp only [apply, applyControlHeader]
    split
    · exact ⟨rfl, .inl rfl⟩
    · split
      · exact ⟨rfl, .inl rfl⟩
      · split <;> (split <;> exact ⟨rfl, .inl rfl⟩)
  | multilineStringEnd =>
    simp only [apply, applyStringEnd]
    split
    · exact ⟨rfl, .inl rfl⟩
    · split
      · exact ⟨rfl, .inl rfl⟩
      · split <;> exact ⟨rfl, .inl rfl⟩
  | chainExit =>
    simp only [apply, applyChainExit]
    split <;> exact ⟨rfl, .inl rfl⟩
  | chainEntry =>
    simp only [apply]
    split <;> exact ⟨rfl, .inl rfl⟩
  | closureEntry =>
    simp only [apply]
    split
    · next hcore => exact ⟨rfl, .inr (.inr ⟨hcore, rfl⟩)⟩
    · exact ⟨rfl, .inl rfl⟩
  | invalidTerminator =>
    simp only [apply, applyInvalidTerminator_eq]
    split
    · exact ⟨rfl, .inl rfl⟩
    · split
      · exact ⟨rfl, .inr (.inl rfl)⟩
      · split <;> exact ⟨rfl, .inl rfl⟩
  | _ => exact ⟨rfl, .inl rfl⟩

theorem opened_decide (ctx : Context) (rules : List LineRule) (s : Nesting) :
    (decide ctx rules s).2.2.opened = s.opened :=
  decide_invariant (P := fun s' => s'.opened = s.opened)
    (fun r s' hs' => (r.apply_nesting ctx s').1.trans hs') rules rfl

/-! ### Lines that end in a string -/

def KeepsLine (r : LineRule) (ctx : Context) : Prop :=
  ∀ s e s', r.apply ctx s = (some e, s') → e = .keep

theorem decide_keep {before after : List LineRule} {r : LineRule}
    (hbefore : ∀ r ∈ before, r.KeepsLine ctx) (hr : ∀ s, r.apply ctx s = (some .keep, s))
    (s : Nesting) : (decide ctx (before ++ r :: after) s).2.1 = .keep := by
  induction before generalizing s with
  | nil => simp [decide, hr]
  | cons b before ih =>
    rw [cons_append, decide]
    split
    · next e s' he => exact hbefore b (by simp) s e s' he
    · exact ih (fun r hr => hbefore r (mem_cons_of_mem _ hr)) _

theorem keepsLine_editIf {b : Bool} {s' : Nesting} {e : Edit} (h : editIf b .keep s = (some e, s')) : e = .keep := by
  cases b <;> simp [editIf] at h
  exact h.1.symm

theorem keepsLine_controlHeader (ctx : Context) : controlHeader.KeepsLine ctx := by
  intro s e s' h
  simp only [apply, applyControlHeader] at h
  split at h
  · exact keepsLine_editIf h
  · split at h
    · simp_all
    · split at h
      · split at h <;> simp at h
      · split at h <;> simp_all

theorem decide_of_endsInString (h : ctx.line.endsInString = true) (s : Nesting) : (decide ctx all s).2.1 = .keep := by
  have hall : all = all.take 6 ++ multilineStringStart :: all.drop 7 := rfl
  rw [hall]
  refine decide_keep ?_ ?_ s
  · intro r hr
    simp only [all, take_succ_cons, take_zero, mem_cons, not_mem_nil, or_false] at hr
    rcases hr with rfl | rfl | rfl | rfl | rfl | rfl
    · exact fun _ _ _ => keepsLine_editIf
    · exact fun _ _ _ => keepsLine_editIf
    · exact fun _ _ _ => keepsLine_editIf
    · exact fun _ _ _ => keepsLine_editIf
    · exact keepsLine_controlHeader ctx
    · intro s e s' he
      simp [apply, applyStringEnd, h] at he
  · intro s
    simp [apply, editIf, h]

/-! ### Stages of a decision -/

/-- The first of the rules that applies, if any, and the state after they were tried. -/
def tryRules (ctx : Context) : List LineRule → Nesting → Option (LineRule × Edit) × Nesting
  | [], s => (none, s)
  | r :: rules, s =>
    match r.apply ctx s with
    | (some e, s') => (some (r, e), s')
    | (none, s') => tryRules ctx rules s'

theorem decide_append (ctx : Context) (a b : List LineRule) (s : Nesting) : decide ctx (a ++ b) s =
      match tryRules ctx a s with
      | (some (r, e), s') => (r, e, s')
      | (none, s') => decide ctx b s' := by
  induction a generalizing s with
  | nil => rfl
  | cons r a ih =>
    rw [cons_append, decide, tryRules]
    obtain ⟨edit, s'⟩ := r.apply ctx s
    cases edit with
    | none => exact ih s'
    | some e => rfl

def headRules : List LineRule :=
  [blank, multilineStringBody, commentOnly, parenContinuation, controlHeader, multilineStringEnd, multilineStringStart]

def chainRules : List LineRule := [chainContinuation, chainExit, chainEntry]

def endRules : List LineRule :=
  [closureEntry, unbalancedLine, enumerableEntry, invalidTerminator, enumerableContinuation, defaultInsert]

theorem decide_all (ctx : Context) (s : Nesting) : decide ctx all s = match tryRules ctx headRules s with
      | (some (r, e), s₁) => (r, e, s₁)
      | (none, s₁) => match tryRules ctx chainRules s₁ with
        | (some (r, e), s₂) => (r, e, s₂)
        | (none, s₂) => decide ctx endRules s₂ := by
  have hall : all = headRules ++ (chainRules ++ endRules) := rfl
  rw [hall, decide_append]
  split
  · rfl
  · exact decide_append ctx chainRules endRules _

def endsOpen (core : Chars) : Bool := arrow.isSuffixOf core || endsWithAny suppressingEnds core

theorem tryRules_chain (ctx : Context) (s : Nesting) : tryRules ctx chainRules s =
      if startsChain ctx.nextCore then
        (some (if s.inChain then chainContinuation else chainEntry, .keep), { s with inChain := true })
      else if s.inChain && !endsOpen ctx.core then
        (some (chainExit, .terminate), { s with inChain := false })
      else (none, { s with inChain := false }) := by
  obtain ⟨opened, closures, skips, inChain, headerDepth, headerIsControl⟩ := s
  cases hnext : startsChain ctx.nextCore <;> cases inChain <;>
    cases hopen : (arrow.isSuffixOf ctx.core || endsWithAny suppressingEnds ctx.core) <;>
    simp [tryRules, chainRules, apply, applyChainExit, editIf, endsOpen, hnext, hopen]

theorem decide_end (ctx : Context) (s : Nesting) : decide ctx endRules s =
      if arrow.isSuffixOf ctx.core || opensBareClosure ctx.core then (closureEntry, .keep,
          { s with closures := (ctx.line.number, ctx.bracesAfter) :: s.closures })
      else if ctx.after = some .paren then (unbalancedLine, .keep, s)
      else if ['['].isSuffixOf ctx.core then (enumerableEntry, .keep, s)
      else
        match applyInvalidTerminator ctx s with
        | (some e, s') => (invalidTerminator, e, s')
        | (none, s') =>
          if ctx.after = some .bracket then (enumerableContinuation, .keep, s')
          else (defaultInsert, .terminate, s') := by
  cases hclosure : (arrow.isSuffixOf ctx.core || opensBareClosure ctx.core) with
  | true => simp [decide, endRules, apply, hclosure]
  | false =>
    by_cases hparen : ctx.after = some .paren
    · simp [decide, endRules, apply, editIf, hclosure, hparen]
    · cases hbracket : ['['].isSuffixOf ctx.core with
      | true => simp [decide, endRules, apply, editIf, hclosure, hparen, hbracket]
      | false =>
        cases hinvalid : applyInvalidTerminator ctx s with
        | mk edit s' =>
          cases edit with
          | some e => simp [decide, endRules, apply, editIf, hclosure, hparen, hbracket, hinvalid]
          | none =>
            by_cases hafter : ctx.after = some .bracket
            · simp [decide, endRules, apply, editIf, hclosure, hbracket, hinvalid, hafter]
            · simp [decide, endRules, apply, editIf, hclosure, hparen, hbracket, hinvalid, hafter]

theorem closures_head (ctx : Context) {r : LineRule} (hr : r ∈ headRules) (s : Nesting) :
    (apply r ctx s).2.closures = s.closures := by
  simp only [headRules, mem_cons, not_mem_nil, or_false] at hr
  rcases hr with rfl | rfl | rfl | rfl | rfl | rfl | rfl
  · rfl
  · rfl
  · rfl
  · rfl
  · simp only [apply, applyControlHeader]
    split
    · rfl
    · split
      · rfl
      · split <;> (split <;> rfl)
  · simp only [apply, applyStringEnd]
    split
    · rfl
    · split
      · rfl
      · split <;> rfl
  · rfl

theorem tryRules_invariant {P : Nesting → Prop} {rules : List LineRule}
    (h : ∀ r ∈ rules, ∀ s, P s → P (apply r ctx s).2) (hs : P s) : P (tryRules ctx rules s).2 := by
  induction rules generalizing s with
  | nil => exact hs
  | cons r rules ih =>
    have hr := h r (by simp) s hs
    rw [tryRules]
    split
    · next e s' he => rwa [he] at hr
    · next s' he =>
      rw [he] at hr
      exact ih (fun r hr => h r (mem_cons_of_mem _ hr)) hr

theorem tryRules_head_nesting (ctx : Context) (s : Nesting) : (tryRules ctx headRules s).2.opened = s.opened ∧
      (tryRules ctx headRules s).2.closures = s.closures := by
  refine tryRules_invariant (P := fun s' => s'.opened = s.opened ∧ s'.closures = s.closures) ?_ ⟨rfl, rfl⟩
  rintro r hr s' ⟨hopened, hclosures⟩
  exact ⟨(r.apply_nesting ctx s').1.trans hopened, (closures_head ctx hr s').trans hclosures⟩

/-- The line has code to be ended and is neither a header nor inside parentheses. -/
structure PassesHead (ctx : Context) (s s₁ : Nesting) : Prop where
  not_blank : isBlank ctx.line.text = false
  not_body : ctx.line.isStringBody = false
  has_code : ctx.line.codeEnd ≠ 0
  not_paren : ¬(ctx.before = some .paren ∧ ctx.after = some .paren)
  header : applyControlHeader ctx s = (none, s₁)

theorem PassesHead.tryRules_eq {s₁ : Nesting} (h : PassesHead ctx s s₁) : tryRules ctx headRules s =
      match applyStringEnd ctx s₁ with
      | (some e, s₂) => (some (multilineStringEnd, e), s₂)
      | (none, s₂) =>
        if ctx.line.endsInString then (some (multilineStringStart, .keep), s₂) else (none, s₂) := by
  have hparen : (ctx.before == some .paren && ctx.after == some .paren) = false := by
    have hnot := h.not_paren
    simpa using hnot
  cases hend : applyStringEnd ctx s₁ with
  | mk edit s₂ =>
    cases edit with
    | some e => simp [tryRules, headRules, apply, editIf, h.not_blank, h.not_body, h.has_code, hparen, h.header, hend]
    | none =>
      cases hstring : ctx.line.endsInString <;>
        simp [tryRules, headRules, apply, editIf, h.not_blank, h.not_body, h.has_code, hparen, h.header, hend, hstring]

theorem tryRules_head_cases (ctx : Context) (s : Nesting) :
    (∃ r s₁, tryRules ctx headRules s = (some (r, .keep), s₁)) ∨ ∃ s₁, PassesHead ctx s s₁ := by
  cases hblank : isBlank ctx.line.text with
  | true => exact .inl ⟨blank, s, by simp [tryRules, headRules, apply, editIf, hblank]⟩
  | false =>
    cases hbody : ctx.line.isStringBody with
    | true =>
      exact .inl ⟨multilineStringBody, s, by
        simp [tryRules, headRules, apply, editIf, hblank, hbody]⟩
    | false =>
      by_cases hcode : ctx.line.codeEnd = 0
      · exact .inl ⟨commentOnly, s, by
          simp [tryRules, headRules, apply, editIf, hblank, hbody, hcode]⟩
      · by_cases hparen : ctx.before = some .paren ∧ ctx.after = some .paren
        · exact .inl ⟨parenContinuation, s, by
            simp [tryRules, headRules, apply, editIf, hblank, hbody, hcode, hparen]⟩
        · cases hheader : applyControlHeader ctx s with
          | mk edit s₁ =>
            cases edit with
            | none => exact .inr ⟨s₁, hblank, hbody, hcode, hparen, hheader⟩
            | some e =>
              have hkeep : e = .keep := keepsLine_controlHeader ctx s e s₁ hheader
              have hnot : (ctx.before == some .paren && ctx.after == some .paren) = false := by simpa using hparen
              exact .inl ⟨controlHeader, s₁, by
                simp [tryRules, headRules, apply, editIf, hblank, hbody, hcode, hnot, hheader, hkeep]⟩

end LineRule

end GroovySharp.Source
