import GroovySharp.Proofs.Acceptance
import GroovySharp.Proofs.Idempotence

/-!
# Normalizing one text after another

After an accepted text nothing is open, so the lines of a text put behind it are settled as if they
stood alone, with one exception: a chain of calls that ends with a triple-quoted string is not closed,
and the first line behind it that the rules for chains see is taken for its end.
-/

namespace GroovySharp.Source

open Text List Line

/-! ### Splitting and scanning -/

theorem splitLines_append_feed (a b : Chars) :
    splitLines (a ++ '\n' :: b) = splitLines (a ++ ['\n']) ++ splitLines b := by
  induction a with
  | nil => simp [splitLines]
  | cons c a ih =>
    by_cases hc : c = '\n'
    · simp [splitLines, hc, ih]
    · cases ha : splitLines (a ++ ['\n']) with
      | nil =>
        have hjoin := joinBodies_splitLines (a ++ ['\n'])
        rw [ha] at hjoin
        simp at hjoin
      | cons p rest =>
        obtain ⟨body, ending⟩ := p
        rw [ha, cons_append] at ih
        simp only [cons_append, splitLines, if_neg hc, ih, ha]
        split <;> rfl

theorem splitLines_append {a : Chars} (h : a = [] ∨ a.getLast? = some '\n') (b : Chars) :
    splitLines (a ++ b) = splitLines a ++ splitLines b := by
  rcases h with rfl | h
  · rfl
  · obtain ⟨front, rfl⟩ := getLast?_eq_some_iff.mp h
    rw [append_assoc, singleton_append, splitLines_append_feed]

def Line.renumbered (l : Line) (n : Nat) : Line := { l with number := n }

def shifted (k : Nat) (lines : List Line) : List Line := lines.map fun l => l.renumbered (l.number + k)

theorem shifted_cons (k : Nat) (l : Line) (lines : List Line) :
    shifted k (l :: lines) = l.renumbered (l.number + k) :: shifted k lines := rfl

theorem map_source_shifted (k : Nat) (lines : List Line) : (shifted k lines).map source = lines.map source := by
  simp [shifted, Function.comp_def, source, renumbered, Line.text]

theorem nextCore_shifted (k : Nat) (lines : List Line) : nextCore (shifted k lines) = nextCore lines := by
  induction lines with
  | nil => rfl
  | cons l lines ih =>
    have hcode : (l.renumbered (l.number + k)).carriesCode = l.carriesCode := rfl
    rw [shifted_cons]
    simp only [nextCore, find?_cons, hcode] at ih ⊢
    cases l.carriesCode with
    | true => rfl
    | false => exact ih

variable {n : Nat} {t : ScanState} {lines more : List Line} {s last : Nesting} {edits : Edits}

theorem Takes.of_mode {s s₁ : ScanState} {w rest : Chars} {m : Mark} (h : Takes n s w rest m s₁)
    (n' : Nat) (ht : t.mode = s.mode) : ∃ t₁, Takes n' t w rest m t₁ ∧ t₁.mode = s₁.mode := by
  cases h with
  | inLineComment hs => exact ⟨_, .inLineComment (ht.trans hs), ht⟩
  | blockCommentEnd hs => exact ⟨_, .blockCommentEnd (ht.trans hs), rfl⟩
  | inBlockComment hs hc => exact ⟨_, .inBlockComment (ht.trans hs) hc, ht⟩
  | tripleEscape hs => exact ⟨_, .tripleEscape (ht.trans hs), ht⟩
  | tripleEnd hs => exact ⟨_, .tripleEnd (ht.trans hs), rfl⟩
  | inTriple hs hesc hend => exact ⟨_, .inTriple (ht.trans hs) hesc hend, ht⟩
  | oneLineEscape hs => exact ⟨_, .oneLineEscape (ht.trans hs), ht⟩
  | oneLineEnd hs => exact ⟨_, .oneLineEnd (ht.trans hs), rfl⟩
  | inOneLine hs hesc hend => exact ⟨_, .inOneLine (ht.trans hs) hesc hend, ht⟩
  | lineCommentStart hs => exact ⟨_, .lineCommentStart (ht.trans hs), rfl⟩
  | blockCommentStart hs => exact ⟨_, .blockCommentStart (ht.trans hs), rfl⟩
  | tripleStart hs => exact ⟨_, .tripleStart (ht.trans hs), rfl⟩
  | oneLineStart hs hend => exact ⟨_, .oneLineStart (ht.trans hs) hend, rfl⟩
  | plain hs hq hc => exact ⟨_, .plain (ht.trans hs) hq hc, ht⟩

theorem Scans.of_mode {s s' : ScanState} {cs : Chars} {cells : List Cell}
    (h : Scans n s cs cells s') (n' : Nat) (ht : t.mode = s.mode) :
    ∃ t', Scans n' t cs cells t' ∧ t'.mode = s'.mode := by
  induction h generalizing t with
  | lineCommentDone hs => exact ⟨_, .lineCommentDone (ht.trans hs), rfl⟩
  | done hl ho => exact ⟨_, .done (ht ▸ hl) (ht ▸ ho), ht⟩
  | step htakes _ ih =>
    obtain ⟨t₁, htakes', ht₁⟩ := htakes.of_mode n' ht
    obtain ⟨t', hscans, ht'⟩ := ih ht₁
    exact ⟨t', .step htakes' hscans, ht'⟩

theorem ScanState.inString_congr {s : ScanState} (h : t.mode = s.mode) : t.inString = s.inString := by
  simp only [inString, h]

theorem Scanned.shift {s last : ScanState} (h : Scanned n s lines last) (k : Nat) (ht : t.mode = s.mode) :
    ∃ last', Scanned (n + k) t (shifted k lines) last' ∧ last'.mode = last.mode := by
  induction h generalizing t with
  | nil => exact ⟨t, .nil, ht⟩
  | @cons s s' last l lines hl _ ih =>
    obtain ⟨t', hscans, ht'⟩ := hl.scans.of_mode (l.number + k) ht
    obtain ⟨last', hlines, hlast⟩ := ih ht'
    have hfirst : (l.renumbered (l.number + k)).ScansFrom t t' :=
      ⟨hscans, hl.starts.trans (ScanState.inString_congr ht).symm, hl.ends.trans (ScanState.inString_congr ht').symm⟩
    have hrest : Scanned ((l.renumbered (l.number + k)).number + 1) t' (shifted k lines) last' := by
      have hnumber : l.number + 1 + k = l.number + k + 1 := by omega
      rw [hnumber] at hlines
      exact hlines
    exact ⟨last', .cons hfirst hrest, hlast⟩

theorem Scanned.append {s mid last : ScanState} (h : Scanned n s lines mid)
    (hmore : Scanned (n + lines.length) mid more last) : Scanned n s (lines ++ more) last := by
  induction h with
  | nil => exact hmore
  | cons hl _ ih =>
    refine .cons hl (ih ?_)
    rw [length_cons] at hmore
    rwa [Nat.add_assoc, Nat.add_comm 1]

theorem Scanned.final_mode {s last : ScanState} (h : Scanned n s lines last) (hs : s.mode = .code) :
    last.mode ≠ .lineComment ∧ ∀ q, last.mode ≠ .oneLine q := by
  have hstart : s.mode ≠ .lineComment ∧ ∀ q, s.mode ≠ .oneLine q := by simp [hs]
  clear hs
  induction h with
  | nil => exact hstart
  | cons hl _ ih => exact ih hl.scans.final_mode

/-! ### States that differ in line numbers -/

/-- The states lead to the same decisions: they differ in line numbers, in the kind of a header that is
not open, and, if `leak` holds, in that the second may be in a chain of calls that the first is not in. -/
structure Nesting.Agrees (leak : Bool) (s s' : Nesting) : Prop where
  stack : s'.stack = s.stack
  bodies : s'.closures.map Prod.snd = s.closures.map Prod.snd
  skips : s'.skips = s.skips
  headerDepth : s'.headerDepth = s.headerDepth
  control : s.headerDepth ≠ 0 → s'.headerIsControl = s.headerIsControl
  chain : s'.inChain = (s.inChain || leak)

def Context.moved (ctx : Context) (n : Nat) (next : Chars) : Context :=
  { ctx with line := ctx.line.renumbered n, nextCore := next }

namespace Nesting

theorem openedAfter_renumbered (n n' : Nat) {opened opened' after : Openings}
    (h : opened'.map Prod.fst = opened.map Prod.fst) {cs : Chars} (hopened : openedAfter n opened cs = .ok after) :
    ∃ after', openedAfter n' opened' cs = .ok after' ∧ after'.map Prod.fst = after.map Prod.fst := by
  have hstack := openedAfter_eq_ok hopened
  rw [← h] at hstack
  exact exists_openedAfter n' hstack

theorem absorb_frame {s absorbed : Nesting} {l : Line} (h : s.absorb l = .ok absorbed) :
    absorbed = { s with opened := absorbed.opened } := by
  rw [absorb] at h
  split at h
  · cases h
    rfl
  · obtain ⟨opened, -, rfl⟩ := map_eq_ok.mp h
    rfl

namespace Agrees

variable {leak : Bool} {s s' : Nesting}

theorem depth_eq (h : Agrees leak s s') (d : Delimiter) : s'.depth d = s.depth d := by
  rw [depth_eq_count, depth_eq_count, h.stack]

theorem innermost_eq (h : Agrees leak s s') : s'.innermost = s.innermost := by
  have hstack (s : Nesting) : s.innermost = s.stack.head? := by rw [innermost, Nesting.stack, head?_map]
  rw [hstack, hstack, h.stack]

theorem of_inChain (h : Agrees leak s s') (hs : s.inChain = true) : Agrees false s s' :=
  { h with chain := by rw [h.chain, hs, Bool.true_or, Bool.true_or] }

theorem absorb {absorbed : Nesting} {l : Line} (h : Agrees leak s s') (habsorb : s.absorb l = .ok absorbed) (n : Nat) :
    ∃ absorbed', s'.absorb (l.renumbered n) = .ok absorbed' ∧ Agrees leak absorbed absorbed' := by
  have hbodies : (l.renumbered n).isStringBody = l.isStringBody := rfl
  cases hbody : l.isStringBody with
  | true =>
    simp only [Nesting.absorb, hbodies, hbody, if_true] at habsorb ⊢
    cases habsorb
    exact ⟨s', rfl, h⟩
  | false =>
    simp only [Nesting.absorb, hbodies, hbody, Bool.false_eq_true, if_false] at habsorb ⊢
    obtain ⟨opened, hopened, rfl⟩ := map_eq_ok.mp habsorb
    obtain ⟨opened', hopened', hstack⟩ := openedAfter_renumbered l.number n h.stack hopened
    exact ⟨{ s' with opened := opened' }, map_eq_ok.mpr ⟨opened', hopened', rfl⟩, { h with stack := hstack }⟩

theorem contextOf_eq {absorbed absorbed' : Nesting} (h : Agrees leak s s')
    (ha : Agrees leak absorbed absorbed') (l : Line) (n : Nat) (rest rest' : List Line) :
    contextOf s' absorbed' (l.renumbered n) rest' = (contextOf s absorbed l rest).moved n (nextCore rest') := by
  simp only [contextOf, Context.moved, h.depth_eq, h.innermost_eq, ha.depth_eq, ha.innermost_eq]
  rfl

theorem settle (h : Agrees leak s s') : Agrees leak s.settle s'.settle := by
  refine ⟨h.stack, ?_, ?_, ?_, ?_, h.chain⟩
  · have hclosures (t : Nesting) : t.settle.closures.map Prod.snd =
        (t.closures.map Prod.snd).dropWhile fun d => decide (t.depth .brace < d) := by
      rw [dropWhile_map]
      rfl
    rw [hclosures, hclosures, h.bodies, h.depth_eq]
  · simp only [Nesting.settle, h.skips, h.depth_eq]
  · simp only [Nesting.settle, h.headerDepth, h.depth_eq]
  · intro hdepth
    refine h.control fun hzero => hdepth ?_
    simp [Nesting.settle, hzero]

end Agrees

end Nesting

/-! ### One line -/

namespace LineRule

open Nesting (Agrees)

variable {leak : Bool} {s s' : Nesting} {ctx : Context} {next : Chars}

theorem apply_next (r : LineRule) (hnext : startsChain next = startsChain ctx.nextCore) (s : Nesting) :
    apply r { ctx with nextCore := next } s = apply r ctx s := by
  cases r with
  | multilineStringEnd => simp only [apply, applyStringEnd, hnext]
  | chainContinuation | chainEntry => simp only [apply, hnext]
  | _ => rfl

theorem decide_next (hnext : startsChain next = startsChain ctx.nextCore) (rules : List LineRule)
    (s : Nesting) : decide { ctx with nextCore := next } rules s = decide ctx rules s := by
  induction rules generalizing s with
  | nil => rfl
  | cons r rules ih => simp only [decide, apply_next r hnext, ih]

variable {r : LineRule}

theorem apply_moved (hr : r ≠ closureEntry) (n : Nat)
    (hnext : startsChain next = startsChain ctx.nextCore) (s : Nesting) :
    apply r (ctx.moved n next) s = apply r ctx s := by
  rw [← apply_next r hnext]
  cases r with
  | closureEntry => exact absurd rfl hr
  | _ => rfl

theorem applyControlHeader_agrees (h : Agrees leak s s') :
    (applyControlHeader ctx s').1 = (applyControlHeader ctx s).1 ∧
      Agrees leak (applyControlHeader ctx s).2 (applyControlHeader ctx s').2 := by
  by_cases hopen : s.headerDepth ≠ 0 ∧ ctx.parensAfter < s.headerDepth
  · have hcontrol := h.control hopen.1
    simp only [applyControlHeader, h.headerDepth, if_pos hopen, hcontrol]
    exact ⟨rfl, { h with headerDepth := rfl, control := fun hne => absurd rfl hne }⟩
  · simp only [applyControlHeader, h.headerDepth, if_neg hopen]
    split
    · exact ⟨rfl, h⟩
    · split
      · split
        · exact ⟨rfl, { h with headerDepth := rfl, control := fun _ => rfl }⟩
        · exact ⟨rfl, h⟩
      · split
        · exact ⟨rfl, h⟩
        · exact ⟨rfl, h⟩
        · exact ⟨rfl, { h with headerDepth := rfl, control := fun _ => rfl }⟩

theorem applyStringEnd_agrees (h : Agrees leak s s') : (applyStringEnd ctx s').1 = (applyStringEnd ctx s).1 ∧
      Agrees leak (applyStringEnd ctx s).2 (applyStringEnd ctx s').2 := by
  simp only [applyStringEnd]
  split
  · exact ⟨rfl, h⟩
  · split
    · exact ⟨rfl, { h with chain := rfl }⟩
    · split <;> exact ⟨rfl, h⟩

theorem applyInvalidTerminator_agrees (h : Agrees leak s s') :
    (applyInvalidTerminator ctx s').1 = (applyInvalidTerminator ctx s).1 ∧
      Agrees leak (applyInvalidTerminator ctx s).2 (applyInvalidTerminator ctx s').2 := by
  have hcloses (t : Nesting) : closesClosure ctx t =
      (t.closures.map Prod.snd).head?.any fun d => Decidable.decide (ctx.bracesAfter < d) := by
    rw [closesClosure, head?_map, Option.any_map]
  have hempty (t : Nesting) : t.closures.isEmpty = (t.closures.map Prod.snd).isEmpty := by simp
  have hcloses' : closesClosure ctx s' = closesClosure ctx s := by rw [hcloses, hcloses, h.bodies]
  have hinvalid : endsInvalid ctx s' = endsInvalid ctx s := by rw [endsInvalid, endsInvalid, hcloses']
  have hskips : skipsAfter ctx s' = skipsAfter ctx s := by simp only [skipsAfter, opensBlock, hempty, h.bodies, h.skips]
  simp only [applyInvalidTerminator_eq, hinvalid, hcloses', hskips]
  split
  · exact ⟨rfl, h⟩
  · split
    · exact ⟨rfl, { h with skips := rfl, bodies := by simp only [map_tail, h.bodies] }⟩
    · split <;> exact ⟨rfl, { h with skips := rfl }⟩

theorem apply_agrees (h : Agrees leak s s') (hr : leak = false ∨ r ∉ chainRules) (n : Nat)
    (hnext : startsChain next = startsChain ctx.nextCore) : (apply r (ctx.moved n next) s').1 = (apply r ctx s).1 ∧
      Agrees leak (apply r ctx s).2 (apply r (ctx.moved n next) s').2 := by
  have hchain (hmem : r ∈ chainRules) : s'.inChain = s.inChain := by
    rcases hr with rfl | hr
    · rw [h.chain, Bool.or_false]
    · exact absurd hmem hr
  by_cases hclosure : r = closureEntry
  · subst hclosure
    have hcore : (ctx.moved n next).core = ctx.core := rfl
    simp only [apply, hcore]
    split
    · exact ⟨rfl, { h with bodies := by simp only [map_cons, h.bodies]; rfl }⟩
    · exact ⟨rfl, h⟩
  · rw [apply_moved hclosure n hnext]
    cases r with
    | closureEntry => exact absurd rfl hclosure
    | controlHeader => exact applyControlHeader_agrees h
    | multilineStringEnd => exact applyStringEnd_agrees h
    | invalidTerminator => exact applyInvalidTerminator_agrees h
    | chainContinuation =>
      rw [apply, apply, hchain (by decide)]
      exact ⟨rfl, h⟩
    | chainExit =>
      obtain rfl : leak = false := hr.resolve_right fun hnot => hnot (by decide)
      simp only [apply, applyChainExit, hchain (by decide)]
      split
      · exact ⟨rfl, h⟩
      · exact ⟨rfl, { h with chain := rfl }⟩
    | chainEntry =>
      cases hstarts : startsChain ctx.nextCore with
      | true =>
        rw [apply, apply, if_pos hstarts, if_pos hstarts]
        exact ⟨rfl, { h with chain := rfl }⟩
      | false =>
        rw [apply, apply, hstarts]
        exact ⟨rfl, h⟩
    | _ => exact ⟨rfl, h⟩

theorem tryRules_agrees (h : Agrees leak s s') (rules : List LineRule)
    (hrules : leak = false ∨ ∀ r ∈ rules, r ∉ chainRules) (n : Nat)
    (hnext : startsChain next = startsChain ctx.nextCore) :
    (tryRules (ctx.moved n next) rules s').1 = (tryRules ctx rules s).1 ∧
      Agrees leak (tryRules ctx rules s).2 (tryRules (ctx.moved n next) rules s').2 :=
  tryRules_rel h fun r hr _ _ h => apply_agrees h (hrules.imp_right (· r hr)) n hnext

theorem decide_agrees (h : Agrees false s s') (rules : List LineRule) (n : Nat)
    (hnext : startsChain next = startsChain ctx.nextCore) :
    (decide (ctx.moved n next) rules s').1 = (decide ctx rules s).1 ∧
      (decide (ctx.moved n next) rules s').2.1 = (decide ctx rules s).2.1 ∧
      Agrees false (decide ctx rules s).2.2 (decide (ctx.moved n next) rules s').2.2 := by
  obtain ⟨hfound, hstate⟩ := tryRules_agrees h rules (.inl rfl) n hnext
  have hdecide := decide_append ctx rules [] s
  have hdecide' := decide_append (ctx.moved n next) rules [] s'
  rw [append_nil] at hdecide hdecide'
  rw [hdecide, hdecide']
  cases hfirst : tryRules ctx rules s with
  | mk found s₁ =>
    cases hsecond : tryRules (ctx.moved n next) rules s' with
    | mk found' s₁' =>
      rw [hfirst, hsecond] at hfound hstate
      obtain rfl : found' = found := hfound
      cases found' with
      | none | some p => exact ⟨rfl, rfl, hstate⟩

/-! ### A line taken for the end of a chain -/

/-- The line is not in a chain of calls. It would be ended as the last of one, and is not ended so
otherwise. -/
def mistaken (ctx : Context) (s : Nesting) : Bool :=
  !s.inChain && !startsChain ctx.nextCore && !endsOpen ctx.core &&
    (decide ctx endRules s).2.1.apply ctx.line != Edit.terminate.apply ctx.line

/-- Outside closures, the rules about the end of a line leave the state alone, unless its statement goes
on by the look of it. -/
theorem decide_end_state (hopen : endsOpen ctx.core = false) (hclosures : s.closures = [])
    (hskips : s.skips = []) : (decide ctx endRules s).2.2 = s := by
  obtain ⟨harrow, hends⟩ : arrow.isSuffixOf ctx.core = false ∧
      endsWithAny suppressingEnds ctx.core = false := by simpa [endsOpen] using hopen
  have hbare : opensBareClosure ctx.core = false := by
    rw [← Bool.not_eq_true]
    intro hbare
    obtain ⟨front, hfront⟩ := getLast?_eq_some_iff.mp (opensBareClosure_getLast? hbare)
    have hany : endsWithAny suppressingEnds ctx.core = true := by
      refine any_eq_true.mpr ⟨['\x7b'], by decide, ?_⟩
      rw [hfront]
      simp
    rw [hends] at hany
    cases hany
  have hinvalid : (applyInvalidTerminator ctx s).2 = s := by
    have hcloses : closesClosure ctx s = false := by simp [closesClosure, hclosures]
    have hafter : skipsAfter ctx s = s.skips := by simp [skipsAfter, opensBlock, hclosures]
    have hnone : s.skips.head?.any (fun d => Decidable.decide (ctx.bracesAfter < d)) = false := by simp [hskips]
    rw [applyInvalidTerminator_eq, hcloses, hafter, hnone]
    split <;> rfl
  rw [decide_end, harrow, hbare, Bool.or_false, if_neg Bool.false_ne_true]
  cases hterminator : applyInvalidTerminator ctx s with
  | mk edit s₁ =>
    rw [hterminator] at hinvalid
    obtain rfl : s₁ = s := hinvalid
    split
    · rfl
    · split
      · rfl
      · cases edit with
        | some e => rfl
        | none => dsimp only; split <;> rfl

theorem decide_leaked (h : Agrees true s s') (n : Nat)
    (hnext : startsChain next = startsChain ctx.nextCore) (hclosures : s.closures = [])
    (hskips : s.skips = []) : Agrees false (decide ctx (chainRules ++ endRules) s).2.2
        (decide (ctx.moved n next) (chainRules ++ endRules) s').2.2 ∧
      ((decide (ctx.moved n next) (chainRules ++ endRules) s').2.1.apply ctx.line =
          (decide ctx (chainRules ++ endRules) s).2.1.apply ctx.line ↔ mistaken ctx s = false) := by
  cases hin : s.inChain with
  | true =>
    obtain ⟨-, hedit, hstate⟩ := decide_agrees (h.of_inChain hin) (chainRules ++ endRules) n hnext
    exact ⟨hstate, by simp [mistaken, hin, hedit]⟩
  | false =>
    have hin' : s'.inChain = true := by rw [h.chain, Bool.or_true]
    have hnext' : startsChain (ctx.moved n next).nextCore = startsChain ctx.nextCore := hnext
    have hcore : (ctx.moved n next).core = ctx.core := rfl
    have hleft : { s with inChain := false } = s := by rw [← hin]
    have hout : Agrees false s { s' with inChain := false } := { h with chain := by simp [hin] }
    rw [decide_append, decide_append, tryRules_chain, tryRules_chain, hnext', hcore, hin, hin', hleft]
    cases hstarts : startsChain ctx.nextCore with
    | true => exact ⟨{ h with chain := rfl }, by simp [mistaken, hstarts]⟩
    | false =>
      cases hopen : endsOpen ctx.core with
      | true =>
        obtain ⟨-, hedit, hstate⟩ := decide_agrees hout endRules n hnext
        exact ⟨hstate, by simp [mistaken, hopen, hedit]⟩
      | false =>
        refine ⟨?_, ?_⟩
        · simp [decide_end_state hopen hclosures hskips, hout]
        · simp only [mistaken, hin, hstarts, hopen, Bool.not_false, Bool.true_and, bne_eq_false_iff_eq]
          exact eq_comm

theorem skips_apply (hr : r ≠ invalidTerminator) (ctx : Context) (s : Nesting) :
    (apply r ctx s).2.skips = s.skips := by
  cases r with
  | invalidTerminator => exact absurd rfl hr
  | controlHeader =>
    simp only [apply, applyControlHeader]
    split
    · rfl
    · split
      · rfl
      · split <;> (split <;> rfl)
  | multilineStringEnd =>
    simp only [apply, applyStringEnd]
    split
    · rfl
    · split
      · rfl
      · split <;> rfl
  | chainExit =>
    simp only [apply, applyChainExit]
    split <;> rfl
  | chainEntry | closureEntry =>
    simp only [apply]
    split <;> rfl
  | _ => rfl

theorem tryRules_head_skips (ctx : Context) (s : Nesting) : (tryRules ctx headRules s).2.skips = s.skips := by
  refine tryRules_invariant (P := fun t => t.skips = s.skips) ?_ rfl
  intro r hr t ht
  have hne : r ≠ invalidTerminator := by
    rintro rfl
    revert hr
    decide
  rw [skips_apply hne, ht]

/-- A line behind a chain that was left open is settled as without one if the head rules settle it. If
they do not, the chain ends there and the line comes out the same unless it is mistaken for its end. -/
theorem decide_behindChain (h : Agrees true s s') (hclosures : s.closures = []) (hskips : s.skips = [])
    (n : Nat) (hnext : startsChain next = startsChain ctx.nextCore) :
    (∃ found s₁, tryRules ctx headRules s = (some found, s₁) ∧ (decide ctx all s).2.2 = s₁ ∧
      s₁.closures = [] ∧ s₁.skips = [] ∧ (decide (ctx.moved n next) all s').2.1 = (decide ctx all s).2.1 ∧
      Agrees true s₁ (decide (ctx.moved n next) all s').2.2) ∨ ∃ s₁, tryRules ctx headRules s = (none, s₁) ∧
      Agrees false (decide ctx all s).2.2 (decide (ctx.moved n next) all s').2.2 ∧
      ((decide (ctx.moved n next) all s').2.1.apply ctx.line = (decide ctx all s).2.1.apply ctx.line ↔
        mistaken ctx s₁ = false) := by
  obtain ⟨hfound, hstate⟩ := tryRules_agrees h headRules (.inr (by decide)) n hnext
  obtain ⟨-, hclosures₁⟩ := tryRules_head_nesting ctx s
  have hskips₁ := tryRules_head_skips ctx s
  have hall : all = headRules ++ (chainRules ++ endRules) := rfl
  rw [hall, decide_append, decide_append]
  cases hfirst : tryRules ctx headRules s with
  | mk found s₁ =>
    cases hsecond : tryRules (ctx.moved n next) headRules s' with
    | mk found' s₁' =>
      rw [hfirst, hsecond] at hfound hstate
      rw [hfirst] at hclosures₁ hskips₁
      have hnone := hclosures₁.trans hclosures
      have hempty := hskips₁.trans hskips
      obtain rfl : found' = found := hfound
      cases found' with
      | some p => exact .inl ⟨p, s₁, rfl, rfl, hnone, hempty, rfl, hstate⟩
      | none =>
        obtain ⟨hagrees, hiff⟩ := decide_leaked hstate n hnext hnone hempty
        exact .inr ⟨s₁, rfl, hagrees, hiff⟩

theorem mem_skips_apply {d : Nat} (h : d ∈ (apply r ctx s).2.skips) :
    d ∈ s.skips ∨ d = ctx.bracesAfter ∧ ctx.core.getLast? = some '\x7b' := by
  by_cases hr : r = invalidTerminator
  · subst hr
    have hafter {d : Nat} (hd : d ∈ skipsAfter ctx s) :
        d ∈ s.skips ∨ d = ctx.bracesAfter ∧ ctx.core.getLast? = some '\x7b' := by
      rw [skipsAfter] at hd
      split at hd
      · next hblock =>
        rcases mem_cons.mp hd with rfl | hd
        · refine .inr ⟨rfl, ?_⟩
          simp only [opensBlock, Bool.and_eq_true] at hblock
          obtain ⟨front, hfront⟩ := isSuffixOf_iff_suffix.mp hblock.1.1
          rw [← hfront]
          simp
        · exact .inl hd
      · exact .inl hd
    rw [apply, applyInvalidTerminator_eq] at h
    split at h
    · exact .inl h
    · split at h
      · exact hafter h
      · split at h
        · exact hafter (mem_of_mem_tail h)
        · exact hafter h
  · rw [skips_apply hr] at h
    exact .inl h

end LineRule

/-! ### States between texts -/

/-- Blocks in closures and headers are remembered inside delimiters only. -/
structure Nesting.Tidy (s : Nesting) : Prop where
  positive : ∀ d ∈ s.skips, 0 < d
  blocks : s.depth .brace = 0 → s.skips = []
  header : s.depth .paren = 0 → s.headerDepth = 0

theorem Nesting.tidy_settle (h : ∀ d ∈ s.skips, 0 < d) : s.settle.Tidy := by
  refine ⟨?_, ?_, ?_⟩
  · intro d hd
    exact h d ((dropWhile_sublist _).subset hd)
  · intro hdepth
    have hzero : s.depth .brace = 0 := hdepth
    simp only [settle, hzero, dropWhile_eq_nil_iff, decide_eq_true_eq]
    exact h
  · intro hdepth
    have hzero : s.depth .paren = 0 := hdepth
    simp only [settle, hzero]
    split <;> omega

theorem Nesting.Tidy.step {absorbed decided : Nesting} {l : Line} {rest : List Line}
    {rule : LineRule} {edit : Edit} (hs : s.Tidy) (hl : WellMarked l.cells) (habsorb : s.absorb l = .ok absorbed)
    (hdecide : LineRule.decide (contextOf s absorbed l rest) LineRule.all absorbed =
      (rule, edit, decided)) : decided.settle.Tidy := by
  refine Nesting.tidy_settle ?_
  have habsorbed : ∀ d ∈ absorbed.skips, 0 < d := by
    have hskips : absorbed.skips = s.skips := by rw [Nesting.absorb_frame habsorb]
    exact hskips ▸ hs.positive
  cases hbody : l.isStringBody with
  | true =>
    have hctx : (contextOf s absorbed l rest).line.isStringBody = true := hbody
    have hsame := LineRule.decide_of_isStringBody hctx absorbed
    rw [hdecide] at hsame
    obtain rfl : decided = absorbed := hsame
    exact habsorbed
  | false =>
    have hstep (r : LineRule) (t : Nesting) (ht : ∀ d ∈ t.skips, 0 < d) :
        ∀ d ∈ (r.apply (contextOf s absorbed l rest) t).2.skips, 0 < d := by
      intro d hd
      rcases LineRule.mem_skips_apply hd with hd | ⟨rfl, hcore⟩
      · exact ht d hd
      · exact Nesting.depth_pos_of_opens hl habsorb hbody hcore
    have hdecided := LineRule.decide_invariant hstep LineRule.all habsorbed
    rwa [hdecide] at hdecided

theorem Settles.tidy (h : Settles s lines edits last) (hmarks : ∀ l ∈ lines, WellMarked l.cells)
    (hs : s.Tidy) : last.Tidy := by
  induction h with
  | nil => exact hs
  | cons habsorb hdecide _ ih =>
    refine ih (fun x hx => hmarks x (mem_cons_of_mem _ hx)) ?_
    exact hs.step (hmarks _ (by simp)) habsorb hdecide

theorem Nesting.Tidy.agrees (h : s.Tidy) (hstack : s.stack = []) (hclosures : s.closures = []) :
    Nesting.Agrees s.inChain {} s := by
  have hdepth (d : Delimiter) : s.depth d = 0 := by rw [Nesting.depth_eq_count, hstack, count_nil]
  refine ⟨hstack, by rw [hclosures], h.blocks (hdepth .brace), h.header (hdepth .paren), ?_, rfl⟩
  intro hne
  exact absurd rfl hne

/-! ### Runs -/

theorem startsChain_nextCore_append (lines : List Line) (h : startsChain (nextCore more) = false) :
    startsChain (nextCore (lines ++ more)) = startsChain (nextCore lines) := by
  cases hfind : lines.find? carriesCode with
  | none => simpa [nextCore, hfind, find?_append, startsChain] using h
  | some l => simp [nextCore, hfind, find?_append]

theorem Settles.append {mid : Nesting} {edits' : Edits}
    (h : Settles s lines edits mid) (hmore : Settles mid more edits' last)
    (hnext : startsChain (nextCore more) = false) : Settles s (lines ++ more) (edits ++ edits') last := by
  induction h with
  | nil => exact hmore
  | @cons s absorbed decided mid l rest rule edit edits habsorb hdecide _ ih =>
    refine .cons habsorb ?_ (ih hmore)
    have hchain : startsChain (nextCore (rest ++ more)) =
        startsChain (contextOf s absorbed l rest).nextCore := startsChain_nextCore_append rest hnext
    exact (LineRule.decide_next hchain LineRule.all absorbed).trans hdecide

open Nesting (Agrees)

theorem Settles.shift {s' : Nesting} (h : Settles s lines edits last) (hs : Agrees false s s')
    (k : Nat) : ∃ last', Settles s' (shifted k lines) edits last' ∧ Agrees false last last' := by
  induction h generalizing s' with
  | nil => exact ⟨s', .nil, hs⟩
  | @cons s absorbed decided last l rest rule edit edits habsorb hdecide _ ih =>
    obtain ⟨absorbed', habsorb', hagrees⟩ := hs.absorb habsorb (l.number + k)
    have hcontext := hs.contextOf_eq hagrees l (l.number + k) rest (shifted k rest)
    have hnext : startsChain (nextCore (shifted k rest)) =
        startsChain (contextOf s absorbed l rest).nextCore := congrArg startsChain (nextCore_shifted k rest)
    obtain ⟨hrule, hedit, hstate⟩ := LineRule.decide_agrees hagrees LineRule.all (l.number + k) hnext
    rw [hdecide] at hrule hedit hstate
    obtain ⟨last', hsettles, hlast⟩ := ih hstate.settle
    refine ⟨last', .cons habsorb' ?_ hsettles, hlast⟩
    exact (congrArg (LineRule.decide · LineRule.all absorbed') hcontext).trans (Prod.ext hrule (Prod.ext hedit rfl))

/-- The lines come out the same behind a chain of calls that was left open: the first of them that the
rules for chains see is not taken for its end. -/
def indifferentToChain (s : Nesting) : List Line → Bool
  | [] => true
  | l :: rest =>
    match s.absorb l with
    | .error _ => false
    | .ok absorbed =>
      let ctx := contextOf s absorbed l rest
      match LineRule.tryRules ctx LineRule.headRules absorbed with
      | (some _, s₁) => s₁.inChain || indifferentToChain s₁.settle rest
      | (none, s₁) => !LineRule.mistaken ctx s₁

theorem source_edited_renumbered (l : Line) (n : Nat) (e : Edit) :
    ((l.renumbered n).edited e).source = (l.edited e).source := by
  have happly : e.apply (l.renumbered n) = e.apply l := by cases e <;> rfl
  rw [source, source, text_edited, text_edited, ending_edited, ending_edited, happly]
  rfl

theorem map_source_edited_shifted (k : Nat) (lines : List Line) (edits : Edits) :
    (editedLines (shifted k lines) edits).map source = (editedLines lines edits).map source := by
  induction lines generalizing edits with
  | nil => rfl
  | cons l lines ih =>
    cases edits with
    | nil => rfl
    | cons d edits =>
      rw [shifted_cons, editedLines_cons, editedLines_cons, map_cons, map_cons, source_edited_renumbered, ih]

theorem map_source_edited_cons_iff (k : Nat) (l : Line) (lines : List Line) (d d' : LineRule × Edit)
    (edits edits' : Edits) : (editedLines (shifted k (l :: lines)) (d' :: edits')).map source =
        (editedLines (l :: lines) (d :: edits)).map source ↔
      d'.2.apply l = d.2.apply l ∧ (editedLines (shifted k lines) edits').map source =
        (editedLines lines edits).map source := by
  have hsource (e e' : Edit) : (l.edited e').source = (l.edited e).source ↔ e'.apply l = e.apply l := by
    simp only [source, text_edited, ending_edited, Prod.mk.injEq, and_true]
  rw [shifted_cons, editedLines_cons, editedLines_cons, map_cons, map_cons, cons.injEq,
    source_edited_renumbered, hsource]

/-- Lines behind a chain that was left open are settled, and come out the same exactly if they are
indifferent to it. -/
theorem Settles.behindChain {s' : Nesting} (h : Settles s lines edits last) (hs : Agrees true s s')
    (hclosures : s.closures = []) (hskips : s.skips = []) (k : Nat) :
    ∃ edits' last' leak, Settles s' (shifted k lines) edits' last' ∧ Agrees leak last last' ∧
      ((editedLines (shifted k lines) edits').map source =
        (editedLines lines edits).map source ↔ indifferentToChain s lines = true) := by
  induction h generalizing s' with
  | nil => exact ⟨[], s', true, .nil, hs, by simp [editedLines, indifferentToChain]⟩
  | @cons s absorbed decided last l rest rule edit edits habsorb hdecide hrest ih =>
    obtain ⟨absorbed', habsorb', hagrees⟩ := hs.absorb habsorb (l.number + k)
    have hcontext := hs.contextOf_eq hagrees l (l.number + k) rest (shifted k rest)
    have hnext : startsChain (nextCore (shifted k rest)) =
        startsChain (contextOf s absorbed l rest).nextCore := congrArg startsChain (nextCore_shifted k rest)
    have hframe := Nesting.absorb_frame habsorb
    have hline := LineRule.decide_behindChain hagrees (by rw [hframe]; exact hclosures)
      (by rw [hframe]; exact hskips) (l.number + k) hnext
    rw [← hcontext, hdecide] at hline
    obtain ⟨rule', edit', decided', hdecide'⟩ : ∃ rule' edit' decided',
        LineRule.decide (contextOf s' absorbed' (l.renumbered (l.number + k)) (shifted k rest))
          LineRule.all absorbed' = (rule', edit', decided') := ⟨_, _, _, rfl⟩
    rw [hdecide'] at hline
    rcases hline with ⟨found, s₁, hhead, hsame, hclosures₁, hskips₁, hedit, hstate⟩ | ⟨s₁, hhead, hstate, hiff⟩
    · obtain rfl : decided = s₁ := hsame
      obtain rfl : edit' = edit := hedit
      cases hin : decided.inChain with
      | true =>
        obtain ⟨last', hsettles, hlast⟩ := hrest.shift (hstate.of_inChain hin).settle k
        refine ⟨_ :: edits, last', false, .cons habsorb' hdecide' hsettles, hlast, ?_⟩
        rw [map_source_edited_cons_iff]
        simp [map_source_edited_shifted, indifferentToChain, habsorb, hhead, hin]
      | false =>
        obtain ⟨edits', last', leak, hsettles, hlast, hiff⟩ :=
          ih hstate.settle (by simp [Nesting.settle, hclosures₁]) (by simp [Nesting.settle, hskips₁])
        refine ⟨_ :: edits', last', leak, .cons habsorb' hdecide' hsettles, hlast, ?_⟩
        rw [map_source_edited_cons_iff, hiff]
        simp [indifferentToChain, habsorb, hhead, hin]
    · obtain ⟨last', hsettles, hlast⟩ := hrest.shift hstate.settle k
      refine ⟨_ :: edits, last', false, .cons habsorb' hdecide' hsettles, hlast, ?_⟩
      have hline : edit'.apply l = edit.apply l ↔ LineRule.mistaken (contextOf s absorbed l rest) s₁ = false := hiff
      rw [map_source_edited_cons_iff, hline]
      simp [map_source_edited_shifted, indifferentToChain, habsorb, hhead]

/-! ### Whole texts -/

def endsInChain (lines : List Line) : Bool :=
  match settleLines {} lines with
  | .ok (_, last) => last.inChain
  | .error _ => false

theorem Settles.endsInChain_eq (h : Settles {} lines edits last) : endsInChain lines = last.inChain := by
  rw [endsInChain, settleLines_eq_ok_iff.mpr ⟨edits, h, rfl⟩]

theorem scanLines_append {a b : Chars} {scan last : ScanState}
    (hend : a = [] ∨ a.getLast? = some '\n') (ha : scanLines a = .ok (lines, scan))
    (hb : scanLines b = .ok (more, last)) (hcomment : scan.mode ≠ .blockComment) (hstring : scan.inString = false) :
    ∃ last', scanLines (a ++ b) = .ok (lines ++ shifted lines.length more, last') ∧ last'.mode = last.mode := by
  obtain ⟨hlines, hsplit⟩ := scanLines_eq_ok_iff.mp ha
  obtain ⟨hmore, hsplit'⟩ := scanLines_eq_ok_iff.mp hb
  have hmode : scan.mode = .code := by
    obtain ⟨hline, hone⟩ := hlines.final_mode rfl
    cases hm : scan.mode with
    | code => rfl
    | lineComment => exact absurd hm hline
    | blockComment => exact absurd hm hcomment
    | oneLine q => exact absurd hm (hone q)
    | triple q => simp [ScanState.inString, hm] at hstring
  obtain ⟨last', hshift, hlast⟩ := hmore.shift lines.length (t := scan) hmode
  refine ⟨last', scanLines_eq_ok_iff.mpr ⟨hlines.append hshift, ?_⟩, hlast⟩
  rw [splitLines_append hend, map_append, map_source_shifted, hsplit, hsplit']

theorem editedLines_append (h : edits.length = lines.length) (more : List Line) (edits' : Edits) :
    editedLines (lines ++ more) (edits ++ edits') = editedLines lines edits ++ editedLines more edits' :=
  zipWith_append h.symm

theorem joinBodies_append (ps qs : List (Chars × Ending)) :
    joinBodies (ps ++ qs) = joinBodies ps ++ joinBodies qs := flatMap_append

theorem joinBodies_inj {ps qs : List (Chars × Ending)} (hp : ProperLines ps) (hq : ProperLines qs) :
    joinBodies ps = joinBodies qs ↔ ps = qs := by
  constructor
  · intro h
    rw [← splitLines_joinBodies ps hp, h, splitLines_joinBodies qs hq]
  · intro h
    rw [h]

theorem Settles.behind {mid fin : Nesting} (h : Settles {} more edits fin) (hmid : mid.Tidy)
    (hstack : mid.stack = []) (hclosures : mid.closures = []) (k : Nat) :
    ∃ edits' fin' leak, Settles mid (shifted k more) edits' fin' ∧ Agrees leak fin fin' ∧
      ((editedLines (shifted k more) edits').map source = (editedLines more edits).map source ↔
        (mid.inChain = true → indifferentToChain {} more = true)) := by
  have hagrees := hmid.agrees hstack hclosures
  cases hin : mid.inChain with
  | true =>
    rw [hin] at hagrees
    obtain ⟨edits', fin', leak, hsettles, hfin, hiff⟩ := h.behindChain hagrees rfl rfl k
    exact ⟨edits', fin', leak, hsettles, hfin, by simp [hiff]⟩
  | false =>
    rw [hin] at hagrees
    obtain ⟨fin', hsettles, hfin⟩ := h.shift hagrees k
    exact ⟨edits, fin', false, hsettles, hfin, by simp [map_source_edited_shifted]⟩

/-- Two accepted texts, the first of whole lines and the second not going on with a chain of calls, are
accepted as one text. It is normalized to the two normalized texts exactly if the first does not leave a
chain open or the second is indifferent to it. -/
theorem normalize_append_eq_iff {a b u v : Chars} (ha : normalize a = .ok u)
    (hb : normalize b = .ok v) (hend : a = [] ∨ a.getLast? = some '\n')
    (hfirst : ∀ lines scan, scanLines b = .ok (lines, scan) → startsChain (nextCore lines) = false) :
    (∃ w, normalize (a ++ b) = .ok w) ∧ (normalize (a ++ b) = .ok (u ++ v) ↔
        ∀ lines scan more last, scanLines a = .ok (lines, scan) → scanLines b = .ok (more, last) →
          endsInChain lines = true → indifferentToChain {} more = true) := by
  obtain ⟨lines, scan, edits, mid, hscan, hsettles, hopen, rfl⟩ := normalize_eq_ok_iff.mp ha
  obtain ⟨more, last, edits', fin, hscan', hsettles', hopen', rfl⟩ := normalize_eq_ok_iff.mp hb
  obtain ⟨hcomment, hstring, hstack, hclosures⟩ := openConstruct?_eq_none_iff.mp hopen
  obtain ⟨hcomment', hstring', hstack', hclosures'⟩ := openConstruct?_eq_none_iff.mp hopen'
  have htidy : mid.Tidy := by
    refine hsettles.tidy (scanLines_eq_ok_iff.mp hscan).1.wellMarked ⟨?_, fun _ => rfl, fun _ => rfl⟩
    intro d hd
    cases hd
  obtain ⟨edits'', fin', leak, hbehind, hagrees, hiff⟩ :=
    hsettles'.behind htidy hstack hclosures lines.length
  obtain ⟨last', hscan'', hlast⟩ := scanLines_append hend hscan hscan' hcomment hstring
  have hnext : startsChain (nextCore (shifted lines.length more)) = false := by
    rw [nextCore_shifted]
    exact hfirst more last hscan'
  have hnone : openConstruct? last' fin' = none := by
    have hbodies := hagrees.bodies
    rw [hclosures', List.map_nil, List.map_eq_nil_iff] at hbodies
    exact openConstruct?_eq_none_iff.mpr ⟨hlast ▸ hcomment',
      (ScanState.inString_congr hlast).trans hstring', hagrees.stack.trans hstack', hbodies⟩
  have hnormal := normalize_eq_ok_iff.mpr ⟨_, last', _, fin', hscan'', hsettles.append hbehind hnext, hnone, rfl⟩
  rw [editedLines_append hsettles.length_eq, map_append, joinBodies_append] at hnormal
  have hproper : ProperLines (more.map Line.source) :=
    (scanLines_eq_ok_iff.mp hscan').2 ▸ properLines_splitLines b
  have hproper' : ProperLines ((shifted lines.length more).map Line.source) := by
    rw [map_source_shifted]
    exact hproper
  refine ⟨⟨_, hnormal⟩, ?_⟩
  rw [hnormal, Except.ok.injEq, List.append_cancel_left_eq,
    joinBodies_inj (properLines_edited hproper' edits'') (properLines_edited hproper edits'), hiff,
    ← hsettles.endsInChain_eq]
  constructor
  · intro h lines' scan' more' last'' hlines hmore
    rw [hscan] at hlines
    rw [hscan'] at hmore
    cases hlines
    cases hmore
    exact h
  · intro h
    exact h lines scan more last hscan hscan'

def chainWithString : Chars := "x\n.y = '''\n'''\n".toList

def brokenList : Chars := "z = [a,\nb]\n".toList

/-- A chain of calls that ends with a string, and a list over two lines that is indifferent to it. -/
theorem normalize_append_list :
    normalize chainWithString = .ok "x\n.y = '''\n''';\n".toList ∧
      normalize brokenList = .ok "z = [a,\nb];\n".toList ∧
      (∀ lines scan, scanLines chainWithString = .ok (lines, scan) →
        endsInChain lines = true) ∧
      normalize (chainWithString ++ brokenList) =
        .ok ("x\n.y = '''\n''';\n".toList ++ "z = [a,\nb];\n".toList) := by
  have ha : normalize chainWithString = .ok "x\n.y = '''\n''';\n".toList :=
    normalize_eq_ok_of_toOption (by decide +kernel)
  have hb : normalize brokenList = .ok "z = [a,\nb];\n".toList :=
    normalize_eq_ok_of_toOption (by decide +kernel)
  have hfirst : ∀ lines scan, scanLines brokenList = .ok (lines, scan) →
      startsChain (nextCore lines) = false := by
    have hcheck : (scanLines brokenList).toOption.all
        (fun p => !startsChain (nextCore p.1)) = true := by decide +kernel
    intro lines scan hscan
    simpa using forall_of_toOption_all hcheck (lines, scan) hscan
  have hchain : ∀ lines scan, scanLines chainWithString = .ok (lines, scan) →
      endsInChain lines = true := by
    have hcheck : (scanLines chainWithString).toOption.all
        (fun p => endsInChain p.1) = true := by decide +kernel
    intro lines scan hscan
    exact forall_of_toOption_all hcheck (lines, scan) hscan
  have hindifferent : ∀ lines scan, scanLines brokenList = .ok (lines, scan) →
      indifferentToChain {} lines = true := by
    have hcheck : (scanLines brokenList).toOption.all
        (fun p => indifferentToChain {} p.1) = true := by decide +kernel
    intro lines scan hscan
    exact forall_of_toOption_all hcheck (lines, scan) hscan
  exact ⟨ha, hb, hchain, (normalize_append_eq_iff ha hb (.inr rfl) hfirst).2.mpr
    fun _ _ more last _ hmore _ => hindifferent more last hmore⟩

/-- A chain of calls that ends with a string is left open, and a call over two lines behind it is
ended on its first line. -/
theorem normalize_append_after_string :
    normalize "x\n.y = '''\n'''\n".toList = .ok "x\n.y = '''\n''';\n".toList ∧
      normalize "f(a\n)\n".toList = .ok "f(a\n);\n".toList ∧
      normalize ("x\n.y = '''\n'''\n".toList ++ "f(a\n)\n".toList) =
        .ok "x\n.y = '''\n''';\nf(a;\n);\n".toList :=
  ⟨normalize_eq_ok_of_toOption (by decide +kernel), normalize_eq_ok_of_toOption (by decide +kernel),
    normalize_eq_ok_of_toOption (by decide +kernel)⟩

end GroovySharp.Source
