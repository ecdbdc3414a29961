import Mathlib.Logic.Function.Basic
import GroovySharp.Proofs.LineSteps

/-!
# What is open after each line

The state after a line remembers the open delimiters in one list.
-/

namespace GroovySharp.Source

open List Delimiter

/-! ### Delimiters with their lines -/

def delimiterMarks (lines : List Line) : List (Char × Nat) :=
  (readLines lines).flatMap fun l => l.delimiters.map fun c => (c, l.number)

theorem delimiterMarks_append (a b : List Line) : delimiterMarks (a ++ b) = delimiterMarks a ++ delimiterMarks b := by
  rw [delimiterMarks, readLines_append, flatMap_append]
  rfl

/-- The delimiters leave those of the list open, innermost first. -/
inductive Leaves : List (Char × Nat) → Openings → Prop
  | nil : Leaves [] []
  | opens {marks : List (Char × Nat)} {opened : Openings} (d : Delimiter) (n : Nat)
    (h : Leaves marks opened) : Leaves (marks ++ [(d.opener, n)]) ((d, n) :: opened)
  | closes {marks : List (Char × Nat)} {opened : Openings} {d : Delimiter} {k : Nat} (n : Nat)
    (h : Leaves marks ((d, k) :: opened)) : Leaves (marks ++ [(d.closer, n)]) opened

variable {n : Nat} {marks : List (Char × Nat)} {opened : Openings} {cs : Chars}
  {s : Nesting} {l : Line} {d : Delimiter} {lines : List Line} {e : StructuralFault}

theorem Leaves.openedAfter {opened' : Openings} (h : Leaves marks opened)
    (hopened : Nesting.openedAfter n opened cs = .ok opened') :
    Leaves (marks ++ (cs.filter isDelimiter).map fun c => (c, n)) opened' := by
  induction cs generalizing marks opened with
  | nil =>
    cases hopened
    simpa using h
  | cons c cs ih =>
    cases hc : isDelimiter c with
    | false =>
      obtain ⟨hopens, hcloses⟩ := isDelimiter_eq_false_iff.mp hc
      simp only [Nesting.openedAfter, hopens, hcloses] at hopened
      rw [filter_cons_of_neg (by simp [hc])]
      exact ih h hopened
    | true =>
      rw [filter_cons_of_pos hc, map_cons, ← singleton_append, ← append_assoc]
      obtain ⟨d, rfl | rfl⟩ := isDelimiter_iff.mp hc
      · simp only [Nesting.openedAfter, opened?_opener] at hopened
        exact ih (h.opens d n) hopened
      · simp only [Nesting.openedAfter, opened?_closer, closed?_closer] at hopened
        cases opened with
        | nil => cases hopened
        | cons top rest =>
          obtain ⟨kind, k⟩ := top
          by_cases htop : kind = d
          · subst htop
            simp only [if_true] at hopened
            exact ih (h.closes n) hopened
          · simp [htop] at hopened

theorem Leaves.absorb {absorbed : Nesting} (h : Leaves marks s.opened) (hl : WellMarked l.cells)
    (habsorb : s.absorb l = .ok absorbed) : Leaves (marks ++ delimiterMarks [l]) absorbed.opened := by
  cases hbody : l.isStringBody with
  | true =>
    simp only [Nesting.absorb, hbody, if_true] at habsorb
    cases habsorb
    simpa [delimiterMarks, readLines, hbody] using h
  | false =>
    simp only [Nesting.absorb, hbody, Bool.false_eq_true, if_false] at habsorb
    obtain ⟨opened, hopened, rfl⟩ := map_eq_ok.mp habsorb
    have hread := h.openedAfter hopened
    rw [Line.masked, filter_masked hl] at hread
    simpa [delimiterMarks, readLines, hbody, Line.delimiters] using hread

/-! ### A stack for each kind -/

def linesOf (opened : Openings) (d : Delimiter) : List Nat :=
  (opened.filter fun o => o.1 == d).map (·.2)

theorem linesOf_cons (d : Delimiter) (n : Nat) (opened : Openings) :
    linesOf ((d, n) :: opened) = Function.update (linesOf opened) d (n :: linesOf opened d) := by
  funext e
  by_cases he : e = d
  · subst he
    simp [linesOf]
  · have hne : (d == e) = false := by simpa using Ne.symm he
    simp [linesOf, hne, Function.update_of_ne he]

/-- The kinds of the open delimiters and, for each kind, the lines they were opened on, innermost first.
Nothing says that the stacks belong together. -/
structure Stacks where
  kinds : List Delimiter
  lines : Delimiter → List Nat

/-- The stacks after one delimiter. An opener is put on the stack of kinds and its line on the stack of
its kind. A closer has to match the innermost kind, and takes one off both. -/
def Stacks.step (st : Stacks) (mark : Char × Nat) : Option Stacks :=
  match opened? mark.1 with
  | some d => some ⟨d :: st.kinds, Function.update st.lines d (mark.2 :: st.lines d)⟩
  | none =>
    match closed? mark.1 with
    | none => some st
    | some d =>
      if st.kinds.head? = some d then
        some ⟨st.kinds.tail, Function.update st.lines d (st.lines d).tail⟩
      else none

def Stacks.read (marks : List (Char × Nat)) : Option Stacks :=
  marks.foldlM Stacks.step ⟨[], fun _ => []⟩

theorem Leaves.read_eq (h : Leaves marks opened) : Stacks.read marks = some ⟨opened.map Prod.fst, linesOf opened⟩ := by
  induction h with
  | nil => rfl
  | @opens marks opened d n _ ih | @closes marks opened d k n _ ih =>
    rw [Stacks.read] at ih ⊢
    rw [foldlM_append, ih]
    simp [Stacks.step, linesOf_cons]

/-! ### Counting backwards -/

theorem Delimiter.opener_ne_closer (d e : Delimiter) : d.opener ≠ e.closer := by
  cases d <;> cases e <;> decide

theorem Delimiter.opener_inj {e : Delimiter} : d.opener = e.opener ↔ d = e := by
  cases d <;> cases e <;> decide

theorem Delimiter.closer_inj {e : Delimiter} : d.closer = e.closer ↔ d = e := by
  cases d <;> cases e <;> decide

/-- The lines of the openers of one kind that nothing closes, innermost first. The marks are taken from
the last to the first with the number of closers that still want their opener. Delimiters of other kinds
are not looked at. -/
def unmatchedLines (d : Delimiter) : Nat → List (Char × Nat) → List Nat
  | _, [] => []
  | wanted, (c, n) :: marks =>
    if c = d.closer then unmatchedLines d (wanted + 1) marks
    else if c = d.opener then
      match wanted with
      | 0 => n :: unmatchedLines d 0 marks
      | wanted + 1 => unmatchedLines d wanted marks
    else unmatchedLines d wanted marks

theorem unmatchedLines_succ (d : Delimiter) (wanted : Nat) (marks : List (Char × Nat)) :
    unmatchedLines d (wanted + 1) marks = (unmatchedLines d wanted marks).tail := by
  induction marks generalizing wanted with
  | nil => rfl
  | cons mark marks ih =>
    obtain ⟨c, n⟩ := mark
    by_cases hclose : c = d.closer
    · simp [unmatchedLines, hclose, ih]
    · by_cases hopen : c = d.opener
      · cases wanted with
        | zero => simp [unmatchedLines, hopen, d.opener_ne_closer]
        | succ wanted => simp [unmatchedLines, hopen, d.opener_ne_closer, ih]
      · simp [unmatchedLines, hclose, hopen, ih]

theorem Leaves.unmatchedLines_eq (h : Leaves marks opened) (e : Delimiter) :
    unmatchedLines e 0 marks.reverse = linesOf opened e := by
  induction h with
  | nil => rfl
  | @opens marks opened d n _ ih =>
    rw [linesOf_cons, reverse_append, reverse_singleton, singleton_append]
    by_cases hd : d = e
    · subst hd
      simp [unmatchedLines, opener_ne_closer, ih]
    · simp [unmatchedLines, opener_ne_closer, opener_inj, hd, ih, Function.update_of_ne (Ne.symm hd)]
  | @closes marks opened d k n _ ih =>
    -- Read backwards the closer comes first, and what it takes away is the opener that it closed.
    rw [reverse_append, reverse_singleton, singleton_append]
    rw [linesOf_cons] at ih
    by_cases hd : d = e
    · subst hd
      simp only [Function.update_self] at ih
      simp [unmatchedLines, unmatchedLines_succ, ih]
    · rw [Function.update_of_ne (Ne.symm hd)] at ih
      have hopen : d.closer ≠ e.opener := (opener_ne_closer e d).symm
      simp [unmatchedLines, closer_inj, hd, hopen, ih]

/-! ### Line numbers -/

theorem Scanned.numbers {s last : ScanState} (h : Scanned n s lines last) :
    (∀ l ∈ lines, n ≤ l.number) ∧ lines.Pairwise fun a b => a.number ≤ b.number := by
  induction h with
  | nil => exact ⟨by simp, .nil⟩
  | @cons s s' last l lines _ _ ih =>
    obtain ⟨hle, hpairwise⟩ := ih
    refine ⟨?_, pairwise_cons.mpr ⟨?_, hpairwise⟩⟩
    · intro x hx
      rcases mem_cons.mp hx with rfl | hx
      · exact le_rfl
      · have hnext := hle x hx
        omega
    · intro x hx
      have hnext := hle x hx
      omega

theorem exists_of_mem_delimiterMarks {mark : Char × Nat} (h : mark ∈ delimiterMarks lines) :
    ∃ l ∈ lines, mark.2 = l.number := by
  obtain ⟨l, hl, hmark⟩ := mem_flatMap.mp h
  obtain ⟨c, -, rfl⟩ := mem_map.mp hmark
  exact ⟨l, mem_of_mem_filter hl, rfl⟩

theorem pairwise_delimiterMarks (h : lines.Pairwise fun a b => a.number ≤ b.number) :
    (delimiterMarks lines).Pairwise fun a b => a.2 ≤ b.2 := by
  induction lines with
  | nil => exact .nil
  | cons l lines ih =>
    obtain ⟨hl, hlines⟩ := pairwise_cons.mp h
    rw [← singleton_append, delimiterMarks_append]
    refine pairwise_append.mpr ⟨?_, ih hlines, ?_⟩
    · refine pairwise_of_forall_mem_list ?_
      intro a ha b hb
      obtain ⟨x, hx, hxa⟩ := exists_of_mem_delimiterMarks ha
      obtain ⟨y, hy, hyb⟩ := exists_of_mem_delimiterMarks hb
      rw [mem_singleton] at hx hy
      rw [hxa, hyb, hx, hy]
    · intro a ha b hb
      obtain ⟨x, hx, hxa⟩ := exists_of_mem_delimiterMarks ha
      obtain ⟨y, hy, hyb⟩ := exists_of_mem_delimiterMarks hb
      rw [mem_singleton] at hx
      rw [hxa, hyb, hx]
      exact hl y hy

theorem Leaves.sublist (h : Leaves marks opened) : (opened.map Prod.snd).reverse.Sublist (marks.map Prod.snd) := by
  induction h with
  | nil => exact .slnil
  | opens d n _ ih => simpa using ih.append (List.Sublist.refl [n])
  | @closes marks opened d k n _ ih =>
    have hrest : (opened.map Prod.snd).reverse.Sublist (((d, k) :: opened).map Prod.snd).reverse := by
      rw [map_cons, reverse_cons]
      exact sublist_append_left ..
    rw [map_append]
    exact (hrest.trans ih).trans (sublist_append_left ..)

theorem linesOf_sublist (opened : Openings) (d : Delimiter) :
    (linesOf opened d).Sublist (opened.map Prod.snd) :=
  filter_sublist.map _

/-! ### The state after a line -/

/-- The state is in order after delimiters up to line `n`. -/
structure Nesting.InOrder (s : Nesting) (marks : List (Char × Nat)) (n : Nat) : Prop where
  /-- Stacks kept apart hold the kinds of the open delimiters and their lines. -/
  separate : Stacks.read marks = some ⟨s.stack, s.lines⟩
  /-- Counting backwards finds the same lines. -/
  unmatched : ∀ d, s.lines d = unmatchedLines d 0 marks.reverse
  lengths : (s.lines .paren).length + (s.lines .bracket).length + (s.lines .brace).length = s.stack.length
  descending : ∀ d, (s.lines d).Pairwise (· ≥ ·)
  bounded : ∀ d, ∀ k ∈ s.lines d, k ≤ n
  header : s.headerDepth = 0 ∨ 1 ≤ s.headerDepth ∧ s.headerDepth ≤ s.depth .paren
  skips_pos : ∀ d ∈ s.skips, 1 ≤ d
  skips_top : ∀ d ∈ s.skips.head?, d ≤ s.depth .brace
  closures_top : ∀ c ∈ s.closures.head?, c.2 ≤ s.depth .brace
  outside : s.depth .brace = 0 → s.skips = [] ∧ ∀ c ∈ s.closures.head?, c.2 = 0

theorem Nesting.depth_add (s : Nesting) : s.depth .paren + s.depth .bracket + s.depth .brace = s.stack.length := by
  rw [depth_eq_count, depth_eq_count, depth_eq_count]
  induction s.stack with
  | nil => rfl
  | cons d stack ih => cases d <;> simp <;> omega

theorem Nesting.settle_tops (s : Nesting) :
    (s.settle.headerDepth = 0 ∨ 1 ≤ s.settle.headerDepth ∧ s.settle.headerDepth ≤ s.settle.depth .paren) ∧
      (∀ d ∈ s.settle.skips.head?, d ≤ s.settle.depth .brace) ∧
      ∀ c ∈ s.settle.closures.head?, c.2 ≤ s.settle.depth .brace := by
  refine ⟨?_, ?_, ?_⟩
  · change (if s.depth .paren < s.headerDepth then 0 else s.headerDepth) = 0 ∨
      1 ≤ (if s.depth .paren < s.headerDepth then 0 else s.headerDepth) ∧
        (if s.depth .paren < s.headerDepth then 0 else s.headerDepth) ≤ s.depth .paren
    split <;> omega
  · intro d hd
    have htop := head?_dropWhile_not (fun d => decide (s.depth .brace < d)) s.skips
    have hhead : (s.skips.dropWhile fun d => decide (s.depth .brace < d)).head? = some d := hd
    rw [hhead] at htop
    exact Nat.le_of_not_lt (of_decide_eq_false htop)
  · intro c hc
    have htop := head?_dropWhile_not (fun c : Nat × Nat => decide (s.depth .brace < c.2)) s.closures
    have hhead : (s.closures.dropWhile fun c => decide (s.depth .brace < c.2)).head? = some c := hc
    rw [hhead] at htop
    exact Nat.le_of_not_lt (of_decide_eq_false htop)

theorem Nesting.inOrder_settle (hleaves : Leaves marks s.opened)
    (hmarks : marks.Pairwise fun a b => a.2 ≤ b.2) (hle : ∀ mark ∈ marks, mark.2 ≤ n)
    (htidy : s.settle.Tidy) : s.settle.InOrder marks n := by
  obtain ⟨hheader, hskips, hclosures⟩ := s.settle_tops
  have hlines (d : Delimiter) : ((s.settle.lines d).reverse).Sublist (marks.map Prod.snd) :=
    (linesOf_sublist s.opened d).reverse.trans hleaves.sublist
  refine ⟨hleaves.read_eq, fun d => (hleaves.unmatchedLines_eq d).symm, s.settle.depth_add, ?_, ?_,
    hheader, htidy.positive, hskips, hclosures, ?_⟩
  · intro d
    have hsorted : (marks.map Prod.snd).Pairwise (· ≤ ·) := pairwise_map.mpr hmarks
    exact pairwise_reverse.mp (hsorted.sublist (hlines d))
  · intro d k hk
    obtain ⟨mark, hmark, rfl⟩ := mem_map.mp ((hlines d).subset (mem_reverse.mpr hk))
    exact hle mark hmark
  · intro hdepth
    refine ⟨htidy.blocks hdepth, ?_⟩
    intro c hc
    have htop := hclosures c hc
    omega

/-! ### Every line of every text -/

theorem LineStep.exists_decided (v : LineStep) : ∃ absorbed edit decided, v.before.absorb v.line = .ok absorbed ∧
      LineRule.decide (contextOf v.before absorbed v.line v.rest) LineRule.all absorbed =
        (v.settled.rule, edit, decided) ∧ v.after = decided.settle := by
  obtain ⟨before, line, rest, settled, after, settles⟩ := v
  obtain ⟨absorbed, habsorb, hdecide⟩ := bind_eq_ok.mp settles
  cases hdecide
  exact ⟨absorbed, _, _, habsorb, rfl, rfl⟩

theorem Leaves.step {absorbed decided : Nesting} {rest : List Line} {rule : LineRule} {edit : Edit}
    (h : Leaves marks s.opened) (hl : WellMarked l.cells) (habsorb : s.absorb l = .ok absorbed)
    (hdecide : LineRule.decide (contextOf s absorbed l rest) LineRule.all absorbed =
      (rule, edit, decided)) : Leaves (marks ++ delimiterMarks [l]) decided.settle.opened := by
  have hopened := LineRule.opened_decide (contextOf s absorbed l rest) LineRule.all absorbed
  rw [hdecide] at hopened
  have habsorbed := h.absorb hl habsorb
  rwa [← hopened] at habsorbed

theorem Settles.leaves {last : Nesting} {edits : Edits}
    (h : Settles s lines edits last) (hmarked : ∀ l ∈ lines, WellMarked l.cells)
    (hs : Leaves marks s.opened) : Leaves (marks ++ delimiterMarks lines) last.opened := by
  induction h generalizing marks with
  | nil => simpa [delimiterMarks, readLines] using hs
  | @cons s absorbed decided last l rest rule edit edits habsorb hdecide _ ih =>
    have hl := hs.step (hmarked l (by simp)) habsorb hdecide
    have hrest := ih (fun x hx => hmarked x (mem_cons_of_mem _ hx)) hl
    rwa [append_assoc, ← delimiterMarks_append, singleton_append] at hrest

theorem inOrder_of_lineSteps {s last : ScanState} (hlines : Scanned n s lines last) {k : Nat}
    {v : LineStep} (hv : (lineSteps {} lines)[k]? = some v) :
    v.after.InOrder (delimiterMarks (((lineSteps {} lines).take (k + 1)).map (·.line))) v.line.number := by
  have hstart : Leaves (delimiterMarks []) ({} : Nesting).opened ∧ ({} : Nesting).Tidy :=
    ⟨.nil, by simp, fun _ => rfl, fun _ => rfl⟩
  have hstep : ∀ past (v : LineStep), lines = past ++ v.line :: v.rest →
      Leaves (delimiterMarks past) v.before.opened ∧ v.before.Tidy →
      Leaves (delimiterMarks (past ++ [v.line])) v.after.opened ∧ v.after.Tidy := by
    rintro past v hsplit ⟨hleaves, htidy⟩
    have hmarked : WellMarked v.line.cells := hlines.wellMarked v.line (by simp [hsplit])
    obtain ⟨absorbed, edit, decided, habsorb, hdecide, hafter⟩ := v.exists_decided
    rw [delimiterMarks_append, hafter]
    exact ⟨hleaves.step hmarked habsorb hdecide, htidy.step hmarked habsorb hdecide⟩
  -- The order of the line numbers belongs to the text and not to the steps: it enters at the end.
  obtain ⟨hsplit, hleaves, htidy⟩ := lineSteps_induction
    (P := fun past s => Leaves (delimiterMarks past) s.opened ∧ s.Tidy) hstep
    (nil_append lines).symm hstart hv
  have htake : ((lineSteps {} lines).take (k + 1)).map (·.line) =
      ((lineSteps {} lines).take k).map (·.line) ++ [v.line] := by
    rw [take_add_one, hv, map_append]
    rfl
  rw [nil_append, htake] at hleaves
  rw [nil_append] at hsplit
  obtain ⟨-, -, decided, -, -, hafter⟩ := v.exists_decided
  rw [hafter] at hleaves htidy ⊢
  rw [htake]
  generalize ((lineSteps {} lines).take k).map (·.line) = past at hsplit hleaves ⊢
  have hread : (past ++ [v.line]).Pairwise fun a b => a.number ≤ b.number := by
    have hnumbers := hlines.numbers.2
    rw [hsplit, ← singleton_append, ← append_assoc] at hnumbers
    exact (pairwise_append.mp hnumbers).1
  refine Nesting.inOrder_settle hleaves (pairwise_delimiterMarks hread) ?_ htidy
  intro mark hmark
  obtain ⟨l, hl, hnumber⟩ := exists_of_mem_delimiterMarks hmark
  rw [hnumber]
  rcases mem_append.mp hl with hl | hl
  · exact (pairwise_append.mp hread).2.2 l hl v.line (by simp)
  · rw [mem_singleton.mp hl]

/-! ### What is reported at the end -/

theorem scanCells_error {s : ScanState} (h : scanCells n s cs = .error e) : e = .openString n := by
  fun_induction scanCells n s cs <;> grind [markedBefore, map_eq_error]

theorem scanFrom_error {s : ScanState} {ps : List (Chars × Ending)}
    (h : scanFrom n s ps = .error e) : ∃ k, e = .openString k := by
  induction ps generalizing n s with
  | nil => cases h
  | cons p ps ih =>
    obtain ⟨body, ending⟩ := p
    rcases bind_eq_error.mp h with hcells | ⟨q, -, h⟩
    · exact ⟨n, scanCells_error hcells⟩
    · rcases bind_eq_error.mp h with hrest | ⟨r, -, h⟩
      · exact ih hrest
      · cases h

theorem openedAfter_error (h : Nesting.openedAfter n opened cs = .error e) : ∃ d, e = .unmatched d n := by
  fun_induction Nesting.openedAfter n opened cs <;> grind

theorem settleLine_error {rest : List Line} (h : settleLine s l rest = .error e) : ∃ d, e = .unmatched d l.number := by
  rcases bind_eq_error.mp h with habsorb | ⟨absorbed, -, h⟩
  · cases hbody : l.isStringBody with
    | true => simp [Nesting.absorb, hbody] at habsorb
    | false =>
      simp only [Nesting.absorb, hbody, Bool.false_eq_true, if_false] at habsorb
      exact openedAfter_error (map_eq_error.mp habsorb)
  · cases h

theorem settleLines_error (h : settleLines s lines = .error e) : ∃ d k, e = .unmatched d k := by
  induction lines generalizing s with
  | nil => cases h
  | cons l rest ih =>
    rcases bind_eq_error.mp h with hl | ⟨p, -, h⟩
    · obtain ⟨d, rfl⟩ := settleLine_error hl
      exact ⟨d, l.number, rfl⟩
    · rcases bind_eq_error.mp h with hrest | ⟨q, -, h⟩
      · exact ih hrest
      · cases h

theorem openConstruct?_of_normalize {t : Chars} {c : Construct} (h : normalize t = .error (.unterminated c n)) :
    ∃ lines scan edits last, scanLines t = .ok (lines, scan) ∧ Settles {} lines edits last ∧
      openConstruct? scan last = some (.unterminated c n) := by
  rcases bind_eq_error.mp (map_eq_error.mp h) with hscan | ⟨⟨lines, scan⟩, hscan, h⟩
  · obtain ⟨k, hk⟩ := scanFrom_error hscan
    cases hk
  · rcases bind_eq_error.mp h with hsettle | ⟨⟨settled, last⟩, hsettle, h⟩
    · obtain ⟨d, k, hk⟩ := settleLines_error hsettle
      cases hk
    · obtain ⟨edits, hsettles, -⟩ := settleLines_eq_ok_iff.mp hsettle
      refine ⟨lines, scan, edits, last, hscan, hsettles, ?_⟩
      cases hopen : openConstruct? scan last with
      | none =>
        simp only [hopen] at h
        cases h
      | some fault =>
        simp only [hopen] at h
        cases h
        rfl

theorem head?_lines_of_openConstruct? {scan : ScanState}
    (h : openConstruct? scan s = some (.unterminated (.delimited d) n)) : (s.lines d).head? = some n := by
  rw [openConstruct?] at h
  split at h
  · cases h
  · cases h
  · simp only [Option.orElse_eq_orElse, Option.orElse_eq_or, Option.or_eq_some_iff, Option.map_eq_some_iff] at h
    grind

/-- After every line of a text the state is in order. A delimiter that is open at the end is reported
with the line at which counting backwards over all lines finds the innermost one of its kind. -/
theorem nesting_inOrder (t : Chars) : (∀ (k : Nat) (v : LineStep), (stepsOf t)[k]? = some v →
      v.after.InOrder (delimiterMarks (((stepsOf t).take (k + 1)).map (·.line))) v.line.number) ∧
    ∀ d n, normalize t = .error (.unterminated (.delimited d) n) →
      ∃ scan, scanLines t = .ok ((stepsOf t).map (·.line), scan) ∧
        (unmatchedLines d 0 (delimiterMarks ((stepsOf t).map (·.line))).reverse).head? = some n := by
  refine ⟨?_, ?_⟩
  · intro k v hv
    cases hscan : scanLines t with
    | error e => simp [stepsOf, hscan] at hv
    | ok p =>
      obtain ⟨lines, scan⟩ := p
      have hsteps : stepsOf t = lineSteps {} lines := by simp only [stepsOf, hscan]
      rw [hsteps] at hv ⊢
      exact inOrder_of_lineSteps (scanLines_eq_ok_iff.mp hscan).1 hv
  · intro d n h
    obtain ⟨lines, scan, edits, last, hscan, hsettles, hopen⟩ := openConstruct?_of_normalize h
    have hlines : (stepsOf t).map (·.line) = lines := by simpa only [stepsOf, hscan] using hsettles.steps.1
    have hleaves : Leaves (delimiterMarks lines) last.opened := by
      have hmarked := (scanLines_eq_ok_iff.mp hscan).1.wellMarked
      have hnone : Leaves [] ({} : Nesting).opened := .nil
      simpa using hsettles.leaves hmarked hnone
    rw [hlines]
    refine ⟨scan, hscan, ?_⟩
    rw [hleaves.unmatchedLines_eq]
    exact head?_lines_of_openConstruct? hopen

def openCall : Chars := "if (a) \x7b\n  f(x,\n    [1,\n    2],\n".toList

/-- A block, a call in it and a list that the call closes again: the call is left open on line 2. -/
theorem nesting_inOrder_open_call :
    normalize openCall =
        .error (.unterminated (.delimited .paren) 2) ∧ (unmatchedLines .paren 0 (delimiterMarks
        ((stepsOf openCall).map (·.line))).reverse).head? = some 2 ∧
      ∃ v : LineStep, (stepsOf openCall)[2]? = some v ∧
        v.after.stack = [.bracket, .paren, .brace] ∧ v.after.InOrder (delimiterMarks
          (((stepsOf openCall).take 3).map (·.line))) 3 := by
  have herror : normalize openCall =
      .error (.unterminated (.delimited .paren) 2) := by decide +kernel
  have hthird : Option.map (fun v : LineStep => (v.line.number, v.after.stack))
      (stepsOf openCall)[2]? = some (3, [.bracket, .paren, .brace]) := by decide +kernel
  obtain ⟨v, hv, hthis⟩ := Option.map_eq_some_iff.mp hthird
  obtain ⟨hnumber, hstack⟩ := Prod.mk.inj hthis
  have hinOrder := (nesting_inOrder _).1 2 v hv
  rw [hnumber] at hinOrder
  obtain ⟨-, -, hhead⟩ := (nesting_inOrder _).2 .paren 2 herror
  exact ⟨herror, hhead, v, hv, hstack, hinOrder⟩

end GroovySharp.Source
