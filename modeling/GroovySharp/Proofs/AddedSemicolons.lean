import GroovySharp.Proofs.Rescan
import GroovySharp.Proofs.SpacedText

/-!
# Where normalization puts semicolons

Normalizing adds nothing but semicolons.
-/

namespace GroovySharp.Source

open Text Unicode Grammar List

/-! ### Texts with semicolons added -/

/-- The second text is the first with semicolons added, each behind a character and at a cut. -/
inductive Pads : Chars → Chars → Prop
  | nil : Pads [] []
  | keep {c : Char} {r r' : Chars} (h : Pads r r') : Pads (c :: r) (c :: r')
  | put {c : Char} {r r' : Chars} (hcut : Cut r) (h : Pads r r') : Pads (c :: r) (c :: ';' :: r')

variable {r r' cs : Chars} {n : Nat} {s s' : ScanState} {cells : List Cell} {c : Cell}

theorem Pads.append_left (h : Pads r r') (w : Chars) : Pads (w ++ r) (w ++ r') := by
  induction w with
  | nil => exact h
  | cons c w ih => exact .keep ih

theorem Pads.put_behind {w : Chars} (h : Pads r r') (hcut : Cut r) (hw : w ≠ []) :
    Pads (w ++ r) (w ++ ';' :: r') := by
  induction w with
  | nil => exact absurd rfl hw
  | cons c w ih =>
    cases w with
    | nil => exact .put hcut h
    | cons d w => exact .keep (ih (cons_ne_nil d w))

/-- The offsets at which the second text has one character more than the first, which starts at the
offset `n`. -/
def added (n : Nat) : Chars → Chars → List Nat
  | [], r' => r'.map fun _ => n
  | _ :: _, [] => []
  | c :: r, d :: r' => if d = c then added (n + 1) r r' else n :: added n (c :: r) r'

theorem added_put (n : Nat) (hcut : Cut r) : added n r (';' :: r') = n :: added n r r' := by
  cases r with
  | nil => simp [added]
  | cons c r =>
    have hc : ';' ≠ c := by
      rintro rfl
      exact absurd (hcut.head ';' rfl) (by decide)
    rw [added, if_neg hc]

theorem Pads.lt_of_mem_added (h : Pads r r') {k : Nat} (hk : k ∈ added n r r') : n < k := by
  induction h generalizing n with
  | nil => simp [added] at hk
  | @keep c r r' _ ih =>
    rw [added, if_pos rfl] at hk
    have := ih hk
    omega
  | @put c r r' hcut _ ih =>
    rw [added, if_pos rfl, added_put _ hcut] at hk
    rcases mem_cons.mp hk with rfl | hk
    · omega
    · have := ih hk
      omega

theorem Pads.split {w x : Chars} (h : Pads (w ++ r) x) (hw : w ≠ [])
    (hadded : ∀ k ∈ added n (w ++ r) x, n + w.length ≤ k) : ∃ x', Pads r x' ∧
      (x = w ++ x' ∧ added n (w ++ r) x = added (n + w.length) r x' ∨ x = w ++ ';' :: x' ∧ Cut r ∧
          added n (w ++ r) x = (n + w.length) :: added (n + w.length) r x') := by
  induction w generalizing n x with
  | nil => exact absurd rfl hw
  | cons c w ih =>
    cases w with
    | nil =>
      cases h with
      | keep h => exact ⟨_, h, .inl ⟨rfl, by simp [added]⟩⟩
      | put hcut h =>
        refine ⟨_, h, .inr ⟨rfl, hcut, ?_⟩⟩
        rw [singleton_append, added, if_pos rfl]
        exact added_put _ hcut
    | cons d w =>
      have hlen : n + 1 + (d :: w).length = n + (c :: d :: w).length := by
        simp only [length_cons]
        omega
      cases h with
      | @keep _ _ x h =>
        have hstep : added n (c :: d :: w ++ r) (c :: x) = added (n + 1) (d :: w ++ r) x := by
          rw [cons_append, added, if_pos rfl]
        rw [hstep] at hadded ⊢
        rw [← hlen] at hadded ⊢
        obtain ⟨x', hx', hsplit⟩ := ih h (cons_ne_nil d w) hadded
        refine ⟨x', hx', ?_⟩
        rcases hsplit with ⟨rfl, hrest⟩ | ⟨rfl, hcut, hrest⟩
        · exact .inl ⟨rfl, hrest⟩
        · exact .inr ⟨rfl, hcut, hrest⟩
      | @put _ _ x hcut h =>
        have hmem : n + 1 ∈ added n (c :: d :: w ++ r) (c :: ';' :: x) := by
          rw [cons_append, added, if_pos rfl]
          exact added_put (n + 1) hcut ▸ mem_cons_self
        have hle := hadded _ hmem
        simp only [length_cons] at hle
        omega

/-! ### Cuts in a line -/

theorem Scans.slash_of_comment {d : Cell} (h : Scans n s cs (d :: cells) s')
    (hd : d.mark = .comment) (hs : s.mode ≠ .lineComment ∧ s.mode ≠ .blockComment) : d.char = '/' := by
  generalize hall : d :: cells = all at h
  cases h with
  | lineCommentDone | done => cases hall
  | @step _ s₁ _ w rest m more ht hr =>
    cases w with
    | nil => exact absurd rfl ht.ne_nil
    | cons c w =>
      simp only [map_cons, cons_append, cons.injEq] at hall
      obtain ⟨rfl, -⟩ := hall
      obtain rfl : m = .comment := hd
      cases ht with
      | inLineComment hmode => exact absurd hmode hs.1
      | blockCommentEnd hmode | inBlockComment hmode => exact absurd hmode hs.2
      | lineCommentStart | blockCommentStart => rfl

theorem Scans.comment_start {a b : List Cell} {d : Cell} (h : Scans n s cs cells s')
    (hab : cells = a ++ c :: d :: b) (hc : c.mark ≠ .comment) (hd : d.mark = .comment) : d.char = '/' := by
  induction h generalizing a with
  | lineCommentDone | done => simp at hab
  | @step s s₁ s' w rest m cells ht hr ih =>
    have hmark : ∀ x ∈ w.map (⟨·, m⟩), Cell.mark x = m := by
      intro x hx
      obtain ⟨y, -, rfl⟩ := mem_map.mp hx
      rfl
    have hstart (hcells : cells = d :: b) (hcw : c ∈ w.map (⟨·, m⟩)) : d.char = '/' := by
      refine (hcells ▸ hr).slash_of_comment hd ?_
      rw [← not_or]
      exact fun hmode => hc ((hmark c hcw).trans (ht.comment_of_mode hmode))
    rcases append_eq_append_iff.mp hab with ⟨a', rfl, hcells⟩ | ⟨x, hw, hcells⟩
    · exact ih hcells
    · cases x with
      | nil => exact ih (a := []) (by simpa using hcells.symm)
      | cons y x =>
        obtain ⟨rfl, hrest⟩ := cons.inj hcells
        have hcw : c ∈ w.map (⟨·, m⟩) := by simp [hw]
        cases x with
        | nil => exact hstart hrest.symm hcw
        | cons z x =>
          -- both cells belong to one step
          obtain ⟨rfl, -⟩ := cons.inj hrest
          have hdm := hmark d (by simp [hw])
          exact absurd ((hmark c hcw).trans (hdm.symm.trans hd)) hc

theorem cut_of_endsStatement {c : Char} (hc : endsStatement c = true)
    (hr : isLineBlank c = true → Cut r) : Cut (c :: r) := by
  intro d hd
  rw [dropWhile_cons] at hd
  cases hb : isLineBlank c with
  | true =>
    rw [hb, if_pos rfl] at hd
    exact hr hb d hd
  | false =>
    rw [hb, if_neg Bool.false_ne_true] at hd
    obtain rfl : c = d := Option.some.inj hd
    exact hc

theorem Cell.char_eq_masked (hs : c.mark ≠ .comment) (hu : c.masked ≠ '_') : c.char = c.masked := by
  unfold masked at hu ⊢
  split
  · simp_all
  · simp_all
  · rfl

theorem Scans.cut {a b : List Cell} (h : Scans n s cs cells s') (hab : cells = a ++ c :: b)
    (hc : c.mark ≠ .comment) {gap after tail : Chars} (hmask : b.map Cell.masked = gap ++ after)
    (hgap : ∀ x ∈ gap, isSpace x = true) (hafter : ∀ x ∈ after.head?, x = '\x7d')
    (htail : after = [] → Cut tail) : Cut (b.map (·.char) ++ tail) := by
  induction gap generalizing a b c with
  | nil =>
    cases b with
    | nil => exact htail (by simpa using hmask.symm)
    | cons d b =>
      have hd : d.masked = '\x7d' := by
        rw [nil_append, map_cons] at hmask
        exact hafter d.masked (by rw [← hmask]; rfl)
      have hmark : d.mark ≠ .comment := by
        intro hm
        simp [Cell.masked, hm] at hd
      have hchar := Cell.char_eq_masked hmark (by rw [hd]; decide)
      rw [hd] at hchar
      rw [map_cons, cons_append, hchar]
      exact cut_of_endsStatement (by decide) (fun hb => absurd hb (by decide))
  | cons x gap ih =>
    cases b with
    | nil => simp at hmask
    | cons d b =>
      obtain ⟨hd, hrest⟩ := cons.inj hmask
      have hspace : isSpace d.masked = true := hd ▸ hgap x mem_cons_self
      by_cases hm : d.mark = .comment
      · have hchar := h.comment_start hab hc hm
        rw [map_cons, cons_append, hchar]
        exact cut_of_endsStatement (by decide) (fun hb => absurd hb (by decide))
      · have hunder : d.masked ≠ '_' := by
          intro hu
          rw [hu] at hspace
          exact absurd hspace (by decide)
        have hchar := Cell.char_eq_masked hm hunder
        rw [map_cons, cons_append]
        refine cut_of_endsStatement (by simp [endsStatement, hchar, hspace]) fun _ => ?_
        refine ih (a := a ++ [c]) (by rw [hab]; simp) hm hrest ?_
        exact fun y hy => hgap y (mem_cons_of_mem x hy)

namespace Line

variable {l : Line} {s s' : ScanState}

theorem ScansFrom.cut (h : l.ScansFrom s s') {k : Nat}
    (hc : ∃ c ∈ (l.cells.take k).getLast?, c.carriesCode = true) {gap after tail : Chars}
    (hmask : (l.cells.drop k).map Cell.masked = gap ++ after) (hgap : ∀ x ∈ gap, isSpace x = true)
    (hafter : ∀ x ∈ after.head?, x = '\x7d') (htail : Cut tail) : Cut ((l.cells.drop k).map (·.char) ++ tail) := by
  obtain ⟨c, hc, hcode⟩ := hc
  obtain ⟨a, ha⟩ := getLast?_eq_some_iff.mp hc
  have hab : l.cells = a ++ c :: l.cells.drop k := by
    conv_lhs => rw [← take_append_drop k l.cells, ha]
    rw [append_assoc, singleton_append]
  refine h.scans.cut hab ?_ hmask hgap hafter fun _ => htail
  intro hm
  simp [Cell.carriesCode, hm] at hcode

theorem ScansFrom.cut_codeEnd (h : l.ScansFrom s s') (hne : l.codeEnd ≠ 0) {tail : Chars}
    (htail : Cut tail) : Cut ((l.cells.drop l.codeEnd).map (·.char) ++ tail) := by
  refine h.cut (carriesCode_codeEnd hne) (append_nil _).symm ?_ ?_ htail
  · intro x hx
    obtain ⟨d, hd, rfl⟩ := mem_map.mp hx
    exact Cell.masked_space (l.code_spec.2.2 d hd)
  · intro x hx
    cases hx

theorem ScansFrom.cut_blockStop (h : l.ScansFrom s s') (hb : isBlank (blockContent l.code) = false)
    {tail : Chars} (htail : Cut tail) : Cut ((l.cells.drop (blockStop l.code)).map (·.char) ++ tail) := by
  obtain ⟨gap, after, hmask, hgap⟩ := masked_drop_blockStop hb
  refine h.cut (carriesCode_blockStop hb) hmask hgap ?_ htail
  rintro x ⟨⟩
  rfl

theorem Gains.pads {l' : Line} (hg : l.Gains l') (h : l.ScansFrom s s') {tail tail' : Chars}
    (hcut : Cut tail) (hp : Pads tail tail') : Pads (l.text ++ tail) (l'.text ++ tail') := by
  have hne {cells : List Cell} (hc : ∃ c ∈ cells.getLast?, c.carriesCode = true) : cells.map (·.char) ≠ [] := by
    obtain ⟨c, hc, -⟩ := hc
    intro hnil
    rw [map_eq_nil_iff.mp hnil] at hc
    cases hc
  have hput {k : Nat} {x : Chars} (hc : ∃ c ∈ (l.cells.take k).getLast?, c.carriesCode = true)
      (hcut : Cut ((l.cells.drop k).map (·.char) ++ tail))
      (hx : Pads ((l.cells.drop k).map (·.char) ++ tail) x) :
      Pads (l.text ++ tail) ((l.cells.take k).map (·.char) ++ ';' :: x) := by
    have hsplit : l.text ++ tail = (l.cells.take k).map (·.char) ++ ((l.cells.drop k).map (·.char) ++ tail) := by
      rw [text, ← append_assoc, ← map_append, take_append_drop]
    rw [hsplit]
    exact hx.put_behind hcut (hne hc)
  cases hg with
  | nothing => exact hp.append_left l.text
  | code hcode =>
    have hone := hput (carriesCode_codeEnd hcode) (h.cut_codeEnd hcode hcut) (hp.append_left _)
    simpa [put, text, semicolon] using hone
  | block hb =>
    have hone := hput (carriesCode_blockStop hb) (h.cut_blockStop hb hcut) (hp.append_left _)
    simpa [put, text, semicolon] using hone
  | both hb =>
    have hlt := blockStop_lt_codeEnd hb
    have hsum : blockStop l.code + (l.codeEnd - blockStop l.code) = l.codeEnd := by omega
    have hdrop : l.cells.drop (blockStop l.code) =
        (l.cells.drop (blockStop l.code)).take (l.codeEnd - blockStop l.code) ++ l.cells.drop l.codeEnd := by
      conv_lhs => rw [← take_append_drop (l.codeEnd - blockStop l.code) (l.cells.drop (blockStop l.code))]
      rw [drop_drop, hsum]
    -- the semicolon after the code, seen from the end of the block
    have hend := (hp.append_left _).put_behind (h.cut_codeEnd (by omega) hcut) (hne (carriesCode_after_block hb))
    rw [← append_assoc, ← map_append, ← hdrop] at hend
    have htwo := hput (carriesCode_blockStop hb) (h.cut_blockStop hb hcut) hend
    rw [text, text, l.put_put hlt.le l.codeEnd_le_length]
    simpa [text, semicolon] using htwo

end Line

theorem cut_ending {ending : Ending} {rest : List (Chars × Ending)}
    (h : ending = .none → rest = []) : Cut (ending.chars ++ joinBodies rest) := by
  cases ending with
  | none =>
    rw [h rfl]
    intro c hc
    cases hc
  | lf | crlf => exact cut_of_endsStatement (by decide) (fun hb => absurd hb (by decide))

theorem Scanned.pads {last : ScanState} {lines : List Line} (h : Scanned n s lines last)
    (hproper : ProperLines (lines.map Line.source)) (edits : Edits)
    (hlen : edits.length = lines.length) : Pads (joinBodies (lines.map Line.source))
      (joinBodies ((editedLines lines edits).map Line.source)) := by
  induction h generalizing edits with
  | nil =>
    cases edits with
    | nil => exact .nil
    | cons d edits => cases hlen
  | @cons s s' last l lines hl hlines ih =>
    cases edits with
    | nil => cases hlen
    | cons d edits =>
      obtain ⟨hfirst, hrest⟩ := hproper
      have hpads := (ih hrest edits (Nat.succ.inj hlen)).append_left l.ending.chars
      have hcut := cut_ending fun he => (hfirst.last he).1
      have hline := (l.gains_edited d.2).pads hl hcut hpads
      rw [editedLines_cons, map_cons, map_cons, Line.source, Line.source, joinBodies_cons,
        joinBodies_cons, l.ending_edited]
      exact hline

theorem pads_of_normalize {t u : Chars} (h : normalize t = .ok u) : Pads t u := by
  obtain ⟨lines, scan, edits, last, hscan, hsettles, -, rfl⟩ := normalize_eq_ok_iff.mp h
  obtain ⟨hlines, hsplit⟩ := scanLines_eq_ok_iff.mp hscan
  have hproper : ProperLines (lines.map Line.source) := hsplit ▸ properLines_splitLines t
  have hpads := hlines.pads hproper edits hsettles.length_eq
  rwa [← hsplit, joinBodies_splitLines] at hpads

end GroovySharp.Source
