import GroovySharp.Proofs.Decision
import GroovySharp.Proofs.Run

/-!
# Scanning a normalized text

Semicolons go to open places only, so a normalized text splits into as many lines as the text it comes
from, and its lines scan as the edited lines.
-/

namespace GroovySharp.Source

open Text List

/-! ### Edited lines -/

namespace Line

variable {l l' : Line} {s s' : ScanState}

theorem scans_gains (h : Scans n s l.text l.cells s') (hs : s'.inString = false)
    (hg : l.Gains l') : Scans n s l'.text l'.cells s' := by
  have hcode {l : Line} (h : Scans n s l.text l.cells s') (hne : l.codeEnd ≠ 0) :
      Scans n s (l.put l.codeEnd).text (l.put l.codeEnd).cells s' :=
    scans_put h (by omega) l.codeEnd_le_length (l.openPlace_codeEnd hs)
  have hblock (hb : isBlank (blockContent l.code) = false) :
      Scans n s (l.put (blockStop l.code)).text (l.put (blockStop l.code)).cells s' := by
    refine scans_put h ?_ ?_ (openPlace_blockStop h.wellMarked hb _)
    · rw [blockStop]
      omega
    · exact (blockStop_lt_codeEnd hb).le.trans l.codeEnd_le_length
  cases hg with
  | nothing => exact h
  | code hne => exact hcode h hne
  | block hb => exact hblock hb
  | both hb =>
    have hend := codeEnd_put l (blockStop_lt_codeEnd hb).le
    rw [← hend]
    exact hcode (hblock hb) (by omega)

theorem ScansFrom.edited (h : l.ScansFrom s s') {e : Edit} (he : l.endsInString = true → e = .keep) :
    (l.edited e).ScansFrom s s' := by
  cases hs : s'.inString with
  | true =>
    rw [he (h.ends.trans hs)]
    exact h
  | false =>
    refine ⟨?_, ?_, ?_⟩
    · rw [number_edited]
      exact scans_gains h.scans hs (l.gains_edited e)
    · rw [startsInString_edited, h.starts]
    · rw [endsInString_edited, h.ends]

theorem standsBefore_put {rest : List (Chars × Ending)} (h : StandsBefore rest l.text l.ending)
    (k : Nat) : StandsBefore rest (l.put k).text (l.put k).ending := by
  have hsplit := take_append_drop k l.text
  rw [text_put, insertAt]
  refine ⟨?_, ?_, ?_⟩
  · intro hmem
    have hparts : '\n' ∈ l.text.take k ∨ '\n' ∈ l.text.drop k := by simpa using hmem
    rcases hparts with hmem | hmem
    · exact h.no_feed (mem_of_mem_take hmem)
    · exact h.no_feed (mem_of_mem_drop hmem)
  · intro hlf
    have hlast := h.no_return hlf
    cases hdrop : l.text.drop k with
    | nil => simp
    | cons c cs =>
      rw [← hsplit, hdrop] at hlast
      simpa using hlast
  · intro hnone
    exact ⟨(h.last hnone).1, by simp⟩

theorem standsBefore_edited {rest rest' : List (Chars × Ending)}
    (h : StandsBefore rest l.text l.ending) (hrest : rest = [] → rest' = []) (e : Edit) :
    StandsBefore rest' (l.edited e).text (l.edited e).ending := by
  have hedited : StandsBefore rest (l.edited e).text (l.edited e).ending :=
    edited_induction (P := fun l' => StandsBefore rest l'.text l'.ending) h (fun _ k h' => standsBefore_put h' k) e
  refine ⟨hedited.no_feed, hedited.no_return, fun hnone => ?_⟩
  obtain ⟨hnil, hne⟩ := hedited.last hnone
  exact ⟨hrest hnil, hne⟩

end Line

/-! ### Edited texts -/

variable {lines : List Line} {n : Nat} {s : ScanState} {edits : Edits}

theorem properLines_edited (h : ProperLines (lines.map Line.source))
    (edits : Edits) : ProperLines ((editedLines lines edits).map Line.source) := by
  induction lines generalizing edits with
  | nil => exact trivial
  | cons l lines ih =>
    cases edits with
    | nil => exact trivial
    | cons d edits =>
      obtain ⟨hl, hlines⟩ := h
      refine ⟨Line.standsBefore_edited hl ?_ d.2, ih hlines edits⟩
      intro hnil
      rw [map_eq_nil_iff.mp hnil]
      rfl

theorem Scanned.edited {last : ScanState} (h : Scanned n s lines last) {st st' : Nesting}
    (hsettles : Settles st lines edits st') : Scanned n s (editedLines lines edits) last := by
  induction h generalizing st edits with
  | nil =>
    cases hsettles
    exact .nil
  | @cons s s' last l lines hl _ ih =>
    cases hsettles with
    | @cons _ absorbed decided _ _ _ rule edit edits habsorb hdecide hrest =>
      have hkeep : l.endsInString = true → edit = .keep := by
        intro hends
        have hctx : (contextOf st absorbed l lines).line.endsInString = true := hends
        have hedit := LineRule.decide_of_endsInString hctx absorbed
        rwa [hdecide] at hedit
      have hedited := Scanned.cons (hl.edited hkeep) (by rw [l.number_edited]; exact ih hrest)
      rwa [l.number_edited] at hedited

theorem scanLines_edited {t : Chars} {scan : ScanState} {last : Nesting}
    (hscan : scanLines t = .ok (lines, scan)) (hsettles : Settles {} lines edits last) :
    scanLines (joinBodies ((editedLines lines edits).map Line.source)) = .ok (editedLines lines edits, scan) := by
  obtain ⟨hlines, hsplit⟩ := scanLines_eq_ok_iff.mp hscan
  have hproper : ProperLines (lines.map Line.source) := hsplit ▸ properLines_splitLines t
  refine scanLines_eq_ok_iff.mpr ⟨hlines.edited hsettles, ?_⟩
  exact splitLines_joinBodies _ (properLines_edited hproper edits)

/-! ### What a normalized text keeps -/

/-- The second list is the first with at most two semicolons of code put in, each right after a
character of code or after the delimiter that closes a string. -/
def CellsExtend (cells cells' : List Cell) : Prop :=
  ∃ parts : List (List Cell), parts.length ≤ 3 ∧ cells = parts.flatten ∧ cells' = [semicolon].intercalate parts ∧
    ∀ part ∈ parts.dropLast, ∃ c ∈ part.getLast?, c.carriesCode = true ∧ c.mark ≠ .content

/-- The second line is the first with such semicolons. All other cells keep their characters and
marks, and the line stands where it stood. -/
structure Line.Extends (l l' : Line) : Prop where
  number : l'.number = l.number
  ending : l'.ending = l.ending
  starts : l'.startsInString = l.startsInString
  ends : l'.endsInString = l.endsInString
  cells : CellsExtend l.cells l'.cells

theorem cellsExtend_one {s' : ScanState} {cs : Chars} {a b : List Cell}
    (h : Scans n s cs (a ++ semicolon :: b) s') (ha : ∃ c ∈ a.getLast?, c.carriesCode = true) :
    CellsExtend (a ++ b) (a ++ semicolon :: b) := by
  obtain ⟨c, hc, hcode⟩ := ha
  have hmark := h.not_content_before_code rfl rfl c hc
  refine ⟨[a, b], by simp, by simp, by simp [intercalate], ?_⟩
  intro part hpart
  obtain rfl : part = a := by simpa using hpart
  exact ⟨c, hc, hcode, hmark⟩

theorem cellsExtend_two {s' : ScanState} {cs : Chars} {a b d : List Cell}
    (h : Scans n s cs (a ++ semicolon :: (b ++ semicolon :: d)) s')
    (ha : ∃ c ∈ a.getLast?, c.carriesCode = true) (hb : ∃ c ∈ b.getLast?, c.carriesCode = true) :
    CellsExtend (a ++ (b ++ d)) (a ++ semicolon :: (b ++ semicolon :: d)) := by
  obtain ⟨c, hc, hcode⟩ := ha
  have hmark := h.not_content_before_code rfl rfl c hc
  obtain ⟨c', hc', hcode'⟩ := hb
  have hmark' : c'.mark ≠ .content := by
    have hsplit : a ++ semicolon :: (b ++ semicolon :: d) = (a ++ semicolon :: b) ++ semicolon :: d := by simp
    refine h.not_content_before_code hsplit rfl c' ?_
    simp [getLast?_append, getLast?_cons, Option.mem_def.mp hc']
  refine ⟨[a, b, d], by simp, by simp, by simp [intercalate], ?_⟩
  intro part hpart
  have hparts : part = a ∨ part = b := by simpa using hpart
  rcases hparts with rfl | rfl
  · exact ⟨c, hc, hcode, hmark⟩
  · exact ⟨c', hc', hcode', hmark'⟩

namespace Line

theorem put_put (l : Line) {j k : Nat} (hjk : j ≤ k) (hk : k ≤ l.cells.length) : ((l.put j).put (k + 1)).cells =
      l.cells.take j ++ semicolon :: ((l.cells.drop j).take (k - j) ++ semicolon :: l.cells.drop k) := by
  have hlen : (l.cells.take j).length = j := by
    rw [length_take]
    omega
  have hstep : k + 1 - j = k - j + 1 := by omega
  have htake : (l.put j).cells.take (k + 1) = l.cells.take j ++ semicolon :: (l.cells.drop j).take (k - j) := by
    rw [put, take_append, hlen, hstep, take_succ_cons, take_of_length_le (by omega)]
  have hdrop : (l.put j).cells.drop (k + 1) = l.cells.drop k := by
    have hsum : j + (k - j) = k := by omega
    rw [put, drop_append, hlen, hstep, drop_succ_cons, drop_drop, hsum, drop_eq_nil_of_le (by omega), nil_append]
  rw [put, htake, hdrop, append_assoc, cons_append]

theorem carriesCode_codeEnd {l : Line} (hne : l.codeEnd ≠ 0) : ∃ c ∈ l.codeCells.getLast?, c.carriesCode = true := by
  cases hlast : l.codeCells.getLast? with
  | none => exact absurd (l.codeEnd_eq_zero_iff.mpr hlast) hne
  | some c => exact ⟨c, rfl, l.code_spec.2.1 c hlast⟩

theorem carriesCode_after_block {l : Line} (hb : isBlank (blockContent l.code) = false) :
    ∃ c ∈ ((l.cells.drop (blockStop l.code)).take (l.codeEnd - blockStop l.code)).getLast?, c.carriesCode = true := by
  have hlt := blockStop_lt_codeEnd hb
  obtain ⟨c, hc, hcode⟩ := carriesCode_codeEnd (l := l) (by omega)
  refine ⟨c, ?_, hcode⟩
  rw [← drop_take, ← codeCells, getLast?_drop, if_neg]
  · exact hc
  · rw [length_codeCells]
    omega

theorem Gains.cellsExtend {l l' : Line} {s s' : ScanState} (hg : l.Gains l')
    (h : Scans n s l'.text l'.cells s') : CellsExtend l.cells l'.cells := by
  cases hg with
  | nothing => exact ⟨[l.cells], by simp, by simp, by simp [intercalate], by simp⟩
  | code hne =>
    have hone := cellsExtend_one h (carriesCode_codeEnd hne)
    rwa [take_append_drop] at hone
  | block hb =>
    have hone := cellsExtend_one h (carriesCode_blockStop hb)
    rwa [take_append_drop] at hone
  | both hb =>
    have hlt := blockStop_lt_codeEnd hb
    have hcells := l.put_put hlt.le l.codeEnd_le_length
    rw [hcells] at h ⊢
    have htwo := cellsExtend_two h (carriesCode_blockStop hb) (carriesCode_after_block hb)
    have hdrop : l.cells.drop l.codeEnd = (l.cells.drop (blockStop l.code)).drop (l.codeEnd - blockStop l.code) := by
      have hsum : blockStop l.code + (l.codeEnd - blockStop l.code) = l.codeEnd := by omega
      rw [drop_drop, hsum]
    rw [hdrop, take_append_drop, take_append_drop, ← hdrop] at htwo
    exact htwo

theorem ScansFrom.extends_edited {l : Line} {s s' : ScanState} {e : Edit}
    (h : (l.edited e).ScansFrom s s') : l.Extends (l.edited e) :=
  ⟨l.number_edited e, l.ending_edited e, l.startsInString_edited e, l.endsInString_edited e,
    (l.gains_edited e).cellsExtend h.scans⟩

end Line

theorem Scanned.forall₂_extends {last : ScanState} (hlen : edits.length = lines.length)
    (h : Scanned n s (editedLines lines edits) last) : List.Forall₂ Line.Extends lines (editedLines lines edits) := by
  induction lines generalizing n s edits with
  | nil => exact .nil
  | cons l lines ih =>
    cases edits with
    | nil => simp at hlen
    | cons d edits =>
      rw [editedLines_cons] at h ⊢
      cases h with
      | cons hl hlines => exact .cons hl.extends_edited (ih (by simpa using hlen) hlines)

/-- A normalized text has the lines of the text it comes from, with the same endings. It scans to the
same state, and each of its lines is the line of the text with at most two semicolons of code more, so
comments and strings survive. -/
theorem normalize_extends {t u : Chars} (h : normalize t = .ok u) : ∃ lines lines' scan,
      scanLines t = .ok (lines, scan) ∧ splitLines t = lines.map Line.source ∧
      scanLines u = .ok (lines', scan) ∧ splitLines u = lines'.map Line.source ∧
      List.Forall₂ Line.Extends lines lines' := by
  obtain ⟨lines, scan, edits, last, hscan, hsettles, -, rfl⟩ := normalize_eq_ok_iff.mp h
  have hscan' := scanLines_edited hscan hsettles
  obtain ⟨-, hsplit⟩ := scanLines_eq_ok_iff.mp hscan
  obtain ⟨hlines', hsplit'⟩ := scanLines_eq_ok_iff.mp hscan'
  exact ⟨lines, editedLines lines edits, scan, hscan, hsplit, hscan', hsplit',
    hlines'.forall₂_extends hsettles.length_eq⟩

theorem normalize_eq_ok_of_toOption {t u : Chars} (h : (normalize t).toOption = some u) : normalize t = .ok u := by
  cases hn : normalize t with
  | error e => simp [hn, Except.toOption] at h
  | ok v => simpa [hn, Except.toOption] using h

def blockAndString : Chars := "a.b \x7b c \x7d // d\r\n'''\n;''' /* e */\n".toList

def blockAndStringEnded : Chars := "a.b \x7b c; \x7d; // d\r\n'''\n;'''; /* e */\n".toList

/-- A block before a comment, and a string over two lines with a comment after it. -/
theorem normalize_extends_block_and_string :
    normalize blockAndString = .ok blockAndStringEnded ∧
      ∃ lines lines' scan,
        scanLines blockAndString = .ok (lines, scan) ∧
        splitLines blockAndString =
          lines.map Line.source ∧
        scanLines blockAndStringEnded =
          .ok (lines', scan) ∧
        splitLines blockAndStringEnded =
          lines'.map Line.source ∧ List.Forall₂ Line.Extends lines lines' := by
  have h : normalize blockAndString = .ok blockAndStringEnded :=
    normalize_eq_ok_of_toOption (by decide +kernel)
  exact ⟨h, normalize_extends h⟩

end GroovySharp.Source
