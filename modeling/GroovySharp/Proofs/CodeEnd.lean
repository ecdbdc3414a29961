import GroovySharp.Proofs.Scanner
import GroovySharp.Proofs.Trim
import GroovySharp.Source.Normalize

/-!
# Where the code of a line ends

The code of a line is its longest start that ends with a cell of code.
-/

namespace GroovySharp.Source

open Text List

/-! ### The last cell that counts -/

theorem lastEnd_append {p : Cell → Bool} {a b : List Cell}
    (ha : ∀ c ∈ a.getLast?, p c = true) (hb : ∀ c ∈ b, p c = false) : lastEnd p (a ++ b) = a.length := by
  have hdrop : (b.reverse.dropWhile fun c => !p c) = [] := by simpa [dropWhile_eq_nil_iff] using hb
  unfold lastEnd
  rw [reverse_append, dropWhile_append, hdrop]
  simp only [isEmpty_nil, if_true]
  cases ha' : a.reverse with
  | nil => simp [reverse_eq_nil_iff.mp ha']
  | cons c r =>
    have hc : p c = true := ha c (by simp [getLast?_eq_head?_reverse, ha'])
    rw [dropWhile_cons_of_neg (by simp [hc]), ← ha', length_reverse]

theorem lastEnd_split (p : Cell → Bool) (cells : List Cell) :
    ∃ a b, cells = a ++ b ∧ lastEnd p cells = a.length ∧ (∀ c ∈ a.getLast?, p c = true) ∧ ∀ c ∈ b, p c = false := by
  have hsplit : cells = (cells.reverse.dropWhile fun c => !p c).reverse ++
      (cells.reverse.takeWhile fun c => !p c).reverse := by
    rw [← reverse_append, takeWhile_append_dropWhile, reverse_reverse]
  refine ⟨_, _, hsplit, ?_, ?_, ?_⟩
  · simp [lastEnd]
  · intro c hc
    rw [getLast?_reverse] at hc
    have hhead := head?_dropWhile_not (fun c => !p c) cells.reverse
    rw [Option.mem_def.mp hc] at hhead
    simpa using hhead
  · intro c hc
    simpa using (all_eq_true.mp (all_takeWhile (p := fun c => !p c) (l := cells.reverse)) c (mem_reverse.mp hc))

/-! ### Code and what follows it -/

namespace Line

def codeCells (l : Line) : List Cell := l.cells.take l.codeEnd

def restCells (l : Line) : List Cell := l.cells.drop l.codeEnd

theorem codeCells_append (l : Line) : l.codeCells ++ l.restCells = l.cells :=
  take_append_drop _ _

theorem code_spec (l : Line) : l.codeCells.length = l.codeEnd ∧ (∀ c ∈ l.codeCells.getLast?, c.carriesCode = true) ∧
      ∀ c ∈ l.restCells, c.carriesCode = false := by
  obtain ⟨a, b, hab, hlen, ha, hb⟩ := lastEnd_split Cell.carriesCode l.cells
  have hend : l.codeEnd = a.length := hlen
  have hcode : l.codeCells = a := by rw [codeCells, hend, hab, take_left']; rfl
  have hrest : l.restCells = b := by rw [restCells, hend, hab, drop_left']; rfl
  rw [hcode, hrest]
  exact ⟨hend.symm, ha, hb⟩

theorem length_codeCells (l : Line) : l.codeCells.length = l.codeEnd := l.code_spec.1

theorem codeEnd_eq_length {l : Line} {a b : List Cell} (hab : l.cells = a ++ b)
    (ha : ∀ c ∈ a.getLast?, c.carriesCode = true) (hb : ∀ c ∈ b, c.carriesCode = false) : l.codeEnd = a.length := by
  rw [codeEnd, hab, lastEnd_append ha hb]

theorem codeEnd_le_length (l : Line) : l.codeEnd ≤ l.cells.length := by
  have h := congrArg List.length l.codeCells_append
  rw [length_append, length_codeCells] at h
  omega

theorem masked_take_codeEnd (l : Line) : l.masked.take l.codeEnd = l.codeCells.map Cell.masked := by
  rw [masked, codeCells, map_take]

end Line

/-! ### Masks -/

def WellMarked (cells : List Cell) : Prop :=
  ∀ c ∈ cells, c.mark = .quote ∨ c.mark = .close → ∃ q : Quote, c.char = q.char

variable {cells : List Cell} {c : Cell}

theorem Scans.wellMarked {n : Nat} {s s' : ScanState} {cs : Chars} (h : Scans n s cs cells s') :
    WellMarked cells := fun _ hc hm => h.quote_char hc hm

theorem Quote.not_space (q : Quote) : Unicode.isSpace q.char = false := by cases q <;> decide

theorem Quote.char_ne_brace (q : Quote) : q.char ≠ '\x7d' := by cases q <;> decide

theorem WellMarked.code_or_comment (h : WellMarked cells) (hc : c ∈ cells)
    (hm : Unicode.isSpace c.masked = true ∨ c.masked = '\x7d') : c.mark = .code ∨ c.mark = .comment := by
  have hquote (hq : c.mark = .quote ∨ c.mark = .close) (hmask : c.masked = c.char) : False := by
    obtain ⟨q, hq⟩ := h c hc hq
    rw [hmask, hq] at hm
    rcases hm with hm | hm
    · rw [q.not_space] at hm
      cases hm
    · exact q.char_ne_brace hm
  cases hmark : c.mark with
  | code => exact .inl rfl
  | comment => exact .inr rfl
  | content =>
    have hmask : c.masked = '_' := by simp [Cell.masked, hmark]
    rw [hmask] at hm
    revert hm
    decide
  | quote => exact (hquote (.inl hmark) (by simp [Cell.masked, hmark])).elim
  | close => exact (hquote (.inr hmark) (by simp [Cell.masked, hmark])).elim

theorem WellMarked.masked_not_space (h : WellMarked cells) (hc : c ∈ cells)
    (hcode : c.carriesCode = true) : Unicode.isSpace c.masked = false := by
  cases hmark : c.mark with
  | code =>
    simp only [Cell.carriesCode, hmark, Bool.not_eq_true'] at hcode
    simpa [Cell.masked, hmark] using hcode
  | comment => simp [Cell.carriesCode, hmark] at hcode
  | content =>
    have hmask : c.masked = '_' := by simp [Cell.masked, hmark]
    rw [hmask]
    decide
  | quote =>
    obtain ⟨q, hq⟩ := h c hc (.inl hmark)
    simp [Cell.masked, hmark, hq, q.not_space]
  | close =>
    obtain ⟨q, hq⟩ := h c hc (.inr hmark)
    simp [Cell.masked, hmark, hq, q.not_space]

theorem Cell.not_comment_of_not_space (h : Unicode.isSpace c.masked = false) : c.mark ≠ .comment := by
  intro hm
  have hmask : c.masked = ' ' := by simp [Cell.masked, hm]
  rw [hmask] at h
  revert h
  decide

theorem Cell.carriesCode_of_not_space (h : Unicode.isSpace c.masked = false) : c.carriesCode = true := by
  cases hmark : c.mark with
  | code => simpa [Cell.carriesCode, Cell.masked, hmark] using h
  | comment => exact absurd hmark (Cell.not_comment_of_not_space h)
  | content | quote | close => simp [Cell.carriesCode, hmark]

theorem Cell.masked_space (h : c.carriesCode = false) : Unicode.isSpace c.masked = true := by
  rw [← Bool.not_eq_false]
  intro hspace
  rw [Cell.carriesCode_of_not_space hspace] at h
  cases h

namespace Line

theorem getLast?_masked_code (l : Line) (h : WellMarked l.cells) :
    ∀ c ∈ (l.codeCells.map Cell.masked).getLast?, Unicode.isSpace c = false := by
  intro c hc
  rw [getLast?_map] at hc
  obtain ⟨d, hd, rfl⟩ := Option.map_eq_some_iff.mp hc
  have hmem : d ∈ l.cells := mem_of_mem_take (mem_of_getLast? hd)
  exact h.masked_not_space hmem (l.code_spec.2.1 d hd)

theorem core_eq (l : Line) (h : WellMarked l.cells) : l.core = trimStart (l.codeCells.map Cell.masked) := by
  rw [core, masked_take_codeEnd]
  cases hlast : (l.codeCells.map Cell.masked).getLast? with
  | none =>
    rw [getLast?_eq_none_iff] at hlast
    rw [hlast]
    rfl
  | some c => exact trim_of_last hlast (l.getLast?_masked_code h c hlast)

end Line

end GroovySharp.Source
