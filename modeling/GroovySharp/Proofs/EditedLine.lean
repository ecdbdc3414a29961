import GroovySharp.Proofs.CodeEnd
import GroovySharp.Proofs.InlineBlock

/-!
# Lines after an edit

An edit puts at most two semicolons into a line, both at open places.
-/

namespace GroovySharp.Source

open Text Unicode List

namespace Line

/-! ### One semicolon -/

def put (l : Line) (k : Nat) : Line :=
  { l with cells := l.cells.take k ++ semicolon :: l.cells.drop k }

theorem text_put (l : Line) (k : Nat) : (l.put k).text = insertAt k l.text := by
  simp [put, text, insertAt, semicolon, map_take, map_drop]

variable {k : Nat} {l : Line}

theorem put_split (l : Line) (hk : k ≤ l.codeEnd) :
    (l.put k).cells = (l.codeCells.take k ++ semicolon :: l.codeCells.drop k) ++ l.restCells := by
  have hlen := l.length_codeCells
  have htake : l.cells.take k = l.codeCells.take k := by rw [codeCells, take_take, Nat.min_eq_left hk]
  have hdrop : l.cells.drop k = l.codeCells.drop k ++ l.restCells := by
    rw [← l.codeCells_append, drop_append_of_le_length (by omega)]
  simp [put, htake, hdrop]

theorem codeEnd_put (l : Line) (hk : k ≤ l.codeEnd) : (l.put k).codeEnd = l.codeEnd + 1 := by
  have hlen := l.length_codeCells
  obtain ⟨-, hlast, hrest⟩ := l.code_spec
  rw [codeEnd_eq_length (l.put_split hk) ?_ hrest]
  · simp only [length_append, length_cons, length_take, length_drop]
    omega
  · intro c hc
    cases hd : l.codeCells.drop k with
    | nil =>
      rw [hd] at hc
      obtain rfl : c = semicolon := by simpa [eq_comm] using hc
      decide
    | cons d rest =>
      refine hlast c ?_
      rw [hd] at hc
      rw [← take_append_drop k l.codeCells, hd]
      simpa using hc

theorem codeCells_put (l : Line) (hk : k ≤ l.codeEnd) :
    (l.put k).codeCells = l.codeCells.take k ++ semicolon :: l.codeCells.drop k := by
  have hlen := l.length_codeCells
  rw [codeCells, codeEnd_put l hk, put_split l hk]
  refine take_left' ?_
  simp only [length_append, length_cons, length_take, length_drop]
  omega

theorem wellMarked_put (h : WellMarked l.cells) (k : Nat) : WellMarked (l.put k).cells := by
  intro c hc hm
  rcases mem_append.mp hc with hc | hc
  · exact h c (mem_of_mem_take hc) hm
  · rcases mem_cons.mp hc with rfl | hc
    · rcases hm with hm | hm <;> cases hm
    · exact h c (mem_of_mem_drop hc) hm

theorem scans_put {n : Nat} {s s' : ScanState} (h : Scans n s l.text l.cells s') (hk : 0 < k)
    (hkl : k ≤ l.cells.length) (hp : OpenPlace (l.cells.take k) (l.cells.drop k) s'.inString) :
    Scans n s (l.put k).text (l.put k).cells s' := by
  have hne : l.cells.take k ≠ [] := by
    intro hnil
    have := congrArg List.length hnil
    rw [length_take, length_nil] at this
    omega
  have hput := h.insert (take_append_drop k l.cells).symm (fun hnil => absurd hnil hne) hp
  have htext : (l.put k).text = (l.cells.take k).map (·.char) ++ ';' :: (l.cells.drop k).map (·.char) := by
    simp [put, text, semicolon]
  rw [htext]
  exact hput

/-! ### The end of the code -/

theorem openPlace_codeEnd (l : Line) {inString : Bool} (hs : inString = false) :
    OpenPlace (l.cells.take l.codeEnd) (l.cells.drop l.codeEnd) inString := by
  obtain ⟨hlen, hlast, hrest⟩ := l.code_spec
  refine ⟨?_, ?_, fun _ => hs⟩
  · intro c hc hm
    have hcode := hlast c hc
    simp [Cell.carriesCode, hm] at hcode
  · intro d hd
    have hcode := hrest d (mem_of_mem_head? hd)
    cases hmark : d.mark with
    | code => exact .inl rfl
    | comment => exact .inr rfl
    | quote | close | content => simp [Cell.carriesCode, hmark] at hcode

def ended (l : Line) : Line :=
  match l.codeCells.getLast? with
  | none => l
  | some c => if c.char = ';' then l else l.put l.codeEnd

theorem codeEnd_eq_zero_iff (l : Line) : l.codeEnd = 0 ↔ l.codeCells.getLast? = none := by
  rw [getLast?_eq_none_iff, ← length_eq_zero_iff, length_codeCells]

theorem text_ended (l : Line) : l.ended.text = terminated l.codeEnd l.text := by
  cases hlast : l.codeCells.getLast? with
  | none =>
    have hzero := l.codeEnd_eq_zero_iff.mpr hlast
    simp [ended, hlast, hzero, terminated]
  | some c =>
    obtain ⟨a, ha⟩ := getLast?_eq_some_iff.mp hlast
    have hend : l.codeEnd = a.length + 1 := by
      rw [← l.length_codeCells, ha]
      simp
    have hget : l.text[a.length]? = some c.char := by
      rw [text, ← l.codeCells_append, ha]
      simp
    by_cases hc : c.char = ';'
    · simp [ended, hlast, hc, hend, terminated, hget]
    · simp [ended, hlast, hc, hend, terminated, hget, text_put]

/-! ### The last statement of a block -/

def code (l : Line) : Chars := l.codeCells.map Cell.masked

theorem length_code (l : Line) : l.code.length = l.codeEnd := by rw [code, length_map, length_codeCells]

theorem blockStop_lt_codeEnd (h : isBlank (blockContent l.code) = false) : blockStop l.code < l.codeEnd := by
  obtain ⟨before, body, gap, after, hp⟩ := exists_blockParts h
  exact l.length_code ▸ hp.stop_lt

theorem map_masked_take (hk : k ≤ l.codeEnd) : (l.cells.take k).map Cell.masked = l.code.take k := by
  rw [code, codeCells, map_take, map_take, take_take, Nat.min_eq_left hk]

theorem carriesCode_blockStop (h : isBlank (blockContent l.code) = false) :
    ∃ c ∈ (l.cells.take (blockStop l.code)).getLast?, c.carriesCode = true := by
  obtain ⟨before, body, gap, after, hp⟩ := exists_blockParts h
  have hmask := map_masked_take (blockStop_lt_codeEnd h).le
  rw [hp.take_stop] at hmask
  have hbody := getLast?_eq_some_getLast hp.body_ne
  have hlast : (before ++ '\x7b' :: body).getLast? = body.getLast? := by simp [getLast?_append, getLast?_cons, hbody]
  rw [← hmask, hbody, getLast?_map] at hlast
  obtain ⟨c, hc, hcm⟩ := Option.map_eq_some_iff.mp hlast
  refine ⟨c, hc, Cell.carriesCode_of_not_space ?_⟩
  rw [hcm]
  exact hp.body_last _ hbody

theorem masked_drop_blockStop (h : isBlank (blockContent l.code) = false) :
    ∃ gap after, (l.cells.drop (blockStop l.code)).map Cell.masked = gap ++ '\x7d' :: after ∧
      ∀ x ∈ gap, isSpace x = true := by
  have hlt := blockStop_lt_codeEnd h
  have hlen := l.length_codeCells
  obtain ⟨before, body, gap, after, hp⟩ := exists_blockParts h
  refine ⟨gap, after ++ l.restCells.map Cell.masked, ?_, hp.gap_blank⟩
  rw [← l.codeCells_append, drop_append_of_le_length (by omega), map_append, map_drop]
  change l.code.drop _ ++ _ = _
  rw [hp.drop_stop]
  simp

theorem openPlace_blockStop (hw : WellMarked l.cells) (h : isBlank (blockContent l.code) = false) (inString : Bool) :
    OpenPlace (l.cells.take (blockStop l.code)) (l.cells.drop (blockStop l.code)) inString := by
  obtain ⟨gap, after, hmask, hgap⟩ := masked_drop_blockStop h
  refine ⟨?_, ?_, ?_⟩
  · intro c hc hm
    obtain ⟨d, hd, hcode⟩ := carriesCode_blockStop h
    obtain rfl : c = d := Option.some.inj (hc.symm.trans hd)
    simp [Cell.carriesCode, hm] at hcode
  · intro d hd
    refine hw.code_or_comment (mem_of_mem_drop (mem_of_mem_head? hd)) ?_
    have hhead := congrArg List.head? hmask
    rw [head?_map, Option.mem_def.mp hd] at hhead
    cases gap with
    | nil => exact .inr (by simpa using hhead)
    | cons x gap =>
      have hx : d.masked = x := by simpa using hhead
      exact .inl (hx ▸ hgap x (by simp))
  · intro hnil
    rw [hnil] at hmask
    simp at hmask

def blockEnded (l : Line) : Line :=
  if isBlank (blockContent l.code) then l
  else if leavesBlockOpen l.code = true then (l.put (blockStop l.code)).ended
  else l.ended

theorem text_blockEnded (l : Line) : l.blockEnded.text = terminatedBlock l := by
  have hcode : l.masked.take l.codeEnd = l.code := l.masked_take_codeEnd
  rw [terminatedBlock_eq, hcode, blockEnded]
  cases hblank : isBlank (blockContent l.code) with
  | true => simp
  | false =>
    cases hopen : leavesBlockOpen l.code with
    | true => simp [text_ended, codeEnd_put l (blockStop_lt_codeEnd hblank).le, text_put]
    | false => simp [text_ended]

/-! ### Edits -/

def edited (l : Line) : Edit → Line
  | .keep => l
  | .terminate => l.ended
  | .terminateBlock => l.blockEnded

theorem text_edited (l : Line) (e : Edit) : (l.edited e).text = e.apply l := by
  cases e with
  | keep => rfl
  | terminate => exact l.text_ended
  | terminateBlock => exact l.text_blockEnded

theorem edited_induction {P : Line → Prop} (hl : P l) (hput : ∀ l' k, P l' → P (l'.put k))
    (e : Edit) : P (l.edited e) := by
  have hended : ∀ l', P l' → P l'.ended := by
    intro l' hl'
    rw [ended]
    split
    · exact hl'
    · split
      · exact hl'
      · exact hput _ _ hl'
  cases e with
  | keep => exact hl
  | terminate => exact hended l hl
  | terminateBlock =>
    change P l.blockEnded
    rw [blockEnded]
    split
    · exact hl
    · split
      · exact hended _ (hput _ _ hl)
      · exact hended _ hl

@[simp] theorem number_edited (l : Line) (e : Edit) : (l.edited e).number = l.number :=
  edited_induction (P := fun l' => l'.number = l.number) rfl (fun _ _ h => h) e

@[simp] theorem ending_edited (l : Line) (e : Edit) : (l.edited e).ending = l.ending :=
  edited_induction (P := fun l' => l'.ending = l.ending) rfl (fun _ _ h => h) e

@[simp] theorem startsInString_edited (l : Line) (e : Edit) : (l.edited e).startsInString = l.startsInString :=
  edited_induction (P := fun l' => l'.startsInString = l.startsInString) rfl (fun _ _ h => h) e

@[simp] theorem endsInString_edited (l : Line) (e : Edit) : (l.edited e).endsInString = l.endsInString :=
  edited_induction (P := fun l' => l'.endsInString = l.endsInString) rfl (fun _ _ h => h) e

/-- The semicolons that edits put into lines: after the code, after the last statement of a block, or
both. -/
inductive Gains (l : Line) : Line → Prop
  | nothing : Gains l l
  | code (hne : l.codeEnd ≠ 0) : Gains l (l.put l.codeEnd)
  | block (hblock : isBlank (blockContent l.code) = false) : Gains l (l.put (blockStop l.code))
  | both (hblock : isBlank (blockContent l.code) = false) :
    Gains l ((l.put (blockStop l.code)).put (l.codeEnd + 1))

theorem gains_ended (l : Line) : l.Gains l.ended := by
  cases hlast : l.codeCells.getLast? with
  | none =>
    rw [ended, hlast]
    exact .nothing
  | some c =>
    have hne : l.codeEnd ≠ 0 := by
      rw [Ne, codeEnd_eq_zero_iff, hlast]
      exact Option.some_ne_none c
    by_cases hc : c.char = ';'
    · simp only [ended, hlast, hc, if_true]
      exact .nothing
    · simp only [ended, hlast, hc, if_false]
      exact .code hne

theorem gains_edited (l : Line) (e : Edit) : l.Gains (l.edited e) := by
  cases e with
  | keep => exact .nothing
  | terminate => exact l.gains_ended
  | terminateBlock =>
    change l.Gains l.blockEnded
    cases hblock : isBlank (blockContent l.code) with
    | true =>
      rw [blockEnded, hblock]
      exact .nothing
    | false =>
      cases hopen : leavesBlockOpen l.code with
      | false =>
        simp only [blockEnded, hblock, hopen, Bool.false_eq_true, if_false]
        exact l.gains_ended
      | true =>
        simp only [blockEnded, hblock, hopen, Bool.false_eq_true, if_false, if_true]
        have hend := codeEnd_put l (blockStop_lt_codeEnd hblock).le
        rw [ended]
        split
        · exact .block hblock
        · split
          · exact .block hblock
          · rw [hend]
            exact .both hblock

end Line

end GroovySharp.Source
