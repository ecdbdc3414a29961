import GroovySharp.Proofs.Decision
import GroovySharp.Proofs.Punctuation
import GroovySharp.Proofs.Run

/-!
# The code of edited lines

An edited line has the code of the line with semicolons at its end or in its block.
-/

namespace GroovySharp.Source

open Text Unicode List LineRule Nesting

namespace Line

variable {l : Line}

/-! ### Code with semicolons -/

theorem code_put (l : Line) {k : Nat} (hk : k ≤ l.codeEnd) :
    (l.put k).code = l.code.take k ++ ';' :: l.code.drop k := by
  rw [code, codeCells_put l hk, map_append, map_cons, map_take, map_drop]
  rfl

theorem code_put_codeEnd (l : Line) : (l.put l.codeEnd).code = l.code ++ [';'] := by
  have hlen := l.length_code
  rw [code_put l le_rfl, take_of_length_le (by omega), drop_eq_nil_of_le (by omega)]

theorem code_put_block {before body gap after : Chars} (hp : BlockParts l.code before body gap after) :
    (l.put (blockStop l.code)).code = before ++ '\x7b' :: (body ++ ';' :: (gap ++ '\x7d' :: after)) := by
  have hlt : blockStop l.code < l.codeEnd := l.length_code ▸ hp.stop_lt
  rw [code_put l hlt.le, hp.take_stop, hp.drop_stop]
  simp

theorem core_eq_trimStart (hw : WellMarked l.cells) : l.core = trimStart l.code := l.core_eq hw

theorem exists_mem_code (hw : WellMarked l.cells) (hne : l.codeEnd ≠ 0) : ∃ c ∈ l.code, isSpace c = false := by
  cases hlast : l.code.getLast? with
  | none =>
    have hnil := getLast?_eq_none_iff.mp hlast
    have hlen := l.length_code
    rw [hnil] at hlen
    exact absurd hlen.symm hne
  | some c => exact ⟨c, mem_of_getLast? hlast, l.getLast?_masked_code hw c hlast⟩

theorem core_put_codeEnd (hw : WellMarked l.cells) (hne : l.codeEnd ≠ 0) :
    (l.put l.codeEnd).core = l.core ++ [';'] := by
  obtain ⟨c, hc, hs⟩ := exists_mem_code hw hne
  rw [core_eq_trimStart (wellMarked_put hw _), code_put_codeEnd, trimStart_append hc hs, ← core_eq_trimStart hw]

theorem core_ne_nil (hw : WellMarked l.cells) (hne : l.codeEnd ≠ 0) : l.core ≠ [] := by
  obtain ⟨c, hc, hs⟩ := exists_mem_code hw hne
  rw [core_eq_trimStart hw]
  exact ne_nil_of_mem (mem_trimStart hc hs)

theorem punctuated_put_block (hw : WellMarked l.cells) (hb : isBlank (blockContent l.code) = false) :
    Punctuated l.core (l.put (blockStop l.code)).core := by
  obtain ⟨before, body, gap, after, hp⟩ := exists_blockParts hb
  have hbrace : isSpace '\x7b' = false := by decide
  have hcore : l.core = trimStart before ++ '\x7b' :: (body ++ (gap ++ '\x7d' :: after)) := by
    rw [core_eq_trimStart hw, hp.code_eq, trimStart_append_cons hbrace]
  rw [core_eq_trimStart (wellMarked_put hw _), code_put_block hp, trimStart_append_cons hbrace]
  refine .inBlock ?_ hp.body_ne
  rw [← hcore]
  exact .same

theorem Gains.punctuated {l' : Line} (hw : WellMarked l.cells) (h : l.Gains l') : Punctuated l.core l'.core := by
  cases h with
  | nothing => exact .same
  | code hne =>
    rw [core_put_codeEnd hw hne]
    exact .atEnd .same (core_ne_nil hw hne)
  | block hb => exact punctuated_put_block hw hb
  | both hb =>
    have hend := codeEnd_put l (blockStop_lt_codeEnd hb).le
    have hne : (l.put (blockStop l.code)).codeEnd ≠ 0 := by omega
    have hw' := wellMarked_put hw (blockStop l.code)
    rw [← hend, core_put_codeEnd hw' hne]
    exact .atEnd (punctuated_put_block hw hb) (core_ne_nil hw' hne)

/-! ### What edits keep -/

theorem openedAfter_append (n : Nat) (opened : Openings) (a b : Chars) :
    openedAfter n opened (a ++ b) = openedAfter n opened a >>= fun opened' => openedAfter n opened' b := by
  induction a generalizing opened with
  | nil => rfl
  | cons c a ih =>
    simp only [cons_append, openedAfter]
    split
    · exact ih _
    · split
      · exact ih _
      · split
        · split
          · exact ih _
          · rfl
        · rfl

theorem openedAfter_put (l : Line) (k n : Nat) (opened : Openings) :
    openedAfter n opened (l.put k).masked = openedAfter n opened l.masked := by
  have hput : (l.put k).masked = l.masked.take k ++ ';' :: l.masked.drop k := by
    simp only [put, masked, map_append, map_cons, map_take, map_drop]
    rfl
  have hsemicolon (opened : Openings) (cs : Chars) :
      openedAfter n opened (';' :: cs) = openedAfter n opened cs := rfl
  conv_rhs => rw [← take_append_drop k l.masked]
  rw [hput, openedAfter_append, openedAfter_append]
  simp only [hsemicolon]

theorem isStringBody_edited (l : Line) (e : Edit) : (l.edited e).isStringBody = l.isStringBody := by
  rw [isStringBody, startsInString_edited, endsInString_edited, isStringBody]

theorem absorb_edited (s : Nesting) (l : Line) (e : Edit) : s.absorb (l.edited e) = s.absorb l := by
  have hmasked : openedAfter l.number s.opened (l.edited e).masked = openedAfter l.number s.opened l.masked :=
    edited_induction (P := fun l' => openedAfter l.number s.opened l'.masked =
      openedAfter l.number s.opened l.masked) rfl
      (fun l' k h => (openedAfter_put l' k l.number s.opened).trans h) e
  simp only [absorb, isStringBody_edited, number_edited, hmasked]

theorem Gains.codeEnd_eq_zero_iff {l' : Line} (h : l.Gains l') : l'.codeEnd = 0 ↔ l.codeEnd = 0 := by
  cases h with
  | nothing => rfl
  | code hne =>
    rw [codeEnd_put l le_rfl]
    omega
  | block hb =>
    have hlt := blockStop_lt_codeEnd hb
    rw [codeEnd_put l hlt.le]
    omega
  | both hb =>
    have hlt := blockStop_lt_codeEnd hb
    have hend := codeEnd_put l hlt.le
    rw [codeEnd_put _ (by omega)]
    omega

theorem carriesCode_edited (l : Line) (e : Edit) : (l.edited e).carriesCode = l.carriesCode := by
  have hend := (l.gains_edited e).codeEnd_eq_zero_iff
  have hpos : decide (0 < (l.edited e).codeEnd) = decide (0 < l.codeEnd) := by
    rw [decide_eq_decide]
    omega
  rw [carriesCode, carriesCode, hpos, isStringBody_edited]

theorem length_text_put (l : Line) (k : Nat) : (l.put k).text.length = l.text.length + 1 := by
  rw [text_put, insertAt, length_append, length_cons, ← Nat.add_assoc, ← length_append, take_append_drop]

theorem Gains.eq_of_text {l' : Line} (h : l.Gains l') (htext : l'.text = l.text) : l' = l := by
  have hlen := congrArg List.length htext
  cases h with
  | nothing => rfl
  | code hne | block hb =>
    rw [length_text_put] at hlen
    omega
  | both hb =>
    rw [length_text_put, length_text_put] at hlen
    omega

end Line

theorem startsChain_nextCore_edited {lines : List Line} {edits : Edits}
    (hlen : edits.length = lines.length) (hmarks : ∀ l ∈ lines, WellMarked l.cells) :
    startsChain (nextCore (editedLines lines edits)) = startsChain (nextCore lines) := by
  induction lines generalizing edits with
  | nil => rfl
  | cons l lines ih =>
    cases edits with
    | nil => cases hlen
    | cons d edits =>
      have hlen' : edits.length = lines.length := by simpa using hlen
      have hrest := ih hlen' fun x hx => hmarks x (mem_cons_of_mem _ hx)
      simp only [nextCore] at hrest
      cases hcode : l.carriesCode with
      | true =>
        have hcore := (l.gains_edited d.2).punctuated (hmarks l (by simp))
        simp [nextCore, editedLines_cons, l.carriesCode_edited, hcode, hcore.startsChain_eq]
      | false => simpa [nextCore, editedLines_cons, l.carriesCode_edited, hcode] using hrest

namespace Line

variable {l : Line}

/-! ### Lines that an edit changed -/

variable {c : Cell}

theorem ended_of_semicolon (hlast : l.codeCells.getLast? = some c) (hc : c.char = ';') : l.ended = l := by
  simp [ended, hlast, hc]

theorem getLast?_ended (hne : l.codeEnd ≠ 0) : ∃ c ∈ l.ended.codeCells.getLast?, c.char = ';' := by
  cases hlast : l.codeCells.getLast? with
  | none => exact absurd (l.codeEnd_eq_zero_iff.mpr hlast) hne
  | some c =>
    by_cases hc : c.char = ';'
    · rw [ended_of_semicolon hlast hc]
      exact ⟨c, hlast, hc⟩
    · have hended : l.ended = l.put l.codeEnd := by simp [ended, hlast, hc]
      have hlen := l.length_codeCells
      rw [hended, codeCells_put l le_rfl, drop_eq_nil_of_le (by omega)]
      exact ⟨semicolon, by simp, rfl⟩

theorem ended_eq_self_of_codeEnd (h : l.codeEnd = 0) : l.ended = l := by simp [ended, l.codeEnd_eq_zero_iff.mp h]

theorem getLast?_edited {e : Edit} (h : l.edited e ≠ l) : ∃ c ∈ (l.edited e).codeCells.getLast?, c.char = ';' := by
  have hended {l' : Line} (h' : l'.ended ≠ l') : l'.codeEnd ≠ 0 :=
    fun hzero => h' (ended_eq_self_of_codeEnd hzero)
  cases e with
  | keep => exact absurd rfl h
  | terminate => exact getLast?_ended (hended h)
  | terminateBlock =>
    change l.blockEnded ≠ l at h
    change ∃ c ∈ l.blockEnded.codeCells.getLast?, c.char = ';'
    cases hblock : isBlank (blockContent l.code) with
    | true => simp [blockEnded, hblock] at h
    | false =>
      cases hopen : leavesBlockOpen l.code with
      | true =>
        have hend := codeEnd_put l (blockStop_lt_codeEnd hblock).le
        simp only [blockEnded, hblock, hopen, Bool.false_eq_true, if_false, if_true]
        exact getLast?_ended (by omega)
      | false =>
        simp only [blockEnded, hblock, hopen, Bool.false_eq_true, if_false] at h ⊢
        exact getLast?_ended (hended h)

theorem mark_getLast? {n : Nat} {s s' : ScanState} (h : Scans n s l.text l.cells s')
    (hs : s'.inString = false) (hc : l.codeCells.getLast? = some c) : c.mark ≠ .content := by
  have hne : l.codeEnd ≠ 0 := by
    rw [Ne, codeEnd_eq_zero_iff, hc]
    exact Option.some_ne_none c
  have hput := scans_put h (by omega) l.codeEnd_le_length (l.openPlace_codeEnd hs)
  exact hput.not_content_before_code rfl rfl c hc

theorem mark_of_semicolon {n : Nat} {s s' : ScanState} (h : Scans n s l.text l.cells s')
    (hs : s'.inString = false) (hc : l.codeCells.getLast? = some c) (hchar : c.char = ';') : c.mark = .code := by
  have hmem : c ∈ l.cells := mem_of_mem_take (mem_of_getLast? hc)
  have hquote (hm : c.mark = .quote ∨ c.mark = .close) : False := by
    obtain ⟨q, hq⟩ := h.wellMarked c hmem hm
    exact q.char_ne_semicolon (hq.symm.trans hchar)
  cases hm : c.mark with
  | code => rfl
  | quote => exact (hquote (.inl hm)).elim
  | close => exact (hquote (.inr hm)).elim
  | content => exact absurd hm (mark_getLast? h hs hc)
  | comment =>
    have hcode := l.code_spec.2.1 c hc
    simp [Cell.carriesCode, hm] at hcode

theorem getLast?_core (hw : WellMarked l.cells) (hc : l.codeCells.getLast? = some c) :
    l.core.getLast? = some c.masked := by
  obtain ⟨a, ha⟩ := getLast?_eq_some_iff.mp hc
  have hspace := l.getLast?_masked_code hw c.masked (by rw [getLast?_map, hc]; rfl)
  rw [core_eq_trimStart hw, code, ha, map_append, map_cons, map_nil, trimStart_append_cons hspace]
  simp

theorem not_blank_after_close (hc : l.codeCells.getLast? = some c) (hmark : c.mark = .code) :
    isBlank (l.masked.drop (l.stringCloseAt?.getD 0)) = false := by
  obtain ⟨x, hx⟩ := getLast?_eq_some_iff.mp hc
  have hcells : l.cells = x ++ c :: l.restCells := by
    rw [← l.codeCells_append, hx]
    simp
  have hclose : l.stringCloseAt?.getD 0 = lastEnd (fun c => c.mark == .close) l.cells := by
    rw [stringCloseAt?]
    split
    · next hzero => rw [hzero]; rfl
    · rfl
  obtain ⟨a, b, hab, hlen, ha, -⟩ := lastEnd_split (fun c => c.mark == .close) l.cells
  -- The delimiter that closes the last string is code, so it stands before the last cell of code.
  have hle : a.length ≤ x.length := by
    by_contra hlt
    have hmore : x ++ [c] <+: a := by
      have hpre : x ++ [c] <+: l.cells := ⟨l.restCells, by simp [hcells]⟩
      refine prefix_of_prefix_length_le hpre ⟨b, hab.symm⟩ ?_
      simp only [length_append, length_cons, length_nil]
      omega
    obtain ⟨more, rfl⟩ := hmore
    have hrest : l.restCells = more ++ b := by
      have := hcells.symm.trans hab
      simpa using this
    cases hmore : more.getLast? with
    | none =>
      obtain rfl := getLast?_eq_none_iff.mp hmore
      have hmarked := ha c (by simp)
      simp [hmark] at hmarked
    | some d =>
      have hmarked := ha d (by rw [getLast?_append, hmore]; rfl)
      have hd : d ∈ l.restCells := by
        rw [hrest]
        exact mem_append_left _ (mem_of_getLast? hmore)
      have hcode := l.code_spec.2.2 d hd
      simp only [beq_iff_eq] at hmarked
      simp [Cell.carriesCode, hmarked] at hcode
  have hspace : Unicode.isSpace c.char = false := by
    have hcode := l.code_spec.2.1 c hc
    simpa [Cell.carriesCode, hmark] using hcode
  refine not_isBlank_of_mem (c := c.char) ?_ hspace
  rw [hclose, hlen, masked, hcells, ← map_drop, drop_append_of_le_length hle]
  refine mem_map.mpr ⟨c, by simp, ?_⟩
  simp [Cell.masked, hmark]

/-! ### What the shape of an edited line asks for -/

theorem apply_terminate_of_semicolon (hc : l.codeCells.getLast? = some c) (hchar : c.char = ';') :
    Edit.terminate.apply l = l.text := by
  rw [← text_edited]
  exact congrArg text (ended_of_semicolon hc hchar)

theorem apply_terminateBlock_of_semicolon (hc : l.codeCells.getLast? = some c) (hchar : c.char = ';') :
    Edit.terminateBlock.apply l = l.text ↔ isBlank (blockContent l.code) = true ∨ leavesBlockOpen l.code = false := by
  rw [← text_edited]
  change l.blockEnded.text = l.text ↔ _
  cases hblock : isBlank (blockContent l.code) with
  | true => simp [blockEnded, hblock]
  | false =>
    cases hopen : leavesBlockOpen l.code with
    | false => simp [blockEnded, hblock, hopen, ended_of_semicolon hc hchar]
    | true =>
      have hlast : ∃ c ∈ (l.put (blockStop l.code)).codeCells.getLast?, c.char = ';' := by
        have hlt := blockStop_lt_codeEnd hblock
        have hlen := l.length_codeCells
        refine ⟨c, ?_, hchar⟩
        rw [codeCells_put l hlt.le]
        have hdrop : (l.codeCells.drop (blockStop l.code)).getLast? = some c := by
          rw [getLast?_drop, if_neg (by omega), hc]
        simp [getLast?_append, getLast?_cons, hdrop]
      obtain ⟨d, hd, hdchar⟩ := hlast
      have hlong := length_text_put l (blockStop l.code)
      simp only [blockEnded, hblock, hopen, Bool.false_eq_true, if_false, if_true,
        ended_of_semicolon hd hdchar, reduceCtorEq, or_self, iff_false]
      intro htext
      rw [htext] at hlong
      omega

def asksForBlock (l : Line) : Bool :=
  shapeEdit l.core == .terminateBlock && !isBlank (blockContent l.code) && Source.leavesBlockOpen l.code

theorem shapeEdit_semicolon (core : Chars) : shapeEdit (core ++ [';']) = .terminateBlock ↔
      shapeEdit core = .terminateBlock := by
  have hstrip : strippedEnd (core ++ [';']) = strippedEnd core :=
    dropTail_append_of_all (by simp)
  have harrow : hasWord arrow (core ++ [';']) = hasWord arrow core :=
    hasWord_append_singleton (by decide) (by decide)
  have hother (b c : Bool) : (if b then Edit.terminate else if c then .terminate else .keep) ≠ .terminateBlock := by
    cases b <;> cases c <;> decide
  simp only [shapeEdit, hstrip, harrow]
  split
  · simp
  · split
    · simp
    · exact ⟨fun h => absurd h (hother _ _), fun h => absurd h (hother _ _)⟩

theorem ended_eq_put (h : l.ended ≠ l) : l.ended = l.put l.codeEnd ∧ l.codeEnd ≠ 0 := by
  have hne : l.codeEnd ≠ 0 := fun hzero => h (ended_eq_self_of_codeEnd hzero)
  cases hlast : l.codeCells.getLast? with
  | none => exact absurd (l.codeEnd_eq_zero_iff.mpr hlast) hne
  | some c =>
    have hc : c.char ≠ ';' := fun hc => h (ended_of_semicolon hlast hc)
    exact ⟨by simp [ended, hlast, hc], hne⟩

theorem leavesBlockOpen_ended (l : Line) : Source.leavesBlockOpen l.ended.code = Source.leavesBlockOpen l.code := by
  by_cases h : l.ended = l
  · rw [h]
  · rw [(ended_eq_put h).1, code_put_codeEnd, leavesBlockOpen_semicolon]

theorem leavesBlockOpen_blockEnded (h : l.blockEnded ≠ l) : Source.leavesBlockOpen l.blockEnded.code = false := by
  cases hblock : isBlank (blockContent l.code) with
  | true => simp [blockEnded, hblock] at h
  | false =>
    cases hopen : Source.leavesBlockOpen l.code with
    | true =>
      obtain ⟨before, body, gap, after, hp⟩ := exists_blockParts hblock
      simp only [blockEnded, hblock, hopen, Bool.false_eq_true, if_false, if_true]
      rw [leavesBlockOpen_ended, code_put_block hp]
      exact hp.leavesBlockOpen_put
    | false =>
      simp only [blockEnded, hblock, hopen, Bool.false_eq_true, if_false]
      rw [leavesBlockOpen_ended, hopen]

/-- The shape of a changed line asks for nothing more, unless the line was ended with a plain
semicolon and ends with an open block. -/
theorem apply_shapeEdit_edited (hw : WellMarked l.cells) {e : Edit} (h : l.edited e ≠ l) :
    (shapeEdit (l.edited e).core).apply (l.edited e) = (l.edited e).text ↔
      ¬(e = .terminate ∧ l.asksForBlock = true) := by
  obtain ⟨c, hc, hchar⟩ := getLast?_edited h
  have hblock := apply_terminateBlock_of_semicolon hc hchar
  cases e with
  | keep => exact absurd rfl h
  | terminateBlock =>
    have hclosed : Source.leavesBlockOpen (l.edited .terminateBlock).code = false :=
      leavesBlockOpen_blockEnded h
    have hshape : (shapeEdit (l.edited .terminateBlock).core).apply
        (l.edited .terminateBlock) = (l.edited .terminateBlock).text := by
      cases shapeEdit (l.edited .terminateBlock).core with
      | keep => rfl
      | terminate => exact apply_terminate_of_semicolon hc hchar
      | terminateBlock => exact hblock.mpr (.inr hclosed)
    simp [hshape]
  | terminate =>
    obtain ⟨hput, hne⟩ := ended_eq_put h
    have hcore : (l.edited .terminate).core = l.core ++ [';'] := by
      change l.ended.core = _
      rw [hput, core_put_codeEnd hw hne]
    have hcode : (l.edited .terminate).code = l.code ++ [';'] := by
      change l.ended.code = _
      rw [hput, code_put_codeEnd]
    rw [hcode, blockContent_semicolon, leavesBlockOpen_semicolon] at hblock
    have hiff := shapeEdit_semicolon l.core
    rw [← hcore] at hiff
    cases hshape : shapeEdit (l.edited .terminate).core with
    | keep =>
      rw [hshape] at hiff
      have hnot : shapeEdit l.core ≠ .terminateBlock := fun h => by cases hiff.mpr h
      simp [asksForBlock, hnot, Edit.apply]
    | terminate =>
      rw [hshape] at hiff
      have hnot : shapeEdit l.core ≠ .terminateBlock := fun h => by cases hiff.mpr h
      simp [asksForBlock, hnot, apply_terminate_of_semicolon hc hchar]
    | terminateBlock =>
      rw [hshape] at hiff
      rw [hblock]
      simp only [asksForBlock, hiff.mp rfl]
      cases isBlank (blockContent l.code) <;> cases Source.leavesBlockOpen l.code <;> simp

end Line

end GroovySharp.Source
