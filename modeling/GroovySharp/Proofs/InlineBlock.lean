import GroovySharp.Proofs.Trim
import GroovySharp.Source.Normalize

/-!
# The block inside a line

A line such as `x.each { stmt }` holds a block between its first opening and its last closing brace.
-/

namespace GroovySharp.Source

open Text Unicode List

def blockStart (code : Chars) : Nat := (code.takeWhile (· != '\x7b')).length

def blockContent (code : Chars) : Chars :=
  slice code (blockStart code + 1) ((code.reverse.dropWhile (· != '\x7d')).length - 1)

def blockStop (code : Chars) : Nat := blockStart code + 1 + (trimEnd (blockContent code)).length

/-- The last statement of the block takes a semicolon: there is one, it has none yet, and the block does
not compare values. -/
def leavesBlockOpen (code : Chars) : Bool :=
  (trimEnd (blockContent code)).getLast? != some ';' && !isRelational (blockContent code)

theorem terminatedBlock_eq (l : Line) : terminatedBlock l =
      if isBlank (blockContent (l.masked.take l.codeEnd)) then l.text
      else if leavesBlockOpen (l.masked.take l.codeEnd) = true then
        terminated (l.codeEnd + 1) (insertAt (blockStop (l.masked.take l.codeEnd)) l.text)
      else terminated l.codeEnd l.text := by
  simp only [terminatedBlock, leavesBlockOpen, Bool.and_eq_true, bne_iff_ne, Bool.not_eq_true']
  rfl

/-! ### Finding the braces -/

theorem blockStart_append {a : Chars} (ha : '\x7b' ∉ a) (b : Chars) :
    blockStart (a ++ '\x7b' :: b) = a.length := by
  have hall : ∀ c ∈ a, (c != '\x7b') = true := by
    intro c hc
    exact bne_iff_ne.mpr fun h => ha (h ▸ hc)
  rw [blockStart, takeWhile_append_of_pos hall]
  simp

theorem reverse_dropWhile_brace {z : Chars} (hz : '\x7d' ∉ z) (y : Chars) :
    ((y ++ '\x7d' :: z).reverse.dropWhile (· != '\x7d')).length = y.length + 1 := by
  have hall : ∀ c ∈ z.reverse, (c != '\x7d') = true := by
    intro c hc
    exact bne_iff_ne.mpr fun h => hz (h ▸ mem_reverse.mp hc)
  rw [reverse_append, reverse_cons, append_assoc, dropWhile_append_of_pos hall]
  simp

theorem blockContent_append {a z : Chars} (ha : '\x7b' ∉ a) (hz : '\x7d' ∉ z) (content : Chars) :
    blockContent (a ++ '\x7b' :: (content ++ '\x7d' :: z)) = content := by
  have hstart := blockStart_append ha (content ++ '\x7d' :: z)
  have hlast := reverse_dropWhile_brace hz (a ++ '\x7b' :: content)
  simp only [append_assoc, cons_append, length_append, length_cons] at hlast
  rw [blockContent, hstart, hlast, slice]
  have hdrop : (a ++ '\x7b' :: (content ++ '\x7d' :: z)).drop (a.length + 1) = content ++ '\x7d' :: z := by
    simp [drop_append]
  rw [hdrop]
  have hlen : a.length + (content.length + 1) + 1 - 1 - (a.length + 1) = content.length := by omega
  rw [hlen, take_left]

theorem blockContent_split {code : Chars} (h : isBlank (blockContent code) = false) :
    ∃ a z, code = a ++ '\x7b' :: (blockContent code ++ '\x7d' :: z) ∧ '\x7b' ∉ a ∧ '\x7d' ∉ z := by
  have hne : blockContent code ≠ [] := by
    intro hnil
    rw [hnil] at h
    cases h
  have hopen : '\x7b' ∈ code := by
    by_contra hopen
    refine hne ?_
    have hall : ∀ c ∈ code, (c != '\x7b') = true := fun c hc =>
      bne_iff_ne.mpr fun h => hopen (h ▸ hc)
    have hstart : blockStart code = code.length := by rw [blockStart, takeWhile_eq_self_iff.mpr hall]
    rw [blockContent, hstart, slice, drop_eq_nil_of_le (by omega), take_nil]
  have hclose : '\x7d' ∈ code := by
    by_contra hclose
    refine hne ?_
    have hnil : code.reverse.dropWhile (· != '\x7d') = [] := by
      rw [dropWhile_eq_nil_iff]
      intro c hc
      exact bne_iff_ne.mpr fun h => hclose (h ▸ mem_reverse.mp hc)
    rw [blockContent, hnil, slice]
    simp
  obtain ⟨a, b, hab, ha⟩ := eq_append_cons_of_mem hopen
  obtain ⟨z, y, hzy, hz⟩ := eq_append_cons_of_mem (mem_reverse.mpr hclose)
  have hyz : code = y.reverse ++ '\x7d' :: z.reverse := by
    have := congrArg List.reverse hzy
    simpa using this
  have hz' : '\x7d' ∉ z.reverse := fun h => hz (mem_reverse.mp h)
  have hstart : blockStart code = a.length := hab ▸ blockStart_append ha b
  have hlast : (code.reverse.dropWhile (· != '\x7d')).length = y.reverse.length + 1 := by
    rw [hyz]
    exact reverse_dropWhile_brace hz' _
  have hlong : a.length + 1 < y.reverse.length := by
    by_contra hshort
    refine hne ?_
    rw [blockContent, hstart, hlast, slice]
    have hzero : y.reverse.length + 1 - 1 - (a.length + 1) = 0 := by omega
    rw [hzero, take_zero]
  -- The text before the last brace starts with the text before the first one.
  obtain ⟨content, hcontent⟩ : ∃ content, y.reverse = a ++ '\x7b' :: content := by
    have hprefix : a ++ ['\x7b'] <+: y.reverse := by
      have ha_code : a ++ ['\x7b'] <+: code := ⟨b, by simp [hab]⟩
      have hy_code : y.reverse <+: code := ⟨'\x7d' :: z.reverse, hyz.symm⟩
      refine prefix_of_prefix_length_le ha_code hy_code ?_
      simp only [length_append, length_cons, length_nil]
      omega
    obtain ⟨content, hcontent⟩ := hprefix
    exact ⟨content, by simpa using hcontent.symm⟩
  have hcode : code = a ++ '\x7b' :: (content ++ '\x7d' :: z.reverse) := by
    rw [hyz, hcontent]
    simp
  refine ⟨a, z.reverse, ?_, ha, hz'⟩
  rw [hcode, blockContent_append ha hz']

theorem blockContent_semicolon (code : Chars) : blockContent (code ++ [';']) = blockContent code := by
  have hlast : (code ++ [';']).reverse.dropWhile (· != '\x7d') = code.reverse.dropWhile (· != '\x7d') := by
    rw [reverse_append]
    rfl
  have hle : (code.reverse.dropWhile (· != '\x7d')).length ≤ code.length := by
    have hsuffix := (dropWhile_suffix (l := code.reverse) (· != '\x7d')).length_le
    rwa [length_reverse] at hsuffix
  by_cases hopen : '\x7b' ∈ code
  · obtain ⟨a, b, rfl, ha⟩ := eq_append_cons_of_mem hopen
    have hstart : blockStart (a ++ '\x7b' :: b ++ [';']) = a.length := by
      rw [append_assoc, cons_append]
      exact blockStart_append ha _
    rw [blockContent, blockContent, hlast, hstart, blockStart_append ha, slice, slice]
    simp only [length_append, length_cons] at hle
    rw [drop_append_of_le_length (by simp), take_append_of_le_length]
    simp only [length_drop, length_append, length_cons]
    omega
  · have hall : ∀ c ∈ code, (c != '\x7b') = true := fun c hc =>
      bne_iff_ne.mpr fun h => hopen (h ▸ hc)
    have hstart : blockStart code = code.length := by rw [blockStart, takeWhile_eq_self_iff.mpr hall]
    have hstart' : blockStart (code ++ [';']) = code.length + 1 := by
      rw [blockStart, takeWhile_append_of_pos hall]
      simp
    rw [blockContent, blockContent, hstart, hstart', slice, slice,
      drop_eq_nil_of_le (by simp), drop_eq_nil_of_le (by simp)]
    simp

theorem leavesBlockOpen_semicolon (code : Chars) : leavesBlockOpen (code ++ [';']) = leavesBlockOpen code := by
  rw [leavesBlockOpen, blockContent_semicolon, leavesBlockOpen]

/-! ### The parts of a line with a block -/

/-- The parts of masked code that holds a block: what stands before the block, its statements, the blanks
after them, and what stands after the block. -/
structure BlockParts (code before body gap after : Chars) : Prop where
  code_eq : code = before ++ '\x7b' :: (body ++ (gap ++ '\x7d' :: after))
  before_open : '\x7b' ∉ before
  after_close : '\x7d' ∉ after
  body_ne : body ≠ []
  body_last : ∀ c ∈ body.getLast?, isSpace c = false
  gap_blank : ∀ c ∈ gap, isSpace c = true

namespace BlockParts

variable {code before body gap after : Chars} (h : BlockParts code before body gap after)

include h

theorem content_eq : blockContent code = body ++ gap := by
  rw [h.code_eq, ← append_assoc]
  exact blockContent_append h.before_open h.after_close (body ++ gap)

theorem trimEnd_content : trimEnd (blockContent code) = body := by
  rw [h.content_eq]
  exact dropTail_append_split h.body_last h.gap_blank

theorem stop_eq : blockStop code = (before ++ '\x7b' :: body).length := by
  have hstart : blockStart code = before.length := by
    rw [h.code_eq]
    exact blockStart_append h.before_open _
  rw [blockStop, hstart, h.trimEnd_content]
  simp only [length_append, length_cons]
  omega

theorem split_stop : code = (before ++ '\x7b' :: body) ++ (gap ++ '\x7d' :: after) := by
  rw [append_assoc, cons_append]
  exact h.code_eq

theorem take_stop : code.take (blockStop code) = before ++ '\x7b' :: body := by
  rw [h.stop_eq]
  conv_lhs => rw [h.split_stop]
  exact take_left

theorem drop_stop : code.drop (blockStop code) = gap ++ '\x7d' :: after := by
  rw [h.stop_eq]
  conv_lhs => rw [h.split_stop]
  exact drop_left

theorem stop_lt : blockStop code < code.length := by
  have hlen := congrArg List.length h.code_eq
  rw [h.stop_eq]
  simp only [length_append, length_cons] at hlen ⊢
  omega

theorem leavesBlockOpen_put :
    leavesBlockOpen (before ++ '\x7b' :: (body ++ ';' :: (gap ++ '\x7d' :: after))) = false := by
  have hcontent : blockContent (before ++ '\x7b' :: (body ++ ';' :: (gap ++ '\x7d' :: after))) =
      (body ++ [';']) ++ gap := by
    have hparts := blockContent_append h.before_open h.after_close (body ++ ';' :: gap)
    simpa using hparts
  have htrim : trimEnd ((body ++ [';']) ++ gap) = body ++ [';'] := by
    refine dropTail_append_split ?_ h.gap_blank
    intro c hc
    obtain rfl : ';' = c := by simpa using hc
    decide
  rw [leavesBlockOpen, hcontent, htrim]
  simp

end BlockParts

theorem exists_blockParts {code : Chars} (h : isBlank (blockContent code) = false) :
    ∃ before body gap after, BlockParts code before body gap after := by
  obtain ⟨a, z, hcode, ha, hz⟩ := blockContent_split h
  obtain ⟨gap, hsplit, hgap, hlast⟩ := dropTail_split isSpace (blockContent code)
  refine ⟨a, dropTail isSpace (blockContent code), gap, z, ?_, ha, hz, ?_, hlast, hgap⟩
  · rw [← append_assoc, ← hsplit]
    exact hcode
  · intro hnil
    rw [hnil, nil_append] at hsplit
    rw [hsplit, Bool.eq_false_iff] at h
    exact h (isBlank_iff.mpr hgap)

end GroovySharp.Source
