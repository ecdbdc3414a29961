import GroovySharp.Text.Trim
import Mathlib.Data.List.DropRight
import Mathlib.Data.List.Infix

/-!
# Cutting and searching text

Laws of the cuts at the ends of a text, and of looking for words in a text that gains a character.
-/

namespace GroovySharp.Text

open Unicode List

/-! ### Tails -/

theorem dropTail_eq_rdropWhile (p : Char → Bool) (cs : Chars) : dropTail p cs = cs.rdropWhile p := rfl

variable {p : Char → Bool} {a b cs : Chars} {c : Char}

theorem dropTail_append_of_all (hb : ∀ c ∈ b, p c = true) : dropTail p (a ++ b) = dropTail p a := by
  induction b using reverseRecOn with
  | nil => rw [append_nil]
  | append_singleton b c ih =>
    have hc : p c = true := hb c (by simp)
    rw [← append_assoc, dropTail_eq_rdropWhile, rdropWhile_concat_pos p _ c hc]
    exact ih fun d hd => hb d (by simp [hd])

theorem dropTail_of_last (ha : ∀ c ∈ a.getLast?, p c = false) : dropTail p a = a := by
  rw [dropTail_eq_rdropWhile, rdropWhile_eq_self_iff]
  intro hne
  simp [ha (a.getLast hne) (getLast?_eq_some_getLast hne)]

theorem dropTail_split (p : Char → Bool) (cs : Chars) : ∃ gap, cs = dropTail p cs ++ gap ∧ (∀ c ∈ gap, p c = true) ∧
      ∀ c ∈ (dropTail p cs).getLast?, p c = false := by
  refine ⟨cs.rtakeWhile p, rdropWhile_append_rtakeWhile.symm, ?_, ?_⟩
  · intro c hc
    exact mem_rtakeWhile_imp hc
  · intro c hc
    obtain ⟨hne, rfl⟩ := mem_getLast?_eq_getLast hc
    exact Bool.eq_false_iff.mpr (rdropWhile_last_not p cs hne)

theorem dropTail_append_split (ha : ∀ c ∈ a.getLast?, p c = false) (hb : ∀ c ∈ b, p c = true) :
    dropTail p (a ++ b) = a := by
  rw [dropTail_append_of_all hb, dropTail_of_last ha]

/-! ### White space -/

theorem isBlank_iff : isBlank cs = true ↔ ∀ c ∈ cs, isSpace c = true :=
  all_eq_true

theorem not_isBlank_of_mem (hc : c ∈ cs) (hs : isSpace c = false) : isBlank cs = false := by
  rw [Bool.eq_false_iff]
  intro h
  have := isBlank_iff.mp h c hc
  rw [hs] at this
  cases this

theorem trimStart_append (hc : c ∈ a) (hs : isSpace c = false) : trimStart (a ++ b) = trimStart a ++ b := by
  have hne : (a.dropWhile isSpace).isEmpty = false := by
    rw [isEmpty_eq_false_iff, Ne, dropWhile_eq_nil_iff]
    intro h
    have := h c hc
    rw [hs] at this
    cases this
  simp [trimStart, dropWhile_append, hne]

theorem trimStart_append_cons (hc : isSpace c = false) (a b : Chars) :
    trimStart (a ++ c :: b) = trimStart a ++ c :: b := by
  induction a with
  | nil => simp [trimStart, hc]
  | cons d a ih =>
    cases hd : isSpace d with
    | true => simpa [trimStart, hd] using ih
    | false => simp [trimStart, hd]

theorem trim_of_last (hc : cs.getLast? = some c) (hs : isSpace c = false) : trim cs = trimStart cs := by
  obtain ⟨a, rfl⟩ := getLast?_eq_some_iff.mp hc
  refine dropTail_of_last fun d hd => ?_
  by_cases ha : ∃ x ∈ a, isSpace x = false
  · obtain ⟨x, hx, hxs⟩ := ha
    rw [trimStart_append hx hxs] at hd
    simp only [getLast?_append, getLast?_singleton, Option.some_or] at hd
    obtain rfl := Option.mem_some.mp hd
    exact hs
  · have hall : ∀ x ∈ a, isSpace x = true := fun x hx => by
      cases hsp : isSpace x with
      | true => rfl
      | false => exact absurd ⟨x, hx, hsp⟩ ha
    have hstart : trimStart (a ++ [c]) = [c] := by simp [trimStart, dropWhile_append, dropWhile_eq_nil_iff.mpr hall, hs]
    rw [hstart] at hd
    obtain rfl := Option.mem_some.mp hd
    exact hs

theorem mem_of_mem_trimStart (hc : c ∈ trimStart cs) : c ∈ cs :=
  (dropWhile_suffix _).subset hc

theorem mem_trimStart (hc : c ∈ cs) (hs : isSpace c = false) : c ∈ trimStart cs := by
  have hsplit := takeWhile_append_dropWhile (p := isSpace) (l := cs)
  rw [← hsplit] at hc
  rcases mem_append.mp hc with h | h
  · have := mem_takeWhile_imp h
    rw [hs] at this
    cases this
  · exact h

/-! ### Words -/

theorem prefix_of_prefix_append {w x y : Chars} (hy : ∀ c ∈ y.head?, c ∉ w) (h : w <+: x ++ y) : w <+: x := by
  induction w generalizing x with
  | nil => exact nil_prefix
  | cons a w ih =>
    cases x with
    | nil =>
      cases y with
      | nil => simp at h
      | cons b y => exact absurd (by simp [(cons_prefix_cons.mp h).1]) (hy b rfl)
    | cons b x =>
      obtain ⟨rfl, hrest⟩ := cons_prefix_cons.mp h
      exact cons_prefix_cons.mpr ⟨rfl, ih (fun c hc hw => hy c hc (mem_cons_of_mem _ hw)) hrest⟩

theorem hasWord_iff {word : Chars} : hasWord word cs = true ↔ word <:+: cs := by
  induction cs with
  | nil => simp [hasWord]
  | cons c cs ih => simp [hasWord, ih, infix_cons_iff]

theorem infix_of_infix_append_cons {α : Type} {w a b : List α} {c : α} (hw : c ∉ w)
    (h : w <:+: a ++ c :: b) : w <:+: a ∨ w <:+: b := by
  obtain ⟨s, t, hst⟩ := h
  rcases append_eq_append_iff.mp hst with ⟨a', h1, -⟩ | ⟨x, h1, h2⟩
  · exact .inl ⟨s, a', h1.symm⟩
  · cases x with
    | nil => exact .inl ⟨s, [], by simpa using h1⟩
    | cons d x =>
      obtain ⟨rfl, rfl⟩ : c = d ∧ b = x ++ t := by simpa using h2
      rcases append_eq_append_iff.mp h1 with ⟨y, h3, h4⟩ | ⟨y, h3, h4⟩
      · -- The word starts before the character and would have to hold it.
        exact absurd (h4 ▸ by simp) hw
      · cases y with
        | nil => exact absurd (by simpa using h4 : c :: x = w) (fun h => hw (h ▸ by simp))
        | cons e y =>
          obtain ⟨rfl, rfl⟩ : c = e ∧ x = y ++ w := by simpa using h4
          exact .inr ⟨y, t, by simp⟩

theorem hasWord_append_singleton {word : Chars} (hw : c ∉ word) (hne : word ≠ []) :
    hasWord word (a ++ [c]) = hasWord word a := by
  rw [Bool.eq_iff_iff, hasWord_iff, hasWord_iff]
  constructor
  · intro h
    rcases infix_of_infix_append_cons hw h with h | h
    · exact h
    · exact absurd (infix_nil.mp h) hne
  · intro h
    exact h.trans (prefix_append a [c]).isInfix

theorem isSuffixOf_append_singleton (x c : Char) (a : Chars) : [x].isSuffixOf (a ++ [c]) = (x == c) := by
  simp [List.isSuffixOf, List.isPrefixOf]

end GroovySharp.Text
