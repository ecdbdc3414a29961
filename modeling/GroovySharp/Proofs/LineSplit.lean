import GroovySharp.Source.Line

/-!
# Splitting a text into lines and joining them again

Splitting loses nothing, and joining lines that could have come from a text gives a text that splits
into the same lines.
-/

namespace GroovySharp.Source

/-! ### Joining -/

def joinBodies (ps : List (Chars × Ending)) : Chars := ps.flatMap fun p => p.1 ++ p.2.chars

@[simp] theorem joinBodies_nil : joinBodies [] = [] := rfl

@[simp] theorem joinBodies_cons (body : Chars) (ending : Ending) (ps : List (Chars × Ending)) :
    joinBodies ((body, ending) :: ps) = body ++ (ending.chars ++ joinBodies ps) := by
  simp [joinBodies]

theorem joinBodies_splitLines (t : Chars) : joinBodies (splitLines t) = t := by
  induction t with
  | nil => rfl
  | cons c cs ih =>
    unfold splitLines
    by_cases hc : c = '\n'
    · simp [hc, ih, Ending.chars]
    · rw [if_neg hc]
      cases hs : splitLines cs with
      | nil =>
        rw [hs] at ih
        simp [← ih, Ending.chars]
      | cons p rest =>
        obtain ⟨body, ending⟩ := p
        rw [hs] at ih
        by_cases hr : c = '\r' ∧ body = [] ∧ ending = .lf
        · obtain ⟨rfl, rfl, rfl⟩ := hr
          simpa [Ending.chars] using ih
        · simp only [if_neg hr, joinBodies_cons, List.cons_append] at ih ⊢
          rw [ih]

/-! ### Bodies that a text can have -/

/-- The line can stand in a text before the lines `rest`: its body holds no line feed, leaves no
carriage return to a line feed, and only the last line may lack an ending. -/
structure StandsBefore (rest : List (Chars × Ending)) (body : Chars) (ending : Ending) :
    Prop where
  no_feed : '\n' ∉ body
  no_return : ending = .lf → body.getLast? ≠ some '\r'
  last : ending = .none → rest = [] ∧ body ≠ []

def ProperLines : List (Chars × Ending) → Prop
  | [] => True
  | (body, ending) :: rest => StandsBefore rest body ending ∧ ProperLines rest

theorem properLines_splitLines (t : Chars) : ProperLines (splitLines t) := by
  induction t with
  | nil => exact trivial
  | cons c cs ih =>
    unfold splitLines
    by_cases hc : c = '\n'
    · rw [if_pos hc]
      exact ⟨⟨by simp, by simp, by simp⟩, ih⟩
    · rw [if_neg hc]
      cases hs : splitLines cs with
      | nil => exact ⟨⟨by simpa using Ne.symm hc, by simp, by simp⟩, trivial⟩
      | cons p rest =>
        obtain ⟨body, ending⟩ := p
        rw [hs] at ih
        obtain ⟨hline, hrest⟩ := ih
        by_cases hr : c = '\r' ∧ body = [] ∧ ending = .lf
        · simp only [if_pos hr]
          exact ⟨⟨by simp, by simp, by simp⟩, hrest⟩
        · simp only [if_neg hr]
          refine ⟨⟨?_, ?_, ?_⟩, hrest⟩
          · simpa using ⟨Ne.symm hc, hline.no_feed⟩
          · intro he
            cases body with
            | nil => simpa [he] using hr
            | cons b body => simpa using hline.no_return he
          · intro he
            exact ⟨(hline.last he).1, by simp⟩

theorem splitLines_body (body : Chars) (ending : Ending) (rest : List (Chars × Ending))
    (h : StandsBefore rest body ending) (hrest : splitLines (joinBodies rest) = rest) :
    splitLines (body ++ (ending.chars ++ joinBodies rest)) = (body, ending) :: rest := by
  induction body with
  | nil =>
    cases ending with
    | none => exact absurd rfl (h.last rfl).2
    | lf | crlf => simp [Ending.chars, splitLines, hrest]
  | cons c body ih =>
    have hc : c ≠ '\n' := by
      intro hc
      exact h.no_feed (by simp [hc])
    by_cases hend : ending = .none ∧ body = []
    · obtain ⟨rfl, rfl⟩ := hend
      have hnil : rest = [] := (h.last rfl).1
      simp [hnil, Ending.chars, splitLines, hc]
    · have hbody : StandsBefore rest body ending := by
        refine ⟨fun hm => h.no_feed (List.mem_cons_of_mem _ hm), ?_, ?_⟩
        · intro he
          have hlast := h.no_return he
          cases body with
          | nil => simp
          | cons b body => simpa using hlast
        · intro he
          exact ⟨(h.last he).1, fun hb => hend ⟨he, hb⟩⟩
      have hcr : ¬(c = '\r' ∧ body = [] ∧ ending = .lf) := by
        rintro ⟨rfl, rfl, he⟩
        exact h.no_return he rfl
      rw [List.cons_append, splitLines, if_neg hc, ih hbody]
      simp only [if_neg hcr]

theorem splitLines_joinBodies (ps : List (Chars × Ending)) (h : ProperLines ps) :
    splitLines (joinBodies ps) = ps := by
  induction ps with
  | nil => rfl
  | cons p rest ih =>
    obtain ⟨body, ending⟩ := p
    rw [joinBodies_cons]
    exact splitLines_body body ending rest h.1 (ih h.2)

end GroovySharp.Source
