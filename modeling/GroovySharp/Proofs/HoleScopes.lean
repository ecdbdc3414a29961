import GroovySharp.Proofs.Lexicon

/-!
# Where an interpolated string ends

A scan through an interpolated string leaves its scopes as they were over escaped text, over a hole with
its braces, and inside a hole over literals, other interpolated strings and braces that match.
-/

namespace GroovySharp.CSharp

open Unicode List

theorem prepend_nil (x : Option (Points × Points)) : prepend [] x = x := by
  cases x <;> rfl

theorem prepend_prepend (a b : Points) (x : Option (Points × Points)) :
    prepend a (prepend b x) = prepend (a ++ b) x := by
  cases x with
  | none => rfl
  | some y => simp [prepend]

def Passes (scope : Scope) (w : Points) : Prop :=
  ∀ (s : List Scope) (cs : Points), closing (scope :: s) (w ++ cs) = prepend w (closing (scope :: s) cs)

def Crosses (w : Points) : Prop := ∀ d, Passes (.hole d) w

section

variable {scope : Scope} {w v : Points}

theorem passes_nil (scope : Scope) : Passes scope [] := fun _ _ => (prepend_nil _).symm

theorem Passes.append (hw : Passes scope w) (hv : Passes scope v) : Passes scope (w ++ v) := by
  intro s cs
  rw [append_assoc, hw, hv, prepend_prepend]

theorem crosses_nil : Crosses [] := fun _ => passes_nil _

theorem Crosses.append (hw : Crosses w) (hv : Crosses v) : Crosses (w ++ v) :=
  fun d => (hw d).append (hv d)

end

/-! ### Signs that mean nothing to a scan -/

variable {p : CodePoint} {w : Points}

theorem passes_text_point (h : p ∉ points "\\\"\x7b\x7d") : Passes .text [p] := by
  intro s cs
  simp only [points, ofChars, String.reduceToList, map_cons, map_nil, mem_cons, not_mem_nil, not_or, or_false] at h
  obtain ⟨hbackslash, hquote, hopen, hclose⟩ := h
  rw [singleton_append, closing] <;> simp [*]

theorem passes_string_point (h : p ∉ points "\\\"") : Passes .string [p] := by
  intro s cs
  simp only [points, ofChars, String.reduceToList, map_cons, map_nil, mem_cons, not_mem_nil, not_or, or_false] at h
  obtain ⟨hbackslash, hquote⟩ := h
  rw [singleton_append, closing] <;> simp [*]

def isHolePoint (p : CodePoint) : Bool := !(points "\"$\x7b\x7d").contains p

theorem crosses_point (h : isHolePoint p = true) : Crosses [p] := by
  intro d s cs
  simp only [isHolePoint, points, ofChars, String.reduceToList, map_cons, map_nil,
    contains_cons, contains_nil, Bool.not_eq_true', Bool.or_eq_false_iff,
    beq_eq_false_iff_ne, Bool.or_false] at h
  obtain ⟨hquote, hdollar, hopen, hclose⟩ := h
  rw [singleton_append, closing] <;> simp [*]

theorem crosses_of_all (h : ∀ p ∈ w, isHolePoint p = true) : Crosses w := by
  induction w with
  | nil => exact crosses_nil
  | cons p w ih =>
    have hp := crosses_point (h p mem_cons_self)
    exact hp.append (ih fun q hq => h q (mem_cons_of_mem _ hq))

/-! ### Escaped text -/

theorem closing_text_open (s : List Scope) (cs : Points) :
    closing (.text :: s) (.scalar '\x7b' :: .scalar '\x7b' :: cs) =
      prepend (points "\x7b\x7b") (closing (.text :: s) cs) := by
  rw [closing]

theorem closing_text_close (s : List Scope) (cs : Points) :
    closing (.text :: s) (.scalar '\x7d' :: .scalar '\x7d' :: cs) =
      prepend (points "\x7d\x7d") (closing (.text :: s) cs) := by
  rw [closing]

theorem doubleBraces_append (a b : Points) : doubleBraces (a ++ b) = doubleBraces a ++ doubleBraces b := flatMap_append

theorem passes_escapePoint (p : CodePoint) : Passes .text (doubleBraces (escapePoint p)) := by
  unfold escapePoint
  split
  case h_7 hbackslash hquote _ _ _ _ =>
    by_cases hopen : p = .scalar '\x7b'
    · subst hopen
      intro s cs
      exact closing_text_open s cs
    · by_cases hclose : p = .scalar '\x7d'
      · subst hclose
        intro s cs
        exact closing_text_close s cs
      · have hone : doubleBraces [p] = [p] := by simp [doubleBraces, hopen, hclose]
        rw [hone]
        refine passes_text_point ?_
        simp only [points, ofChars, String.reduceToList, map_cons, map_nil, mem_cons, not_mem_nil, or_false, not_or]
        exact ⟨hbackslash, hquote, hopen, hclose⟩
  all_goals
    intro s cs
    exact closing_text_escape s _ cs

theorem passes_text (value : Points) : Passes .text (doubleBraces (escapeString value)) := by
  induction value with
  | nil => exact passes_nil _
  | cons p value ih =>
    have hcons : doubleBraces (escapeString (p :: value)) =
        doubleBraces (escapePoint p) ++ doubleBraces (escapeString value) :=
      doubleBraces_append (escapePoint p) (escapeString value)
    rw [hcons]
    exact (passes_escapePoint p).append ih

theorem passes_string (value : Points) : Passes .string (escapeString value) := by
  have hpoint (p : CodePoint) : Passes .string (escapePoint p) := by
    unfold escapePoint
    split
    case h_7 hbackslash hquote _ _ _ _ =>
      refine passes_string_point ?_
      simp only [points, ofChars, String.reduceToList, map_cons, map_nil, mem_cons, not_mem_nil, or_false, not_or]
      exact ⟨hbackslash, hquote⟩
    all_goals
      intro s cs
      exact closing_string_escape s _ cs
  induction value with
  | nil => exact passes_nil _
  | cons p value ih => exact (hpoint p).append ih

/-! ### Scopes that open and close -/

theorem crosses_string (value : Points) :
    Crosses (points "\"" ++ escapeString value ++ points "\"") := by
  intro d s cs
  have hopen : closing (.hole d :: s) (.scalar '"' :: (escapeString value ++ .scalar '"' :: cs)) =
      prepend (points "\"")
        (closing (.string :: .hole d :: s) (escapeString value ++ .scalar '"' :: cs)) := by
    rw [closing]
  have hclose : closing (.string :: .hole d :: s) (.scalar '"' :: cs) =
      prepend (points "\"") (closing (.hole d :: s) cs) := by
    rw [closing]
  rw [append_assoc, append_assoc]
  refine hopen.trans ?_
  rw [passes_string, hclose, prepend_prepend, prepend_prepend]

theorem Crosses.braces (h : Crosses w) : Crosses (points "\x7b" ++ w ++ points "\x7d") := by
  intro d s cs
  have hopen : closing (.hole d :: s) (.scalar '\x7b' :: (w ++ .scalar '\x7d' :: cs)) =
      prepend (points "\x7b") (closing (.hole (d + 1) :: s) (w ++ .scalar '\x7d' :: cs)) := by
    rw [closing]
  have hclose : closing (.hole (d + 1) :: s) (.scalar '\x7d' :: cs) =
      prepend (points "\x7d") (closing (.hole d :: s) cs) := by
    rw [closing]
  rw [append_assoc, append_assoc]
  refine hopen.trans ?_
  rw [h (d + 1), hclose, prepend_prepend, prepend_prepend]

theorem Passes.interpolated (h : Passes .text w) : Crosses (points "$\"" ++ w ++ points "\"") := by
  intro d s cs
  have hopen : closing (.hole d :: s) (.scalar '$' :: .scalar '"' :: (w ++ .scalar '"' :: cs)) =
      prepend (points "$\"") (closing (.text :: .hole d :: s) (w ++ .scalar '"' :: cs)) := by
    rw [closing]
  have hclose : closing (.text :: .hole d :: s) (.scalar '"' :: cs) =
      prepend (points "\"") (closing (.hole d :: s) cs) := by
    rw [closing]
  rw [append_assoc, append_assoc]
  refine hopen.trans ?_
  rw [h, hclose, prepend_prepend, prepend_prepend]

theorem Crosses.hole (h : Crosses (p :: w)) (hp : p ≠ .scalar '\x7b') :
    Passes .text (points "\x7b" ++ (p :: w) ++ points "\x7d") := by
  intro s cs
  have hopen : closing (.text :: s) (.scalar '\x7b' :: (p :: w ++ .scalar '\x7d' :: cs)) =
      prepend (points "\x7b") (closing (.hole 0 :: .text :: s) (p :: w ++ .scalar '\x7d' :: cs)) := by
    rw [closing]
    rintro cs' heq
    exact hp (cons.inj heq).1
  have hclose : closing (.hole 0 :: .text :: s) (.scalar '\x7d' :: cs) =
      prepend (points "\x7d") (closing (.text :: s) cs) := by
    rw [closing]
  rw [append_assoc, append_assoc]
  refine hopen.trans ?_
  rw [h 0, hclose, prepend_prepend, prepend_prepend]

theorem seals_interpolated (h : Passes .text w) :
    Seals (points "$\"" ++ w ++ points "\"") [.interpolated (points "$\"" ++ w ++ points "\"")] := by
  intro r rs hr
  have hclose : closing [.text] (w ++ .scalar '"' :: r) = some (w ++ points "\"", r) := by
    have hquote : closing [.text] (.scalar '"' :: r) = some (points "\"", r) := by
      rw [closing, closing]
      rfl
    rw [h, hquote]
    rfl
  have htext : points "$\"" ++ w ++ points "\"" ++ r =
      .scalar '$' :: .scalar '"' :: (w ++ .scalar '"' :: r) := by
    simp [points, ofChars]
  rw [htext]
  refine lex_of_lexeme? (by decide) ?_ hr
  rw [lexeme?, if_neg (by decide), if_neg (by decide), if_neg (by decide), if_neg (by decide),
    if_pos rfl, leadingInterpolated?, hclose, append_assoc]
  rfl

end GroovySharp.CSharp
