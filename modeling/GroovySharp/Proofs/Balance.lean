import GroovySharp.Proofs.CodeEnd

/-!
# Nested delimiters

Reading a text with a stack of open delimiters succeeds and empties the stack exactly if the delimiters
of the text are properly nested.
-/

namespace GroovySharp.Source

open List

/-! ### Delimiter characters -/

namespace Delimiter

theorem opened?_eq_some_iff {d : Delimiter} : opened? c = some d ↔ c = d.opener := by
  constructor
  · intro h
    unfold opened? at h
    split at h
    · cases h
      assumption
    · split at h
      · cases h
        assumption
      · split at h
        · cases h
          assumption
        · cases h
  · rintro rfl
    cases d <;> rfl

theorem closed?_eq_some_iff {d : Delimiter} : closed? c = some d ↔ c = d.closer := by
  constructor
  · intro h
    unfold closed? at h
    split at h
    · cases h
      assumption
    · split at h
      · cases h
        assumption
      · split at h
        · cases h
          assumption
        · cases h
  · rintro rfl
    cases d <;> rfl

@[simp] theorem opened?_opener (d : Delimiter) : opened? d.opener = some d :=
  opened?_eq_some_iff.mpr rfl

@[simp] theorem closed?_closer (d : Delimiter) : closed? d.closer = some d :=
  closed?_eq_some_iff.mpr rfl

@[simp] theorem opened?_closer (d : Delimiter) : opened? d.closer = none := by cases d <;> rfl

end Delimiter

def isDelimiter (c : Char) : Bool := (Delimiter.opened? c).isSome || (Delimiter.closed? c).isSome

variable {c : Char} {stack : List Delimiter} {cs a : Chars}

theorem isDelimiter_eq_false_iff : isDelimiter c = false ↔ Delimiter.opened? c = none ∧ Delimiter.closed? c = none := by
  simp [isDelimiter]

theorem isDelimiter_iff : isDelimiter c = true ↔ ∃ d : Delimiter, c = d.opener ∨ c = d.closer := by
  simp only [isDelimiter, Bool.or_eq_true, Option.isSome_iff_exists, Delimiter.opened?_eq_some_iff,
    Delimiter.closed?_eq_some_iff, exists_or]

theorem isDelimiter_of_isSpace (h : Unicode.isSpace c = true) : isDelimiter c = false := by
  rw [Bool.eq_false_iff]
  intro hc
  obtain ⟨d, rfl | rfl⟩ := isDelimiter_iff.mp hc
  · cases d <;> revert h <;> decide
  · cases d <;> revert h <;> decide

/-! ### The stack -/

/-- The delimiters open after the characters, innermost first, given those open before. A closing
delimiter has to match the innermost open one. -/
def stackAfter : List Delimiter → Chars → Option (List Delimiter)
  | stack, [] => some stack
  | stack, c :: cs =>
    match Delimiter.opened? c with
    | some d => stackAfter (d :: stack) cs
    | none =>
      match Delimiter.closed? c with
      | none => stackAfter stack cs
      | some d =>
        match stack with
        | top :: rest => if top = d then stackAfter rest cs else none
        | [] => none

theorem stackAfter_opener (stack : List Delimiter) (d : Delimiter) (cs : Chars) :
    stackAfter stack (d.opener :: cs) = stackAfter (d :: stack) cs := by
  simp [stackAfter]

theorem stackAfter_closer (stack : List Delimiter) (d : Delimiter) (cs : Chars) :
    stackAfter (d :: stack) (d.closer :: cs) = stackAfter stack cs := by
  simp [stackAfter]

theorem stackAfter_closer_eq_some {stack' : List Delimiter} {d : Delimiter}
    (h : stackAfter stack (d.closer :: cs) = some stack') :
    ∃ rest, stack = d :: rest ∧ stackAfter rest cs = some stack' := by
  simp only [stackAfter, Delimiter.opened?_closer, Delimiter.closed?_closer] at h
  cases stack with
  | nil => cases h
  | cons top rest =>
    by_cases htop : top = d
    · subst htop
      exact ⟨rest, rfl, by simpa using h⟩
    · simp [htop] at h

theorem stackAfter_other (hc : isDelimiter c = false) (stack : List Delimiter) (cs : Chars) :
    stackAfter stack (c :: cs) = stackAfter stack cs := by
  obtain ⟨hopened, hclosed⟩ := isDelimiter_eq_false_iff.mp hc
  simp only [stackAfter, hopened, hclosed]

theorem stackAfter_filter (stack : List Delimiter) (cs : Chars) :
    stackAfter stack (cs.filter isDelimiter) = stackAfter stack cs := by
  induction cs generalizing stack with
  | nil => rfl
  | cons c cs ih =>
    cases hc : isDelimiter c with
    | false => rw [filter_cons_of_neg (by simp [hc]), ih, stackAfter_other hc]
    | true =>
      rw [filter_cons_of_pos hc]
      simp only [stackAfter]
      split
      · exact ih _
      · split
        · exact ih _
        · split
          · rw [ih]
          · rfl

theorem stackAfter_append (stack : List Delimiter) (a b : Chars) :
    stackAfter stack (a ++ b) = (stackAfter stack a).bind fun stack' => stackAfter stack' b := by
  induction a generalizing stack with
  | nil => rfl
  | cons c a ih =>
    simp only [cons_append, stackAfter]
    split
    · exact ih _
    · split
      · exact ih _
      · split
        · split
          · exact ih _
          · rfl
        · rfl

theorem openedAfter_eq_stackAfter (n : Nat) (opened : Openings) (cs : Chars) :
    (Nesting.openedAfter n opened cs).toOption.map (List.map Prod.fst) = stackAfter (opened.map Prod.fst) cs := by
  induction cs generalizing opened with
  | nil => rfl
  | cons c cs ih =>
    cases hopened : Delimiter.opened? c with
    | some d =>
      simp only [Nesting.openedAfter, stackAfter, hopened]
      exact ih _
    | none =>
      cases hclosed : Delimiter.closed? c with
      | none =>
        simp only [Nesting.openedAfter, stackAfter, hopened, hclosed]
        exact ih _
      | some d =>
        simp only [Nesting.openedAfter, stackAfter, hopened, hclosed]
        cases opened with
        | nil => rfl
        | cons top rest =>
          simp only [map_cons]
          by_cases htop : top.1 = d
          · simp only [htop, if_true]
            exact ih rest
          · simp only [htop, if_false]
            rfl

theorem openedAfter_eq_ok {n : Nat} {opened opened' : Openings}
    (h : Nesting.openedAfter n opened cs = .ok opened') :
    stackAfter (opened.map Prod.fst) cs = some (opened'.map Prod.fst) := by
  rw [← openedAfter_eq_stackAfter n, h]
  rfl

theorem exists_openedAfter (n : Nat) {opened : Openings}
    (h : stackAfter (opened.map Prod.fst) cs = some stack) :
    ∃ opened', Nesting.openedAfter n opened cs = .ok opened' ∧ opened'.map Prod.fst = stack := by
  rw [← openedAfter_eq_stackAfter n] at h
  cases hopened : Nesting.openedAfter n opened cs with
  | error e => simp [hopened, Except.toOption] at h
  | ok opened' => exact ⟨opened', rfl, by simpa [hopened, Except.toOption] using h⟩

theorem count_stackAfter {stack' : List Delimiter} (h : stackAfter stack cs = some stack')
    (d : Delimiter) : stack'.count d + cs.count d.closer = stack.count d + cs.count d.opener := by
  induction cs generalizing stack with
  | nil =>
    cases h
    rfl
  | cons c cs ih =>
    cases hc : isDelimiter c with
    | false =>
      rw [stackAfter_other hc] at h
      have hne := isDelimiter_eq_false_iff.mp hc
      have hopen : c ≠ d.opener := by
        rintro rfl
        simp at hne
      have hclose : c ≠ d.closer := by
        rintro rfl
        simp at hne
      rw [count_cons_of_ne hopen, count_cons_of_ne hclose]
      exact ih h
    | true =>
      obtain ⟨e, rfl | rfl⟩ := isDelimiter_iff.mp hc
      · rw [stackAfter_opener] at h
        have hcount := ih h
        cases d <;> cases e <;> simp [Delimiter.opener, Delimiter.closer] at hcount ⊢ <;> omega
      · obtain ⟨rest, rfl, hafter⟩ := stackAfter_closer_eq_some h
        have hcount := ih hafter
        cases d <;> cases e <;> simp [Delimiter.opener, Delimiter.closer] at hcount ⊢ <;> omega

/-! ### Nesting -/

/-- Every delimiter is closed by its own closer, after all those opened inside it. -/
inductive Nested : Chars → Prop
  | nil : Nested []
  | group (d : Delimiter) {a b : Chars} (ha : Nested a) (hb : Nested b) :
    Nested (d.opener :: (a ++ d.closer :: b))

theorem Nested.append {b : Chars} (ha : Nested a) (hb : Nested b) : Nested (a ++ b) := by
  induction ha with
  | nil => exact hb
  | @group d x y hx _ _ ih =>
    have hgroup := Nested.group d hx ih
    simpa using hgroup

theorem Nested.stackAfter_eq (ha : Nested a) (stack : List Delimiter) : stackAfter stack a = some stack := by
  induction ha generalizing stack with
  | nil => rfl
  | group d _ _ iha ihb =>
    rw [stackAfter_opener, stackAfter_append, iha, Option.bind_some, stackAfter_closer]
    exact ihb stack

/-- The characters close the open delimiters one after another, with nested texts between them. -/
inductive Closes : List Delimiter → Chars → Prop
  | done {a : Chars} (ha : Nested a) : Closes [] a
  | close {d : Delimiter} {stack : List Delimiter} {a b : Chars} (ha : Nested a)
    (hb : Closes stack b) : Closes (d :: stack) (a ++ d.closer :: b)

theorem Closes.prepend {b : Chars} (ha : Nested a) (hb : Closes stack b) : Closes stack (a ++ b) := by
  cases hb with
  | done hb => exact .done (ha.append hb)
  | close hx hy =>
    rw [← append_assoc]
    exact .close (ha.append hx) hy

theorem closes_of_stackAfter (hcs : ∀ c ∈ cs, isDelimiter c = true)
    (h : stackAfter stack cs = some []) : Closes stack cs := by
  induction cs generalizing stack with
  | nil =>
    cases h
    exact .done .nil
  | cons c cs ih =>
    have hrest : ∀ c ∈ cs, isDelimiter c = true := fun x hx => hcs x (mem_cons_of_mem _ hx)
    obtain ⟨d, rfl | rfl⟩ := isDelimiter_iff.mp (hcs c (by simp))
    · rw [stackAfter_opener] at h
      cases ih hrest h with
      | @close _ _ a b ha hb =>
        -- The closer of this delimiter ends a group; what it encloses is nested.
        have hgroup := Closes.prepend (.group d ha .nil) hb
        simpa using hgroup
    · obtain ⟨rest, rfl, hafter⟩ := stackAfter_closer_eq_some h
      exact .close .nil (ih hrest hafter)

theorem nested_iff (hcs : ∀ c ∈ cs, isDelimiter c = true) : Nested cs ↔ stackAfter [] cs = some [] := by
  constructor
  · intro h
    exact h.stackAfter_eq []
  · intro h
    cases closes_of_stackAfter hcs h with
    | done h => exact h

theorem Nested.isDelimiter (h : Nested cs) : ∀ c ∈ cs, isDelimiter c = true := by
  induction h with
  | nil => simp
  | group d _ _ iha ihb =>
    intro c hc
    simp only [mem_cons, mem_append] at hc
    rcases hc with rfl | hc | rfl | hc
    · exact isDelimiter_iff.mpr ⟨d, .inl rfl⟩
    · exact iha c hc
    · exact isDelimiter_iff.mpr ⟨d, .inr rfl⟩
    · exact ihb c hc

instance : DecidablePred Nested := fun cs =>
  decidable_of_iff (cs.all isDelimiter = true ∧ stackAfter [] cs = some [])
    ⟨fun h => (nested_iff (all_eq_true.mp h.1)).mpr h.2,
      fun h => ⟨all_eq_true.mpr h.isDelimiter, (nested_iff h.isDelimiter).mp h⟩⟩

/-! ### Delimiters in code -/

def Line.delimiters (l : Line) : Chars :=
  ((l.cells.filter fun c => c.mark == .code).map (·.char)).filter isDelimiter

theorem Quote.char_not_delimiter (q : Quote) : isDelimiter q.char = false := by cases q <;> decide

theorem filter_masked {cells : List Cell} (h : WellMarked cells) : (cells.map Cell.masked).filter isDelimiter =
      ((cells.filter fun c => c.mark == .code).map (·.char)).filter isDelimiter := by
  induction cells with
  | nil => rfl
  | cons c cells ih =>
    have hrest := ih fun x hx => h x (mem_cons_of_mem _ hx)
    have hquote (hm : c.mark = .quote ∨ c.mark = .close) : isDelimiter c.char = false := by
      obtain ⟨q, hq⟩ := h c (by simp) hm
      rw [hq]
      exact q.char_not_delimiter
    have hcontent : isDelimiter '_' = false := by decide
    have hcomment : isDelimiter ' ' = false := by decide
    cases hm : c.mark with
    | code => simp [Cell.masked, hm, filter_cons, hrest]
    | quote => simp [Cell.masked, hm, hrest, hquote (.inl hm)]
    | close => simp [Cell.masked, hm, hrest, hquote (.inr hm)]
    | content => simp [Cell.masked, hm, hrest, hcontent]
    | comment => simp [Cell.masked, hm, hrest, hcomment]

theorem Line.stackAfter_masked {l : Line} (h : WellMarked l.cells) (stack : List Delimiter) :
    stackAfter stack l.masked = stackAfter stack l.delimiters := by
  rw [← stackAfter_filter stack l.masked, masked, filter_masked h, delimiters]

end GroovySharp.Source
