import GroovySharp.Proofs.Formed

/-!
# Where trees stand in a text

A position of a text is told by its offset alone: the line is counted by the line feeds before it and
the column from the last of them.
-/

namespace GroovySharp.Text

open List

/-! ### Positions -/

def Position.at (s : Chars) (offset : Nat) : Position where
  offset := offset
  line := 1 + (s.take offset).count '\n'
  column := 1 + ((s.take offset).reverse.takeWhile (· != '\n')).length

theorem Position.advance_start (cs : Chars) : ({} : Position).advance cs =
      ⟨cs.length, 1 + cs.count '\n', 1 + (cs.reverse.takeWhile (· != '\n')).length⟩ := by
  induction cs using reverseRecOn with
  | nil => rfl
  | append_singleton cs c ih =>
    rw [advance_append, ih]
    by_cases hc : c = '\n'
    · subst hc
      simp [advance, step, Nat.add_assoc]
    · simp [advance, step, hc, Nat.add_comm]

variable {s : Chars} {offset a b : Nat} {p : Position} {spans : List Span}

theorem Position.at_eq_advance (h : offset ≤ s.length) :
    Position.at s offset = ({} : Position).advance (s.take offset) := by
  rw [advance_start, length_take, Nat.min_eq_left h]
  rfl

theorem Position.advance_at {cs : Chars} (h : cs <+: s.drop offset) (hle : offset ≤ s.length) :
    (Position.at s offset).advance cs = Position.at s (offset + cs.length) := by
  have hlen := h.length_le
  rw [length_drop] at hlen
  rw [at_eq_advance hle, at_eq_advance (by omega), ← advance_append, take_add, ← prefix_iff_eq_take.mp h]

def Position.Counts (p : Position) : Prop := 1 ≤ p.line ∧ 1 ≤ p.column

theorem Position.Counts.step (h : p.Counts) (c : Char) : (p.step c).Counts := by
  unfold Position.step
  split
  · exact ⟨Nat.le_succ_of_le h.1, Nat.le_refl 1⟩
  · exact ⟨h.1, Nat.le_succ_of_le h.2⟩

theorem Position.within_step (origin : Position) (h : p.Counts) (c : Char) :
    origin.within (p.step c) = (origin.within p).step c := by
  obtain ⟨hline, hcolumn⟩ := h
  unfold within step
  by_cases hc : c = '\n'
  · simp only [if_pos hc, Position.mk.injEq]
    refine ⟨by omega, by omega, if_neg (by omega)⟩
  · simp only [if_neg hc, Position.mk.injEq]
    refine ⟨by omega, trivial, ?_⟩
    split <;> omega

theorem Position.within_advance (origin : Position) (h : p.Counts) (cs : Chars) :
    origin.within (p.advance cs) = (origin.within p).advance cs := by
  induction cs generalizing p with
  | nil => rfl
  | cons c cs ih =>
    calc origin.within (p.advance (c :: cs)) = (origin.within (p.step c)).advance cs := ih (h.step c)
      _ = (origin.within p).advance (c :: cs) := by rw [within_step origin h]; rfl

theorem Position.within_at {a fragment b : Chars} (hs : s = a ++ fragment ++ b)
    (h : offset ≤ fragment.length) : (Position.at s a.length).within (Position.at fragment offset) =
      Position.at s (a.length + offset) := by
  have htake : (fragment.take offset).length = offset := by rw [length_take, Nat.min_eq_left h]
  have hprefix : fragment.take offset <+: s.drop a.length := by
    rw [hs, append_assoc, drop_left]
    exact (List.take_prefix _ _).trans (prefix_append _ _)
  calc (Position.at s a.length).within (Position.at fragment offset)
      = ((Position.at s a.length).within {}).advance (fragment.take offset) := by
        rw [at_eq_advance h, within_advance _ ⟨Nat.le_refl 1, Nat.le_refl 1⟩]
    _ = (Position.at s a.length).advance (fragment.take offset) := rfl
    _ = Position.at s (a.length + offset) := by rw [advance_at hprefix (by simp [hs]), htake]

theorem Position.advance_line (p : Position) {cs : Chars} (h : '\n' ∉ cs) :
    p.advance cs = ⟨p.offset + cs.length, p.line, p.column + cs.length⟩ := by
  induction cs generalizing p with
  | nil => rfl
  | cons c cs ih =>
    simp only [mem_cons, not_or] at h
    obtain ⟨hc, hcs⟩ := h
    have hstep : p.step c = ⟨p.offset + 1, p.line, p.column + 1⟩ := if_neg (Ne.symm hc)
    calc p.advance (c :: cs) = (p.step c).advance cs := rfl
      _ = ⟨p.offset + (c :: cs).length, p.line, p.column + (c :: cs).length⟩ := by
          simp only [ih _ hcs, hstep, length_cons, Position.mk.injEq]
          exact ⟨by omega, trivial, by omega⟩

/-! ### Spans -/

/-- The span is the part of the text from one exact position to another, and `text` stands there. -/
structure Span.Locates (s : Chars) (span : Span) (text : Chars) : Prop where
  start_le_stop : span.start.offset ≤ span.stop.offset
  stop_le : span.stop.offset ≤ s.length
  slice_eq : slice s span.start.offset span.stop.offset = text
  start_eq : span.start = Position.at s span.start.offset
  stop_eq : span.stop = Position.at s span.stop.offset

theorem Span.Locates.split {text : Chars} {span : Span} (h : span.Locates s text) :
    s = s.take span.start.offset ++ text ++ s.drop span.stop.offset := by
  have hstop : span.start.offset + (span.stop.offset - span.start.offset) = span.stop.offset :=
    Nat.add_sub_cancel' h.start_le_stop
  calc s = s.take span.start.offset ++ s.drop span.start.offset := (take_append_drop _ _).symm
    _ = s.take span.start.offset ++ (slice s span.start.offset span.stop.offset ++
          (s.drop span.start.offset).drop (span.stop.offset - span.start.offset)) := by
        rw [slice, take_append_drop (span.stop.offset - span.start.offset)]
    _ = s.take span.start.offset ++ text ++ s.drop span.stop.offset := by
        rw [h.slice_eq, drop_drop, hstop, append_assoc]

def Laid (start stop : Nat) : List Span → Prop
  | [] => start ≤ stop
  | span :: spans => start ≤ span.start.offset ∧ span.start.offset ≤ span.stop.offset ∧ Laid span.stop.offset stop spans

theorem Laid.le {start stop : Nat} (h : Laid start stop spans) : start ≤ stop := by
  induction spans generalizing start with
  | nil => exact h
  | cons span spans ih =>
    obtain ⟨hstart, hspan, hrest⟩ := h
    exact hstart.trans (hspan.trans (ih hrest))

theorem Laid.append {xs ys : List Span} {c d : Nat} (hx : Laid a b xs) (hbc : b ≤ c)
    (hy : Laid c d ys) : Laid a d (xs ++ ys) := by
  induction xs generalizing a with
  | nil =>
    cases ys with
    | nil => exact Nat.le_trans hx (Nat.le_trans hbc hy)
    | cons span ys => exact ⟨Nat.le_trans hx (Nat.le_trans hbc hy.1), hy.2⟩
  | cons span xs ih => exact ⟨hx.1, hx.2.1, ih hx.2.2⟩

theorem Laid.mono {a' b' : Nat} (h : Laid a b spans) (ha : a' ≤ a) (hb : b ≤ b') : Laid a' b' spans := by
  have hfront : Laid a' a [] := ha
  have hback : Laid b b' [] := hb
  simpa using (hfront.append (Nat.le_refl a) h).append (Nat.le_refl b) hback

theorem Laid.split {xs ys : List Span} {c : Nat} (h : Laid a c (xs ++ ys)) : ∃ b, Laid a b xs ∧ Laid b c ys := by
  induction xs generalizing a with
  | nil => exact ⟨a, Nat.le_refl a, h⟩
  | cons span xs ih =>
    obtain ⟨b, hx, hy⟩ := ih h.2.2
    exact ⟨b, ⟨h.1, h.2.1, hx⟩, hy⟩

theorem Laid.tight {first : Span} {more : List Span} (h : Laid a b (first :: more)) :
    Laid first.start.offset (more.getLast?.getD first).stop.offset (first :: more) ∧
      (more.getLast?.getD first).stop.offset ≤ b := by
  induction more generalizing a first with
  | nil => exact ⟨⟨Nat.le_refl _, h.2.1, Nat.le_refl _⟩, h.2.2⟩
  | cons second more ih =>
    obtain ⟨htight, hle⟩ := ih h.2.2
    rw [getLast?_cons, Option.getD_some]
    exact ⟨⟨Nat.le_refl _, h.2.1, h.2.2.1, htight.2⟩, hle⟩

theorem Span.Locates.within {a fragment b text : Chars} {span : Span}
    (hs : s = a ++ fragment ++ b) (h : span.Locates fragment text) :
    (span.within (Position.at s a.length)).Locates s text := by
  have hstart : (Position.at s a.length).within span.start = Position.at s (a.length + span.start.offset) := by
    rw [h.start_eq, Position.within_at hs (h.start_le_stop.trans h.stop_le)]
    rfl
  have hstop : (Position.at s a.length).within span.stop = Position.at s (a.length + span.stop.offset) := by
    rw [h.stop_eq, Position.within_at hs h.stop_le]
    rfl
  refine ⟨Nat.add_le_add_left h.start_le_stop _, ?_, ?_, hstart, hstop⟩
  · change a.length + span.stop.offset ≤ s.length
    have hstop := h.stop_le
    simp only [hs, length_append]
    omega
  · change slice s (a.length + span.start.offset) (a.length + span.stop.offset) = text
    have hlen : span.stop.offset - span.start.offset ≤ (fragment.drop span.start.offset).length := by
      have hstop := h.stop_le
      rw [length_drop]
      omega
    rw [← h.slice_eq, slice, slice, hs, append_assoc, drop_length_add_append,
      drop_append_of_le_length (h.start_le_stop.trans h.stop_le), Nat.add_sub_add_left,
      take_append_of_le_length hlen]

theorem Laid.within {start stop : Nat} (h : Laid start stop spans) (origin : Position) :
    Laid (origin.offset + start) (origin.offset + stop) (spans.map (·.within origin)) := by
  induction spans generalizing start with
  | nil => exact Nat.add_le_add_left h _
  | cons span spans ih =>
    obtain ⟨hstart, hspan, hrest⟩ := h
    exact ⟨Nat.add_le_add_left hstart _, Nat.add_le_add_left hspan _, ih hrest⟩

end GroovySharp.Text

namespace GroovySharp

open Text List

/-! ### Trees -/

def LeafKind.isPiece : LeafKind → Bool
  | .gstringBegin | .gstringPart | .gstringEnd => true
  | _ => false

def Tree.ownSpan? : Tree → Option Span
  | .leaf l => if l.kind.isPiece then none else some l.span
  | .node _ _ span _ => some span

def ownSpans (ts : List Tree) : List Span := ts.filterMap Tree.ownSpan?

theorem ownSpans_append (ts us : List Tree) : ownSpans (ts ++ us) = ownSpans ts ++ ownSpans us :=
  filterMap_append

inductive Located (s : Chars) : Tree → Prop
  | piece {l : Leaf} (hl : l.kind.isPiece = true) : Located s (.leaf l)
  | leaf {l : Leaf} (hl : l.span.Locates s l.text) : Located s (.leaf l)
  | node {k : Kind} {children : List Tree} {span : Span} {text : Chars}
    (hspan : span.Locates s text) (hlaid : Laid span.start.offset span.stop.offset (ownSpans children))
    (hc : ∀ t ∈ children, Located s t) : Located s (.node k children span text)

theorem ownSpans_congr {ts ts' : List Tree}
    (h : List.Forall₂ (fun t t' => t'.ownSpan? = t.ownSpan?) ts ts') : ownSpans ts' = ownSpans ts := by
  induction h with
  | nil => rfl
  | cons hfirst _ ih =>
    unfold ownSpans at ih ⊢
    rw [filterMap_cons, filterMap_cons, hfirst, ih]

theorem ownSpan?_within (origin : Position) (t : Tree) :
    (t.within origin).ownSpan? = t.ownSpan?.map (·.within origin) := by
  cases t with
  | leaf l =>
    rw [Tree.within, Tree.ownSpan?, Tree.ownSpan?]
    cases l.kind.isPiece <;> rfl
  | node k children span text => rfl

theorem ownSpans_within (origin : Position) (ts : List Tree) :
    ownSpans (Tree.allWithin origin ts) = (ownSpans ts).map (·.within origin) := by
  rw [allWithin_eq_map, ownSpans, ownSpans, filterMap_map, map_filterMap]
  exact filterMap_congr fun t _ => ownSpan?_within origin t

theorem Located.within {s a fragment b : Chars} (hs : s = a ++ fragment ++ b) {t : Tree}
    (h : Located fragment t) : Located s (t.within (Position.at s a.length)) := by
  induction h with
  | piece hl => exact .piece hl
  | leaf hl => exact .leaf (hl.within hs)
  | @node k children span text hspan hlaid _ ih =>
    refine .node (hspan.within hs) ?_ ?_
    · rw [ownSpans_within]
      exact hlaid.within _
    · intro t ht
      rw [allWithin_eq_map] at ht
      obtain ⟨u, hu, rfl⟩ := mem_map.mp ht
      exact ih u hu

end GroovySharp
