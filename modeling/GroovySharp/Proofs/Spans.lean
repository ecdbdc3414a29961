import GroovySharp.Proofs.Positions

/-!
# The spans of a program's tree

The parser keeps the parts of the text that its frames cover exact and in order, so what it puts
together is located in the text.
-/

namespace GroovySharp

open Grammar Text List

/-! ### Frames -/

/-- A string literal is one token and covers no more than it, and strings in double quotes stay on
their line. This holds before the holes of strings are read. -/
inductive Plain : Tree → Prop
  | leaf {l : Leaf} (hl : l.kind = .terminal .doubleString → '\n' ∉ l.text) : Plain (.leaf l)
  | node {k : Kind} {children : List Tree} {span : Span} {text : Chars}
    (hk : k = .stringLiteral → ∃ l : Leaf, children = [.leaf l] ∧ span = l.span)
    (hc : ∀ t ∈ children, Plain t) : Plain (.node k children span text)

namespace Grammar

def Symbol.mayBeEmpty (s : Symbol) : Bool :=
  s == .phrase .blockItems || s == .phrase .compilationUnit

def emptyUnit : Tree := .node .compilationUnit [] .empty []

structure Frame.Located (s : Chars) (f : Frame) : Prop where
  plain : ∀ t ∈ f.piece.trees, Plain t
  token : ∀ t, f.symbol = .terminal t → ∃ l : Leaf, f.piece = ⟨[.leaf l], some l.span⟩
  covered : ∀ e, f.piece.extent = some e → (∃ text, e.Locates s text) ∧
    Laid e.start.offset e.stop.offset (ownSpans f.piece.trees) ∧
    ∀ t ∈ f.piece.trees, GroovySharp.Located s t
  bare : f.piece.extent = none → f.symbol = .phrase .blockItems ∧ f.piece.trees = [] ∨
    f.symbol = .phrase .compilationUnit ∧ f.piece.trees = [emptyUnit]

def extents (frames : List Frame) : List Span := frames.filterMap (·.piece.extent)

theorem extents_cons (f : Frame) (frames : List Frame) :
    extents (f :: frames) = f.piece.extent.toList ++ extents frames := by
  unfold extents
  rw [filterMap_cons]
  cases f.piece.extent <;> rfl

theorem extents_append (xs ys : List Frame) : extents (xs ++ ys) = extents xs ++ extents ys :=
  filterMap_append

section

variable {p : Production} (hp : p ∈ productions)

include hp

theorem not_unit_of_part : ∀ part ∈ p.parts, part.symbol ≠ .phrase .compilationUnit := by
  have hall : (productions.all fun p => p.parts.all fun part =>
      part.symbol != .phrase .compilationUnit) = true := by decide +kernel
  intro part hpart
  simpa using all_eq_true.mp (all_eq_true.mp hall p hp) part hpart

theorem filled_or_empty : (∃ part ∈ p.parts, part.symbol.mayBeEmpty = false) ∨
    p = ⟨.blockItems, [], none⟩ ∨ p = ⟨.compilationUnit, [], some .compilationUnit⟩ := by
  have hall : (productions.all fun p => (p.parts.any fun part => !part.symbol.mayBeEmpty) ||
      p == ⟨.blockItems, [], none⟩ || p == ⟨.compilationUnit, [], some .compilationUnit⟩) = true := by
    decide +kernel
  simpa [or_assoc] using all_eq_true.mp hall p hp

theorem token_of_literal (hb : p.builds = some .stringLiteral) : ∃ t, p.parts = [keep t] := by
  have hall : (productions.all fun p => p.builds != some .stringLiteral ||
      [Terminal.singleString, .doubleString, .tripleString].any fun t => p.parts == [keep t]) = true := by
    decide +kernel
  have hparts := all_eq_true.mp hall p hp
  rw [hb] at hparts
  obtain ⟨t, -, ht⟩ := any_eq_true.mp hparts
  exact ⟨t, by simpa using ht⟩

end

theorem cover_eq (frames : List Frame) : cover ((frames.map (·.piece)).map (·.extent)) =
      match extents frames with
      | [] => none
      | first :: more => some ⟨first.start, (more.getLast?.getD first).stop⟩ := by
  have hextents : ((frames.map (·.piece)).map (·.extent)).filterMap id = extents frames := by
    rw [map_map, filterMap_map]
    rfl
  rw [cover, hextents]
  cases extents frames with
  | nil => rfl
  | cons first more => simp only [getLast?_cons, Option.getD_some]

section

variable {s : Chars} {frames : List Frame} {parts : List Part}

theorem trees_of_bare {f : Frame} (hf : f.Located s) (hunit : f.symbol ≠ .phrase .compilationUnit)
    (h : f.piece.extent = none) : f.piece.trees = [] := by
  rcases hf.bare h with ⟨-, htrees⟩ | ⟨hsymbol, -⟩
  · exact htrees
  · exact absurd hsymbol hunit

theorem keptTrees_located (hs : frames.map (·.symbol) = parts.map (·.symbol))
    (h : ∀ f ∈ frames, f.Located s) (hunit : ∀ part ∈ parts, part.symbol ≠ .phrase .compilationUnit)
    {a b : Nat} (hlaid : Laid a b (extents frames)) : Laid a b (ownSpans (keptTrees parts (frames.map (·.piece)))) ∧
      ∀ t ∈ keptTrees parts (frames.map (·.piece)), Plain t ∧ GroovySharp.Located s t := by
  induction parts generalizing frames a with
  | nil =>
    obtain rfl : frames = [] := by simpa using hs
    refine ⟨hlaid, ?_⟩
    intro t ht
    cases ht
  | cons part parts ih =>
    cases frames with
    | nil => cases hs
    | cons f frames =>
      obtain ⟨hsymbol, hrest⟩ := cons.inj hs
      have hsymbol : f.symbol = part.symbol := hsymbol
      have hf := h f mem_cons_self
      have hfunit : f.symbol ≠ .phrase .compilationUnit := hsymbol ▸ hunit part mem_cons_self
      have ih {a : Nat} (hlaid : Laid a b (extents frames)) :=
        ih hrest (fun g hg => h g (mem_cons_of_mem _ hg)) (fun q hq => hunit q (mem_cons_of_mem _ hq)) hlaid
      rw [map_cons, keptTrees_cons, ownSpans_append]
      rw [extents_cons] at hlaid
      cases he : f.piece.extent with
      | none =>
        have htrees : (if part.kept then f.piece.trees else []) = [] := by rw [trees_of_bare hf hfunit he, ite_self]
        rw [he] at hlaid
        rw [htrees]
        exact ih hlaid
      | some e =>
        rw [he] at hlaid
        obtain ⟨hstart, hspan, hmore⟩ := hlaid
        obtain ⟨-, hown, htrees⟩ := hf.covered e he
        obtain ⟨hlaid, hall⟩ := ih hmore
        cases part.kept with
        | false => exact ⟨hlaid.mono (hstart.trans hspan) (Nat.le_refl b), hall⟩
        | true =>
          refine ⟨(hown.mono hstart (Nat.le_refl _)).append (Nat.le_refl _) hlaid, ?_⟩
          intro t ht
          rcases mem_append.mp ht with ht | ht
          · exact ⟨hf.plain t ht, htrees t ht⟩
          · exact hall t ht

theorem extents_ne_nil (hs : frames.map (·.symbol) = parts.map (·.symbol))
    (h : ∀ f ∈ frames, f.Located s) (hsome : ∃ part ∈ parts, part.symbol.mayBeEmpty = false) : extents frames ≠ [] := by
  obtain ⟨part, hpart, hsome⟩ := hsome
  have hmem : part.symbol ∈ frames.map (·.symbol) := hs ▸ mem_map_of_mem hpart
  obtain ⟨f, hf, hsymbol⟩ := mem_map.mp hmem
  intro hnil
  have he : f.piece.extent = none := filterMap_eq_nil_iff.mp hnil f hf
  rw [← hsymbol] at hsome
  rcases (h f hf).bare he with ⟨hb, -⟩ | ⟨hb, -⟩ <;> rw [hb] at hsome <;> cases hsome

theorem cover_locates (h : ∀ f ∈ frames, f.Located s) {a b : Nat} (hlaid : Laid a b (extents frames))
    {e : Span} (he : cover ((frames.map (·.piece)).map (·.extent)) = some e) :
    e.Locates s (slice s e.start.offset e.stop.offset) ∧
      Laid e.start.offset e.stop.offset (extents frames) ∧ a ≤ e.start.offset ∧ e.stop.offset ≤ b := by
  have hexact : ∀ x ∈ extents frames, ∃ text, x.Locates s text := by
    intro x hx
    obtain ⟨f, hf, hfx⟩ := mem_filterMap.mp hx
    exact ((h f hf).covered x hfx).1
  rw [cover_eq] at he
  cases hx : extents frames with
  | nil => simp [hx] at he
  | cons first more =>
    rw [hx] at he hlaid hexact
    cases he
    obtain ⟨htight, hle⟩ := hlaid.tight
    have hlast : more.getLast?.getD first ∈ first :: more := by
      cases hm : more.getLast? with
      | none => exact mem_cons_self
      | some x => exact mem_cons_of_mem _ (mem_of_getLast? hm)
    obtain ⟨_, hfirst⟩ := hexact first mem_cons_self
    obtain ⟨_, hlast⟩ := hexact _ hlast
    exact ⟨⟨htight.le, hlast.stop_le, rfl, hfirst.start_eq, hlast.stop_eq⟩, htight, hlaid.1, hle⟩

theorem plain_node {p : Production} (hp : p ∈ productions) {k : Kind} (hb : p.builds = some k)
    (hs : frames.map (·.symbol) = p.parts.map (·.symbol)) (h : ∀ f ∈ frames, f.Located s)
    (hplain : ∀ t ∈ keptTrees p.parts (frames.map (·.piece)), Plain t) {e : Span}
    (he : cover ((frames.map (·.piece)).map (·.extent)) = some e) (text : Chars) :
    Plain (.node k (keptTrees p.parts (frames.map (·.piece))) e text) := by
  refine .node ?_ hplain
  rintro rfl
  obtain ⟨t, ht⟩ := token_of_literal hp hb
  rw [ht] at hs
  obtain ⟨f, rfl, hsymbol⟩ := map_eq_singleton_iff.mp hs
  obtain ⟨l, hl⟩ := (h f mem_cons_self).token t hsymbol
  refine ⟨l, ?_, ?_⟩
  · rw [ht, map_cons, keptTrees_cons, hl]
    rfl
  · rw [map_cons, hl] at he
    exact (Option.some.inj he).symm

theorem assemble_located {p : Production} (hp : p ∈ productions) (state : Nat)
    (hs : frames.map (·.symbol) = p.parts.map (·.symbol)) (h : ∀ f ∈ frames, f.Located s)
    {a b : Nat} (hlaid : Laid a b (extents frames)) :
    Frame.Located s ⟨state, .phrase p.head, p.assemble s (frames.map (·.piece))⟩ ∧
      Laid a b (extents [⟨state, .phrase p.head, p.assemble s (frames.map (·.piece))⟩]) := by
  rcases filled_or_empty hp with hsome | rfl | rfl
  · cases he : cover ((frames.map (·.piece)).map (·.extent)) with
    | none =>
      have hne := extents_ne_nil hs h hsome
      rw [cover_eq] at he
      cases hx : extents frames with
      | nil => exact absurd hx hne
      | cons first more => simp [hx] at he
    | some e =>
      obtain ⟨hexact, htight, hstart, hstop⟩ := cover_locates h hlaid he
      obtain ⟨hown, hall⟩ := keptTrees_located hs h (not_unit_of_part hp) htight
      have hextent : Laid a b [e] := ⟨hstart, hexact.start_le_stop, hstop⟩
      cases hb : p.builds with
      | none =>
        simp only [Production.assemble, hb, he]
        refine ⟨⟨fun t ht => (hall t ht).1, by simp, ?_, by simp⟩, hextent⟩
        rintro _ ⟨⟩
        exact ⟨⟨_, hexact⟩, hown, fun t ht => (hall t ht).2⟩
      | some k =>
        have hplain := plain_node hp hb hs h (fun t ht => (hall t ht).1) he
        simp only [Production.assemble, hb, he, Option.getD_some]
        refine ⟨⟨by simpa using hplain _, by simp, ?_, by simp⟩, hextent⟩
        rintro _ ⟨⟩
        refine ⟨⟨_, hexact⟩, ⟨Nat.le_refl _, hexact.start_le_stop, Nat.le_refl _⟩, ?_⟩
        simpa using Located.node hexact hown fun t ht => (hall t ht).2
  · obtain rfl : frames = [] := by simpa using hs
    refine ⟨⟨?_, by simp, nofun, fun _ => .inl ⟨rfl, rfl⟩⟩, hlaid⟩
    rintro t ⟨⟩
  · obtain rfl : frames = [] := by simpa using hs
    refine ⟨⟨?_, by simp, nofun, fun _ => .inr ⟨rfl, rfl⟩⟩, hlaid⟩
    intro t ht
    obtain rfl := mem_singleton.mp ht
    exact .node nofun nofun

end

/-! ### Runs -/

/-- The frames of a stack are located one after another, the lowest first, before an offset. -/
structure StackLocated (s : Chars) (stop : Nat) (stack : List Frame) : Prop where
  frames : ∀ f ∈ stack, f.Located s
  laid : Laid 0 stop (extents stack.reverse)

/-- The parser is at an exact position, with the rest of the text before it. -/
structure Config.Located (s : Chars) (c : Config) : Prop where
  stack : StackLocated s c.position.offset c.stack
  position : c.position = Position.at s c.position.offset
  rest : c.rest = s.drop c.position.offset
  le : c.position.offset ≤ s.length

section

variable {T : Table} {s : Chars} {stack stack' : List Frame} {c : Config} {piece : Piece}

theorem reduces_located {t : Terminal} (hr : Reduces T s t stack stack') {stop : Nat}
    (h : StackLocated s stop stack) : StackLocated s stop stack' := by
  induction hr with
  | refl => exact h
  | step _ hstep _ ih =>
    obtain ⟨p, frames, rest, state, hp, rfl, hs, -, rfl⟩ := reduce?_eq_some_iff.mp hstep
    have hlaid := h.laid
    rw [reverse_append, reverse_reverse, extents_append] at hlaid
    obtain ⟨middle, hbelow, habove⟩ := hlaid.split
    obtain ⟨hframe, hextent⟩ := assemble_located (mem_of_getElem? hp) state hs
      (fun f hf => h.frames f (mem_append_left _ (mem_reverse.mpr hf))) habove
    refine ih ⟨?_, ?_⟩
    · intro f hf
      rcases mem_cons.mp hf with rfl | hf
      · exact hframe
      · exact h.frames f (mem_append_right _ hf)
    · rw [reverse_cons, extents_append]
      exact hbelow.append (Nat.le_refl middle) hextent

variable {n : Nat}

theorem not_newline_of_close {q : Char} (hq : q ≠ '\n') {cs : Chars}
    (h : closeLength? q cs = some n) : '\n' ∉ cs.take n := by
  fun_induction closeLength? q cs generalizing n with
  | case1 => cases h
  | case2 cs =>
    cases h
    simpa using hq.symm
  | case3 => cases h
  | case4 => cases h
  | case5 d rest hd _ _ ih =>
    obtain ⟨m, hm, rfl⟩ := Option.map_eq_some_iff.mp h
    simpa [Ne.symm hd] using ih hm
  | case6 => cases h
  | case7 c cs _ hc _ ih =>
    obtain ⟨m, hm, rfl⟩ := Option.map_eq_some_iff.mp h
    simpa [Ne.symm hc] using ih hm

theorem not_newline_of_lexeme? {allowed : Nat} {cs : Chars}
    (h : lexeme? allowed cs = some (.doubleString, n)) : '\n' ∉ cs.take n := by
  have hmatch := matchLength?_of_lexeme? (by decide) h
  obtain ⟨rest, m, rfl, hm, rfl⟩ := stringLength?_eq_some_iff.mp hmatch
  simpa using not_newline_of_close (by decide) hm

theorem Config.Located.advance (h : c.Located s) (hn : n ≤ c.rest.length) :
    c.position.advance (c.rest.take n) = Position.at s (c.position.offset + n) := by
  have hprefix : c.rest.take n <+: s.drop c.position.offset := h.rest ▸ take_prefix n c.rest
  have hadvance := Position.advance_at hprefix h.le
  rwa [length_take, Nat.min_eq_left hn, ← h.position] at hadvance

theorem Config.Located.length_rest (h : c.Located s) (hn : n ≤ c.rest.length) : c.position.offset + n ≤ s.length := by
  rw [h.rest, length_drop] at hn
  have hle := h.le
  omega

theorem Config.Located.skip (h : c.Located s) (hn : n ≤ c.rest.length) {stack : List Frame}
    (hstack : StackLocated s (c.position.offset + n) stack) (last : Option Token) :
    Config.Located s { c.skip n with stack, last } := by
  have hoffset : (c.position.advance (c.rest.take n)).offset = c.position.offset + n := by
    rw [h.advance hn]
    rfl
  refine ⟨?_, ?_, ?_, ?_⟩
  · exact hoffset.symm ▸ hstack
  · exact hoffset.symm ▸ h.advance hn
  · change c.rest.drop n = s.drop (c.position.advance (c.rest.take n)).offset
    rw [hoffset, h.rest, drop_drop]
  · exact hoffset.symm ▸ h.length_rest hn

theorem Config.Located.token (h : c.Located s) (hn : n ≤ c.rest.length) (t : Terminal) :
    Span.Locates s ⟨(c.token t n).start, (c.token t n).stop⟩ (c.token t n).text := by
  have hstop : (c.token t n).stop = Position.at s (c.position.offset + n) := h.advance hn
  have hoffset : (c.token t n).stop.offset = c.position.offset + n := by
    rw [hstop]
    rfl
  refine ⟨?_, ?_, ?_, h.position, ?_⟩
  · exact hoffset.symm ▸ Nat.le_add_right _ n
  · exact hoffset.symm ▸ h.length_rest hn
  · change slice s c.position.offset (c.token t n).stop.offset = c.rest.take n
    rw [hoffset, slice, Nat.add_sub_cancel_left, h.rest]
  · exact hoffset.symm ▸ hstop

theorem feeds_located (h : c.Located s) {t : Terminal}
    (hlex : lexeme? (T.accepts (topState c.stack)) c.rest = some (t, n))
    (hf : Feeds T s (c.token t n) c.stack stack') : StackLocated s (c.position.offset + n) stack' := by
  have hn := (lexeme?_bounds hlex).2
  have htoken := h.token hn t
  have hstop : (c.token t n).stop.offset = c.position.offset + n := by
    change (c.position.advance (c.rest.take n)).offset = _
    rw [h.advance hn]
    rfl
  cases hf with
  | mk hr _ =>
    have hbelow := reduces_located hr h.stack
    refine ⟨?_, ?_⟩
    · intro f hf
      rcases mem_cons.mp hf with rfl | hf
      · refine ⟨?_, fun _ _ => ⟨_, rfl⟩, ?_, nofun⟩
        · intro u hu
          obtain rfl := mem_singleton.mp hu
          refine .leaf fun hkind => ?_
          obtain rfl := LeafKind.terminal.inj hkind
          exact not_newline_of_lexeme? hlex
        · rintro _ ⟨⟩
          refine ⟨⟨_, htoken⟩, ⟨Nat.le_refl _, htoken.start_le_stop, Nat.le_refl _⟩, ?_⟩
          intro u hu
          obtain rfl := mem_singleton.mp hu
          exact .leaf htoken
      · exact hbelow.frames f hf
    · rw [reverse_cons, extents_append]
      exact hbelow.laid.append (Nat.le_refl _) ⟨Nat.le_refl _, htoken.start_le_stop, Nat.le_of_eq hstop⟩

theorem reads_located {n : Nonterminal} (hT : T.ReadsAs n) (h : Reads T s c piece)
    (hl : Linked T c.stack) (hc : c.Located s) : ∃ f : Frame, f.piece = piece ∧ f.symbol = .phrase n ∧ f.Located s := by
  induction h with
  | @done c top f below _ hf =>
    have hlinked := hl.feeds hf
    cases hf with
    | mk hr ha =>
      refine ⟨f, rfl, hT _ _ _ _ hlinked.2.1 ha, ?_⟩
      exact (reduces_located hr hc.stack).frames f mem_cons_self
  | @skip c t n piece hlex _ _ ih =>
    have hn := (lexeme?_bounds hlex).2
    have hstack : StackLocated s (c.position.offset + n) c.stack :=
      ⟨hc.stack.frames, hc.stack.laid.mono (Nat.le_refl 0) (Nat.le_add_right _ n)⟩
    exact ih hl (hc.skip hn hstack c.last)
  | @take c t n stack piece hlex _ hf _ ih =>
    exact ih (hl.feeds hf) (hc.skip (lexeme?_bounds hlex).2 (feeds_located hc hlex hf) _)

theorem parse_located {n : Nonterminal} (hT : T.ReadsAs n) (h : parse T s = .ok piece) :
    ∃ f : Frame, f.piece = piece ∧ f.symbol = .phrase n ∧ f.Located s := by
  refine reads_located hT (reads_of_run h) trivial ⟨⟨?_, Nat.le_refl 0⟩, rfl, rfl, Nat.zero_le _⟩
  intro f hf
  cases hf

end

end Grammar

/-! ### Holes of strings -/

namespace Program

open Source (bind_eq_ok)
open Text.Interpolated

theorem dottedLength_le (fuel : Nat) (cs : Chars) : dottedLength fuel cs ≤ cs.length := by
  fun_induction dottedLength fuel cs with
  | case1 cs fuel n hn => exact (nameLength?_bounds hn).2
  | case2 cs fuel n hn rest hrest _ ih =>
    have hlen := congrArg List.length hrest
    rw [length_drop, length_cons] at hlen
    omega
  | case3 cs fuel n hn => exact (nameLength?_bounds hn).2
  | case4 => exact Nat.zero_le _

def HolesIn (raw : Chars) : Nat → List Hole → Prop
  | n, [] => n ≤ raw.length
  | n, hole :: holes =>
    n ≤ hole.offset ∧ (∃ a b, raw = a ++ hole.source ++ b ∧ a.length = hole.offset) ∧
      HolesIn raw (hole.offset + hole.source.length) holes

variable {raw s : Chars} {t : Tree}

theorem HolesIn.mono {holes : List Hole} {m n : Nat} (h : HolesIn raw n holes) (hle : m ≤ n) : HolesIn raw m holes := by
  cases holes with
  | nil => exact hle.trans h
  | cons hole holes => exact ⟨hle.trans h.1, h.2⟩

section

variable {raw before cs after : Chars} (hraw : raw = before ++ cs ++ after)

include hraw

theorem holesIn_nil : HolesIn raw before.length [] := by
  rw [HolesIn, hraw]
  simp

theorem holesIn_cons (opening source closing rest : Chars)
    (hcs : cs = opening ++ source ++ closing ++ rest) (text : Chars) {holes : List Hole}
    (h : HolesIn raw (before ++ opening ++ source ++ closing).length holes) :
    HolesIn raw before.length (⟨text, source, before.length + opening.length⟩ :: holes) := by
  refine ⟨Nat.le_add_right _ _, ⟨before ++ opening, closing ++ rest ++ after, ?_, by simp⟩, h.mono ?_⟩
  · simp [hraw, hcs]
  · simp only [length_append]
    omega

end

theorem splitFrom_holesIn {before cs after : Chars} (hraw : raw = before ++ cs ++ after)
    {offset : Nat} (hoffset : before.length = offset) (fuel : Nat) (text : Chars) :
    HolesIn raw offset (splitFrom fuel offset text cs).1 := by
  fun_induction splitFrom fuel offset text cs generalizing before with
  | case1 | case2 | case4 | case5 | case6 => exact hoffset ▸ holesIn_nil hraw
  | case3 fuel offset text d rest ih =>
    refine (@ih (before ++ ['\\', d]) ?_ ?_).mono (Nat.le_add_right _ _)
    · simpa using hraw
    · simp [hoffset]
  | case7 fuel offset text c _ inner source close rest hrest _ holes tail hsplit _ =>
    rename_i ih
    have hinner : inner = source ++ close :: rest := by rw [← hrest, drop_takeWhile, takeWhile_append_dropWhile]
    subst hoffset
    refine holesIn_cons hraw [c, '\x7b'] source [close] rest ?_ _ ?_
    · simp [hinner]
    · refine (hsplit ▸ @ih (before ++ [c, '\x7b'] ++ source ++ [close]) ?_ ?_).mono ?_
      · simp [hraw, hinner]
      all_goals simp only [length_append, length_cons, length_nil]; omega
  | case8 fuel offset text c cs _ _ hname =>
    simp only [hname]
    exact hoffset ▸ holesIn_nil hraw
  | case9 fuel offset text c cs _ _ holes tail _ hname _ ih =>
    have hle := dottedLength_le cs.length cs
    generalize dottedLength cs.length cs = n at *
    obtain ⟨n, rfl⟩ := Nat.exists_eq_succ_of_ne_zero hname
    subst hoffset
    have hlen : (cs.take n.succ).length = n.succ := by rw [length_take, Nat.min_eq_left hle]
    refine holesIn_cons hraw [c] (cs.take n.succ) [] (cs.drop n.succ) ?_ _ ?_
    · simp
    · refine (@ih (before ++ [c] ++ cs.take n.succ) ?_ ?_).mono ?_
      · simp [hraw]
      all_goals simp only [length_append, length_cons, length_nil, hlen]
      omega
  | case10 fuel offset text c cs _ _ ih =>
    refine (@ih (before ++ [c]) ?_ ?_).mono (Nat.le_add_right _ _)
    · simpa using hraw
    · simp [hoffset]

theorem readHole_located {a source b : Chars} (hs : s = a ++ source ++ b)
    (h : readHole (Position.at s a.length) source = .ok t) :
    Located s t ∧ Laid a.length (a.length + source.length) (ownSpans [t]) := by
  unfold readHole at h
  split at h
  · cases h
  · next piece hparse =>
    cases h
    obtain ⟨⟨e, rest, htrees, -, rfl⟩, -⟩ := parse_formed ExpressionTable.readsAs hparse
    obtain ⟨f, rfl, hsymbol, hf⟩ := parse_located ExpressionTable.readsAs hparse
    have htree : theTree f.piece = e := by rw [theTree, htrees]
    cases hx : f.piece.extent with
    | none => rcases hf.bare hx with ⟨hbare, -⟩ | ⟨hbare, -⟩ <;> rw [hsymbol] at hbare <;> cases hbare
    | some x =>
      obtain ⟨⟨text, hexact⟩, hlaid, hlocated⟩ := hf.covered x hx
      rw [htrees] at hlaid hlocated
      have hspans : Laid 0 source.length (ownSpans [e]) := hlaid.mono (Nat.zero_le _) hexact.stop_le
      rw [htree]
      refine ⟨(hlocated e mem_cons_self).within hs, ?_⟩
      exact ownSpans_within (Position.at s a.length) [e] ▸ hspans.within (Position.at s a.length)

theorem readHoles_located {a b : Chars} (hs : s = a ++ raw ++ b) (hline : '\n' ∉ raw)
    {span : Span} {kind : LeafKind} (hk : kind.isPiece = true) {holes : List Hole} {n : Nat}
    (hholes : HolesIn raw n holes) {children : List Tree}
    (h : readHoles (Position.at s a.length) span kind holes = .ok children) :
    (∀ t ∈ children, Located s t) ∧ Laid (a.length + n) (a.length + raw.length) (ownSpans children) := by
  induction holes generalizing kind n children with
  | nil =>
    cases h
    exact ⟨nofun, Nat.add_le_add_left hholes _⟩
  | cons hole holes ih =>
    obtain ⟨tree, htree, h⟩ := bind_eq_ok.mp h
    obtain ⟨rest, hrest, h⟩ := bind_eq_ok.mp h
    cases h
    obtain ⟨hle, ⟨x, y, rfl, hx⟩, hmore⟩ := hholes
    -- the literal is on one line, so the hole stands as many columns behind its start as characters
    have horigin : (⟨(Position.at s a.length).offset + hole.offset, (Position.at s a.length).line,
        (Position.at s a.length).column + hole.offset⟩ : Position) = Position.at s (a ++ x).length := by
      have hx' : x <+: s.drop a.length := by
        rw [hs, append_assoc, drop_left, append_assoc, append_assoc]
        exact prefix_append _ _
      have hnot : '\n' ∉ x := fun hmem => hline (by simp [hmem])
      rw [← hx, ← Position.advance_line _ hnot, Position.advance_at hx' (by simp [hs]), length_append]
    rw [horigin] at htree
    obtain ⟨hlocated, hlaid⟩ := readHole_located (b := y ++ b) (by simp [hs]) htree
    obtain ⟨hall, hlater⟩ := ih rfl hmore hrest
    refine ⟨?_, ?_⟩
    · intro t ht
      rcases mem_cons.mp ht with rfl | ht
      · exact .piece hk
      · rcases mem_cons.mp ht with rfl | ht
        · exact hlocated
        · exact hall t ht
    · have hpiece (text : Chars) : ownSpans (.leaf ⟨kind, text, span⟩ :: tree :: rest) =
          ownSpans [tree] ++ ownSpans rest := by
        rw [← ownSpans_append, ownSpans, filterMap_cons_none]
        · rfl
        · simp [Tree.ownSpan?, hk]
      rw [hpiece]
      refine (hlaid.mono ?_ (Nat.le_refl _)).append ?_ hlater
      · rw [length_append, hx]
        exact Nat.add_le_add_left hle _
      · rw [length_append, hx, Nat.add_assoc]

theorem split_holesIn (hraw : Terminal.doubleString.spells raw = true) : HolesIn raw 1 (split raw).1 := by
  simp only [Terminal.spells, Bool.and_eq_true, beq_iff_eq] at hraw
  obtain ⟨inside, hinside⟩ := getLast?_eq_some_iff.mp hraw.2
  have hdrop : raw.tail.dropLast = inside := by rw [hinside, dropLast_concat]
  obtain ⟨tail, rfl⟩ := head?_eq_some_iff.mp hraw.1
  obtain rfl : tail = inside ++ ['"'] := hinside
  have hraw : '"' :: (inside ++ ['"']) = ['"'] ++ inside ++ ['"'] := rfl
  rw [split, hdrop]
  exact splitFrom_holesIn hraw rfl _ _

theorem readInterpolated_located {span : Span} (hraw : Terminal.doubleString.spells raw = true)
    (hline : '\n' ∉ raw) (hspan : span.Locates s raw) (h : readInterpolated raw span span = .ok t) :
    Located s t ∧ t.ownSpan? = some span := by
  have hlen : (s.take span.start.offset).length = span.start.offset := by
    rw [length_take, Nat.min_eq_left (hspan.start_le_stop.trans hspan.stop_le)]
  have hs := hspan.split
  have hholes := split_holesIn hraw
  unfold readInterpolated at h
  cases hsplit : split raw with
  | mk holes tail =>
    rw [hsplit] at h hholes
    obtain ⟨children, hchildren, h⟩ := bind_eq_ok.mp h
    rw [hspan.start_eq] at hchildren
    nth_rewrite 1 [← hlen] at hchildren
    obtain ⟨hall, hlaid⟩ := readHoles_located hs hline rfl hholes hchildren
    cases tail with
    | openHole | emptyHole | badName => cases h
    | text last =>
      cases h
      refine ⟨.node hspan ?_ ?_, rfl⟩
      · have hend : span.start.offset + raw.length = span.stop.offset := by
          rw [← hspan.slice_eq, slice, length_take, length_drop]
          have hstart := hspan.start_le_stop
          have hstop := hspan.stop_le
          omega
        have hpiece (text : Chars) : ownSpans [.leaf ⟨.gstringEnd, text, span⟩] = [] := rfl
        rw [hlen, hend] at hlaid
        rw [ownSpans_append, hpiece, append_nil]
        exact hlaid.mono (Nat.le_add_right _ 1) (Nat.le_refl _)
      · intro t ht
        rcases mem_append.mp ht with ht | ht
        · exact hall t ht
        · obtain rfl := mem_singleton.mp ht
          exact .piece rfl

/-! ### Programs -/

theorem expand_located {t' : Tree} (hf : Formed t) (hp : Plain t) (hl : Located s t)
    (h : expand t = .ok t') : Located s t' ∧ t'.ownSpan? = t.ownSpan? := by
  induction hf generalizing t' with
  | leaf =>
    cases h
    exact ⟨hl, rfl⟩
  | @node k children span text _ _ _ hc ih =>
    cases hp with | node hliteral hplain => ?_
    cases hl with | node hspan hlaid hlocated => ?_
    have hstays (h : (do return Tree.node k (← expandAll children) span text) = Except.ok t') :
        Located s t' ∧ t'.ownSpan? = some span := by
      obtain ⟨ts, hts, h⟩ := bind_eq_ok.mp h
      cases h
      have hall := forall₂_of_expandAll (fun t ht t' h => ih t ht (hplain t ht) (hlocated t ht) h) hts
      refine ⟨.node hspan ?_ (forall_of_forall₂ (fun _ _ hR => hR.1) hall), rfl⟩
      rw [ownSpans_congr (hall.imp fun _ _ hR => hR.2)]
      exact hlaid
    by_cases hk : ∃ l rest, k = .stringLiteral ∧ children = .leaf l :: rest
    · obtain ⟨l, rest, rfl, rfl⟩ := hk
      rw [expand_literal] at h
      split at h
      · next hl =>
        obtain ⟨l', hchildren, rfl⟩ := hliteral rfl
        obtain ⟨rfl, -⟩ : l = l' ∧ rest = [] := by simpa using hchildren
        have hmem : Tree.leaf l ∈ Tree.leaf l :: rest := mem_cons_self
        have hspelled : Terminal.doubleString.spells l.text = true := by
          simpa only [Leaf.spelled, hl.1] using (hc _ hmem).spelled
        have hline : '\n' ∉ l.text := by
          cases hplain _ hmem with
          | leaf hline => exact hline hl.1
        cases hlocated _ hmem with
        | piece hpiece =>
          rw [hl.1] at hpiece
          cases hpiece
        | leaf hloc => exact readInterpolated_located hspelled hline hloc h
      · exact hstays h
    · refine hstays (expand_of_not_literal span text ?_ ▸ h)
      intro l rest hkind hchildren
      exact hk ⟨l, rest, hkind, hchildren⟩

theorem parse_unit {source : Chars} {piece : Piece} (h : parse ProgramTable.table source = .ok piece) :
    theTree piece = emptyUnit ∨ Formed (theTree piece) ∧ Plain (theTree piece) ∧ Located source (theTree piece) := by
  obtain ⟨⟨unit, rest, htrees, -, -⟩, hformed⟩ := parse_formed ProgramTable.readsAs h
  obtain ⟨f, rfl, hsymbol, hf⟩ := parse_located ProgramTable.readsAs h
  have htree : theTree f.piece = unit := by rw [theTree, htrees]
  have hmem : unit ∈ f.piece.trees := by simp [htrees]
  rw [htree]
  cases hx : f.piece.extent with
  | none =>
    rcases hf.bare hx with ⟨hbare, -⟩ | ⟨-, hempty⟩
    · rw [hsymbol] at hbare
      cases hbare
    · rw [hempty] at hmem
      exact .inl (mem_singleton.mp hmem)
  | some x =>
    obtain ⟨-, -, hlocated⟩ := hf.covered x hx
    exact .inr ⟨hformed unit hmem, hf.plain unit hmem, hlocated unit hmem⟩

/-- The tree of a program with a construct is located in the program. -/
theorem read_located {source : Chars} {k : Kind} {children : List Tree} {span : Span}
    {text : Chars} (h : read source = .ok (.node k children span text)) (hne : children ≠ []) :
    Located source (.node k children span text) := by
  unfold read at h
  split at h
  · cases h
  · next piece hparse =>
    rcases parse_unit hparse with hempty | ⟨hformed, hplain, hlocated⟩
    · rw [hempty] at h
      cases h
      exact absurd rfl hne
    · exact (expand_located hformed hplain hlocated h).1

def hasParts : Tree → Bool
  | .node _ (_ :: _) _ _ => true
  | _ => false

def callWithHoles : Chars := "a = 1;\nf(\"b$\x7bc + 1\x7d d$e.g\", h);\n".toList

theorem read_located_two_holes : ∃ k children span text,
    read callWithHoles = .ok (.node k children span text) ∧
      children ≠ [] ∧
      Located callWithHoles (.node k children span text) := by
  have hsome : (read callWithHoles).toOption.any
      hasParts = true := by decide +kernel
  obtain ⟨t, hread, ht⟩ := Source.exists_of_toOption_any hsome
  unfold hasParts at ht
  split at ht
  · next k child children span text =>
    have hne : child :: children ≠ [] := List.cons_ne_nil _ _
    exact ⟨k, child :: children, span, text, hread, hne, read_located hread hne⟩
  · cases ht

end Program

end GroovySharp
