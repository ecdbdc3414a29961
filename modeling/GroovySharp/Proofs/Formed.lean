import GroovySharp.Proofs.Pattern
import GroovySharp.Proofs.Reading
import GroovySharp.Proofs.Run
import GroovySharp.Proofs.StatementTable

/-!
# Trees that are well formed

A tree is formed if the children of each node match a pattern of its kind and each token is spelled as
its terminal asks.
-/

namespace GroovySharp

open Grammar Text Unicode List

/-! ### Spelling -/

/-- The text is one that tokens of the terminal have; nothing is said of names and other strings. -/
def Grammar.Terminal.spells (t : Terminal) (text : Chars) : Bool :=
  match t with
  | .assign => [['='], ['+', '='], ['-', '='], ['*', '='], ['/', '='], ['%', '=']].contains text
  | .integer => !text.isEmpty && text.all isDigit
  | .doubleString => text.head? == some '"' && text.tail.getLast? == some '"'
  | t => t.fixedText?.all (· == text)

def Leaf.spelled (l : Leaf) : Bool :=
  match l.kind with
  | .terminal t => t.spells l.text
  | _ => true

variable {t : Terminal} {cs : Chars} {n : Nat}

theorem spells_of_fixedText? {text : Chars} (h : t.fixedText? = some text) : t.spells text = true := by
  cases t <;> cases h <;> rfl

theorem getLast?_take_close {q : Char} (h : closeLength? q cs = some n) : (cs.take n).getLast? = some q := by
  have hpush {c : Char} {r : Chars} {m : Nat} (hr : (r.take m).getLast? = some q) :
      ((c :: r).take (m + 1)).getLast? = some q := by
    rw [take_succ_cons, getLast?_cons, hr]
    rfl
  fun_induction closeLength? q cs generalizing n with
  | case1 => cases h
  | case2 cs =>
    cases h
    simp
  | case3 => cases h
  | case4 => cases h
  | case5 d rest _ _ _ ih =>
    obtain ⟨m, hm, rfl⟩ := Option.map_eq_some_iff.mp h
    exact hpush (hpush (ih hm))
  | case6 => cases h
  | case7 c cs _ _ _ ih =>
    obtain ⟨m, hm, rfl⟩ := Option.map_eq_some_iff.mp h
    exact hpush (ih hm)

theorem spells_of_matchLength? (h : t.matchLength? cs = some n) : t.spells (cs.take n) = true := by
  have hfixed (w : Chars) (hw : (if w.isPrefixOf cs then some w.length else none) = some n) : cs.take n = w := by
    split at hw
    · next hp =>
      cases hw
      exact (prefix_iff_eq_take.mp (List.isPrefixOf_iff_prefix.mp hp)).symm
    · cases hw
  cases t with
  | assign =>
    rcases assignLength?_eq_some h with ⟨rest, rfl, rfl⟩ | ⟨c, rest, hc, rfl, rfl⟩
    · rfl
    · simp only [mem_cons, not_mem_nil, or_false] at hc
      rcases hc with rfl | rfl | rfl | rfl | rfl <;> rfl
  | integer =>
    have hn := (drop_integer h).1
    have hpos := (integerLength?_bounds h).1
    have hall : (cs.takeWhile isDigit).all isDigit = true := all_takeWhile
    have hne : cs.takeWhile isDigit ≠ [] := by
      intro hnil
      rw [hnil] at hn
      exact absurd hn (Nat.ne_of_gt hpos)
    simp only [Terminal.spells, hn, Grammar.take_takeWhile, hall, Bool.and_true, Bool.not_eq_true',
      isEmpty_eq_false_iff]
    exact hne
  | doubleString =>
    obtain ⟨rest, m, rfl, hm, rfl⟩ := stringLength?_eq_some_iff.mp h
    simp [Terminal.spells, getLast?_take_close hm]
  | callName | commandName | name | decimal | tripleString | singleString | endOfInput | blank
  | lineComment | blockComment => rfl
  | _ => exact spells_of_fixedText? (congrArg some (hfixed _ h).symm)

theorem spells_of_lexeme? {allowed : Nat} (h : lexeme? allowed cs = some (t, n)) : t.spells (cs.take n) = true := by
  obtain ⟨k, -, hm, rfl⟩ := exists_of_lexeme? h
  split
  · unfold retag
    cases hf : Terminal.keywords.find? fun k => k.mem allowed && k.fixedText? == some (cs.take n) with
    | none => rfl
    | some k =>
      have hk := find?_some hf
      simp only [Bool.and_eq_true, beq_iff_eq] at hk
      exact spells_of_fixedText? hk.2
  · exact spells_of_matchLength? hm

/-! ### Formed trees -/

/-- The children of every node match a pattern of its kind, and every token is spelled as it should. -/
inductive Formed : Tree → Prop
  | leaf {l : Leaf} (h : l.spelled = true) : Formed (.leaf l)
  | node {k : Kind} {children : List Tree} {span : Span} {text : Chars} {pattern : List Item}
    (hp : pattern ∈ k.patterns) (hf : Fits pattern children) (hc : ∀ t ∈ children, Formed t) :
    Formed (.node k children span text)

theorem Formed.spelled {l : Leaf} (h : Formed (.leaf l)) : l.spelled = true := by
  cases h
  assumption

namespace Grammar

/-- The trees of the frame are formed and are what its symbol is read as. -/
structure Frame.Formed (f : Frame) : Prop where
  fits : Fits [f.symbol.item] f.piece.trees
  trees : ∀ t ∈ f.piece.trees, GroovySharp.Formed t

theorem keptTrees_formed {parts : List Part} {frames : List Frame}
    (hs : frames.map (·.symbol) = parts.map (·.symbol)) (h : ∀ f ∈ frames, f.Formed) :
    Fits ((parts.filter (·.kept)).map (·.symbol.item)) (keptTrees parts (frames.map (·.piece))) ∧
      ∀ t ∈ keptTrees parts (frames.map (·.piece)), GroovySharp.Formed t := by
  induction parts generalizing frames with
  | nil =>
    refine ⟨rfl, ?_⟩
    intro t ht
    cases ht
  | cons part parts ih =>
    cases frames with
    | nil => cases hs
    | cons f frames =>
      obtain ⟨hsymbol, hrest⟩ := cons.inj hs
      have hsymbol : f.symbol = part.symbol := hsymbol
      obtain ⟨hfits, htrees⟩ := ih hrest fun g hg => h g (mem_cons_of_mem _ hg)
      have hf := h f mem_cons_self
      rw [map_cons, keptTrees_cons]
      cases hk : part.kept with
      | false =>
        rw [filter_cons_of_neg (by simp [hk])]
        exact ⟨hfits, htrees⟩
      | true =>
        rw [filter_cons_of_pos hk, map_cons, if_pos rfl]
        refine ⟨fits_append (a := [part.symbol.item]) (hsymbol ▸ hf.fits) hfits, ?_⟩
        intro t ht
        rcases mem_append.mp ht with ht | ht
        · exact hf.trees t ht
        · exact htrees t ht

theorem assemble_formed {p : Production} (hp : p ∈ productions) (source : Chars) (state : Nat)
    {frames : List Frame} (hs : frames.map (·.symbol) = p.parts.map (·.symbol)) (h : ∀ f ∈ frames, f.Formed) :
    Frame.Formed ⟨state, .phrase p.head, p.assemble source (frames.map (·.piece))⟩ := by
  obtain ⟨hfits, htrees⟩ := keptTrees_formed hs h
  have hfitting := fitting_of_mem hp
  unfold Production.fitting at hfitting
  unfold Production.assemble
  cases hb : p.builds with
  | none =>
    rw [hb] at hfitting
    exact ⟨hfits.of_covers hfitting, htrees⟩
  | some k =>
    rw [hb] at hfitting
    obtain ⟨hhead, hpattern⟩ := Bool.and_eq_true_iff.mp hfitting
    obtain ⟨q, hq, hcovers⟩ := any_eq_true.mp hpattern
    have hnode {t : Tree} (ht : (kindsOf [k]).admits t = true) : Fits [.one (kindsOf [k])] [t] :=
      ⟨t, [], rfl, ht, rfl⟩
    refine ⟨(hnode ?_).of_covers hhead, ?_⟩
    · simp [Shape.admits, kindsOf]
    · intro t ht
      obtain rfl := mem_singleton.mp ht
      exact .node hq (hfits.of_covers hcovers) htrees

section

variable {T : Table} {source : Chars} {stack stack' : List Frame}

theorem reduces_formed (hr : Reduces T source t stack stack')
    (h : ∀ f ∈ stack, f.Formed) : ∀ f ∈ stack', f.Formed := by
  induction hr with
  | refl => exact h
  | step _ hstep _ ih =>
    obtain ⟨p, frames, rest, state, hp, rfl, hs, -, rfl⟩ := reduce?_eq_some_iff.mp hstep
    refine ih ?_
    intro f hf
    rcases mem_cons.mp hf with rfl | hf
    · refine assemble_formed (mem_of_getElem? hp) source state hs ?_
      intro g hg
      exact h g (mem_append_left _ (mem_reverse.mpr hg))
    · exact h f (mem_append_right _ hf)

theorem feeds_formed {token : Token} (hf : Feeds T source token stack stack')
    (ht : token.terminal.spells token.text = true) (h : ∀ f ∈ stack, f.Formed) : ∀ f ∈ stack', f.Formed := by
  obtain ⟨hr, -⟩ := hf
  intro f hf
  rcases mem_cons.mp hf with rfl | hf
  · refine ⟨⟨_, [], rfl, ?_, rfl⟩, ?_⟩
    · simp [tokensOf, Shape.admits]
    · intro t htree
      obtain rfl := mem_singleton.mp htree
      exact .leaf ht
  · exact reduces_formed hr h f hf

def Table.ReadsAs (T : Table) (n : Nonterminal) : Prop :=
  ∀ b s q e, T.Enters b s q → T.action? q .endOfInput = some (.shift e) → s = .phrase n

theorem reads_formed {n : Nonterminal} (hT : T.ReadsAs n) {c : Config} {piece : Piece}
    (h : Reads T source c piece) (hl : Linked T c.stack) (hs : ∀ f ∈ c.stack, f.Formed) :
    Fits [n.item] piece.trees ∧ ∀ t ∈ piece.trees, GroovySharp.Formed t := by
  induction h with
  | @done c top f below _ hf =>
    have hfinal := feeds_formed hf rfl hs f (by simp)
    have hlinked := hl.feeds hf
    cases hf with
    | mk _ ha =>
      have hsymbol : f.symbol = .phrase n := hT _ _ _ _ hlinked.2.1 ha
      have hfits := hfinal.fits
      rw [hsymbol] at hfits
      exact ⟨hfits, hfinal.trees⟩
  | skip _ _ _ ih => exact ih hl hs
  | @take c t n stack piece hlex _ hf _ ih => exact ih (hl.feeds hf) (feeds_formed hf (spells_of_lexeme? hlex) hs)

theorem parse_formed {n : Nonterminal} (hT : T.ReadsAs n) {piece : Piece} (h : parse T source = .ok piece) :
    Fits [n.item] piece.trees ∧ ∀ t ∈ piece.trees, GroovySharp.Formed t := by
  refine reads_formed hT (reads_of_run h) trivial ?_
  intro f hf
  cases hf

end

theorem ProgramTable.readsAs : ProgramTable.table.ReadsAs .compilationUnit := by
  intro b s q e he ha
  obtain rfl := ProgramTable.end_state ha
  exact ProgramTable.unit_of_enters he

theorem row_of_shift {T : Table} {q e : Nat}
    (h : T.action? q t = some (.shift e)) : ∃ r, T.rows[q]? = some r ∧ t.mem r.shifts = true := by
  unfold Table.action? at h
  cases hr : T.rows[q]? with
  | none => simp [hr] at h
  | some r =>
    refine ⟨r, rfl, ?_⟩
    cases hs : t.mem r.shifts with
    | true => rfl
    | false =>
      simp only [hr, hs, Option.bind_eq_bind, Option.bind_some, Bool.false_eq_true, if_false] at h
      obtain ⟨p, -, hp⟩ := Option.bind_eq_some_iff.mp h
      cases hp

theorem ExpressionTable.readsAs : ExpressionTable.table.ReadsAs .expression := by
  intro b s q e he ha
  have hrows : ExpressionTable.table.rows.zipIdx.all (fun p =>
      !Terminal.endOfInput.mem p.1.shifts || p.2 == 387) = true := by decide +kernel
  have hmoves : ExpressionTable.table.rows.all (fun r => r.moves.all fun p =>
      p.2 != 387 || p.1 == .phrase .expression) = true := by decide +kernel
  obtain ⟨r, hr, hshift⟩ := row_of_shift ha
  have hrow := all_eq_true.mp hrows (r, q) (mem_zipIdx_iff_getElem?.mpr hr)
  obtain rfl : q = 387 := by simpa [hshift] using hrow
  rcases he.eq_or_mem with hq | ⟨r', hr', hm⟩
  · cases s with
    | phrase n => cases n <;> first | rfl | cases hq
    | terminal t => cases t <;> cases hq
  · have hmove := all_eq_true.mp (all_eq_true.mp hmoves r' hr') _ hm
    simpa using hmove

end Grammar

/-! ### Trees in place of others -/

def Item.shape : Item → Shape
  | one s | optional s | many s => s

theorem forall₂_split {α β : Type} {R : α → β → Prop} {a b : List α} {ys : List β}
    (h : List.Forall₂ R (a ++ b) ys) : ∃ x y, ys = x ++ y ∧ List.Forall₂ R a x ∧ List.Forall₂ R b y := by
  induction a generalizing ys with
  | nil => exact ⟨[], ys, rfl, .nil, h⟩
  | cons t a ih =>
    cases h with
    | cons ht hrest =>
      obtain ⟨x, y, rfl, hx, hy⟩ := ih hrest
      exact ⟨_ :: x, y, rfl, .cons ht hx, hy⟩

theorem Fits.of_forall₂ {R : Tree → Tree → Prop} {items : List Item}
    (hR : ∀ item ∈ items, ∀ t t', R t t' → item.shape.admits t = true → item.shape.admits t' = true)
    {ts ts' : List Tree} (hf : Fits items ts) (h : List.Forall₂ R ts ts') : Fits items ts' := by
  induction items generalizing ts ts' with
  | nil =>
    obtain rfl : ts = [] := hf
    cases h
    rfl
  | cons item items ih =>
    have hitem := hR item mem_cons_self
    have hitems {ts ts' : List Tree} (hf : Fits items ts) (h : List.Forall₂ R ts ts') : Fits items ts' :=
      ih (fun i hi => hR i (mem_cons_of_mem _ hi)) hf h
    cases item with
    | one s =>
      obtain ⟨t, rest, rfl, ht, hrest⟩ := hf
      cases h with
      | cons hfirst hmore => exact ⟨_, _, rfl, hitem _ _ hfirst ht, hitems hrest hmore⟩
    | optional s =>
      rcases hf with hf | ⟨t, rest, rfl, ht, hrest⟩
      · exact .inl (hitems hf h)
      · cases h with
        | cons hfirst hmore => exact .inr ⟨_, _, rfl, hitem _ _ hfirst ht, hitems hrest hmore⟩
    | many s =>
      obtain ⟨front, rest, rfl, hfront, hrest⟩ := hf
      obtain ⟨x, y, rfl, hx, hy⟩ := forall₂_split h
      refine ⟨x, y, rfl, ?_, hitems hrest hy⟩
      clear h hy hrest
      induction hx with
      | nil =>
        intro t ht
        cases ht
      | cons hfirst _ ihx =>
        intro t ht
        rcases mem_cons.mp ht with rfl | ht
        · exact hitem _ _ hfirst (hfront _ mem_cons_self)
        · exact ihx (fun t ht => hfront t (mem_cons_of_mem _ ht)) t ht

theorem admits_within (s : Shape) (origin : Position) (t : Tree) : s.admits (t.within origin) = s.admits t := by
  cases t <;> rfl

theorem allWithin_eq_map (origin : Position) (ts : List Tree) :
    Tree.allWithin origin ts = ts.map (·.within origin) := by
  induction ts with
  | nil => rfl
  | cons t ts ih => rw [Tree.allWithin, ih, map_cons]

theorem Formed.within {t : Tree} (h : Formed t) (origin : Position) : Formed (t.within origin) := by
  induction h with
  | leaf h => exact .leaf h
  | @node k children span text pattern hp hf _ ih =>
    have hsame : List.Forall₂ (fun t t' => t' = t.within origin) children (Tree.allWithin origin children) := by
      rw [allWithin_eq_map]
      exact forall₂_map_right_iff.mpr (forall₂_same.mpr fun _ _ => rfl)
    refine .node hp (hf.of_forall₂ ?_ hsame) ?_
    · rintro item - t _ rfl ht
      rw [admits_within, ht]
    · intro t ht
      rw [allWithin_eq_map] at ht
      obtain ⟨t', ht', rfl⟩ := mem_map.mp ht
      exact ih t' ht'

/-! ### Holes of strings -/

namespace Program

open Source (bind_eq_ok)
open Text.Interpolated

theorem readHole_formed {origin : Position} {source : Chars} {t : Tree}
    (h : readHole origin source = .ok t) : Formed t ∧ expressionShape.admits t = true := by
  unfold readHole at h
  split at h
  · cases h
  · next piece hparse =>
    cases h
    obtain ⟨⟨e, rest, htrees, he, hrest⟩, hformed⟩ := parse_formed ExpressionTable.readsAs hparse
    have htree : theTree piece = e := by rw [theTree, htrees]
    rw [htree, admits_within]
    exact ⟨(hformed e (by simp [htrees])).within origin, he⟩

theorem pieceShape_admits {t : Tree} (h : expressionShape.admits t = true) : pieceShape.admits t = true :=
  Shape.admits_of_within (by decide) h

theorem readHoles_formed {base : Position} {span : Span} {kind : LeafKind} {holes : List Hole}
    {children : List Tree} (h : readHoles base span kind holes = .ok children)
    (hk : kind = .gstringBegin ∨ kind = .gstringPart) : (∀ t ∈ children, Formed t) ∧ (holes = [] → children = []) ∧
      (holes ≠ [] → Fits [.one { tokens := [kind] }, .many pieceShape] children) := by
  induction holes generalizing kind children with
  | nil =>
    cases h
    refine ⟨?_, fun _ => rfl, fun hne => absurd rfl hne⟩
    intro t ht
    cases ht
  | cons hole holes ih =>
    obtain ⟨tree, htree, h⟩ := bind_eq_ok.mp h
    obtain ⟨rest, hrest, h⟩ := bind_eq_ok.mp h
    cases h
    obtain ⟨hformed, hadmits⟩ := readHole_formed htree
    obtain ⟨hrests, hnil, hfits⟩ := ih hrest (.inr rfl)
    have hpieces : ∀ t ∈ rest, pieceShape.admits t = true := by
      by_cases hholes : holes = []
      · rw [hnil hholes]
        intro t ht
        cases ht
      · exact admits_of_fits (hfits hholes) (by decide)
    have hfirst (text : Chars) : Formed (.leaf ⟨kind, text, span⟩) :=
      .leaf (by rcases hk with rfl | rfl <;> rfl)
    refine ⟨?_, fun hcons => absurd hcons (cons_ne_nil _ _), fun _ => ?_⟩
    · intro t ht
      rcases mem_cons.mp ht with rfl | ht
      · exact hfirst _
      · rcases mem_cons.mp ht with rfl | ht
        · exact hformed
        · exact hrests t ht
    · refine ⟨_, tree :: rest, rfl, by simp [Shape.admits], tree :: rest, [], by simp, ?_, rfl⟩
      intro t ht
      rcases mem_cons.mp ht with rfl | ht
      · exact pieceShape_admits hadmits
      · exact hpieces t ht

theorem splitFrom_hole (h : hasHole (cs ++ ['"']) = true) {fuel : Nat}
    (hfuel : cs.length ≤ fuel) (offset : Nat) (text : Chars) :
    (splitFrom fuel offset text cs).1 ≠ [] ∨ ∀ last, (splitFrom fuel offset text cs).2 ≠ .text last := by
  induction fuel generalizing cs offset text with
  | zero =>
    obtain rfl : cs = [] := length_eq_zero_iff.mp (Nat.le_zero.mp hfuel)
    cases h
  | succ fuel ih =>
    cases cs with
    | nil => cases h
    | cons c cs =>
      have hlen : cs.length ≤ fuel := by simpa using hfuel
      cases cs with
      | nil =>
        have hquote : opensHole '"' = false := by decide
        simp [hasHole, hquote] at h
      | cons d rest =>
        rw [cons_append, cons_append, hasHole] at h
        rw [splitFrom]
        by_cases hc : c = '\\'
        · rw [if_pos hc] at h
          simp only [if_pos hc]
          exact ih h (by simp at hlen; omega) _ _
        · rw [if_neg hc] at h
          rw [if_neg hc]
          have hsame : (c = '$' ∧ (d :: rest).head?.any opensHole = true) ↔ (c = '$' ∧ opensHole d = true) := by simp
          by_cases hd : c = '$' ∧ opensHole d = true
          · rw [if_pos (hsame.mpr hd)]
            have hfault (tail : Tail) (htail : ∀ last, tail ≠ .text last) : (([], tail) : List Hole × Tail).1 ≠ [] ∨
                  ∀ last, (([], tail) : List Hole × Tail).2 ≠ .text last := .inr htail
            split
            · dsimp only
              split
              · exact hfault _ (by simp)
              · split
                · exact hfault _ (by simp)
                · exact .inl (by simp)
            · split
              · exact hfault _ (by simp)
              · exact .inl (by simp)
          · rw [if_neg hd] at h
            rw [if_neg (hsame.not.mpr hd)]
            exact ih h hlen _ _

theorem readInterpolated_formed {raw : Chars} {token span : Span} {t : Tree}
    (hraw : Terminal.doubleString.spells raw = true) (hholes : isInterpolated raw = true)
    (h : readInterpolated raw token span = .ok t) : Formed t ∧ ∃ children, t = .node .gstring children span raw := by
  unfold readInterpolated at h
  have hsplit : (split raw).1 ≠ [] ∨ ∀ last, (split raw).2 ≠ .text last := by
    simp only [Terminal.spells, Bool.and_eq_true, beq_iff_eq] at hraw
    obtain ⟨inside, hinside⟩ := getLast?_eq_some_iff.mp hraw.2
    have hdrop : raw.tail.dropLast = inside := by rw [hinside, dropLast_concat]
    rw [isInterpolated, hinside] at hholes
    have hlen : inside.length ≤ raw.length := by
      have hcount := congrArg List.length hinside
      simp only [length_tail, length_append, length_singleton] at hcount
      omega
    rw [split, hdrop]
    exact splitFrom_hole hholes hlen 1 []
  cases hs : split raw with
  | mk holes tail =>
    rw [hs] at hsplit h
    obtain ⟨children, hchildren, h⟩ := bind_eq_ok.mp h
    cases tail with
    | openHole | emptyHole | badName => cases h
    | text last =>
      have hne : holes ≠ [] := hsplit.resolve_right fun hnot => hnot last rfl
      obtain ⟨hformed, -, hfits⟩ := readHoles_formed hchildren (.inl rfl)
      cases h
      have hlast (text : Chars) : Fits [.one { tokens := [.gstringEnd] }]
          [.leaf ⟨.gstringEnd, text, span⟩] := ⟨_, [], rfl, rfl, rfl⟩
      refine ⟨.node mem_cons_self (fits_append (hfits hne) (hlast _)) ?_, _, rfl⟩
      intro t ht
      rcases mem_append.mp ht with ht | ht
      · exact hformed t ht
      · obtain rfl := mem_singleton.mp ht
        exact .leaf rfl

/-! ### Programs -/

def takesHoles (s : Shape) : Bool := !s.kinds.contains .stringLiteral || s.kinds.contains .gstring

theorem takesHoles_of_pattern {k : Kind} {pattern : List Item} (hp : pattern ∈ k.patterns) :
    ∀ item ∈ pattern, takesHoles item.shape = true := by
  have hall : ∀ k : Kind, (k.patterns.all fun p => p.all fun i => takesHoles i.shape) = true := by
    intro k
    cases k <;> decide
  intro item hitem
  exact all_eq_true.mp (all_eq_true.mp (hall k) pattern hp) item hitem

theorem forall₂_of_expandAll {R : Tree → Tree → Prop} {ts ts' : List Tree}
    (hR : ∀ t ∈ ts, ∀ t', expand t = .ok t' → R t t') (h : expandAll ts = .ok ts') : List.Forall₂ R ts ts' := by
  induction ts generalizing ts' with
  | nil =>
    cases h
    exact .nil
  | cons t ts ih =>
    rw [expandAll] at h
    obtain ⟨t', ht, h⟩ := bind_eq_ok.mp h
    obtain ⟨more, hmore, h⟩ := bind_eq_ok.mp h
    cases h
    exact .cons (hR t mem_cons_self t' ht) (ih (fun t ht => hR t (mem_cons_of_mem _ ht)) hmore)

theorem forall_of_forall₂ {R : Tree → Tree → Prop} {P : Tree → Prop} {ts ts' : List Tree}
    (hP : ∀ t t', R t t' → P t') (h : List.Forall₂ R ts ts') : ∀ t ∈ ts', P t := by
  induction h with
  | nil =>
    intro t ht
    cases ht
  | cons hfirst _ ih =>
    intro t ht
    rcases mem_cons.mp ht with rfl | ht
    · exact hP _ _ hfirst
    · exact ih t ht

theorem expand_formed {t t' : Tree} (hf : Formed t) (h : expand t = .ok t') :
    Formed t' ∧ ∀ s, takesHoles s = true → s.admits t = true → s.admits t' = true := by
  induction hf generalizing t' with
  | leaf hl =>
    cases h
    exact ⟨.leaf hl, fun _ _ hs => hs⟩
  | @node k children span text pattern hp hfits hc ih =>
    -- a node that stays one keeps its kind, and its children their places
    have hstays {ts : List Tree} (h : expandAll children = .ok ts) : Formed (.node k ts span text) := by
      have hall := forall₂_of_expandAll (fun t ht t' h => ih t ht h) h
      refine .node hp (hfits.of_forall₂ ?_ hall) (forall_of_forall₂ (fun _ _ hR => hR.1) hall)
      intro item hitem t t' hR
      exact hR.2 item.shape (takesHoles_of_pattern hp item hitem)
    have hnode (h : (do return Tree.node k (← expandAll children) span text) = Except.ok t') :
        Formed t' ∧ ∀ s, takesHoles s = true → s.admits (.node k children span text) = true → s.admits t' = true := by
      obtain ⟨ts, hts, h⟩ := bind_eq_ok.mp h
      cases h
      exact ⟨hstays hts, fun _ _ hs => hs⟩
    by_cases hliteral : ∃ l rest, k = .stringLiteral ∧ children = .leaf l :: rest
    · obtain ⟨l, rest, rfl, rfl⟩ := hliteral
      rw [expand_literal] at h
      split at h
      · next hl =>
        have hspelled : Terminal.doubleString.spells l.text = true := by
          cases hc (.leaf l) mem_cons_self with
          | leaf hspelled => simpa only [Leaf.spelled, hl.1] using hspelled
        obtain ⟨hformed, children, rfl⟩ := readInterpolated_formed hspelled hl.2 h
        refine ⟨hformed, fun s hs hadmits => ?_⟩
        change s.kinds.contains .stringLiteral = true at hadmits
        change s.kinds.contains .gstring = true
        simpa only [takesHoles, hadmits, Bool.not_true, Bool.false_or] using hs
      · exact hnode h
    · refine hnode (expand_of_not_literal span text ?_ ▸ h)
      intro l rest hk hchildren
      exact hliteral ⟨l, rest, hk, hchildren⟩

theorem read_formed {source : Chars} {t : Tree} (h : read source = .ok t) :
    Formed t ∧ (kindsOf [.compilationUnit]).admits t = true := by
  unfold read at h
  split at h
  · cases h
  · next piece hparse =>
    obtain ⟨⟨unit, rest, htrees, hunit, -⟩, hformed⟩ := parse_formed ProgramTable.readsAs hparse
    have htree : theTree piece = unit := by rw [theTree, htrees]
    rw [htree] at h
    obtain ⟨hf, hadmits⟩ := expand_formed (hformed unit (by simp [htrees])) h
    exact ⟨hf, hadmits _ rfl hunit⟩

end Program

end GroovySharp
