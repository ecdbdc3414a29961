import GroovySharp.Proofs.ExpressionConversion
import GroovySharp.Proofs.Spans

/-!
# The pieces of a string with holes

A string is searched for holes twice: once to see whether it has any, and once to take them out.
-/

namespace GroovySharp.Program

open Grammar Text Text.Interpolated CSharp List
open Conversion
open Source (bind_eq_ok)

/-! ### Seeing holes and coming to them -/

def ComesToHole (s : List Hole × Tail) : Prop := s.1 ≠ [] ∨ ∀ last, s.2 ≠ .text last

theorem hasHole_escaped (d : Char) (cs : Chars) : hasHole ('\\' :: d :: cs) = hasHole cs := by
  rw [hasHole, if_pos rfl]

variable {cs : Chars} {more : List Segment} {fuel offset : Nat} {holes : List Hole} {c : Char}

theorem hasHole_plain (hc : c ≠ '\\')
    (h : ¬ (c = '$' ∧ cs.head?.any opensHole = true)) : hasHole (c :: cs) = hasHole cs := by
  cases cs with
  | nil => rfl
  | cons d cs => rw [hasHole, if_neg hc, if_neg (by simpa using h)]

theorem head?_closed (cs : Chars) :
    (cs ++ ['"']).head?.any opensHole = cs.head?.any opensHole := by
  cases cs with
  | nil => decide
  | cons c cs => rfl

theorem hasHole_dollar (h : c = '$' ∧ cs.head?.any opensHole = true) :
    hasHole (c :: cs ++ ['"']) = true := by
  obtain ⟨rfl, hopens⟩ := h
  cases cs with
  | nil => cases hopens
  | cons d cs =>
    rw [cons_append, cons_append, hasHole, if_neg (by decide), if_pos (by simpa using hopens)]

theorem hasHole_of_splitFrom {text cs : Chars}
    (h : ComesToHole (splitFrom fuel offset text cs)) : hasHole (cs ++ ['"']) = true := by
  have hnone {last : Chars} : ¬ ComesToHole ([], .text last) := by simp [ComesToHole]
  fun_induction splitFrom fuel offset text cs with
  | case1 | case2 | case4 => exact absurd h hnone
  | case3 fuel offset text d rest ih =>
    rw [cons_append, cons_append, hasHole_escaped]
    exact ih h
  | case5 | case6 | case7 | case8 | case9 => exact hasHole_dollar ‹_›
  | case10 fuel offset text c cs hc hd ih =>
    rw [cons_append, hasHole_plain hc (by rwa [head?_closed])]
    exact ih h

/-! ### What a string is made of -/

def IsDottedName (cs : Chars) : Prop :=
  ∃ names : List Chars, names ≠ [] ∧ (∀ n ∈ names, nameLength? n = some n.length) ∧ cs = ['.'].intercalate names

theorem nameLength?_take {n : Nat} (h : nameLength? cs = some n) :
    nameLength? (cs.take n) = some (cs.take n).length := by
  cases cs with
  | nil => cases h
  | cons c cs =>
    rw [nameLength?] at h
    split at h
    · next hc =>
      cases h
      have hall : (cs.takeWhile isNameChar).takeWhile isNameChar = cs.takeWhile isNameChar :=
        takeWhile_eq_self_iff.mpr fun c hc => all_eq_true.mp all_takeWhile c hc
      rw [Nat.add_comm, take_succ_cons, Grammar.take_takeWhile, nameLength?, if_pos hc, hall,
        length_cons, Nat.add_comm]
    · cases h

theorem isDottedName_of_name {n : Nat} (h : nameLength? cs = some n) : IsDottedName (cs.take n) :=
  ⟨[cs.take n], by simp, by simpa using nameLength?_take h, by simp⟩

theorem isDottedName_take {fuel : Nat} (h : dottedLength fuel cs ≠ 0) :
    IsDottedName (cs.take (dottedLength fuel cs)) := by
  fun_induction dottedLength fuel cs with
  | case1 cs fuel n hn => exact isDottedName_of_name hn
  | case2 cs fuel n hn rest hrest m ih =>
    obtain ⟨names, hne, hnames, htake⟩ := ih m
    refine ⟨cs.take n :: names, by simp, ?_, ?_⟩
    · exact forall_mem_cons.mpr ⟨nameLength?_take hn, hnames⟩
    · have hlen : n ≤ cs.length := (nameLength?_bounds hn).2
      have hcs : cs = cs.take n ++ '.' :: rest := by rw [← hrest, take_append_drop]
      have htaken : (cs.take n).length = n := by rw [length_take, Nat.min_eq_left hlen]
      rw [intercalate_cons_of_ne_nil hne, ← htake, Nat.add_assoc]
      generalize cs.take n = name at *
      subst hcs htaken
      rw [take_length_add_append, Nat.add_comm 1, take_succ_cons, append_assoc]
      rfl
  | case3 cs fuel n hn => exact isDottedName_of_name hn
  | case4 => exact absurd rfl h

/-- How a hole is written after its dollar sign: in braces, up to the first closing one, or as a
dotted name. -/
inductive Hole.Written (source : Chars) : Chars → Prop
  | braced (h : '\x7d' ∉ source) : Written source ('\x7b' :: source ++ ['\x7d'])
  | named (h : IsDottedName source) : Written source source

/-- The inside of a string is made of texts, holes behind dollar signs and the text after the last
hole; no hole is left in the texts. -/
inductive MadeOf : Chars → List Hole → Chars → Prop
  | text {last : Chars} (h : hasHole (last ++ ['"']) = false) : MadeOf last [] last
  | hole {hole : Hole} {holes : List Hole} {written rest last : Chars}
    (hbefore : hasHole (hole.before ++ ['$']) = false) (hw : Hole.Written hole.source written)
    (hrest : MadeOf rest holes last) :
    MadeOf (hole.before ++ '$' :: written ++ rest) (hole :: holes) last

def Quiet (text cs : Chars) : Prop :=
  ∀ rest, rest.head? = (cs ++ ['"']).head? → hasHole (text.reverse ++ rest) = hasHole rest

theorem quiet_nil (cs : Chars) : Quiet [] cs := fun _ _ => rfl

theorem Quiet.escaped {text cs : Chars} {d : Char} (h : Quiet text ('\\' :: d :: cs)) :
    Quiet (d :: '\\' :: text) cs := by
  intro rest _
  have hback := h ('\\' :: d :: rest) rfl
  rw [hasHole_escaped] at hback
  simpa using hback

theorem Quiet.plain {text cs : Chars} (h : Quiet text (c :: cs)) (hc : c ≠ '\\')
    (hd : ¬ (c = '$' ∧ cs.head?.any opensHole = true)) : Quiet (c :: text) cs := by
  intro rest hrest
  have hback := h (c :: rest) rfl
  rw [hasHole_plain hc (by rwa [hrest, head?_closed])] at hback
  simpa using hback

theorem MadeOf.found {text cs written rest source last : Chars} {offset : Nat}
    (hquiet : Quiet text ('$' :: cs)) (hcs : cs = written ++ rest) (hw : Hole.Written source written)
    (hrest : MadeOf rest holes last) :
    MadeOf (text.reverse ++ '$' :: cs) (⟨text.reverse, source, offset⟩ :: holes) last := by
  have hbefore : hasHole (text.reverse ++ ['$']) = false := by
    rw [hquiet ['$'] rfl]
    rfl
  have hmade := @MadeOf.hole ⟨text.reverse, source, offset⟩ _ _ _ _ hbefore hw hrest
  rwa [append_assoc, cons_append, ← hcs] at hmade

theorem splitFrom_madeOf {text cs last : Chars} (hfuel : cs.length ≤ fuel)
    (hquiet : Quiet text cs) (h : (splitFrom fuel offset text cs).2 = .text last) :
    MadeOf (text.reverse ++ cs) (splitFrom fuel offset text cs).1 last := by
  have hend {text : Chars} (hquiet : Quiet text []) : MadeOf text.reverse [] text.reverse :=
    .text (by rw [hquiet ['"'] rfl]; rfl)
  fun_induction splitFrom fuel offset text cs generalizing last with
  | case1 offset text cs =>
    obtain rfl := Tail.text.inj h
    obtain rfl : cs = [] := length_eq_zero_iff.mp (Nat.le_zero.mp hfuel)
    simpa using hend hquiet
  | case2 fuel offset text =>
    obtain rfl := Tail.text.inj h
    simpa using hend hquiet
  | case3 fuel offset text d rest ih => simpa using ih (by simp at hfuel; omega) hquiet.escaped h
  | case4 fuel offset text =>
    obtain rfl := Tail.text.inj h
    have hback : hasHole (text.reverse ++ ['\\', '"']) = false := (hquiet _ rfl).trans rfl
    rw [← reverse_cons]
    exact .text (by simpa using hback)
  | case5 | case6 => cases h
  | case7 fuel offset text c hc inner source close rest hrest hfull holes tail hsplit hd =>
    rename_i ih
    obtain ⟨rfl, -⟩ := hd
    rw [drop_takeWhile] at hrest
    have hinner : inner = source ++ close :: rest := by rw [← hrest, takeWhile_append_dropWhile]
    obtain rfl : close = '\x7d' := by
      have hstop := head?_dropWhile_not (· != '\x7d') inner
      simpa [hrest] using hstop
    have hsource : '\x7d' ∉ source := fun hmem => by simpa using all_eq_true.mp all_takeWhile _ hmem
    have hlen : rest.length ≤ fuel := by
      simp only [hinner, length_cons, length_append] at hfuel
      omega
    rw [hsplit] at ih
    exact .found hquiet (by simp [hinner]) (.braced hsource) (ih hlen (quiet_nil rest) h)
  | case8 fuel offset text c cs _ _ hname => simp [hname] at h
  | case9 fuel offset text c cs _ hd holes tail _ hname _ ih =>
    obtain ⟨rfl, -⟩ := hd
    have hle := dottedLength_le cs.length cs
    have hdotted := isDottedName_take hname
    generalize dottedLength cs.length cs = n at *
    obtain ⟨n, rfl⟩ := Nat.exists_eq_succ_of_ne_zero hname
    have hlen : (cs.drop n.succ).length ≤ fuel := by
      simp only [length_cons, length_drop] at hfuel ⊢
      omega
    exact .found hquiet (take_append_drop _ _).symm (.named hdotted) (ih hlen (quiet_nil _) h)
  | case10 fuel offset text c cs hc hd ih => simpa using ih (by simpa using hfuel) (hquiet.plain hc hd) h

/-! ### Segments -/

/-- A hole of a string as it was read: the text before it, its source, the way the source is written
after the dollar sign, and the expression it holds. -/
structure Segment where
  before : Chars
  source : Chars
  written : Chars
  tree : Tree

namespace Segment

/-- No hole is left in the text before the hole, the source is written in braces or is a dotted name,
and the expression is what is read from the source. -/
structure Sound (g : Segment) : Prop where
  quiet : hasHole (g.before ++ ['$']) = false
  written : Hole.Written g.source g.written
  read : ∃ origin, readHole origin g.source = .ok g.tree

def text (g : Segment) : Chars := g.before ++ ['$'] ++ g.written

def pieces (span : Span) (g : Segment) : List Tree :=
  [.leaf ⟨.gstringPart, g.before ++ ['$'], span⟩, g.tree]

theorem Sound.admits {g : Segment} (h : g.Sound) : expressionShape.admits g.tree = true := by
  obtain ⟨origin, hread⟩ := h.read
  exact (readHole_formed hread).2

end Segment

theorem readHoles_segments {inside last : Chars} (hm : MadeOf inside holes last)
    {base : Position} {span : Span} {children : List Tree} (h : readHoles base span .gstringPart holes = .ok children) :
    ∃ more : List Segment, (∀ g ∈ more, g.Sound) ∧ children = more.flatMap (Segment.pieces span) ∧
      inside = more.flatMap Segment.text ++ last ∧ hasHole (last ++ ['"']) = false := by
  induction hm generalizing children with
  | text hlast =>
    cases h
    exact ⟨[], nofun, rfl, rfl, hlast⟩
  | @hole hole holes written rest last hbefore hw hrest ih =>
    obtain ⟨tree, htree, h⟩ := bind_eq_ok.mp h
    obtain ⟨children, hchildren, h⟩ := bind_eq_ok.mp h
    cases h
    obtain ⟨more, hsound, rfl, rfl, hlast⟩ := ih hchildren
    refine ⟨⟨hole.before, hole.source, written, tree⟩ :: more, ?_, rfl, ?_, hlast⟩
    · exact forall_mem_cons.mpr ⟨⟨hbefore, hw, _, htree⟩, hsound⟩
    · simp [Segment.text]

/-! ### Contents -/

def textContents (cs : Chars) : List Content :=
  if cs.isEmpty then [] else [.text (unescape cs)]

def woven : List Segment → List Expr → Chars → List Content
  | g :: more, e :: es, last => textContents g.before ++ .hole e :: woven more es last
  | _, _, last => textContents last

theorem exprsOf_cons (p : Conversion.Part) (ps : List Conversion.Part) : exprsOf (p :: ps) = do
      let e ← p.expr
      let es ← exprsOf ps
      return e :: es := rfl

theorem gstringContents_hole (options : Options) (l : Leaf) {t : Tree}
    (ht : expressionShape.admits t = true) (rest : List Tree) :
    gstringContents ((.leaf l :: t :: rest).map (childOf options)) = do
      let e ← (partOf options t).expr
      let contents ← gstringContents (rest.map (childOf options))
      return textContents (pieceText l) ++ .hole e :: contents := by
  rw [map_cons, map_cons, childOf_leaf, childOf_of_admits ht, gstringContents, gstringContents]
  simp only [bind_assoc, pure_bind]
  refine bind_congr fun e => bind_congr fun contents => ?_
  unfold textContents
  split <;> rfl

theorem pieceText_part (cs : Chars) (c : Char) (span : Span) {k : LeafKind} (hk : k ≠ .gstringBegin) :
    pieceText ⟨k, cs ++ [c], span⟩ = cs := by
  rw [pieceText, if_neg hk]
  simp [between]

theorem pieceText_begin (cs : Chars) (c d : Char) (span : Span) :
    pieceText ⟨.gstringBegin, c :: cs ++ [d], span⟩ = cs := by
  rw [pieceText, if_pos rfl]
  simp [between]

theorem gstringContents_segments (options : Options) (span : Span)
    (h : ∀ g ∈ more, g.Sound) (last : Chars) : gstringContents ((more.flatMap (Segment.pieces span) ++
        [Tree.leaf ⟨.gstringEnd, last ++ ['"'], span⟩]).map (childOf options)) =
      (woven more · last) <$> exprsOf (more.map fun g => partOf options g.tree) := by
  induction more with
  | nil =>
    change gstringContents [.leaf ⟨.gstringEnd, last ++ ['"'], span⟩] = pure (textContents last)
    rw [gstringContents, pieceText_part _ _ _ (by decide), gstringContents, pure_bind, textContents]
    split <;> rfl
  | cons g more ih =>
    obtain ⟨hg, hmore⟩ := forall_mem_cons.mp h
    rw [flatMap_cons, append_assoc, Segment.pieces, cons_append, cons_append,
      nil_append, gstringContents_hole _ _ hg.admits, ih hmore, pieceText_part _ _ _ (by decide),
      map_cons, exprsOf_cons]
    simp only [map_eq_pure_bind, bind_assoc, pure_bind]
    rfl

/-! ### Strings -/

/-- The node of a string comes from the segments: it has their pieces and expressions in order, the
literal is what they and the text behind them make up, and the node is converted to the values of the
expressions with the unescaped texts between them. -/
structure ComesFrom (raw : Chars) (span : Span) (t : Tree) (first : Segment) (more : List Segment)
    (last : Chars) : Prop where
  sound : ∀ g ∈ first :: more, g.Sound
  quiet : hasHole (last ++ ['"']) = false
  node : t = .node .gstring (.leaf ⟨.gstringBegin, '"' :: first.before ++ ['$'], span⟩ :: first.tree ::
    (more.flatMap (Segment.pieces span) ++ [.leaf ⟨.gstringEnd, last ++ ['"'], span⟩])) span raw
  literal : raw = ['"'] ++ first.text ++ more.flatMap Segment.text ++ last ++ ['"']
  contents : ∀ options, product options t =
    (fun es => .expression (.interpolated (woven (first :: more) es last))) <$>
      exprsOf ((first :: more).map fun g => partOf options g.tree)

theorem product_segments (options : Options) {first : Segment}
    (h : ∀ g ∈ first :: more, g.Sound) (last raw : Chars) (span : Span) :
    product options (.node .gstring (.leaf ⟨.gstringBegin, '"' :: first.before ++ ['$'], span⟩ ::
        first.tree :: (more.flatMap (Segment.pieces span) ++
          [.leaf ⟨.gstringEnd, last ++ ['"'], span⟩])) span raw) =
      (fun es => .expression (.interpolated (woven (first :: more) es last))) <$>
        exprsOf ((first :: more).map fun g => partOf options g.tree) := by
  obtain ⟨hfirst, hmore⟩ := forall_mem_cons.mp h
  rw [product_node]
  change Product.expression <$> gstring _ _ = _
  rw [gstring, if_pos (c := startsGstring _ = true) rfl, gstringContents_hole _ _ hfirst.admits,
    gstringContents_segments options span hmore, pieceText_begin, map_cons, exprsOf_cons]
  simp only [map_eq_pure_bind, bind_assoc, pure_bind]
  rfl

theorem inside_of_doubleString {raw : Chars} (h : Terminal.doubleString.matchLength? raw = some raw.length) :
    ∃ inside, raw = '"' :: (inside ++ ['"']) := by
  have hspells := spells_of_matchLength? h
  rw [take_length] at hspells
  simp only [Terminal.spells, Bool.and_eq_true, beq_iff_eq] at hspells
  obtain ⟨inside, hinside⟩ := getLast?_eq_some_iff.mp hspells.2
  obtain ⟨tail, rfl⟩ := head?_eq_some_iff.mp hspells.1
  exact ⟨inside, congrArg _ hinside⟩

/-- A string literal is seen to have a hole exactly when the walk over it comes to one. Then whatever
node is made of it comes from one segment or more, and nothing of the literal is lost. -/
theorem string_split_without_loss {raw : Chars}
    (hraw : Terminal.doubleString.matchLength? raw = some raw.length) (token span : Span) :
    (isInterpolated raw = true ↔ ComesToHole (split raw)) ∧
      (isInterpolated raw = true → ∀ t, readInterpolated raw token span = .ok t →
        ∃ first more last, ComesFrom raw span t first more last) := by
  obtain ⟨inside, rfl⟩ := inside_of_doubleString hraw
  have hlen : inside.length ≤ ('"' :: (inside ++ ['"'])).length := by simp; omega
  have hsplit : split ('"' :: (inside ++ ['"'])) =
      splitFrom ('"' :: (inside ++ ['"'])).length 1 [] inside := by
    rw [split, tail_cons, dropLast_concat]
  have hseen : isInterpolated ('"' :: (inside ++ ['"'])) = true ↔
      ComesToHole (split ('"' :: (inside ++ ['"']))) := by
    rw [hsplit]
    exact ⟨fun h => splitFrom_hole h hlen 1 [], hasHole_of_splitFrom⟩
  refine ⟨hseen, fun hholes t h => ?_⟩
  obtain ⟨⟨holes, tail⟩, hpair⟩ : ∃ s, split ('"' :: (inside ++ ['"'])) = s := ⟨_, rfl⟩
  rw [hseen, hpair] at hholes
  unfold readInterpolated at h
  rw [hpair] at h
  obtain ⟨children, hchildren, h⟩ := bind_eq_ok.mp h
  cases tail with
  | openHole | emptyHole | badName => cases h
  | text last =>
    cases h
    have hmade := @splitFrom_madeOf _ 1 [] inside last hlen (quiet_nil inside)
    rw [← hsplit, hpair] at hmade
    cases hmade rfl with
    | text => exact absurd rfl (hholes.resolve_right fun hnot => hnot _ rfl)
    | @hole hole holes written rest _ hbefore hw hrest =>
      obtain ⟨tree, htree, hchildren⟩ := bind_eq_ok.mp hchildren
      obtain ⟨later, hlater, hchildren⟩ := bind_eq_ok.mp hchildren
      cases hchildren
      obtain ⟨more, hsound, rfl, rfl, hlast⟩ := readHoles_segments hrest hlater
      have hall : ∀ g ∈ ⟨hole.before, hole.source, written, tree⟩ :: more, Segment.Sound g :=
        forall_mem_cons.mpr ⟨⟨hbefore, hw, _, htree⟩, hsound⟩
      refine ⟨_, more, last, hall, hlast, rfl, ?_, fun options => product_segments options hall _ _ _⟩
      simp [Segment.text]

def twoHoles : Chars := "\"\\$a $\x7bx + 1\x7d, $y.z!\"".toList

/-- A string with an escaped dollar sign, a hole in braces and a hole that is a dotted name. -/
theorem string_of_two_holes_split :
    ∃ raw t, raw = twoHoles ∧
      Terminal.doubleString.matchLength? raw = some raw.length ∧ isInterpolated raw = true ∧
        ComesToHole (split raw) ∧ readInterpolated raw .empty .empty = .ok t ∧
          ∃ first more last, ComesFrom raw .empty t first more last := by
  have hraw : Terminal.doubleString.matchLength? twoHoles =
      some twoHoles.length := by decide +kernel
  have hsplit := string_split_without_loss hraw .empty .empty
  have hseen : isInterpolated twoHoles = true := by decide +kernel
  obtain ⟨t, ht, -⟩ := Source.exists_of_toOption_any
    (x := readInterpolated twoHoles .empty .empty) (p := fun _ => true)
    (by decide +kernel)
  exact ⟨_, t, rfl, hraw, hseen, hsplit.1.mp hseen, ht, hsplit.2 hseen t ht⟩

end GroovySharp.Program
