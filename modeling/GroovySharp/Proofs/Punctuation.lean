import GroovySharp.Proofs.Trim
import GroovySharp.Source.LineRule
import Mathlib.Data.List.SplitBy

/-!
# Recognisers and semicolons

Headers, declarations and chains are recognised at the start of a line.
-/

namespace GroovySharp.Source

open Text Unicode List

/-- The second text is the first with semicolons at its end or behind an opening brace and more text. -/
inductive Punctuated (c : Chars) : Chars → Prop
  | same : Punctuated c c
  | atEnd {c' : Chars} (h : Punctuated c c') (hne : c' ≠ []) : Punctuated c (c' ++ [';'])
  | inBlock {w b y : Chars} (h : Punctuated c (w ++ '\x7b' :: (b ++ y))) (hb : b ≠ []) :
    Punctuated c (w ++ '\x7b' :: (b ++ ';' :: y))

/-! ### The text before the first parenthesis -/

theorem isSpace_paren : isSpace '(' = false := by decide

theorem trimStart_paren (a r : Chars) : trimStart (a ++ '(' :: r) = trimStart a ++ '(' :: r :=
  trimStart_append_cons isSpace_paren a r

theorem pastBrace_paren (h r : Chars) : pastBrace (h ++ '(' :: r) = pastBrace h ++ '(' :: r := by
  cases h with
  | nil => rfl
  | cons c h =>
    by_cases hc : c = '\x7d'
    · subst hc
      exact trimStart_paren h r
    · simp [pastBrace, hc]

variable {cs : Chars} {c : Char}

theorem mem_of_mem_pastBrace (h : c ∈ pastBrace cs) : c ∈ cs := by
  unfold pastBrace at h
  split at h
  · exact mem_cons_of_mem _ (mem_of_mem_trimStart h)
  · exact h

theorem mem_pastBrace (h : c ∈ cs) (hc : c ≠ '\x7d') (hs : isSpace c = false) : c ∈ pastBrace cs := by
  unfold pastBrace
  split
  · next rest =>
    have hrest : c ∈ rest := by simpa [hc] using h
    exact mem_trimStart hrest hs
  · exact h

theorem after?_paren {k : Chars} (hk : '(' ∉ k) (g r : Chars) :
    after? k (g ++ '(' :: r) = (after? k g).map (· ++ '(' :: r) := by
  induction k generalizing g with
  | nil => rfl
  | cons w ws ih =>
    have hws : '(' ∉ ws := fun h => hk (mem_cons_of_mem _ h)
    cases g with
    | nil =>
      have hw : w ≠ '(' := fun h => hk (by simp [h])
      simp [after?, hw]
    | cons c g =>
      by_cases hc : w = c
      · simp [after?, hc, ih hws]
      · simp [after?, hc]

theorem after?_eq_some {k g rest : Chars} (h : after? k g = some rest) : g = k ++ rest := by
  induction k generalizing g with
  | nil =>
    cases h
    rfl
  | cons w ws ih =>
    cases g with
    | nil => cases h
    | cons c g =>
      by_cases hc : w = c
      · subst hc
        simp only [after?, if_true] at h
        rw [ih h, cons_append]
      · simp [after?, hc] at h

theorem afterElseIf?_paren (g r : Chars) : afterElseIf? (g ++ '(' :: r) = (afterElseIf? g).map (· ++ '(' :: r) := by
  have helse : '(' ∉ "else".toList := by decide
  have hif : '(' ∉ "if".toList := by decide
  simp only [afterElseIf?, after?_paren helse]
  cases after? "else".toList g with
  | none => rfl
  | some rest =>
    have hhead : (rest ++ '(' :: r).head?.any isSpace = rest.head?.any isSpace := by
      cases rest with
      | nil => exact isSpace_paren
      | cons c rest => rfl
    simp only [Option.map_some, hhead, trimStart_paren, after?_paren hif]
    split <;> rfl

def headerRests (cs : Chars) : List (Option Chars) :=
  afterElseIf? cs :: conditionKeywords.map fun k => after? k cs

theorem headerRests_paren (g r : Chars) :
    headerRests (g ++ '(' :: r) = (headerRests g).map (Option.map (· ++ '(' :: r)) := by
  have hkeywords : ∀ k ∈ conditionKeywords, '(' ∉ k := by decide
  rw [headerRests, headerRests, map_cons, afterElseIf?_paren, map_map]
  congr 1
  refine map_congr_left fun k hk => ?_
  exact after?_paren (hkeywords k hk) g r

theorem not_mem_of_blank (h : isBlank cs = true) : '\x7b' ∉ cs := by
  intro hmem
  have hspace := isBlank_iff.mp h '\x7b' hmem
  revert hspace
  decide

theorem split_of_mem_headerRests {g rest : Chars} (h : some rest ∈ headerRests g) :
    ∃ k, g = k ++ rest ∧ '\x7b' ∉ k := by
  have hkeywords : ∀ k ∈ conditionKeywords, '\x7b' ∉ k := by decide
  rcases mem_cons.mp h with helse | hkeyword
  · unfold afterElseIf? at helse
    split at helse
    · next tail htail =>
      split at helse
      · have hg := after?_eq_some htail
        have htrim := after?_eq_some helse.symm
        have hblanks := takeWhile_append_dropWhile (p := isSpace) (l := tail)
        have hblank : isBlank (tail.takeWhile isSpace) = true := all_takeWhile
        refine ⟨"else".toList ++ (tail.takeWhile isSpace ++ "if".toList), ?_, ?_⟩
        · rw [hg, append_assoc, append_assoc, ← htrim, trimStart, hblanks]
        · have helse : '\x7b' ∉ "else".toList := by decide
          have hif : '\x7b' ∉ "if".toList := by decide
          simp only [mem_append, not_or]
          exact ⟨helse, not_mem_of_blank hblank, hif⟩
      · cases helse
    · cases helse
  · obtain ⟨k, hk, hrest⟩ := mem_map.mp hkeyword
    exact ⟨k, after?_eq_some hrest, hkeywords k hk⟩

/-! ### Control headers -/

def isHeaderStart (h : Chars) : Bool :=
  (headerRests (pastBrace h)).any fun rest => rest.any isBlank

def groupAt (rest : Option Chars) : Option Chars :=
  match rest.map trimStart with
  | some ('(' :: group) => some ('(' :: group)
  | _ => none

theorem controlHeader?_eq (cs : Chars) : controlHeader? cs = (headerRests (pastBrace cs)).findSome? groupAt := rfl

theorem groupAt_paren {rest : Chars} (h : '(' ∉ rest) (r : Chars) :
    groupAt (some (rest ++ '(' :: r)) = if isBlank rest then some ('(' :: r) else none := by
  cases hblank : isBlank rest with
  | true =>
    have hnil : trimStart rest = [] := dropWhile_eq_nil_iff.mpr (isBlank_iff.mp hblank)
    simp [groupAt, trimStart_paren, hnil]
  | false =>
    cases htrim : trimStart rest with
    | nil =>
      have hall := isBlank_iff.mpr (dropWhile_eq_nil_iff.mp htrim)
      rw [hblank] at hall
      cases hall
    | cons c cs =>
      have hc : c ≠ '(' := by
        rintro rfl
        refine h (mem_of_mem_trimStart ?_)
        rw [htrim]
        exact mem_cons_self
      simp [groupAt, trimStart_paren, htrim, hc]

theorem groupAt_none {rest : Option Chars} (h : ∀ cs ∈ rest, '(' ∉ cs) : groupAt rest = none := by
  cases rest with
  | none => rfl
  | some cs =>
    unfold groupAt
    split
    · next group hgroup =>
      refine absurd (mem_of_mem_trimStart ?_) (h cs rfl)
      rw [Option.some.inj hgroup]
      exact mem_cons_self
    · rfl

theorem findSome?_of_ite {α β : Type} {f : α → Option β} {p : α → Bool} {v : β} {xs : List α}
    (h : ∀ x ∈ xs, f x = if p x then some v else none) : xs.findSome? f = if xs.any p then some v else none := by
  induction xs with
  | nil => rfl
  | cons x xs ih =>
    have hx := h x (by simp)
    have hxs := ih fun y hy => h y (mem_cons_of_mem _ hy)
    rw [findSome?_cons, hx, hxs, any_cons]
    cases p x <;> rfl

theorem controlHeader?_paren {h : Chars} (hh : '(' ∉ h) (r : Chars) :
    controlHeader? (h ++ '(' :: r) = if isHeaderStart h then some ('(' :: r) else none := by
  have hpast : '(' ∉ pastBrace h := fun hmem => hh (mem_of_mem_pastBrace hmem)
  rw [controlHeader?_eq, pastBrace_paren, headerRests_paren, findSome?_map, isHeaderStart]
  refine findSome?_of_ite fun rest hrest => ?_
  cases rest with
  | none => rfl
  | some rest =>
    obtain ⟨k, hk, -⟩ := split_of_mem_headerRests hrest
    have hparen : '(' ∉ rest := fun hmem => hpast (hk ▸ mem_append_right _ hmem)
    exact groupAt_paren hparen r

theorem controlHeader?_of_not_mem (h : '(' ∉ cs) : controlHeader? cs = none := by
  have hpast : '(' ∉ pastBrace cs := fun hmem => h (mem_of_mem_pastBrace hmem)
  rw [controlHeader?_eq, findSome?_eq_none_iff]
  intro rest hrest
  refine groupAt_none fun cs hcs => ?_
  obtain rfl : rest = some cs := hcs
  obtain ⟨k, hk, -⟩ := split_of_mem_headerRests hrest
  exact fun hmem => hpast (hk ▸ mem_append_right _ hmem)

theorem isHeaderStart_of_brace {h : Chars} (hh : '\x7b' ∈ h) : isHeaderStart h = false := by
  have hpast : '\x7b' ∈ pastBrace h := mem_pastBrace hh (by decide) (by decide)
  rw [isHeaderStart, any_eq_false]
  intro rest hrest
  cases rest with
  | none => exact Bool.false_ne_true
  | some rest =>
    obtain ⟨k, hk, hbrace⟩ := split_of_mem_headerRests hrest
    intro hblank
    have hmem := hk ▸ hpast
    rcases mem_append.mp hmem with hmem | hmem
    · exact hbrace hmem
    · exact not_mem_of_blank hblank hmem

theorem isBareHeader_of_semicolon (h : ';' ∈ cs) : isBareHeader cs = false := by
  have hpast : ';' ∈ pastBrace cs := mem_pastBrace h (by decide) (by decide)
  have hwords : ∀ w ∈ ["else".toList, "try".toList, "finally".toList], ';' ∉ w := by decide
  rw [isBareHeader, Bool.eq_false_iff]
  intro hmem
  exact hwords _ (contains_iff_mem.mp hmem) hpast

theorem headerGroup_insert {d : Nat} {a b : Chars}
    (h : headerGroup d (a ++ b) = .closesEarly) : headerGroup d (a ++ ';' :: b) = .closesEarly := by
  induction a generalizing d with
  | nil => simpa [headerGroup] using h
  | cons c a ih =>
    rw [cons_append, headerGroup] at h ⊢
    split
    · next hc =>
      rw [if_pos hc] at h
      exact ih h
    · next hc =>
      rw [if_neg hc] at h
      split
      · next hclose =>
        rw [if_pos hclose] at h
        split
        · simp
        · next hd =>
          rw [if_neg hd] at h
          exact ih h
      · next hclose =>
        rw [if_neg hclose] at h
        exact ih h

/-! ### Declarations -/

theorem words_all_of_isTypedName {h : Chars} (hh : isTypedName h = true) : ∀ w ∈ words h, '\x7b' ∉ w := by
  have hword : isWord '\x7b' = false := by decide
  have htype : isTypeChar '\x7b' = false := by decide
  have hnot {p : Char → Bool} (hp : p '\x7b' = false) {w : Chars} (hw : w.all p = true) : '\x7b' ∉ w := by
    intro hmem
    have := all_eq_true.mp hw _ hmem
    rw [hp] at this
    cases this
  unfold isTypedName at hh
  rw [Bool.and_eq_true] at hh
  intro w hw
  have hrev : w ∈ (words h).reverse := mem_reverse.mpr hw
  revert hrev
  split at hh
  · next name first more heq =>
    obtain ⟨-, hall⟩ := hh
    rw [Bool.and_eq_true, Bool.and_eq_true] at hall
    rw [heq]
    intro hrev
    rcases mem_cons.mp hrev with rfl | hrev
    · exact hnot hword hall.1.1
    · rcases mem_cons.mp hrev with rfl | hrev
      · exact hnot htype hall.1.2
      · exact hnot htype (all_eq_true.mp hall.2 w hrev)
  · cases hh.2

theorem isSpace_eq_of_isChain {d : Char} {w : Chars}
    (h : (d :: w).IsChain fun a b => (isSpace a == isSpace b) = true) : ∀ c ∈ d :: w, isSpace c = isSpace d := by
  induction w generalizing d with
  | nil =>
    intro c hc
    rw [mem_singleton.mp hc]
  | cons e w ih =>
    obtain ⟨hde, hew⟩ := isChain_cons_cons.mp h
    intro c hc
    rcases mem_cons.mp hc with rfl | hc
    · rfl
    · rw [ih hew c hc, eq_of_beq hde]

theorem exists_word_of_mem {h : Chars} (hc : c ∈ h) (hs : isSpace c = false) : ∃ w ∈ words h, c ∈ w := by
  rw [← flatten_splitBy (fun a b => isSpace a == isSpace b) h] at hc
  obtain ⟨w, hw, hcw⟩ := mem_flatten.mp hc
  refine ⟨w, mem_filter.mpr ⟨hw, ?_⟩, hcw⟩
  have hchain := isChain_of_mem_splitBy hw
  cases w with
  | nil => cases hcw
  | cons d w =>
    have hd : isSpace d = false := (isSpace_eq_of_isChain hchain c hcw).symm.trans hs
    simp [hd]

theorem isTypedName_of_brace {h : Chars} (hh : '\x7b' ∈ h) : isTypedName h = false := by
  rw [Bool.eq_false_iff]
  intro htyped
  obtain ⟨w, hw, hmem⟩ := exists_word_of_mem hh (by decide)
  exact words_all_of_isTypedName htyped w hw hmem

theorem declarationOpen?_paren {h : Chars} (hh : '(' ∉ h) (r : Chars) :
    declarationOpen? (h ++ '(' :: r) = if isTypedName h then some r else none := by
  have hall : ∀ c ∈ h, (c != '(') = true := fun c hc => bne_iff_ne.mpr fun heq => hh (heq ▸ hc)
  have hdrop : (h ++ '(' :: r).dropWhile (· != '(') = '(' :: r := by
    rw [dropWhile_append_of_pos hall]
    rfl
  have htake : (h ++ '(' :: r).takeWhile (· != '(') = h := by
    rw [takeWhile_append_of_pos hall]
    simp
  simp only [declarationOpen?, hdrop, htake]

theorem declarationOpen?_of_not_mem (h : '(' ∉ cs) : declarationOpen? cs = none := by
  have hdrop : cs.dropWhile (· != '(') = [] := by
    rw [dropWhile_eq_nil_iff]
    exact fun c hc => bne_iff_ne.mpr fun heq => h (heq ▸ hc)
  simp only [declarationOpen?, hdrop]

/-! ### Punctuated texts -/

/-- Two texts that are recognised alike: they agree up to the first parenthesis and differ by a
semicolon behind it, or they have no parenthesis, or a brace stands before it. -/
inductive SameStart : Chars → Chars → Prop
  | paren {h a b : Chars} (hh : '(' ∉ h) :
    SameStart (h ++ '(' :: (a ++ b)) (h ++ '(' :: (a ++ ';' :: b))
  | noParen {c c' : Chars} (hc : '(' ∉ c) (hc' : '(' ∉ c') : SameStart c c'
  | brace {h h' r r' : Chars} (hh : '(' ∉ h) (hh' : '(' ∉ h') (hb : '\x7b' ∈ h)
    (hb' : '\x7b' ∈ h') : SameStart (h ++ '(' :: r) (h' ++ '(' :: r')

theorem sameStart_insert {x y : Chars} (h : y = [] ∨ '\x7b' ∈ x) : SameStart (x ++ y) (x ++ ';' :: y) := by
  by_cases hx : '(' ∈ x
  · obtain ⟨a, b, rfl, ha⟩ := eq_append_cons_of_mem hx
    rw [append_assoc, cons_append, append_assoc, cons_append]
    exact .paren ha
  · by_cases hy : '(' ∈ y
    · obtain ⟨a, b, rfl, ha⟩ := eq_append_cons_of_mem hy
      rcases h with h | h
      · simp at h
      · rw [← append_assoc, ← cons_append, ← append_assoc]
        refine .brace ?_ ?_ (mem_append_left _ h) (mem_append_left _ h)
        · simp [hx, ha]
        · simp [hx, ha]
    · refine .noParen ?_ ?_
      · simp [hx, hy]
      · simp [hx, hy]

namespace SameStart

variable {c c' : Chars} (h : SameStart c c')

include h

theorem controlHeader?_none (hc : controlHeader? c = none) : controlHeader? c' = none := by
  cases h with
  | paren hh =>
    rw [controlHeader?_paren hh] at hc ⊢
    split at hc
    · cases hc
    · next hstart => rw [if_neg hstart]
  | noParen _ hc' => exact controlHeader?_of_not_mem hc'
  | brace _ hh' _ hb' =>
    rw [controlHeader?_paren hh', isHeaderStart_of_brace hb']
    rfl

theorem closesEarly {group : Chars} (hc : controlHeader? c = some group)
    (hgroup : headerGroup 0 group = .closesEarly) :
    ∃ group', controlHeader? c' = some group' ∧ headerGroup 0 group' = .closesEarly := by
  cases h with
  | @paren h a b hh =>
    rw [controlHeader?_paren hh] at hc ⊢
    split at hc
    · next hstart =>
      cases hc
      rw [if_pos hstart]
      rw [← cons_append] at hgroup ⊢
      exact ⟨_, rfl, headerGroup_insert hgroup⟩
    · cases hc
  | noParen hc0 _ =>
    rw [controlHeader?_of_not_mem hc0] at hc
    cases hc
  | brace hh _ hb _ =>
    rw [controlHeader?_paren hh, isHeaderStart_of_brace hb] at hc
    cases hc

theorem declarationOpen?_isSome : (declarationOpen? c').isSome = (declarationOpen? c).isSome := by
  cases h with
  | paren hh =>
    rw [declarationOpen?_paren hh, declarationOpen?_paren hh]
    split <;> rfl
  | noParen hc hc' => rw [declarationOpen?_of_not_mem hc, declarationOpen?_of_not_mem hc']
  | brace hh hh' hb hb' =>
    rw [declarationOpen?_paren hh, declarationOpen?_paren hh', isTypedName_of_brace hb, isTypedName_of_brace hb']
    rfl

end SameStart

namespace Punctuated

variable {c c' : Chars}

theorem rec_sameStart {P : Chars → Prop} (h : Punctuated c c') (hc : P c)
    (hstep : ∀ a b, SameStart a b → P a → P b) : P c' := by
  induction h with
  | same => exact hc
  | @atEnd c' _ _ ih =>
    refine hstep c' _ ?_ ih
    have hinsert := sameStart_insert (x := c') (y := []) (.inl rfl)
    rwa [append_nil] at hinsert
  | @inBlock w b y _ _ ih =>
    refine hstep _ _ ?_ ih
    have hinsert := sameStart_insert (x := w ++ '\x7b' :: b) (y := y) (.inr (by simp))
    simpa using hinsert

theorem controlHeader?_none (h : Punctuated c c') (hc : controlHeader? c = none) : controlHeader? c' = none :=
  h.rec_sameStart (P := fun c => controlHeader? c = none) hc fun _ _ hs => hs.controlHeader?_none

theorem closesEarly (h : Punctuated c c') {group : Chars} (hc : controlHeader? c = some group)
    (hgroup : headerGroup 0 group = .closesEarly) :
    ∃ group', controlHeader? c' = some group' ∧ headerGroup 0 group' = .closesEarly :=
  h.rec_sameStart (P := fun c => ∃ group, controlHeader? c = some group ∧ headerGroup 0 group = .closesEarly)
    ⟨group, hc, hgroup⟩ fun _ _ hs ⟨_, hc, hgroup⟩ => hs.closesEarly hc hgroup

theorem declarationOpen?_isSome (h : Punctuated c c') : (declarationOpen? c').isSome = (declarationOpen? c).isSome :=
  h.rec_sameStart (P := fun d => (declarationOpen? d).isSome = (declarationOpen? c).isSome) rfl
    fun _ _ hs ih => hs.declarationOpen?_isSome.trans ih

theorem startsChain_eq (h : Punctuated c c') : startsChain c' = startsChain c := by
  induction h with
  | same => rfl
  | @atEnd c' _ hne ih =>
    rw [← ih]
    match c' with
    | [] => exact absurd rfl hne
    | [a] => simp [startsChain, List.isPrefixOf]
    | a :: b :: _ => simp [startsChain, List.isPrefixOf]
  | @inBlock w b y _ _ ih =>
    rw [← ih]
    match w with
    | [] => simp [startsChain, List.isPrefixOf]
    | [a] => simp [startsChain, List.isPrefixOf]
    | a :: b :: _ => simp [startsChain, List.isPrefixOf]

end Punctuated

end GroovySharp.Source
