import GroovySharp.Proofs.Lexeme

/-!
# Texts with semicolons between tokens

A text is spaced by semicolons if some have been put in where a statement can end: before blanks, a
comment, a closing brace or the end of the text.
-/

namespace GroovySharp.Grammar

open Text Unicode List Option

/-! ### Places for a semicolon -/

def endsStatement (c : Char) : Bool := isSpace c || c == '/' || c == '\x7d'

theorem of_endsStatement {p : Char → Bool} (hs : spaceChars.all p = true) (hc : p '/' = true)
    (hb : p '\x7d' = true) {c : Char} (h : endsStatement c = true) : p c = true := by
  simp only [endsStatement, Bool.or_eq_true, beq_iff_eq] at h
  rcases h with (h | rfl) | rfl
  · exact all_eq_true.mp hs c (mem_spaceChars h)
  · exact hc
  · exact hb

def Cut (r : Chars) : Prop := ∀ c ∈ (r.dropWhile isLineBlank).head?, endsStatement c = true

theorem Cut.head {r : Chars} (h : Cut r) : ∀ c ∈ r.head?, endsStatement c = true := by
  intro c hc
  cases r with
  | nil => cases hc
  | cons d r =>
    obtain rfl : d = c := Option.some.inj hc
    by_cases hd : isLineBlank d = true
    · have hblank : d = ' ' ∨ d = '\t' := by simpa [isLineBlank] using hd
      rcases hblank with rfl | rfl <;> decide
    · refine h d ?_
      rw [dropWhile_cons_of_neg hd]
      rfl

/-- The second text is the first with semicolons put in where a statement can end. -/
inductive Spaced : Chars → Chars → Prop
  | nil : Spaced [] []
  | cons {c : Char} {r r' : Chars} (h : Spaced r r') : Spaced (c :: r) (c :: r')
  | put {r r' : Chars} (hc : Cut r) (h : Spaced r r') : Spaced r (';' :: r')

namespace Spaced

variable {r r' : Chars}

theorem append (h : Spaced r r') (w : Chars) : Spaced (w ++ r) (w ++ r') := by
  induction w with
  | nil => exact h
  | cons c w ih => exact .cons ih

variable {c q : Char} {p : Char → Bool} {v : Chars}

theorem of_cons (h : Spaced r (c :: r')) (hc : c ≠ ';') : ∃ r₁, r = c :: r₁ ∧ Spaced r₁ r' := by
  cases h with
  | cons h => exact ⟨_, rfl, h⟩
  | put => exact absurd rfl hc

theorem cons_of (h : Spaced (c :: r) r') (hc : endsStatement c = false) : ∃ r₁', r' = c :: r₁' ∧ Spaced r r₁' := by
  cases h with
  | cons h => exact ⟨_, rfl, h⟩
  | put hcut =>
    have hends := hcut.head c rfl
    rw [hc] at hends
    cases hends

/-! ### Runs of characters -/

def Stops (p : Char → Bool) : Prop := p ';' = false ∧ ∀ c, endsStatement c = true → p c = false

theorem stops_of_check (h : (!p ';' && !p '/' && !p '\x7d' && spaceChars.all fun c => !p c) = true) : Stops p := by
  simp only [Bool.and_eq_true, Bool.not_eq_true'] at h
  obtain ⟨⟨⟨hs, hc⟩, hb⟩, hall⟩ := h
  refine ⟨hs, fun c hends => ?_⟩
  have hp := of_endsStatement (p := fun c => !p c) hall (by simp [hc]) (by simp [hb]) hends
  simpa using hp

theorem stops_isNameChar : Stops isNameChar := stops_of_check (by decide +kernel)

theorem stops_isWord : Stops isWord := stops_of_check (by decide +kernel)

theorem stops_isDigit : Stops isDigit := stops_of_check (by decide +kernel)

theorem Stops.takeWhile_eq_nil (hp : Stops p) (hc : Cut r) : r.takeWhile p = [] ∧ r.dropWhile p = r := by
  cases r with
  | nil => exact ⟨rfl, rfl⟩
  | cons c r =>
    have hpc := hp.2 c (hc.head c rfl)
    simp [hpc]

theorem takeWhile_eq (hp : Stops p) (h : Spaced r r') : r'.takeWhile p = r.takeWhile p := by
  induction h with
  | nil => rfl
  | @cons c r r' _ ih => rw [takeWhile_cons, takeWhile_cons, ih]
  | put hc _ _ => rw [takeWhile_cons, hp.1, (hp.takeWhile_eq_nil hc).1]; rfl

theorem dropWhile (hp : Stops p) (h : Spaced r r') : Spaced (r.dropWhile p) (r'.dropWhile p) := by
  induction h with
  | nil => exact .nil
  | @cons c r r' h ih =>
    rw [dropWhile_cons, dropWhile_cons]
    split
    · exact ih
    · exact .cons h
  | put hc h _ =>
    rw [(hp.takeWhile_eq_nil hc).2, dropWhile_cons, hp.1]
    exact .put hc h

/-! ### Words -/

theorem isPrefixOf_eq (h : Spaced r r') (hv : v.all (fun c => c != ';' && !endsStatement c) = true) :
    v.isPrefixOf r' = v.isPrefixOf r := by
  induction h generalizing v with
  | nil => rfl
  | @cons c r r' _ ih =>
    cases v with
    | nil => rfl
    | cons d v =>
      rw [all_cons, Bool.and_eq_true] at hv
      rw [List.isPrefixOf, List.isPrefixOf, ih hv.2]
  | @put r r' hc _ _ =>
    cases v with
    | nil => simp
    | cons d v =>
      simp only [all_cons, Bool.and_eq_true, bne_iff_ne, Bool.not_eq_true'] at hv
      obtain ⟨⟨hd, hends⟩, -⟩ := hv
      have hr : (d :: v).isPrefixOf r = false := by
        cases r with
        | nil => rfl
        | cons c r =>
          have hdc : d ≠ c := by
            rintro rfl
            rw [hc.head d rfl] at hends
            cases hends
          simp [List.isPrefixOf, hdc]
      simp [List.isPrefixOf, hd, hr]

theorem head?_eq_some_iff (h : Spaced r r') (hc : c ≠ ';') (he : endsStatement c = false) :
    r'.head? = some c ↔ r.head? = some c := by
  constructor
  · intro hr
    obtain ⟨r₁', rfl⟩ := List.head?_eq_some_iff.mp hr
    obtain ⟨r₁, rfl, -⟩ := h.of_cons hc
    rfl
  · intro hr
    obtain ⟨r₁, rfl⟩ := List.head?_eq_some_iff.mp hr
    obtain ⟨r₁', rfl, -⟩ := h.cons_of he
    rfl

theorem prefix_of (h : Spaced r r') (hv : ';' ∉ v) (hp : v <+: r') : v <+: r := by
  induction h generalizing v with
  | nil => exact hp
  | cons _ ih =>
    cases v with
    | nil => exact nil_prefix
    | cons d v =>
      obtain ⟨rfl, hpv⟩ := cons_prefix_cons.mp hp
      exact cons_prefix_cons.mpr ⟨rfl, ih (fun hm => hv (mem_cons_of_mem _ hm)) hpv⟩
  | put =>
    cases v with
    | nil => exact nil_prefix
    | cons d v =>
      obtain ⟨rfl, -⟩ := cons_prefix_cons.mp hp
      exact absurd mem_cons_self hv

theorem infix_of (h : Spaced r r') (hv : ';' ∉ v) (hp : v <:+: r') : v <:+: r := by
  induction h with
  | nil => exact hp
  | cons h ih =>
    rcases infix_cons_iff.mp hp with hp | hp
    · exact ((Spaced.cons h).prefix_of hv hp).isInfix
    · exact (ih hp).trans (suffix_cons _ _).isInfix
  | put hc h ih =>
    rcases infix_cons_iff.mp hp with hp | hp
    · exact ((Spaced.put hc h).prefix_of hv hp).isInfix
    · exact ih hp

/-! ### Terminals that look ahead -/

theorem startsWithWordOf_eq (h : Spaced r r') (words : List Chars) :
    startsWithWordOf words r' = startsWithWordOf words r := by
  rw [startsWithWordOf, startsWithWordOf, h.takeWhile_eq stops_isWord]

theorem nameLength?_eq (h : Spaced r r') (c : Char) : nameLength? (c :: r') = nameLength? (c :: r) := by
  rw [nameLength?, nameLength?, h.takeWhile_eq stops_isNameChar]

theorem filter_nameLength? (c : Char) (r : Chars) (f : Chars → Bool) :
    (nameLength? (c :: r)).filter (fun n => f ((c :: r).drop n)) =
      if isNameStart c && f (r.dropWhile isNameChar) then some (1 + (r.takeWhile isNameChar).length)
      else none := by
  have hdrop : (c :: r).drop (1 + (r.takeWhile isNameChar).length) = r.dropWhile isNameChar := by
    rw [Nat.add_comm, drop_succ_cons, drop_takeWhile]
  cases hc : isNameStart c with
  | false => simp [nameLength?, hc]
  | true => simp [nameLength?, hc, Option.filter, hdrop]

theorem callNameLength?_eq (h : Spaced r r') (c : Char) : callNameLength? (c :: r') = callNameLength? (c :: r) := by
  have hparen : ((r'.dropWhile isNameChar).head? == some '(') = ((r.dropWhile isNameChar).head? == some '(') := by
    rw [Bool.eq_iff_iff, beq_iff_eq, beq_iff_eq]
    exact (h.dropWhile stops_isNameChar).head?_eq_some_iff (by decide) (by decide)
  rw [callNameLength?, callNameLength?, (Spaced.cons h).startsWithWordOf_eq,
    filter_nameLength? c r' (fun rest => rest.head? == some '('),
    filter_nameLength? c r (fun rest => rest.head? == some '('), hparen,
    h.takeWhile_eq stops_isNameChar]

theorem Cut.no_operand (hc : Cut r) : (r.dropWhile isLineBlank).head?.any isOperandStart = false := by
  cases hr : (r.dropWhile isLineBlank).head? with
  | none => rfl
  | some c =>
    have hstops : Stops isOperandStart := stops_of_check (by decide +kernel)
    exact hstops.2 c (hc c hr)

theorem operand (h : Spaced r r') : (r'.dropWhile isLineBlank).head?.any isOperandStart =
        (r.dropWhile isLineBlank).head?.any isOperandStart ∧
      ((r.dropWhile isLineBlank).head?.any isOperandStart = true →
        Spaced (r.dropWhile isLineBlank) (r'.dropWhile isLineBlank)) := by
  induction h with
  | nil => exact ⟨rfl, fun _ => .nil⟩
  | @cons c r r' h ih =>
    rw [dropWhile_cons, dropWhile_cons]
    split
    · exact ih
    · exact ⟨rfl, fun _ => .cons h⟩
  | put hc h _ =>
    rw [Cut.no_operand hc]
    exact ⟨rfl, fun h => by cases h⟩

def startsOperand (rest : Chars) : Bool :=
  rest.head?.any isLineBlank && !startsWithWordOf operatorWords (rest.dropWhile isLineBlank) &&
    (rest.dropWhile isLineBlank).head?.any isOperandStart

theorem startsOperand_eq (h : Spaced r r') : startsOperand r' = startsOperand r := by
  obtain ⟨hstart, hspaced⟩ := h.operand
  rw [startsOperand, startsOperand, hstart]
  cases hop : (r.dropWhile isLineBlank).head?.any isOperandStart with
  | false => simp
  | true =>
    rw [(hspaced hop).startsWithWordOf_eq]
    cases h with
    | nil | cons => rfl
    | put hc =>
      rw [Cut.no_operand hc] at hop
      cases hop

theorem commandNameLength?_eq (h : Spaced r r') (c : Char) :
    commandNameLength? (c :: r') = commandNameLength? (c :: r) := by
  have hunfold (r : Chars) : commandNameLength? (c :: r) =
      if startsWithWordOf reservedWords (c :: r) then none
      else (nameLength? (c :: r)).filter fun n => startsOperand ((c :: r).drop n) := rfl
  rw [hunfold, hunfold, (Spaced.cons h).startsWithWordOf_eq, filter_nameLength? c r' startsOperand,
    filter_nameLength? c r startsOperand, (h.dropWhile stops_isNameChar).startsOperand_eq,
    h.takeWhile_eq stops_isNameChar]

theorem integerLength?_eq (h : Spaced r r') : integerLength? r' = integerLength? r := by
  rw [integerLength?, integerLength?, h.takeWhile_eq stops_isDigit]

theorem decimalLength?_eq (h : Spaced r r') : decimalLength? r' = decimalLength? r := by
  have hw' := h.integerLength?_eq
  cases hw : integerLength? r with
  | none => simp [decimalLength?, hw', hw]
  | some whole =>
    rw [hw] at hw'
    simp only [decimalLength?, hw', hw, bind_eq_bind, bind_some, (drop_integer hw).2, (drop_integer hw').2]
    have hrest := h.dropWhile stops_isDigit
    generalize r.dropWhile isDigit = s at hrest
    generalize r'.dropWhile isDigit = s' at hrest
    by_cases hs : s.head? = some '.'
    · obtain ⟨rest, rfl⟩ := List.head?_eq_some_iff.mp hs
      obtain ⟨rest', rfl, hmore⟩ := hrest.cons_of (by decide)
      simp only [hmore.integerLength?_eq]
    · have hs' := mt (hrest.head?_eq_some_iff (by decide) (by decide)).mp hs
      split
      · exact absurd rfl hs'
      · split
        · exact absurd rfl hs
        · rfl

theorem assignLength?_eq (h : Spaced r r') (c : Char) : assignLength? (c :: r') = assignLength? (c :: r) := by
  have hequals : endsStatement '=' = false := by decide
  have hhead (hrest : Spaced r r') : (r'.head? = some '=') = (r.head? = some '=') :=
    propext (hrest.head?_eq_some_iff (by decide) hequals)
  simp only [assignLength?, hhead h]
  split
  · rfl
  · split
    · by_cases hr : r.head? = some '='
      · obtain ⟨rest, rfl⟩ := List.head?_eq_some_iff.mp hr
        obtain ⟨rest', rfl, hrest⟩ := h.cons_of hequals
        simp only [hrest.head?_eq_some_iff (by decide) hequals]
      · have hr' := mt (h.head?_eq_some_iff (by decide) hequals).mp hr
        split
        · exact absurd rfl hr'
        · split
          · exact absurd rfl hr
          · rfl
    · rfl

/-! ### Strings and comments -/

theorem isSome_tripleCloseLength? (q : Char) (r : Chars) : (tripleCloseLength? q r).isSome ↔ [q, q, q] <:+: r := by
  fun_induction tripleCloseLength? q r with
  | case1 a b c rest h =>
    obtain ⟨rfl, rfl, rfl⟩ := h
    exact iff_of_true rfl (IsPrefix.isInfix ⟨rest, rfl⟩)
  | case2 a b c rest h ih =>
    have hprefix : ¬[q, q, q] <+: a :: b :: c :: rest := by simpa [cons_prefix_cons, eq_comm] using h
    rw [isSome_map, ih]
    exact (infix_cons_iff.trans (or_iff_right hprefix)).symm
  | case3 r hr =>
    refine iff_of_false (by simp) fun hinfix => ?_
    have hlen := hinfix.length_le
    rcases r with _ | ⟨a, _ | ⟨b, _ | ⟨c, rest⟩⟩⟩ <;> simp at hlen
    exact hr a b c rest rfl

theorem isSome_commentCloseLength? (r : Chars) : (commentCloseLength? r).isSome ↔ ['*', '/'] <:+: r := by
  fun_induction commentCloseLength? r with
  | case1 a b rest h =>
    obtain ⟨rfl, rfl⟩ := h
    exact iff_of_true rfl (IsPrefix.isInfix ⟨rest, rfl⟩)
  | case2 a b rest h ih =>
    have hprefix : ¬['*', '/'] <+: a :: b :: rest := by simpa [cons_prefix_cons, eq_comm] using h
    rw [isSome_map, ih]
    exact (infix_cons_iff.trans (or_iff_right hprefix)).symm
  | case3 r hr =>
    refine iff_of_false (by simp) fun hinfix => ?_
    have hlen := hinfix.length_le
    rcases r with _ | ⟨a, _ | ⟨b, rest⟩⟩ <;> simp at hlen
    exact hr a b rest rfl

theorem isSome_closeLength?_plain (hq : c ≠ q) (hc : c ≠ '\\') :
    (closeLength? q (c :: r)).isSome ↔ c ≠ '\n' ∧ (closeLength? q r).isSome := by
  rw [closeLength?.eq_def]
  by_cases hn : c = '\n'
  · subst hn
    simp [hq]
  · simp [hq, hn, hc]

theorem isSome_closeLength?_escape (hq : q ≠ '\\') :
    (closeLength? q ('\\' :: c :: r)).isSome ↔ c ≠ '\n' ∧ (closeLength? q r).isSome := by
  rw [closeLength?]
  by_cases hn : c = '\n' <;> simp [hq.symm, hn]

theorem isSome_closeLength? (h : Spaced r r') (hq : q = '\'' ∨ q = '"')
    (hclose : (closeLength? q r').isSome) : (closeLength? q r).isSome := by
  have hslash : q ≠ '\\' := by rcases hq with rfl | rfl <;> decide
  have hsemicolon : q ≠ ';' := by rcases hq with rfl | rfl <;> decide
  have hends : endsStatement q = false := by rcases hq with rfl | rfl <;> decide
  induction hn : r'.length using Nat.strongRecOn generalizing r r' with
  | _ n ih =>
    cases h with
    | nil => cases hclose
    | @cons c r r' h =>
      by_cases hcq : c = q
      · rw [hcq, closeLength?_quote]
        rfl
      by_cases hc : c = '\\'
      · subst hc
        cases r' with
        | nil => simp [closeLength?, hslash.symm] at hclose
        | cons d r₁' =>
          rw [isSome_closeLength?_escape hslash] at hclose
          have hlt : r₁'.length < n := by simp only [← hn, length_cons]; omega
          cases h with
          | cons h =>
            rw [isSome_closeLength?_escape hslash]
            exact ⟨hclose.1, ih _ hlt h hclose.2 rfl⟩
          | put hcut h =>
            -- the backslash takes the character after the semicolon instead
            have hrest := ih _ hlt h hclose.2 rfl
            cases r with
            | nil => cases hrest
            | cons e r =>
              have he := hcut.head e rfl
              have heq : e ≠ q := by
                rintro rfl
                rw [hends] at he
                cases he
              have hes : e ≠ '\\' := by
                rintro rfl
                revert he
                decide
              rw [isSome_closeLength?_plain heq hes] at hrest
              exact (isSome_closeLength?_escape hslash).mpr hrest
      · rw [isSome_closeLength?_plain hcq hc] at hclose ⊢
        exact ⟨hclose.1, ih _ (by simp [← hn]) h hclose.2 rfl⟩
    | @put _ r' hc h =>
      rw [isSome_closeLength?_plain hsemicolon.symm (by decide)] at hclose
      exact ih _ (by simp [← hn]) h hclose.2 rfl

end Spaced

/-! ### Terminals in a spaced text -/

def Terminal.isEnclosed : Terminal → Bool
  | tripleString | singleString | doubleString | blank | lineComment | blockComment => true
  | _ => false

section

variable {r r' : Chars} {t : Terminal}

theorem Spaced.matchLength?_eq (h : Spaced r r') (c : Char) (ht : t.isEnclosed = false) :
    t.matchLength? (c :: r') = t.matchLength? (c :: r) := by
  have hfixed (d : Char) (v : Chars) (hv : v.all (fun c => c != ';' && !endsStatement c) = true) :
      (if (d :: v).isPrefixOf (c :: r') then some (d :: v).length else none) =
        if (d :: v).isPrefixOf (c :: r) then some (d :: v).length else none := by
    rw [List.isPrefixOf, List.isPrefixOf, h.isPrefixOf_eq hv]
  cases t with
  | callName => exact h.callNameLength?_eq c
  | commandName => exact h.commandNameLength?_eq c
  | name => exact h.nameLength?_eq c
  | decimal => exact (Spaced.cons h).decimalLength?_eq
  | integer => exact (Spaced.cons h).integerLength?_eq
  | assign => exact h.assignLength?_eq c
  | endOfInput => rfl
  | tripleString | singleString | doubleString | blank | lineComment | blockComment => cases ht
  | _ => exact hfixed _ _ (by decide)

theorem Spaced.isSome_stringLength? (h : Spaced r r') {q : Char} (hq : q = '\'' ∨ q = '"') (c : Char)
    (hs : (stringLength? q (c :: r')).isSome) : (stringLength? q (c :: r)).isSome := by
  rw [stringLength?] at hs ⊢
  split at hs
  · next hc =>
    rw [if_pos hc]
    rw [isSome_map] at hs ⊢
    exact h.isSome_closeLength? hq hs
  · cases hs

theorem Spaced.isSome_matchLength? (h : Spaced r r') (c : Char)
    (hs : (t.matchLength? (c :: r')).isSome) : (t.matchLength? (c :: r)).isSome := by
  cases ht : t.isEnclosed with
  | false => rwa [h.matchLength?_eq c ht] at hs
  | true =>
    cases t with
    | tripleString =>
      obtain ⟨n, hn⟩ := isSome_iff_exists.mp hs
      obtain ⟨q, rest', m, hq, hcs, hm, -⟩ := tripleStringLength?_eq_some_iff.mp hn
      obtain ⟨rfl, rfl⟩ := List.cons.inj hcs
      have hne : c ≠ ';' := by rcases hq with rfl | rfl <;> decide
      obtain ⟨r₁, rfl, h₁⟩ := h.of_cons hne
      obtain ⟨rest, rfl, hrest⟩ := h₁.of_cons hne
      have hinfix := (isSome_tripleCloseLength? c rest').mp (by rw [hm]; rfl)
      have hclose := (isSome_tripleCloseLength? c rest).mpr (hrest.infix_of (by simpa using hne.symm) hinfix)
      obtain ⟨k, hk⟩ := isSome_iff_exists.mp hclose
      exact isSome_iff_exists.mpr ⟨_, tripleStringLength?_eq_some_iff.mpr ⟨c, rest, k, hq, rfl, hk, rfl⟩⟩
    | singleString => exact h.isSome_stringLength? (.inl rfl) c hs
    | doubleString => exact h.isSome_stringLength? (.inr rfl) c hs
    | blank =>
      rw [Terminal.matchLength?, isSome_blankLength?] at hs ⊢
      exact hs
    | lineComment =>
      obtain ⟨n, hn⟩ := isSome_iff_exists.mp hs
      obtain ⟨rest', hcs, -⟩ := lineCommentLength?_eq_some_iff.mp hn
      obtain ⟨rfl, rfl⟩ := List.cons.inj hcs
      obtain ⟨rest, rfl, -⟩ := h.of_cons (by decide)
      rfl
    | blockComment =>
      obtain ⟨n, hn⟩ := isSome_iff_exists.mp hs
      obtain ⟨rest', m, hcs, hm, -⟩ := blockCommentLength?_eq_some_iff.mp hn
      obtain ⟨rfl, rfl⟩ := List.cons.inj hcs
      obtain ⟨rest, rfl, hrest⟩ := h.of_cons (by decide)
      have hinfix := (isSome_commentCloseLength? rest').mp (by rw [hm]; rfl)
      have hclose := (isSome_commentCloseLength? rest).mpr (hrest.infix_of (by decide) hinfix)
      obtain ⟨k, hk⟩ := isSome_iff_exists.mp hclose
      exact isSome_iff_exists.mpr ⟨_, blockCommentLength?_eq_some_iff.mpr ⟨rest, k, rfl, hk, rfl⟩⟩
    | _ => cases ht

theorem exists_of_start (start : Chars) {w x rest : Chars} {m : Nat} (h : w ++ x = start ++ rest)
    (hlen : w.length = m + start.length) : ∃ v, w = start ++ v ∧ rest = v ++ x ∧ v.length = m := by
  obtain ⟨v, rfl⟩ := prefix_of_prefix_length_le ⟨rest, h.symm⟩ (prefix_append w x) (by omega)
  rw [append_assoc] at h
  rw [length_append] at hlen
  exact ⟨v, rfl, (append_cancel_left h).symm, by omega⟩

theorem length_takeWhile_append {p : Char → Bool} {v x x' : Chars}
    (h : ((v ++ x).takeWhile p).length = v.length) (hx : x'.head? = x.head?) :
    ((v ++ x').takeWhile p).length = v.length := by
  induction v with
  | nil => cases x <;> cases x' <;> simp_all [takeWhile_cons]
  | cons c v ih =>
    by_cases hc : p c = true
    · simp_all
    · simp [hc] at h

theorem stringLength?_append {q : Char} {w x : Chars} (h : stringLength? q (w ++ x) = some w.length)
    (x' : Chars) : stringLength? q (w ++ x') = some w.length := by
  obtain ⟨rest, m, hcs, hm, hlen⟩ := stringLength?_eq_some_iff.mp h
  obtain ⟨v, rfl, rfl, rfl⟩ := exists_of_start [q] hcs hlen
  have htake := (closeLength?_take hm x').2.2
  rw [take_left] at htake
  exact stringLength?_eq_some_iff.mpr ⟨v ++ x', v.length, rfl, htake, hlen⟩

theorem Spaced.matchLength?_append {w x x' : Chars} (h : Spaced x x')
    (hm : t.matchLength? (w ++ x) = some w.length) (hx : t.isIgnored = true → x'.head? = x.head?) :
    t.matchLength? (w ++ x') = some w.length := by
  cases ht : t.isEnclosed with
  | false =>
    cases w with
    | nil => exact absurd (Terminal.matchLength?_bounds hm).1 (Nat.lt_irrefl 0)
    | cons c w => exact ((h.append w).matchLength?_eq c ht).trans hm
  | true =>
    cases t with
    | tripleString =>
      obtain ⟨q, rest, m, hq, hcs, hm, hlen⟩ := tripleStringLength?_eq_some_iff.mp hm
      obtain ⟨v, rfl, rfl, rfl⟩ := exists_of_start [q, q, q] hcs hlen
      have htake := (tripleCloseLength?_take hm x').2.2
      rw [take_left] at htake
      exact tripleStringLength?_eq_some_iff.mpr ⟨q, v ++ x', v.length, hq, rfl, htake, hlen⟩
    | singleString | doubleString => exact stringLength?_append hm x'
    | blank =>
      obtain ⟨hlen, hne⟩ := blankLength?_eq_some_iff.mp hm
      exact blankLength?_eq_some_iff.mpr ⟨(length_takeWhile_append hlen.symm (hx rfl)).symm, hne⟩
    | lineComment =>
      obtain ⟨rest, hcs, hlen⟩ := lineCommentLength?_eq_some_iff.mp hm
      rw [Nat.add_comm] at hlen
      obtain ⟨v, rfl, rfl, hv⟩ := exists_of_start ['/', '/'] hcs hlen
      refine lineCommentLength?_eq_some_iff.mpr ⟨v ++ x', rfl, ?_⟩
      rw [length_takeWhile_append hv.symm (hx rfl), length_append]
      rfl
    | blockComment =>
      obtain ⟨rest, m, hcs, hm, hlen⟩ := blockCommentLength?_eq_some_iff.mp hm
      obtain ⟨v, rfl, rfl, rfl⟩ := exists_of_start ['/', '*'] hcs hlen
      have htake := (commentCloseLength?_take hm x').2.2
      rw [take_left] at htake
      exact blockCommentLength?_eq_some_iff.mpr ⟨v ++ x', v.length, rfl, htake, hlen⟩
    | _ => cases ht

end

/-! ### Lexemes in a spaced text -/

theorem Spaced.lexeme?_append {allowed : Nat} {w x x' : Chars} {t : Terminal} (h : Spaced x x')
    (hl : lexeme? allowed (w ++ x) = some (t, w.length)) (hx : t.isIgnored = true → x'.head? = x.head?) :
    lexeme? allowed (w ++ x') = some (t, w.length) := by
  have hpos := (lexeme?_bounds hl).1
  rw [lexeme?, candidates_eq] at hl ⊢
  refine findSome?_filter_of hl (fun _ _ => id) ?_ ?_
  · intro k hk
    cases w with
    | nil => exact absurd hpos (Nat.lt_irrefl 0)
    | cons c w =>
      rw [map_eq_none_iff] at hk ⊢
      rw [← not_isSome_iff_eq_none] at hk ⊢
      exact fun hs => hk ((h.append w).isSome_matchLength? c hs)
  · intro k hallowed hk
    refine ⟨hallowed, ?_⟩
    obtain ⟨n, hn, hnt⟩ := map_eq_some_iff.mp hk
    obtain ⟨rfl, rfl⟩ := Prod.mk.inj hnt
    have hignored : k.isIgnored = true → x'.head? = x.head? := by
      intro hi
      have hname : k ≠ .name := by
        rintro rfl
        cases hi
      refine hx ?_
      rwa [if_neg hname]
    rw [h.matchLength?_append hn hignored, map_some, take_left, take_left]

end GroovySharp.Grammar
