import GroovySharp.Grammar.Token

/-!
# Lexemes

What each terminal takes off the front of a text, and what follows for the first token of a text: which
characters a token can start with, and when the choice between terminals does not depend on what is
allowed.
-/

namespace GroovySharp.Grammar

open Text Unicode List Terminal

/-! ### Blanks -/

def spaceChars : Chars := spaces.flatMap fun r => (List.range' r.1 (r.2 + 1 - r.1)).map Char.ofNat

variable {c q : Char} {r cs : Chars} {n allowed : Nat} {t : Terminal}

theorem mem_spaceChars (h : isSpace c = true) : c ∈ spaceChars := by
  obtain ⟨r, hr, hc⟩ := any_eq_true.mp h
  simp only [Bool.and_eq_true, decide_eq_true_eq] at hc
  refine mem_flatMap.mpr ⟨r, hr, mem_map.mpr ⟨c.toNat, ?_, Char.ofNat_toNat c⟩⟩
  rw [mem_range'_1]
  omega

/-! ### Runs of characters -/

theorem drop_takeWhile (p : Char → Bool) (r : Chars) : r.drop (r.takeWhile p).length = r.dropWhile p := by
  have hsplit := congrArg (List.drop (r.takeWhile p).length) (takeWhile_append_dropWhile (p := p) (l := r))
  rw [drop_left] at hsplit
  exact hsplit.symm

theorem drop_integer (h : integerLength? r = some n) :
    n = (r.takeWhile isDigit).length ∧ r.drop n = r.dropWhile isDigit := by
  have hn : n = (r.takeWhile isDigit).length := by
    unfold integerLength? at h
    split at h
    · cases h
    · exact (Option.some.inj h).symm
  exact ⟨hn, hn ▸ drop_takeWhile isDigit r⟩

/-! ### Ends of strings and comments -/

theorem closeLength?_quote (q : Char) (r : Chars) : closeLength? q (q :: r) = some 1 := by
  rw [closeLength?.eq_def]
  simp

theorem tripleCloseLength?_take (h : tripleCloseLength? q r = some n) (y : Chars) :
    3 ≤ n ∧ n ≤ r.length ∧ tripleCloseLength? q (r.take n ++ y) = some n := by
  fun_induction tripleCloseLength? q r generalizing n with
  | case1 a b c rest hq =>
    cases h
    refine ⟨by omega, by simp, ?_⟩
    simp [tripleCloseLength?, hq]
  | case2 a b c rest hq ih =>
    obtain ⟨m, hm, rfl⟩ := Option.map_eq_some_iff.mp h
    obtain ⟨hge, hle, htake⟩ := ih hm
    obtain ⟨k, rfl⟩ : ∃ k, m = k + 2 := ⟨m - 2, by omega⟩
    refine ⟨by omega, by simpa using hle, ?_⟩
    simp only [take_succ_cons, cons_append] at htake ⊢
    rw [tripleCloseLength?, if_neg hq, htake]
    rfl
  | case3 => cases h

theorem commentCloseLength?_take (h : commentCloseLength? r = some n) (y : Chars) :
    2 ≤ n ∧ n ≤ r.length ∧ commentCloseLength? (r.take n ++ y) = some n := by
  fun_induction commentCloseLength? r generalizing n with
  | case1 a b rest hq =>
    cases h
    refine ⟨by omega, by simp, ?_⟩
    simp [commentCloseLength?, hq]
  | case2 a b rest hq ih =>
    obtain ⟨m, hm, rfl⟩ := Option.map_eq_some_iff.mp h
    obtain ⟨hge, hle, htake⟩ := ih hm
    obtain ⟨k, rfl⟩ : ∃ k, m = k + 1 := ⟨m - 1, by omega⟩
    refine ⟨by omega, by simpa using hle, ?_⟩
    simp only [take_succ_cons, cons_append] at htake ⊢
    rw [commentCloseLength?, if_neg hq, htake]
    rfl
  | case3 => cases h

theorem closeLength?_take (h : closeLength? q r = some n) (y : Chars) :
    1 ≤ n ∧ n ≤ r.length ∧ closeLength? q (r.take n ++ y) = some n := by
  fun_induction closeLength? q r generalizing n with
  | case1 => cases h
  | case2 cs =>
    cases h
    refine ⟨by omega, by simp, ?_⟩
    simp [closeLength?_quote]
  | case3 | case4 => cases h
  | case5 d rest hd hq _ ih =>
    obtain ⟨m, hm, rfl⟩ := Option.map_eq_some_iff.mp h
    obtain ⟨hge, hle, htake⟩ := ih hm
    refine ⟨by omega, by simpa using hle, ?_⟩
    simp only [take_succ_cons, cons_append]
    rw [closeLength?, if_neg hq]
    simp [hd, htake]
  | case6 => cases h
  | case7 c cs hq hn hs ih =>
    obtain ⟨m, hm, rfl⟩ := Option.map_eq_some_iff.mp h
    obtain ⟨hge, hle, htake⟩ := ih hm
    refine ⟨by omega, by simpa using hle, ?_⟩
    simp only [take_succ_cons, cons_append]
    rw [closeLength?.eq_def]
    simp [hq, hn, hs, htake]

theorem tripleStringLength?_eq_some_iff :
    tripleStringLength? cs = some n ↔ ∃ q rest m, (q = '\'' ∨ q = '"') ∧ cs = q :: q :: q :: rest ∧
      tripleCloseLength? q rest = some m ∧ n = m + 3 := by
  constructor
  · intro h
    unfold tripleStringLength? at h
    split at h
    · split at h
      · next hq =>
        obtain ⟨hq, rfl, rfl⟩ := hq
        obtain ⟨m, hm, rfl⟩ := Option.map_eq_some_iff.mp h
        exact ⟨_, _, m, hq, rfl, hm, rfl⟩
      · cases h
    · cases h
  · rintro ⟨q, rest, m, hq, rfl, hm, rfl⟩
    simp [tripleStringLength?, hq, hm]

theorem stringLength?_eq_some_iff :
    stringLength? q cs = some n ↔ ∃ rest m, cs = q :: rest ∧ closeLength? q rest = some m ∧ n = m + 1 := by
  cases cs with
  | nil => simp [stringLength?]
  | cons c cs =>
    rw [stringLength?]
    by_cases hc : c = q
    · subst hc
      simp [Option.map_eq_some_iff, @eq_comm _ n]
    · simp [hc]

theorem blockCommentLength?_eq_some_iff : blockCommentLength? cs = some n ↔ ∃ rest m, cs = '/' :: '*' :: rest ∧
      commentCloseLength? rest = some m ∧ n = m + 2 := by
  constructor
  · intro h
    unfold blockCommentLength? at h
    split at h
    · obtain ⟨m, hm, rfl⟩ := Option.map_eq_some_iff.mp h
      exact ⟨_, m, rfl, hm, rfl⟩
    · cases h
  · rintro ⟨rest, m, rfl, hm, rfl⟩
    simp [blockCommentLength?, hm]

theorem lineCommentLength?_eq_some_iff : lineCommentLength? cs = some n ↔ ∃ rest, cs = '/' :: '/' :: rest ∧
      n = 2 + (rest.takeWhile (· != '\n')).length := by
  constructor
  · intro h
    unfold lineCommentLength? at h
    split at h
    · exact ⟨_, rfl, (Option.some.inj h).symm⟩
    · cases h
  · rintro ⟨rest, rfl, rfl⟩
    rfl

theorem blankLength?_eq_some_iff : blankLength? cs = some n ↔ n = (cs.takeWhile isTokenBlank).length ∧ n ≠ 0 := by
  unfold blankLength?
  split
  · next h => simp [h]
  · next h =>
    constructor
    · intro hn
      cases hn
      exact ⟨rfl, h⟩
    · rintro ⟨rfl, -⟩
      rfl

theorem isSome_blankLength? (c : Char) (cs : Chars) : (blankLength? (c :: cs)).isSome ↔ isTokenBlank c = true := by
  rw [Option.isSome_iff_exists]
  constructor
  · rintro ⟨n, hn⟩
    obtain ⟨rfl, hne⟩ := blankLength?_eq_some_iff.mp hn
    cases hc : isTokenBlank c with
    | true => rfl
    | false => simp [hc] at hne
  · intro hc
    exact ⟨_, blankLength?_eq_some_iff.mpr ⟨rfl, by simp [hc]⟩⟩

theorem nameLength?_bounds (h : nameLength? cs = some n) : 0 < n ∧ n ≤ cs.length := by
  cases cs with
  | nil => cases h
  | cons c cs =>
    rw [nameLength?] at h
    split at h
    · cases h
      have hle := (List.takeWhile_prefix (l := cs) isNameChar).length_le
      rw [length_cons]
      omega
    · cases h

theorem integerLength?_bounds (h : integerLength? cs = some n) : 0 < n ∧ n ≤ cs.length := by
  have hn := (drop_integer h).1
  have hle := (List.takeWhile_prefix (l := cs) isDigit).length_le
  refine ⟨?_, by omega⟩
  rw [Nat.pos_iff_ne_zero]
  rintro rfl
  rw [integerLength?, ← hn] at h
  cases h

theorem decimalLength?_bounds (h : decimalLength? cs = some n) : 0 < n ∧ n ≤ cs.length := by
  obtain ⟨whole, hw, h⟩ := Option.bind_eq_some_iff.mp h
  split at h
  · next rest hrest =>
    obtain ⟨fraction, hf, h⟩ := Option.bind_eq_some_iff.mp h
    cases h
    have hlen := congrArg List.length hrest
    have hbound := (integerLength?_bounds hf).2
    simp only [length_drop, length_cons] at hlen
    omega
  · cases h

theorem assignLength?_eq_some (h : assignLength? cs = some n) : (∃ rest, cs = '=' :: rest ∧ n = 1) ∨
      ∃ c rest, c ∈ ['+', '-', '*', '/', '%'] ∧ cs = c :: '=' :: rest ∧ n = 2 := by
  fun_cases assignLength? cs with
  | case1 => cases h
  | case2 cs hcs => simp [assignLength?, hcs] at h
  | case3 cs hcs =>
    simp only [assignLength?, hcs, if_true, if_false, Option.some.injEq] at h
    exact .inl ⟨cs, rfl, h.symm⟩
  | case4 c hc hop rest hr => simp [assignLength?, hc, hop, hr] at h
  | case5 c hc hop rest hr =>
    simp only [assignLength?, hc, hop, hr, if_true, if_false, Option.some.injEq] at h
    exact .inr ⟨c, rest, by simpa using hop, rfl, h.symm⟩
  | case6 c cs hc hop hcs => simp [assignLength?, hc, hop] at h
  | case7 c cs hc hop => simp [assignLength?, hc, hop] at h

theorem Terminal.matchLength?_bounds (h : t.matchLength? cs = some n) : 0 < n ∧ n ≤ cs.length := by
  have hfixed (word : Chars) (hw : 0 < word.length)
      (h : (if word.isPrefixOf cs then some word.length else none) = some n) :
      0 < n ∧ n ≤ cs.length := by
    split at h
    · next hp =>
      cases h
      exact ⟨hw, (List.isPrefixOf_iff_prefix.mp hp).length_le⟩
    · cases h
  cases t with
  | callName | commandName =>
    simp only [matchLength?, callNameLength?, commandNameLength?] at h
    split at h
    · cases h
    · exact nameLength?_bounds (Option.filter_eq_some_iff.mp h).1
  | name => exact nameLength?_bounds h
  | decimal => exact decimalLength?_bounds h
  | integer => exact integerLength?_bounds h
  | assign =>
    rcases assignLength?_eq_some h with ⟨rest, rfl, rfl⟩ | ⟨c, rest, -, rfl, rfl⟩ <;> simp
  | tripleString =>
    obtain ⟨q, rest, m, -, rfl, hm, rfl⟩ := tripleStringLength?_eq_some_iff.mp h
    have hle := (tripleCloseLength?_take hm []).2.1
    simp only [length_cons]
    omega
  | singleString | doubleString =>
    obtain ⟨rest, m, rfl, hm, rfl⟩ := stringLength?_eq_some_iff.mp h
    have hle := (closeLength?_take hm []).2.1
    simp only [length_cons]
    omega
  | blank =>
    obtain ⟨rfl, hne⟩ := blankLength?_eq_some_iff.mp h
    exact ⟨Nat.pos_of_ne_zero hne, (List.takeWhile_prefix isTokenBlank).length_le⟩
  | lineComment =>
    obtain ⟨rest, rfl, rfl⟩ := lineCommentLength?_eq_some_iff.mp h
    have hle := (List.takeWhile_prefix (l := rest) (· != '\n')).length_le
    simp only [length_cons]
    omega
  | blockComment =>
    obtain ⟨rest, m, rfl, hm, rfl⟩ := blockCommentLength?_eq_some_iff.mp h
    have hle := (commentCloseLength?_take hm []).2.1
    simp only [length_cons]
    omega
  | endOfInput => cases h
  | _ => exact hfixed _ (by decide) h

/-! ### Choice -/

theorem exists_of_lexeme? (h : lexeme? allowed cs = some (t, n)) :
    ∃ k ∈ candidates allowed, k.matchLength? cs = some n ∧ t = if k = .name then retag allowed (cs.take n) else k := by
  obtain ⟨k, hk, hkm⟩ := exists_of_findSome?_eq_some h
  obtain ⟨m, hm, hmt⟩ := Option.map_eq_some_iff.mp hkm
  obtain ⟨ht, rfl⟩ := Prod.mk.inj hmt
  exact ⟨k, hk, hm, ht.symm⟩

theorem lexeme?_bounds (h : lexeme? allowed cs = some (t, n)) : 0 < n ∧ n ≤ cs.length := by
  obtain ⟨k, -, hm, -⟩ := exists_of_lexeme? h
  exact matchLength?_bounds hm

def order (allowed : Nat) : List Terminal :=
  classes ++ (if Terminal.name.mem allowed then [] else Terminal.keywords) ++ marks

theorem candidates_eq (allowed : Nat) :
    candidates allowed = (order allowed).filter fun t => t.isIgnored || t.mem allowed := rfl

/-- If the texts and the allowed terminals change, a first token stays as long as it is allowed, no
terminal matches that did not, and no terminal is allowed that was not. -/
theorem findSome?_filter_of {α β : Type} {f g : α → Option β} {p p' : α → Bool} {l : List α} {b : β}
    (h : (l.filter p).findSome? f = some b) (hp : ∀ a ∈ l, p' a = true → p a = true)
    (hnone : ∀ a, f a = none → g a = none) (hsome : ∀ a, p a = true → f a = some b → p' a = true ∧ g a = some b) :
    (l.filter p').findSome? g = some b := by
  induction l with
  | nil => cases h
  | cons a l ih =>
    replace ih := fun h => ih h fun x hx => hp x (mem_cons_of_mem a hx)
    have hpa := hp a mem_cons_self
    cases hf : f a with
    | some c =>
      have hg := hsome a
      grind
    | none =>
      have hg := hnone a hf
      simp only [filter_cons] at h ⊢
      split at h <;> split <;> simp_all

theorem lexeme?_of_order {before after : List Terminal} (ho : order allowed = before ++ t :: after)
    (ht : (t.isIgnored || t.mem allowed) = true) (hn : t ≠ .name) (hm : t.matchLength? cs = some n)
    (hbefore : ∀ k ∈ before, k.matchLength? cs = none) : lexeme? allowed cs = some (t, n) := by
  rw [lexeme?, candidates_eq, ho, filter_append,
    filter_cons_of_pos (p := fun t : Terminal => t.isIgnored || t.mem allowed) ht,
    findSome?_append]
  have hnone : (before.filter fun t => t.isIgnored || t.mem allowed).findSome? (fun t =>
      (t.matchLength? cs).map fun n => (if t = .name then retag allowed (cs.take n) else t, n)) =
      none := by
    rw [findSome?_eq_none_iff]
    intro k hk
    rw [hbefore k (mem_filter.mp hk).1]
    rfl
  rw [hnone, findSome?_cons, hm]
  simp [hn]

theorem Terminal.mem_all (t : Terminal) : t ∈ Terminal.all := by
  cases t <;> decide

/-! ### First characters -/

def Terminal.starts (t : Terminal) (c : Char) : Bool :=
  match t with
  | callName | commandName | name => isNameStart c
  | decimal | integer => isDigit c
  | tripleString => c == '\'' || c == '"'
  | singleString => c == '\''
  | doubleString => c == '"'
  | blank => isTokenBlank c
  | lineComment | blockComment => c == '/'
  | assign => ['=', '+', '-', '*', '/', '%'].contains c
  | t => t.fixedText?.any fun word => word.head? == some c

theorem nameLength?_starts (h : nameLength? (c :: cs) = some n) : isNameStart c = true := by
  rw [nameLength?] at h
  split at h
  · assumption
  · cases h

theorem integerLength?_starts (h : integerLength? (c :: cs) = some n) : isDigit c = true := by
  have hpos := (integerLength?_bounds h).1
  rw [(drop_integer h).1] at hpos
  cases hc : isDigit c with
  | true => rfl
  | false => simp [hc] at hpos

theorem Terminal.starts_of_matchLength? (h : t.matchLength? (c :: cs) = some n) : t.starts c = true := by
  have hfixed (d : Char) (v : Chars)
      (h : (if (d :: v).isPrefixOf (c :: cs) then some (d :: v).length else none) = some n) :
      (some d == some c) = true := by
    split at h
    · next hp =>
      rw [List.isPrefixOf, Bool.and_eq_true] at hp
      simpa using hp.1
    · cases h
  cases t with
  | callName | commandName =>
    simp only [matchLength?, callNameLength?, commandNameLength?] at h
    split at h
    · cases h
    · exact nameLength?_starts (Option.filter_eq_some_iff.mp h).1
  | name => exact nameLength?_starts h
  | decimal =>
    obtain ⟨whole, hw, -⟩ := Option.bind_eq_some_iff.mp h
    exact integerLength?_starts hw
  | integer => exact integerLength?_starts h
  | assign =>
    simp only [matchLength?] at h
    rcases assignLength?_eq_some h with ⟨rest, hcs, -⟩ | ⟨d, rest, hd, hcs, -⟩ <;> cases hcs
    · rfl
    · exact contains_iff_mem.mpr (mem_cons_of_mem _ hd)
  | tripleString =>
    obtain ⟨q, rest, m, hq, hcs, -⟩ := tripleStringLength?_eq_some_iff.mp h
    cases hcs
    simpa [starts] using hq
  | singleString | doubleString =>
    simp only [matchLength?] at h
    obtain ⟨rest, m, hcs, -⟩ := stringLength?_eq_some_iff.mp h
    cases hcs
    rfl
  | blank =>
    have h : blankLength? (c :: cs) = some n := h
    exact (isSome_blankLength? c cs).mp (by rw [h]; rfl)
  | lineComment =>
    obtain ⟨rest, hcs, -⟩ := lineCommentLength?_eq_some_iff.mp h
    cases hcs
    rfl
  | blockComment =>
    obtain ⟨rest, m, hcs, -⟩ := blockCommentLength?_eq_some_iff.mp h
    cases hcs
    rfl
  | endOfInput => cases h
  | _ => exact hfixed _ _ h

theorem matchLength?_eq_none (hc : t.starts c = false) (cs : Chars) : t.matchLength? (c :: cs) = none := by
  cases h : t.matchLength? (c :: cs) with
  | none => rfl
  | some n =>
    rw [starts_of_matchLength? h] at hc
    cases hc

theorem lexeme?_of_only (ho : t ∈ order allowed) (ht : (t.isIgnored || t.mem allowed) = true)
    (hn : t ≠ .name) (hm : t.matchLength? (c :: cs) = some n)
    (hc : ∀ k : Terminal, k ≠ t → k.starts c = false) : lexeme? allowed (c :: cs) = some (t, n) := by
  obtain ⟨before, after, horder, hnot⟩ := eq_append_cons_of_mem ho
  refine lexeme?_of_order horder ht hn hm fun k hk => matchLength?_eq_none (hc k ?_) cs
  rintro rfl
  exact hnot hk

theorem lexeme?_semicolon (h : Terminal.semicolon.mem allowed = true) (cs : Chars) :
    lexeme? allowed (';' :: cs) = some (.semicolon, 1) :=
  lexeme?_of_only (mem_append_right _ (by decide)) (by simp [h]) (by decide) rfl fun k hk => by
    cases k <;> first | exact absurd rfl hk | decide

theorem lexeme?_closeBrace (h : Terminal.closeBrace.mem allowed = true) (cs : Chars) :
    lexeme? allowed ('\x7d' :: cs) = some (.closeBrace, 1) :=
  lexeme?_of_only (mem_append_right _ (by decide)) (by simp [h]) (by decide) rfl fun k hk => by
    cases k <;> first | exact absurd rfl hk | decide

/-! ### White space and comments -/

theorem retag_mem (allowed : Nat) (text : Chars) : retag allowed text ∈ Terminal.name :: Terminal.keywords := by
  unfold retag
  cases hf : Terminal.keywords.find? fun k => k.mem allowed && k.fixedText? == some text with
  | none => exact mem_cons_self
  | some k => exact mem_cons_of_mem _ (mem_of_find?_eq_some hf)

theorem matchLength?_of_lexeme? (ht : t ∉ Terminal.name :: Terminal.keywords)
    (h : lexeme? allowed cs = some (t, n)) : t.matchLength? cs = some n := by
  obtain ⟨k, -, hk, htag⟩ := exists_of_lexeme? h
  split at htag
  · exact absurd (htag ▸ retag_mem allowed (cs.take n)) ht
  · rwa [htag]

theorem eq_append_of_lexeme? {word : Chars} (ht : t ∉ Terminal.name :: Terminal.keywords)
    (hw : t.matchLength? cs = if word.isPrefixOf cs then some word.length else none)
    (h : lexeme? allowed cs = some (t, n)) : n = word.length ∧ ∃ rest, cs = word ++ rest := by
  have hm := matchLength?_of_lexeme? ht h
  rw [hw] at hm
  split at hm
  · next hword =>
    obtain ⟨rest, hrest⟩ := isPrefixOf_iff_prefix.mp hword
    exact ⟨(Option.some.inj hm).symm, rest, hrest.symm⟩
  · cases hm

theorem lexeme?_eq_ignored_iff (hi : t.isIgnored = true) :
    lexeme? allowed cs = some (t, n) ↔ t.matchLength? cs = some n := by
  constructor
  · intro h
    refine matchLength?_of_lexeme? (fun ht => ?_) h
    have hall : ∀ k ∈ Terminal.name :: Terminal.keywords, k.isIgnored = false := by decide
    rw [hall t ht] at hi
    cases hi
  · intro hm
    have hpos := matchLength?_bounds hm
    cases cs with
    | nil => exact absurd hpos.2 (Nat.not_le.mpr hpos.1)
    | cons c cs =>
      have hstart := starts_of_matchLength? hm
      cases t with
      | blank =>
        have hc : c ∈ [' ', '\t', '\x0c', '\r', '\n'] := by simpa [Terminal.starts, isTokenBlank, or_assoc] using hstart
        have hall : [' ', '\t', '\x0c', '\r', '\n'].all (fun c => Terminal.all.all fun k =>
            k == .blank || !k.starts c) = true := by decide
        have hone : ∀ k : Terminal, k ≠ .blank → k.starts c = false := by
          intro k hk
          have hstarts := all_eq_true.mp (all_eq_true.mp hall c hc) k k.mem_all
          simpa [hk] using hstarts
        refine lexeme?_of_only ?_ rfl (by decide) hm fun k hk => hone k hk
        exact mem_append_left _ (mem_append_left _ (by decide))
      | lineComment =>
        have hm' : lineCommentLength? (c :: cs) = some n := hm
        obtain ⟨rest, hcs, -⟩ := lineCommentLength?_eq_some_iff.mp hm'
        obtain ⟨rfl, rfl⟩ := cons.inj hcs
        have horder : order allowed = classes.take 9 ++ .lineComment :: (.integer ::
          (if Terminal.name.mem allowed then [] else Terminal.keywords) ++ marks) := rfl
        refine lexeme?_of_order horder rfl (by decide) hm fun k hk => ?_
        by_cases hb : k = .blockComment
        · subst hb
          rfl
        · have hone : ∀ k ∈ classes.take 9, k ≠ .blockComment → k.starts '/' = false := by decide
          exact matchLength?_eq_none (hone k hk hb) _
      | blockComment =>
        obtain rfl : c = '/' := by simpa [Terminal.starts] using hstart
        have horder : order allowed = classes.take 7 ++ .blockComment :: (.blank ::
          .lineComment :: .integer :: (if Terminal.name.mem allowed then [] else Terminal.keywords) ++ marks) := rfl
        have hone : ∀ k ∈ classes.take 7, k.starts '/' = false := by decide
        exact lexeme?_of_order horder rfl (by decide) hm fun k hk =>
          matchLength?_eq_none (hone k hk) _
      | _ => cases hi

/-! ### Fewer terminals -/

theorem keyword_ext {k k' : Terminal} (hk : k ∈ Terminal.keywords) (hk' : k' ∈ Terminal.keywords)
    (h : k.fixedText? = k'.fixedText?) : k = k' := by
  have hall : ∀ k ∈ Terminal.keywords, ∀ k' ∈ Terminal.keywords, k.fixedText? = k'.fixedText? → k = k' := by decide
  exact hall k hk k' hk' h

theorem retag_of_subset {fewer : Nat} {text : Chars} (hwords : retag allowed text ∈ Terminal.keywords ∨
      ∀ k ∈ Terminal.keywords, k.mem fewer = true → k.mem allowed = true)
    (h : (retag allowed text).mem fewer = true) : retag fewer text = retag allowed text := by
  unfold retag at h hwords ⊢
  cases hf : Terminal.keywords.find? fun k => k.mem allowed && k.fixedText? == some text with
  | none =>
    rw [hf, Option.getD_none] at hwords
    replace hwords := hwords.resolve_left (by decide)
    have hnone : (Terminal.keywords.find? fun k => k.mem fewer && k.fixedText? == some text) = none := by
      rw [find?_eq_none] at hf ⊢
      intro k hk hkf
      rw [Bool.and_eq_true] at hkf
      exact hf k hk (by rw [hwords k hk hkf.1, hkf.2]; rfl)
    rw [hnone]
  | some k =>
    rw [hf, Option.getD_some] at h
    have hk := find?_some hf
    simp only [Bool.and_eq_true, beq_iff_eq] at hk
    cases hf' : Terminal.keywords.find? fun k => k.mem fewer && k.fixedText? == some text with
    | none =>
      have hnone := find?_eq_none.mp hf' k (mem_of_find?_eq_some hf)
      simp [h, hk.2] at hnone
    | some k' =>
      have hk' := find?_some hf'
      simp only [Bool.and_eq_true, beq_iff_eq] at hk'
      rw [keyword_ext (mem_of_find?_eq_some hf') (mem_of_find?_eq_some hf) (hk'.2.trans hk.2.symm)]

/-- A lexeme stays the first where fewer terminals are allowed, names and itself among them. If it is a
keyword, there may even be more keywords. -/
theorem lexeme?_of_subset {fewer : Nat} (hsub : ∀ k ∈ classes ++ marks, k.mem fewer = true → k.mem allowed = true)
    (hwords : t ∈ Terminal.keywords ∨ ∀ k ∈ Terminal.keywords, k.mem fewer = true → k.mem allowed = true)
    (hname : Terminal.name.mem fewer = true) (h : lexeme? allowed cs = some (t, n))
    (ht : t.mem fewer = true) : lexeme? fewer cs = some (t, n) := by
  have hname' : Terminal.name.mem allowed = true := hsub _ (by decide) hname
  have horder : order fewer = order allowed := by rw [order, order, hname, hname']
  have hmem {k : Terminal} (hk : k ∈ order allowed) : k ∈ classes ++ marks := by
    rwa [order, hname', if_pos rfl, append_nil] at hk
  rw [lexeme?, candidates_eq] at h
  rw [lexeme?, candidates_eq, horder]
  refine findSome?_filter_of h ?_ ?_ ?_
  · intro k hk hallowed
    rw [Bool.or_eq_true] at hallowed ⊢
    exact hallowed.imp_right (hsub k (hmem hk))
  · intro k hk
    rwa [Option.map_eq_none_iff] at hk ⊢
  · intro k _ hfound
    obtain ⟨m, hm, hmt⟩ := Option.map_eq_some_iff.mp hfound
    obtain ⟨hkt, rfl⟩ := Prod.mk.inj hmt
    by_cases hk : k = .name
    · subst hk
      rw [if_pos rfl] at hkt
      refine ⟨by rw [hname]; rfl, ?_⟩
      rw [hm, Option.map_some, if_pos rfl, retag_of_subset (hkt ▸ hwords) (hkt ▸ ht), hkt]
    · rw [if_neg hk] at hkt
      subst hkt
      refine ⟨by rw [ht, Bool.or_true], ?_⟩
      rw [hm, Option.map_some, if_neg hk]

/-! ### Plain tokens -/

def isPlain (c : Char) : Bool :=
  !isSpace c && c != '\'' && c != '"' && c != '/' && c != '\x7d'

theorem isPlain_of_check {p : Char → Bool}
    (h : ('\'' :: '"' :: '/' :: '\x7d' :: spaceChars).all (fun c => !p c) = true) (hc : p c = true) :
    isPlain c = true := by
  have hne {d : Char} (hd : d ∈ '\'' :: '"' :: '/' :: '\x7d' :: spaceChars) : c ≠ d := by
    rintro rfl
    have hp := all_eq_true.mp h c hd
    simp [hc] at hp
  have hspace : isSpace c = false := by
    cases hs : isSpace c with
    | false => rfl
    | true => exact absurd rfl (hne (by simp [mem_spaceChars hs]))
  have hquote : c ≠ '\'' := hne (by simp)
  have hdouble : c ≠ '"' := hne (by simp)
  have hslash : c ≠ '/' := hne (by simp)
  have hbrace : c ≠ '\x7d' := hne (by simp)
  simp [isPlain, hspace, hquote, hdouble, hslash, hbrace]

theorem isPlain_of_isDigit (h : isDigit c = true) : isPlain c = true :=
  isPlain_of_check (by decide +kernel) h

theorem take_takeWhile (p : Char → Bool) (r : Chars) : r.take (r.takeWhile p).length = r.takeWhile p :=
  (prefix_iff_eq_take.mp (List.takeWhile_prefix p)).symm

end GroovySharp.Grammar
