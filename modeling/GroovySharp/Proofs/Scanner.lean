import GroovySharp.Source.Line

/-!
# The line scanner as a relation

`Takes` lists what the scanner can take off the front of a line in one go, with the guards on the text
that follows; `Scans` chains these steps.
-/

namespace GroovySharp.Source

open List Quote

/-! ### Quotes -/

theorem Quote.ofChar?_eq_some_iff {c : Char} {q : Quote} : ofChar? c = some q ↔ c = q.char := by
  unfold ofChar?
  by_cases h1 : c = '\''
  · cases q <;> simp [h1, char]
  · by_cases h2 : c = '"'
    · cases q <;> simp [h2, char]
    · cases q <;> simp [h1, h2, char]

theorem Quote.char_ne_backslash (q : Quote) : q.char ≠ '\\' := by cases q <;> decide

theorem Quote.char_ne_slash (q : Quote) : q.char ≠ '/' := by cases q <;> decide

theorem Quote.char_ne_semicolon (q : Quote) : q.char ≠ ';' := by cases q <;> decide

/-! ### Steps -/

/-- In state `s`, with `rest` behind it, the scanner takes the text `w` with one mark and goes on in the
last state. -/
inductive Takes (n : Nat) :
    ScanState → Chars → Chars → Mark → ScanState → Prop
  | inLineComment {s : ScanState} {c : Char} {rest : Chars} (hs : s.mode = .lineComment) :
    Takes n s [c] rest .comment s
  | blockCommentEnd {s : ScanState} {rest : Chars} (hs : s.mode = .blockComment) :
    Takes n s ['*', '/'] rest .comment { s with mode := .code }
  | inBlockComment {s : ScanState} {c : Char} {rest : Chars} (hs : s.mode = .blockComment)
    (hc : ¬(c = '*' ∧ rest.head? = some '/')) : Takes n s [c] rest .comment s
  | tripleEscape {s : ScanState} {q : Quote} {d : Char} {rest : Chars}
    (hs : s.mode = .triple q) : Takes n s ['\\', d] rest .content s
  | tripleEnd {s : ScanState} {q : Quote} {rest : Chars} (hs : s.mode = .triple q) :
    Takes n s [q.char, q.char, q.char] rest .close { s with mode := .code }
  | inTriple {s : ScanState} {q : Quote} {c : Char} {rest : Chars} (hs : s.mode = .triple q)
    (hesc : c = '\\' → rest = []) (hend : ¬[q.char, q.char, q.char] <+: c :: rest) :
    Takes n s [c] rest .content s
  | oneLineEscape {s : ScanState} {q : Quote} {d : Char} {rest : Chars}
    (hs : s.mode = .oneLine q) : Takes n s ['\\', d] rest .content s
  | oneLineEnd {s : ScanState} {q : Quote} {rest : Chars} (hs : s.mode = .oneLine q) :
    Takes n s [q.char] rest .quote { s with mode := .code }
  | inOneLine {s : ScanState} {q : Quote} {c : Char} {rest : Chars} (hs : s.mode = .oneLine q)
    (hesc : c ≠ '\\') (hend : c ≠ q.char) : Takes n s [c] rest .content s
  | lineCommentStart {s : ScanState} {rest : Chars} (hs : s.mode = .code) :
    Takes n s ['/', '/'] rest .comment { s with mode := .lineComment }
  | blockCommentStart {s : ScanState} {rest : Chars} (hs : s.mode = .code) :
    Takes n s ['/', '*'] rest .comment { s with mode := .blockComment, commentOpenedAt := n }
  | tripleStart {s : ScanState} {q : Quote} {rest : Chars} (hs : s.mode = .code) :
    Takes n s [q.char, q.char, q.char] rest .quote { s with mode := .triple q, stringOpenedAt := n }
  | oneLineStart {s : ScanState} {q : Quote} {rest : Chars} (hs : s.mode = .code)
    (hend : ¬[q.char, q.char] <+: rest) : Takes n s [q.char] rest .quote { s with mode := .oneLine q }
  | plain {s : ScanState} {c : Char} {rest : Chars} (hs : s.mode = .code)
    (hq : ofChar? c = none)
    (hc : ¬(c = '/' ∧ (rest.head? = some '/' ∨ rest.head? = some '*'))) : Takes n s [c] rest .code s

/-- The scanner marks the whole text in state `s` and ends in the last state. -/
inductive Scans (n : Nat) : ScanState → Chars → List Cell → ScanState → Prop
  | lineCommentDone {s : ScanState} (hs : s.mode = .lineComment) :
    Scans n s [] [] { s with mode := .code }
  | done {s : ScanState} (hl : s.mode ≠ .lineComment) (ho : ∀ q, s.mode ≠ .oneLine q) :
    Scans n s [] [] s
  | step {s s₁ s' : ScanState} {w rest : Chars} {m : Mark} {cells : List Cell}
    (ht : Takes n s w rest m s₁) (hr : Scans n s₁ rest cells s') :
    Scans n s (w ++ rest) (w.map (⟨·, m⟩) ++ cells) s'

variable {m : Mark} {w rest cs : Chars} {cells b a : List Cell} {s' s s₁ : ScanState} {n : Nat} {d : Cell}

theorem markedBefore_eq_ok {r : Except StructuralFault (List Cell × ScanState)} :
    markedBefore m w r = .ok (cells, s') ↔ ∃ more, r = .ok (more, s') ∧ cells = w.map (⟨·, m⟩) ++ more := by
  cases r with
  | error e => simp [markedBefore, Except.map]
  | ok p =>
    obtain ⟨more, s₁⟩ := p
    simp only [markedBefore, Except.map, Except.ok.injEq, Prod.mk.injEq]
    constructor
    · rintro ⟨rfl, rfl⟩
      exact ⟨more, ⟨rfl, rfl⟩, rfl⟩
    · rintro ⟨more', ⟨rfl, rfl⟩, rfl⟩
      exact ⟨rfl, rfl⟩

theorem Takes.ne_nil (ht : Takes n s w rest m s₁) : w ≠ [] := by
  cases ht <;> exact cons_ne_nil _ _

theorem Takes.length_lt (ht : Takes n s w rest m s₁) : rest.length < (w ++ rest).length := by
  have hpos := length_pos_iff.mpr ht.ne_nil
  rw [length_append]
  omega

/-- The scanner can take something off a line, unless a one-line string ends with a backslash there. -/
theorem exists_takes (n : Nat) (s : ScanState) (hcs : cs ≠ []) :
    (∃ w rest m s₁, cs = w ++ rest ∧ Takes n s w rest m s₁) ∨ (∃ q, s.mode = .oneLine q) ∧ cs = ['\\'] := by
  obtain ⟨c, cs, rfl⟩ := exists_cons_of_ne_nil hcs
  have one {m : Mark} {s₁ : ScanState} (ht : Takes n s [c] cs m s₁) :
      ∃ w rest m s₁, c :: cs = w ++ rest ∧ Takes n s w rest m s₁ := ⟨_, _, _, _, rfl, ht⟩
  have front {m : Mark} {s₁ : ScanState} {w : Chars} (hw : w <+: c :: cs)
      (ht : ∀ rest, Takes n s w rest m s₁) : ∃ w rest m s₁, c :: cs = w ++ rest ∧ Takes n s w rest m s₁ :=
    let ⟨rest, hrest⟩ := hw
    ⟨_, rest, _, _, hrest.symm, ht rest⟩
  have hhead (d : Char) : cs.head? = some d ↔ [d] <+: cs := by cases cs <;> simp [cons_prefix_cons, eq_comm]
  cases hs : s.mode with
  | lineComment => exact .inl (one (.inLineComment hs))
  | blockComment =>
    by_cases hend : ['*', '/'] <+: c :: cs
    · exact .inl (front hend fun _ => .blockCommentEnd hs)
    · exact .inl (one (.inBlockComment hs (by simpa [cons_prefix_cons, hhead, eq_comm] using hend)))
  | triple q =>
    by_cases hend : [q.char, q.char, q.char] <+: c :: cs
    · exact .inl (front hend fun _ => .tripleEnd hs)
    · by_cases hc : c = '\\'
      · subst hc
        cases cs with
        | nil => exact .inl (one (.inTriple hs (fun _ => rfl) hend))
        | cons d cs => exact .inl (front ⟨cs, rfl⟩ fun _ => @Takes.tripleEscape n s q d _ hs)
      · exact .inl (one (.inTriple hs (fun h => absurd h hc) hend))
  | oneLine q =>
    by_cases hc : c = '\\'
    · subst hc
      cases cs with
      | nil => exact .inr ⟨⟨q, rfl⟩, rfl⟩
      | cons d cs => exact .inl (front ⟨cs, rfl⟩ fun _ => @Takes.oneLineEscape n s q d _ hs)
    · by_cases hend : c = q.char
      · exact .inl (front ⟨cs, by rw [hend]; rfl⟩ fun _ => .oneLineEnd hs)
      · exact .inl (one (.inOneLine hs hc hend))
  | code =>
    by_cases hline : ['/', '/'] <+: c :: cs
    · exact .inl (front hline fun _ => .lineCommentStart hs)
    by_cases hblock : ['/', '*'] <+: c :: cs
    · exact .inl (front hblock fun _ => .blockCommentStart hs)
    cases hq : ofChar? c with
    | none =>
      refine .inl (one (.plain hs hq ?_))
      simp only [hhead]
      rintro ⟨rfl, hd | hd⟩
      · exact hline (cons_prefix_cons.mpr ⟨rfl, hd⟩)
      · exact hblock (cons_prefix_cons.mpr ⟨rfl, hd⟩)
    | some q =>
      obtain rfl := ofChar?_eq_some_iff.mp hq
      by_cases hend : [q.char, q.char] <+: cs
      · exact .inl (front (cons_prefix_cons.mpr ⟨rfl, hend⟩) fun _ => .tripleStart hs)
      · exact .inl (one (.oneLineStart hs hend))

theorem Takes.scanCells_append (ht : Takes n s w rest m s₁) :
    scanCells n s (w ++ rest) = markedBefore m w (scanCells n s₁ rest) := by
  have hself (q : Quote) : ofChar? q.char = some q := ofChar?_eq_some_iff.mpr rfl
  cases ht with
  | inLineComment hs =>
    rw [singleton_append, scanCells.eq_def]
    simp only [hs]
  | blockCommentEnd hs | oneLineEscape hs | lineCommentStart hs | blockCommentStart hs => simp [scanCells, hs]
  | inBlockComment hs hc => cases rest <;> simp_all [scanCells]
  | tripleEscape hs => cases rest <;> simp [scanCells, hs]
  | tripleEnd hs => simp [scanCells, hs, char_ne_backslash]
  | @inTriple q c _ hs hesc hend =>
    match rest with
    | [] => simp [scanCells, hs]
    | [d] =>
      have hc : c ≠ '\\' := fun he => by simpa using hesc he
      simp [scanCells, hs, hc]
    | d :: e :: rest =>
      have hc : c ≠ '\\' := fun he => by simpa using hesc he
      have hne : ¬(c = q.char ∧ d = q.char ∧ e = q.char) := by simpa [cons_prefix_cons, eq_comm] using hend
      rw [singleton_append, scanCells.eq_def]
      simp only [hs, hc, hne, if_false]
  | oneLineEnd hs =>
    rw [singleton_append, scanCells.eq_def]
    simp only [hs, char_ne_backslash, if_false, if_true]
  | inOneLine hs hesc hend =>
    rw [singleton_append, scanCells.eq_def]
    simp only [hs, hesc, hend, if_false]
  | tripleStart hs => simp [scanCells, hs, char_ne_slash, hself]
  | @oneLineStart q _ hs hend =>
    match rest with
    | [] => simp [scanCells, hs, hself]
    | [d] => simp [scanCells, hs, char_ne_slash, hself]
    | d :: e :: rest =>
      have hne : ¬(d = q.char ∧ e = q.char) := by simpa [cons_prefix_cons, eq_comm] using hend
      simp [scanCells, hs, char_ne_slash, hself, hne]
  | @plain c _ hs hq hc =>
    cases rest with
    | nil => simp [scanCells, hs, hq]
    | cons d rest =>
      have hline : ¬(c = '/' ∧ d = '/') := fun h => hc ⟨h.1, .inl (by simp [h.2])⟩
      have hblock : ¬(c = '/' ∧ d = '*') := fun h => hc ⟨h.1, .inr (by simp [h.2])⟩
      simp [scanCells, hs, hq, hline, hblock]

theorem scans_of_scanCells (h : scanCells n s cs = .ok (cells, s')) : Scans n s cs cells s' := by
  induction hk : cs.length using Nat.strongRecOn generalizing s cs cells with
  | _ k ih =>
    by_cases hcs : cs = []
    · subst hcs
      rw [scanCells] at h
      split at h
      · cases h
      · next hs =>
        cases h
        exact .lineCommentDone hs
      · next ho hl =>
        cases h
        exact .done hl ho
    rcases exists_takes n s hcs with ⟨w, rest, m, s₁, rfl, ht⟩ | ⟨⟨q, hq⟩, rfl⟩
    · rw [ht.scanCells_append] at h
      obtain ⟨more, hmore, rfl⟩ := markedBefore_eq_ok.mp h
      exact .step ht (ih _ (hk ▸ ht.length_lt) hmore rfl)
    · simp [scanCells, hq] at h

theorem scanCells_of_scans (h : Scans n s cs cells s') : scanCells n s cs = .ok (cells, s') := by
  induction h with
  | lineCommentDone hs => simp [scanCells, hs]
  | @done s hl ho =>
    unfold scanCells
    split
    · rename_i q hq
      exact absurd hq (ho q)
    · rename_i hc
      exact absurd hc hl
    · rfl
  | step ht _ ih =>
    rw [ht.scanCells_append]
    exact markedBefore_eq_ok.mpr ⟨_, ih, rfl⟩

theorem scanCells_eq_ok_iff : scanCells n s cs = .ok (cells, s') ↔ Scans n s cs cells s' :=
  ⟨scans_of_scanCells, scanCells_of_scans⟩

/-! ### What the marks tell -/

theorem Takes.of_code (ht : Takes n s w rest .code s₁) : s.mode = .code ∧ ∃ c, w = [c] := by
  cases ht with
  | plain hs => exact ⟨hs, _, rfl⟩

theorem Takes.of_comment (ht : Takes n s w rest .comment s₁) :
    s.mode = .code ∨ s.mode = .lineComment ∨ s.mode = .blockComment := by
  cases ht with
  | inLineComment hs => exact .inr (.inl hs)
  | blockCommentEnd hs | inBlockComment hs => exact .inr (.inr hs)
  | lineCommentStart hs | blockCommentStart hs => exact .inl hs

theorem Takes.comment_of_mode (ht : Takes n s w rest m s₁)
    (hs₁ : s₁.mode = .lineComment ∨ s₁.mode = .blockComment) : m = .comment := by
  cases ht <;> simp_all

theorem Takes.quote_chars (ht : Takes n s w rest m s₁) (hm : m = .quote ∨ m = .close) :
    ∃ q : Quote, ∀ c ∈ w, c = q.char := by
  have hsame (q : Quote) : ∃ q' : Quote, q.char = q'.char := ⟨q, rfl⟩
  cases ht <;> simp_all

theorem Scans.map_char (h : Scans n s cs cells s') : cells.map (·.char) = cs := by
  induction h with
  | lineCommentDone | done => rfl
  | step _ _ ih => simp [ih, Function.comp_def]

theorem Scans.final_mode (h : Scans n s cs cells s') : s'.mode ≠ .lineComment ∧ ∀ q, s'.mode ≠ .oneLine q := by
  induction h with
  | lineCommentDone => simp
  | done hl ho => exact ⟨hl, ho⟩
  | step _ _ ih => exact ih

theorem Scans.quote_char (h : Scans n s cs cells s') {c : Cell} (hc : c ∈ cells)
    (hm : c.mark = .quote ∨ c.mark = .close) : ∃ q : Quote, c.char = q.char := by
  induction h with
  | lineCommentDone | done => cases hc
  | step ht _ ih =>
    rcases mem_append.mp hc with hw | hmore
    · obtain ⟨a, ha, rfl⟩ := mem_map.mp hw
      obtain ⟨q, hq⟩ := ht.quote_chars hm
      exact ⟨q, hq a ha⟩
    · exact ih hmore

theorem Scans.mode_of_head (h : Scans n s cs (d :: cells) s') (hd : d.mark = .code ∨ d.mark = .comment) :
    s.mode = .code ∨ s.mode = .lineComment ∨ s.mode = .blockComment := by
  generalize hall : d :: cells = all at h
  cases h with
  | lineCommentDone | done => cases hall
  | @step _ s₁ _ w rest m more ht hr =>
    cases w with
    | nil => exact absurd rfl ht.ne_nil
    | cons c w =>
      simp only [map_cons, cons_append, cons.injEq] at hall
      obtain ⟨rfl, -⟩ := hall
      rcases hd with rfl | rfl
      · exact .inl ht.of_code.1
      · exact ht.of_comment

theorem Takes.not_content (ht : Takes n s w rest m s₁) (hr : Scans n s₁ rest (d :: b) s')
    (hd : d.mark = .code) : m ≠ .content := by
  rintro rfl
  have hmode := hr.mode_of_head (.inl hd)
  cases ht <;> simp_all

theorem Scans.not_content_before_code (h : Scans n s cs cells s') (hab : cells = a ++ d :: b)
    (hd : d.mark = .code) : ∀ c ∈ a.getLast?, c.mark ≠ .content := by
  induction h generalizing a with
  | lineCommentDone | done => simp at hab
  | @step s s₁ s' w rest m cells ht hr ih =>
    intro c hc
    have hmark : ∀ x ∈ w.map (⟨·, m⟩), Cell.mark x = m := by
      intro x hx
      obtain ⟨y, -, rfl⟩ := mem_map.mp hx
      rfl
    rcases append_eq_append_iff.mp hab with ⟨a', rfl, hcells⟩ | ⟨x, hw, hcells⟩
    · cases ha : a'.getLast? with
      | some y =>
        refine ih hcells c ?_
        simpa [getLast?_append, ha] using hc
      | none =>
        obtain rfl := getLast?_eq_none_iff.mp ha
        rw [append_nil] at hc
        rw [hmark c (mem_of_getLast? hc)]
        exact ht.not_content (hcells ▸ hr) hd
    · have hcm : c.mark = m := by
        refine hmark c ?_
        rw [hw]
        exact mem_append_left _ (mem_of_getLast? hc)
      rw [hcm]
      cases x with
      | nil =>
        rw [nil_append] at hcells
        exact ht.not_content (hcells ▸ hr) hd
      | cons y x =>
        -- The code cell belongs to the same step, so it has the same mark.
        obtain rfl : d = y := (cons.inj hcells).1
        have hdm : d.mark = m := hmark d (by simp [hw])
        rw [← hdm, hd]
        decide

/-! ### Putting a semicolon in -/

def semicolon : Cell := ⟨';', .code⟩

/-- A step stays the same when a semicolon comes in behind it, as long as the step does not end in a
string right there. -/
theorem Takes.insert {a b : Chars} (ht : Takes n s w (a ++ b) m s₁)
    (hmode : a = [] → s₁.mode = .code) : Takes n s w (a ++ ';' :: b) m s₁ := by
  have hq (q : Quote) : q.char ≠ ';' := q.char_ne_semicolon
  cases ht with
  | inLineComment hs => exact .inLineComment hs
  | blockCommentEnd hs => exact .blockCommentEnd hs
  | inBlockComment hs hc =>
    refine .inBlockComment hs ?_
    cases a with
    | nil => simp
    | cons x a => simpa using hc
  | tripleEscape hs => exact .tripleEscape hs
  | tripleEnd hs => exact .tripleEnd hs
  | inTriple hs hesc hend =>
    match a with
    | [] => exact absurd (hmode rfl) (by simp [hs])
    | [x] =>
      refine .inTriple hs (fun hc => by simpa using hesc hc) ?_
      simp [cons_prefix_cons, hq]
    | x :: y :: a =>
      refine .inTriple hs (fun hc => by simpa using hesc hc) ?_
      simpa [cons_prefix_cons] using hend
  | oneLineEscape hs => exact .oneLineEscape hs
  | oneLineEnd hs => exact .oneLineEnd hs
  | inOneLine hs hesc hend => exact .inOneLine hs hesc hend
  | lineCommentStart hs => exact .lineCommentStart hs
  | blockCommentStart hs => exact .blockCommentStart hs
  | tripleStart hs => exact .tripleStart hs
  | oneLineStart hs hend =>
    refine .oneLineStart hs ?_
    match a with
    | [] => simp [cons_prefix_cons, hq]
    | [x] => simp [cons_prefix_cons, hq]
    | x :: y :: a => simpa [cons_prefix_cons] using hend
  | plain hs hnone hc =>
    refine .plain hs hnone ?_
    cases a with
    | nil => simp
    | cons x a => simpa using hc

theorem Scans.semicolon (h : Scans n s cs cells s') (hs : s.mode = .code) :
    Scans n s (';' :: cs) (semicolon :: cells) s' := by
  have ht : Takes n s [';'] cs .code s := .plain hs (by decide) (by simp)
  exact .step ht h

/-- The place between the cells `a` and `b` is open: what stands before it is no comment, and what
stands after it is code, a comment, or the end of a line that does not end in a string. -/
structure OpenPlace (a b : List Cell) (inString : Bool) : Prop where
  before : ∀ c ∈ a.getLast?, c.mark ≠ .comment
  after : ∀ d ∈ b.head?, d.mark = .code ∨ d.mark = .comment
  ending : b = [] → inString = false

theorem Takes.no_open_place (ht : Takes n s w rest m s₁) {c : List Cell} {inString : Bool}
    (hw : w.map (⟨·, m⟩) = a ++ c) (ha : a ≠ []) (hp : OpenPlace a (c ++ cells) inString) : c = [] := by
  have hmark : ∀ x ∈ a ++ c, x.mark = m := by
    intro x hx
    rw [← hw] at hx
    obtain ⟨y, -, rfl⟩ := mem_map.mp hx
    rfl
  cases c with
  | nil => rfl
  | cons d c =>
    have hd : d.mark = m := hmark d (by simp)
    have hlast : (a.getLast ha).mark = m := hmark _ (mem_append_left _ (getLast_mem ha))
    have hm : m ≠ .comment := hlast ▸ hp.before _ (getLast?_eq_some_getLast ha)
    have hcode : m = .code := by
      rcases hp.after d (by simp) with h | h
      · exact hd ▸ h
      · exact absurd (hd ▸ h) hm
    subst hcode
    obtain ⟨-, x, rfl⟩ := ht.of_code
    have hlen := congrArg List.length hw
    have hpos : 0 < a.length := length_pos_iff.mpr ha
    simp only [length_map, length_append, length_cons, length_nil] at hlen
    omega

theorem Scans.mode_of_open (h : Scans n s cs b s') (hp : OpenPlace a b s'.inString)
    (hs : s.mode ≠ .lineComment ∧ s.mode ≠ .blockComment) : s.mode = .code := by
  cases b with
  | nil =>
    have hstring := hp.ending rfl
    generalize hnil : ([] : List Cell) = cells at h
    cases h with
    | lineCommentDone hl => exact absurd hl hs.1
    | done hl ho =>
      cases hmode : s'.mode with
      | code => rfl
      | lineComment => exact absurd hmode hs.1
      | blockComment => exact absurd hmode hs.2
      | oneLine q => exact absurd hmode (ho q)
      | triple q => simp [ScanState.inString, hmode] at hstring
    | step ht => simp [ht.ne_nil] at hnil
  | cons d b =>
    rcases h.mode_of_head (hp.after d rfl) with h | h | h
    · exact h
    · exact absurd h hs.1
    · exact absurd h hs.2

theorem Scans.insert (h : Scans n s cs cells s') (hab : cells = a ++ b)
    (hempty : a = [] → s.mode = .code) (hp : OpenPlace a b s'.inString) :
    Scans n s (a.map (·.char) ++ ';' :: b.map (·.char)) (a ++ Source.semicolon :: b) s' := by
  induction h generalizing a b with
  | lineCommentDone hs =>
    obtain ⟨rfl, rfl⟩ := append_eq_nil_iff.mp hab.symm
    simp [hs] at hempty
  | done hl ho =>
    obtain ⟨rfl, rfl⟩ := append_eq_nil_iff.mp hab.symm
    exact (Scans.done hl ho).semicolon (hempty rfl)
  | @step s s₁ s' w rest m cells ht hr ih =>
    by_cases ha : a = []
    · subst ha
      have hwhole : Scans n s (w ++ rest) b s' := by
        rw [nil_append] at hab
        exact hab ▸ .step ht hr
      have hchars := hwhole.map_char
      simpa [hchars] using hwhole.semicolon (hempty rfl)
    · -- The place lies behind the first step, or inside it, which `no_open_place` rules out.
      obtain ⟨a', rfl, hcells⟩ : ∃ a', a = w.map (⟨·, m⟩) ++ a' ∧ cells = a' ++ b := by
        rcases append_eq_append_iff.mp hab with ⟨a', h1, h2⟩ | ⟨c, h1, h2⟩
        · exact ⟨a', h1, h2⟩
        · obtain rfl := ht.no_open_place h1 ha (h2 ▸ hp)
          exact ⟨[], by simpa using h1.symm, by simpa using h2.symm⟩
      have hrest : a'.map (·.char) ++ b.map (·.char) = rest := by rw [← hr.map_char, hcells, map_append]
      have hp' : OpenPlace a' b s'.inString := by
        refine ⟨fun c hc => hp.before c ?_, hp.after, hp.ending⟩
        simp [getLast?_append, Option.mem_def.mp hc]
      have hmode : a' = [] → s₁.mode = .code := by
        rintro rfl
        have hm : m ≠ .comment := by
          obtain ⟨c, w', rfl⟩ : ∃ c w', w = w' ++ [c] :=
            ⟨_, _, (dropLast_concat_getLast ht.ne_nil).symm⟩
          exact hp.before ⟨c, m⟩ (by simp)
        rw [nil_append] at hcells
        refine (hcells ▸ hr).mode_of_open hp' ⟨fun hl => hm ?_, fun hb => hm ?_⟩
        · exact ht.comment_of_mode (.inl hl)
        · exact ht.comment_of_mode (.inr hb)
      have hstep : Takes n s w (a'.map (·.char) ++ ';' :: b.map (·.char)) m s₁ := by
        refine Takes.insert (hrest ▸ ht) fun hnil => hmode ?_
        simpa using hnil
      have hscan := Scans.step hstep (ih hcells hmode hp')
      simpa [Function.comp_def] using hscan

end GroovySharp.Source
