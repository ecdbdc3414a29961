import GroovySharp.Proofs.Run

/-!
# The scanner against an automaton over the whole text

The scanner starts anew on every line. It marks what an automaton marks that reads the text from left to
right without splitting it, and fails on the same texts.
-/

namespace GroovySharp.Source

open List

/-! ### The automaton -/

/-- What a character of a text is. -/
inductive CharKind
  | code
  | content
  | comment
  deriving Repr, DecidableEq

def CharKind.mask : CharKind → Char → Char
  | code, c => c
  | content, _ => '_'
  | comment, _ => ' '

def Mark.kind : Mark → CharKind
  | content => .content
  | comment => .comment
  | _ => .code

namespace Mode

/-- The kind of the characters that are no part of a delimiter. -/
def kind : Mode → CharKind
  | code => .code
  | lineComment | blockComment => .comment
  | oneLine _ | triple _ => .content

/-- What stands at the start of a text: the kind of the characters there, their number, and the mode behind
them. There is none if a one-line string meets the end of its line, also behind a backslash. -/
def lexeme? (text : Chars) : Mode → Option (CharKind × Nat × Mode)
  | code =>
    if ['/', '/'] <+: text then some (.comment, 2, lineComment)
    else if ['/', '*'] <+: text then some (.comment, 2, blockComment)
    else
      match text.head?.bind Quote.ofChar? with
      | none => some (.code, 1, code)
      | some q => if replicate 3 q.char <+: text then some (.code, 3, triple q) else some (.code, 1, oneLine q)
  | lineComment => some (.comment, 1, if ['\n'] <+: text then code else lineComment)
  | blockComment => if ['*', '/'] <+: text then some (.comment, 2, code) else some (.comment, 1, blockComment)
  | oneLine q =>
    if ['\n'] <+: text ∨ ['\\', '\n'] <+: text then none
    else if ['\\'] <+: text then some (.content, 2, oneLine q)
    else if [q.char] <+: text then some (.code, 1, code)
    else some (.content, 1, oneLine q)
  | triple q =>
    if ['\\'] <+: text then some (.content, 2, triple q)
    else if replicate 3 q.char <+: text then some (.code, 3, code)
    else some (.content, 1, triple q)

/-- The mode at the end of a text. A one-line string cannot end there. -/
def atEnd? : Mode → Option Mode
  | lineComment => some code
  | oneLine _ => none
  | mode => some mode

def ahead (kinds : List CharKind) (r : Option (List CharKind × Mode)) : Option (List CharKind × Mode) :=
  r.map fun r => (kinds ++ r.1, r.2)

/-- Reads a text from left to right. The kinds in `held` are those of the next characters. -/
def lex? : List CharKind → Chars → Mode → Option (List CharKind × Mode)
  | _, [], mode => mode.atEnd?.map ([], ·)
  | kind :: held, _ :: rest, mode => ahead [kind] (lex? held rest mode)
  | [], c :: rest, mode =>
    match mode.lexeme? (c :: rest) with
    | none => none
    | some (kind, width, mode') => ahead [kind] (lex? (replicate (width - 1) kind) rest mode')

end Mode

/-! ### Steps in the whole text -/

variable {n : Nat} {s s₁ s' : ScanState} {w p cs rest tail : Chars} {m : Mark}

theorem Quote.char_ne_end (q : Quote) : q.char ≠ '\n' ∧ q.char ≠ '\r' := by cases q <;> decide

/-- The text is at the end of a line. -/
def AtLineEnd (tail : Chars) : Prop := ∀ c ∈ tail.head?, c = '\n' ∨ c = '\r'

theorem prefix_append_iff (ht : AtLineEnd tail) (hp : '\n' ∉ p ∧ '\r' ∉ p) : p <+: cs ++ tail ↔ p <+: cs := by
  refine ⟨Text.prefix_of_prefix_append fun c hc hmem => ?_, fun h => h.trans (prefix_append cs tail)⟩
  rcases ht c hc with rfl | rfl
  · exact hp.1 hmem
  · exact hp.2 hmem

theorem Takes.lexeme?_eq (ht : Takes n s w rest m s₁) (htail : AtLineEnd tail) (hfeed : '\n' ∉ w)
    (hesc : ∀ q, s.mode = .triple q → w = ['\\'] → rest ≠ []) :
    s.mode.lexeme? (w ++ rest ++ tail) = some (m.kind, w.length, s₁.mode) := by
  have hself (q : Quote) : Quote.ofChar? q.char = some q := Quote.ofChar?_eq_some_iff.mpr rfl
  have hq (q : Quote) : '\\' ≠ q.char ∧ '/' ≠ q.char := by cases q <;> decide
  have htriple (q : Quote) : replicate 3 q.char <+: w ++ rest ++ tail ↔ replicate 3 q.char <+: w ++ rest :=
    prefix_append_iff htail (by cases q <;> decide)
  have hpair {a b : Char} (h : '\n' ∉ [a, b] ∧ '\r' ∉ [a, b]) :
      [a, b] <+: w ++ rest ++ tail ↔ [a, b] <+: w ++ rest := prefix_append_iff htail h
  have hhead (d : Char) : [d] <+: rest ↔ rest.head? = some d := by cases rest <;> simp [cons_prefix_cons, eq_comm]
  cases ht with
  | inLineComment hs =>
    rw [hs, Mode.lexeme?, if_neg (by simpa [cons_prefix_cons] using hfeed)]
    rfl
  | blockCommentEnd hs => simp [hs, Mode.lexeme?, Mark.kind]
  | inBlockComment hs hc =>
    rw [hs, Mode.lexeme?, if_neg]
    · rfl
    · rw [hpair (by decide)]
      simpa [cons_prefix_cons, hhead, eq_comm] using hc
  | tripleEscape hs | lineCommentStart hs | blockCommentStart hs => simp [hs, Mode.lexeme?, Mark.kind, cons_prefix_cons]
  | tripleEnd hs => simp [hs, Mode.lexeme?, Mark.kind, cons_prefix_cons, replicate, hq]
  | @inTriple q c _ hs hesc' hend =>
    have hc : '\\' ≠ c := fun h => hesc q hs (by rw [h]) (hesc' h.symm)
    rw [hs, Mode.lexeme?, if_neg (by simpa [cons_prefix_cons] using hc), if_neg (by rwa [htriple])]
    rfl
  | oneLineEscape hs | oneLineEnd hs => simp_all [Mode.lexeme?, Mark.kind, cons_prefix_cons]
  | inOneLine hs hc hend => simp_all [Mode.lexeme?, Mark.kind, cons_prefix_cons, eq_comm]
  | tripleStart hs => simp [hs, Mode.lexeme?, Mark.kind, cons_prefix_cons, hq, hself, replicate]
  | @oneLineStart q _ hs hend =>
    have hopen : ¬ replicate 3 q.char <+: [q.char] ++ rest ++ tail := by
      rw [htriple]
      simpa [replicate, cons_prefix_cons] using hend
    simp only [hs, Mode.lexeme?]
    simp [Mark.kind, cons_prefix_cons, hq, hself]
    simpa using hopen
  | @plain c _ hs hnone hc =>
    have hslash (h : c = '/') := not_or.mp fun hd => hc ⟨h, hd⟩
    rw [hs, Mode.lexeme?, if_neg, if_neg]
    · simp [hnone, Mark.kind]
    · rw [hpair (by decide)]
      simp only [singleton_append, cons_prefix_cons, hhead, not_and]
      exact fun h => (hslash h.symm).2
    · rw [hpair (by decide)]
      simp only [singleton_append, cons_prefix_cons, hhead, not_and]
      exact fun h => (hslash h.symm).1

/-! ### Lines in the whole text -/

variable {ending : Ending} {more body : Chars} {k : CharKind} {mode mode' : Mode}

namespace Mode

theorem ahead_ahead (a b : List CharKind) (r : Option (List CharKind × Mode)) :
    ahead a (ahead b r) = ahead (a ++ b) r := by
  cases r <;> simp [ahead]

theorem ahead_nil (r : Option (List CharKind × Mode)) : ahead [] r = r := by cases r <;> rfl

theorem lex?_held (w rest : Chars) (kind : CharKind) (mode : Mode) :
    lex? (replicate w.length kind) (w ++ rest) mode = ahead (replicate w.length kind) (lex? [] rest mode) := by
  induction w with
  | nil => simp [ahead_nil]
  | cons c w ih => rw [length_cons, replicate_succ, cons_append, lex?, ih, ahead_ahead]; rfl

theorem lex?_lexeme (h : mode.lexeme? (w ++ rest) = some (k, w.length, mode')) (hw : w ≠ []) :
    lex? [] (w ++ rest) mode = ahead (replicate w.length k) (lex? [] rest mode') := by
  obtain ⟨c, w, rfl⟩ := exists_cons_of_ne_nil hw
  rw [cons_append] at h ⊢
  simp only [lex?, h, length_cons, Nat.add_sub_cancel]
  rw [lex?_held, ahead_ahead, replicate_succ]
  rfl

theorem lexeme?_return (mode : Mode) (t : Chars) : mode.lexeme? ('\r' :: t) = some (mode.kind, 1, mode) := by
  have hnone : Quote.ofChar? '\r' = none := by decide
  cases mode <;> simp [lexeme?, kind, cons_prefix_cons, hnone, Quote.char_ne_end, replicate]

theorem lexeme?_feed (mode : Mode) (t : Chars) : mode.lexeme? ('\n' :: t) = mode.atEnd?.map (mode.kind, 1, ·) := by
  have hnone : Quote.ofChar? '\n' = none := by decide
  cases mode <;> simp [lexeme?, kind, atEnd?, cons_prefix_cons, hnone, Quote.char_ne_end, replicate]

theorem atEnd?_atEnd? (h : mode.atEnd? = some mode') : mode'.atEnd? = some mode' := by
  cases mode <;> cases h <;> rfl

/-- The end of a line takes the automaton to the mode in which the scanner starts the next line. -/
theorem lex?_ending (hend : ending = .none → more = []) (mode : Mode) : lex? [] (ending.chars ++ more) mode =
      mode.atEnd?.bind fun mode' => ahead (replicate ending.chars.length mode.kind) (lex? [] more mode') := by
  have hfeed : lex? [] ('\n' :: more) mode = mode.atEnd?.bind fun mode' => ahead [mode.kind] (lex? [] more mode') := by
    rw [lex?, lexeme?_feed]
    cases mode.atEnd? <;> rfl
  cases ending with
  | none =>
    rw [hend rfl]
    cases hmode : mode.atEnd? with
    | none => simp [lex?, hmode, Ending.chars]
    | some mode' => simp [lex?, hmode, atEnd?_atEnd? hmode, Ending.chars, ahead]
  | lf => exact hfeed
  | crlf =>
    have hreturn := lex?_lexeme (w := ['\r']) (lexeme?_return mode ('\n' :: more)) (by simp)
    refine hreturn.trans ?_
    rw [hfeed]
    cases mode.atEnd? with
    | none => rfl
    | some mode' => exact ahead_ahead _ _ _

/-- A backslash at the end of a line takes the end with it, or its first character. -/
theorem lex?_escape (hend : ending = .none → more = []) (hmode : (∃ q, mode = .triple q) ∨ ∃ q, mode = .oneLine q) :
    lex? [] ('\\' :: (ending.chars ++ more)) mode = mode.atEnd?.bind fun mode' =>
      ahead (.content :: replicate ending.chars.length .content) (lex? [] more mode') := by
  rcases hmode with ⟨q, rfl⟩ | ⟨q, rfl⟩ <;> cases ending <;>
    simp [lex?, lexeme?, cons_prefix_cons, Ending.chars, ahead, atEnd?, hend, Function.comp_def, q.char_ne_end]

end Mode

open Mode

/-- The automaton agrees with what the scanner says about a line. -/
def LexedAs (text : Chars) (mode : Mode) (ending : Ending) (more : Chars) :
    Except StructuralFault (List Cell × ScanState) → Prop
  | .error _ => lex? [] (text ++ (ending.chars ++ more)) mode = none
  | .ok (cells, s') => ∃ kind, lex? [] (text ++ (ending.chars ++ more)) mode =
      ahead (cells.map (·.mark.kind) ++ replicate ending.chars.length kind) (lex? [] more s'.mode)

theorem scanCells_lexed (hend : ending = .none → more = []) (hfeed : '\n' ∉ body) :
    LexedAs body s.mode ending more (scanCells n s body) := by
  induction hk : body.length using Nat.strongRecOn generalizing s body with
  | _ k ih =>
    by_cases hbody : body = []
    · subst hbody
      have hlex := lex?_ending hend s.mode
      rcases s with ⟨_ | _ | _ | q | q, opened, started⟩
      case oneLine => exact hlex
      all_goals exact ⟨_, hlex⟩
    have htail : AtLineEnd (ending.chars ++ more) := by
      cases ending with
      | none => simp [hend rfl, AtLineEnd, Ending.chars]
      | lf | crlf => simp [AtLineEnd, Ending.chars]
    rcases exists_takes n s hbody with ⟨w, rest, m, s₁, rfl, ht⟩ | ⟨⟨q, hq⟩, rfl⟩
    · by_cases hstuck : ∃ q, s.mode = .triple q ∧ w = ['\\'] ∧ rest = []
      · obtain ⟨q, hq, rfl, rfl⟩ := hstuck
        have hlex := lex?_escape hend (.inl ⟨q, hq⟩)
        rcases s with ⟨_, opened, started⟩
        cases hq
        rw [append_nil, scanCells]
        exact ⟨_, hlex⟩
      · have hstep := ht.lexeme?_eq htail (fun h => hfeed (mem_append_left _ h)) fun q hq hw hr =>
          hstuck ⟨q, hq, hw, hr⟩
        rw [append_assoc] at hstep
        have hlex := lex?_lexeme hstep ht.ne_nil
        have hrest := @ih rest.length (hk ▸ ht.length_lt) s₁ rest (fun h => hfeed (mem_append_right _ h)) rfl
        rw [ht.scanCells_append]
        unfold LexedAs at hrest ⊢
        rw [append_assoc, hlex]
        cases hr : scanCells n s₁ rest with
        | error e =>
          rw [hr] at hrest
          simp [markedBefore, Except.map, hrest, ahead]
        | ok r =>
          obtain ⟨cells, s'⟩ := r
          rw [hr] at hrest
          obtain ⟨k, hk⟩ := hrest
          refine ⟨k, ?_⟩
          rw [hk, ahead_ahead]
          simp [Function.comp_def, map_const']
    · have hlex := lex?_escape hend (.inr ⟨q, hq⟩)
      simpa [scanCells, hq, LexedAs, atEnd?] using hlex

def Line.kinds (l : Line) : List CharKind := l.cells.map (·.mark.kind)

/-- The kinds of the lines among those of their whole text. -/
def kindsOfLines : List (Chars × Ending) → List CharKind → List (List CharKind)
  | [], _ => []
  | (body, ending) :: rest, kinds =>
    kinds.take body.length :: kindsOfLines rest (kinds.drop (body.length + ending.chars.length))

theorem Scans.atEnd? {cells : List Cell} (h : Scans n s cs cells s') : s'.mode.atEnd? = some s'.mode := by
  obtain ⟨hcomment, hstring⟩ := h.final_mode
  cases hs : s'.mode with
  | lineComment => exact absurd hs hcomment
  | oneLine q => exact absurd hs (hstring q)
  | _ => rfl

theorem scanFrom_lexed {ps : List (Chars × Ending)} (hps : ProperLines ps) (hs : s.mode.atEnd? = some s.mode) :
    (∀ e, scanFrom n s ps = .error e → lex? [] (joinBodies ps) s.mode = none) ∧
    ∀ lines s', scanFrom n s ps = .ok (lines, s') → ∃ kinds, lex? [] (joinBodies ps) s.mode = some (kinds, s'.mode) ∧
        kinds.length = (joinBodies ps).length ∧ lines.map Line.kinds = kindsOfLines ps kinds := by
  induction ps generalizing n s with
  | nil =>
    refine ⟨fun e h => (by cases h), fun lines s' h => ?_⟩
    cases h
    exact ⟨[], by simp [lex?, hs], rfl, rfl⟩
  | cons p ps ih =>
    obtain ⟨body, ending⟩ := p
    obtain ⟨hbody, hrest⟩ := hps
    have hend : ending = .none → joinBodies ps = [] := fun h => by rw [(hbody.last h).1]; rfl
    have hline := @scanCells_lexed n s ending (joinBodies ps) body hend hbody.no_feed
    rw [joinBodies_cons]
    cases hcells : scanCells n s body with
    | error e =>
      rw [hcells] at hline
      refine ⟨fun _ _ => hline, fun lines s' h => ?_⟩
      obtain ⟨_, hok, -⟩ := bind_eq_ok.mp h
      rw [hcells] at hok
      cases hok
    | ok r =>
      obtain ⟨cells, s₁⟩ := r
      rw [hcells] at hline
      obtain ⟨k, hlex⟩ := hline
      have hscan := scanCells_eq_ok_iff.mp hcells
      obtain ⟨herror, hok⟩ := @ih (n + 1) s₁ hrest hscan.atEnd?
      have hlength : body.length = cells.length := by rw [← hscan.map_char, length_map]
      rw [hlex]
      refine ⟨fun e h => ?_, fun lines s' h => ?_⟩
      · rcases bind_eq_error.mp h with h | ⟨_, h, hmore⟩ <;> rw [hcells] at h <;> cases h
        rcases bind_eq_error.mp hmore with hmore | ⟨_, -, h⟩
        · rw [herror e hmore]
          rfl
        · cases h
      · obtain ⟨_, h, hmore⟩ := bind_eq_ok.mp h
        rw [hcells] at h
        cases h
        obtain ⟨_, hscanned, hlast⟩ := bind_eq_ok.mp hmore
        cases hlast
        obtain ⟨kinds, hkinds, hcount, hlines⟩ := hok _ _ hscanned
        refine ⟨_, by rw [hkinds]; rfl, by simp [hcount, hlength], ?_⟩
        rw [kindsOfLines, drop_left' (by simp [hlength]), append_assoc, take_left' (by simp [hlength]), ← hlines]
        rfl

/-- The scanner fails on the texts that the automaton does not read. Otherwise the automaton marks the
characters of all lines as the scanner does, and both end inside of the same. -/
theorem scanLines_eq_lex (text : Chars) : ((∃ e, scanLines text = .error e) ↔ lex? [] text .code = none) ∧
    ∀ lines s, scanLines text = .ok (lines, s) → ∃ kinds, lex? [] text .code = some (kinds, s.mode) ∧
      kinds.length = text.length ∧ lines.map Line.source = splitLines text ∧
      lines.map Line.kinds = kindsOfLines (splitLines text) kinds ∧
      ∀ l ∈ lines, l.masked = zipWith CharKind.mask l.kinds l.text ∧ l.masked.length = l.text.length ∧
        l.codeEnd ≤ l.text.length := by
  obtain ⟨herror, hok⟩ := @scanFrom_lexed 1 {} _ (properLines_splitLines text) rfl
  rw [joinBodies_splitLines] at herror hok
  refine ⟨⟨fun ⟨e, h⟩ => herror e h, fun h => ?_⟩, fun lines s h => ?_⟩
  · cases hscan : scanLines text with
    | error e => exact ⟨e, rfl⟩
    | ok r =>
      obtain ⟨kinds, hkinds, -⟩ := hok r.1 r.2 hscan
      rw [hkinds] at h
      cases h
  · obtain ⟨kinds, hkinds, hcount, hlines⟩ := hok lines s h
    refine ⟨kinds, hkinds, hcount, (scanLines_eq_ok_iff.mp h).2.symm, hlines, fun l _ => ⟨?_, ?_, ?_⟩⟩
    · have hmasked : Cell.masked = fun c => c.mark.kind.mask c.char := by
        funext ⟨_, mark⟩
        cases mark <;> rfl
      simp [Line.masked, Line.kinds, Line.text, hmasked, zipWith_map, zipWith_self]
    · simp [Line.masked, Line.text]
    · simpa [Line.text] using l.codeEnd_le_length

/-- A string in two lines, the first of which ends with a backslash. -/
def brokenString : Chars := "'''a\\\r\n'''+b".toList

theorem scanLines_eq_lex_brokenString : ∃ lines s kinds, scanLines brokenString = .ok (lines, s) ∧
    lines.map Line.masked = ["'''__".toList, "'''+b".toList] ∧ s.mode = .code ∧
    lex? [] brokenString .code = some (kinds, .code) ∧
    lines.map Line.kinds = kindsOfLines (splitLines brokenString) kinds := by
  have hscan : (scanLines brokenString).toOption.any (fun r => decide (r.2.mode = .code) &&
      decide (r.1.map Line.masked = ["'''__".toList, "'''+b".toList])) = true := by decide +kernel
  obtain ⟨⟨lines, s⟩, hok, hs⟩ := exists_of_toOption_any hscan
  obtain ⟨kinds, hlex, -, -, hkinds, -⟩ := (scanLines_eq_lex brokenString).2 lines s hok
  simp only [Bool.and_eq_true, decide_eq_true_eq] at hs
  exact ⟨lines, s, kinds, hok, hs.2, hs.1, hs.1 ▸ hlex, hkinds⟩

end GroovySharp.Source
