import GroovySharp.Proofs.Balance
import GroovySharp.Proofs.Decision
import GroovySharp.Proofs.Run

/-!
# Which texts are accepted

A text is accepted if its scan succeeds and ends outside comments and strings and the delimiters of its
code are properly nested.
-/

namespace GroovySharp.Source

open Text List

def readLines (lines : List Line) : List Line := lines.filter fun l => !l.isStringBody

def delimiters (lines : List Line) : Chars := lines.flatMap Line.delimiters

theorem delimiters_append (a b : List Line) : delimiters (a ++ b) = delimiters a ++ delimiters b :=
  flatMap_append

theorem readLines_append (a b : List Line) : readLines (a ++ b) = readLines a ++ readLines b :=
  filter_append ..

variable {lines : List Line} {s : Nesting}

theorem isDelimiter_of_mem_delimiters : ∀ c ∈ delimiters lines, isDelimiter c = true := by
  intro c hc
  obtain ⟨l, -, hl⟩ := mem_flatMap.mp hc
  exact of_mem_filter hl

namespace Nesting

def stack (s : Nesting) : List Delimiter := s.opened.map Prod.fst

theorem depth_eq_count (s : Nesting) (d : Delimiter) : s.depth d = s.stack.count d := by
  rw [depth, lines, stack, length_map, List.count, countP_map, countP_eq_length_filter]
  rfl

/-! ### One line -/

theorem absorb_eq_ok {s absorbed : Nesting} {l : Line} (hl : WellMarked l.cells)
    (h : s.absorb l = .ok absorbed) : stackAfter s.stack (delimiters (readLines [l])) = some absorbed.stack ∧
      absorbed.closures = s.closures := by
  cases hbody : l.isStringBody with
  | true =>
    simp only [absorb, hbody, if_true] at h
    cases h
    simp [readLines, delimiters, hbody, stackAfter]
  | false =>
    simp only [absorb, hbody, Bool.false_eq_true, if_false] at h
    obtain ⟨opened, hopened, rfl⟩ := map_eq_ok.mp h
    have hstack := openedAfter_eq_ok hopened
    rw [l.stackAfter_masked hl] at hstack
    have hread : delimiters (readLines [l]) = l.delimiters := by simp [readLines, delimiters, hbody]
    rw [hread]
    exact ⟨hstack, rfl⟩

theorem exists_absorb {l : Line} {stack : List Delimiter} (hl : WellMarked l.cells)
    (h : stackAfter s.stack (delimiters (readLines [l])) = some stack) :
    ∃ absorbed, s.absorb l = .ok absorbed ∧ absorbed.stack = stack := by
  cases hbody : l.isStringBody with
  | true =>
    have hstack : s.stack = stack := by simpa [readLines, delimiters, hbody, stackAfter] using h
    exact ⟨s, by simp [absorb, hbody], hstack⟩
  | false =>
    have hmasked : stackAfter s.stack l.masked = some stack := by
      rw [l.stackAfter_masked hl]
      simpa [readLines, delimiters, hbody] using h
    obtain ⟨opened, hopened, rfl⟩ := exists_openedAfter l.number hmasked
    exact ⟨{ s with opened }, by simp [absorb, hbody, hopened, Except.map], rfl⟩

end Nesting

theorem stack_decide (ctx : Context) (rules : List LineRule) (s : Nesting) :
    (LineRule.decide ctx rules s).2.2.stack = s.stack := by
  rw [Nesting.stack, LineRule.opened_decide, Nesting.stack]

/-! ### Closures -/

/-- Closures lie inside braces, so none is open outside all braces. -/
structure ClosuresInBraces (s : Nesting) : Prop where
  positive : ∀ c ∈ s.closures, 0 < c.2
  closed : s.depth .brace = 0 → s.closures = []

theorem closuresInBraces_settle (h : ∀ c ∈ s.closures, 0 < c.2) : ClosuresInBraces s.settle := by
  refine ⟨?_, ?_⟩
  · intro c hc
    exact h c ((dropWhile_sublist _).subset hc)
  · intro hdepth
    have hzero : s.depth .brace = 0 := hdepth
    simp only [Nesting.settle, hzero, dropWhile_eq_nil_iff, decide_eq_true_eq]
    exact h

theorem LineRule.positive_decide {ctx : Context}
    (hentry : (arrow.isSuffixOf ctx.core || opensBareClosure ctx.core) = true → 0 < ctx.bracesAfter)
    (hs : ∀ c ∈ s.closures, 0 < c.2) (rules : List LineRule) : ∀ c ∈ (decide ctx rules s).2.2.closures, 0 < c.2 := by
  refine decide_invariant (P := fun s' => ∀ c ∈ s'.closures, 0 < c.2) ?_ rules hs
  intro r s' hs' c hc
  obtain ⟨-, hsame | htail | ⟨hcore, hcons⟩⟩ := r.apply_nesting ctx s'
  · exact hs' c (hsame ▸ hc)
  · rw [htail] at hc
    exact hs' c (mem_of_mem_tail hc)
  · rw [hcons] at hc
    rcases mem_cons.mp hc with rfl | hc
    · exact hentry hcore
    · exact hs' c hc

theorem LineRule.decide_of_isStringBody {ctx : Context} (h : ctx.line.isStringBody = true)
    (s : Nesting) : (decide ctx all s).2.2 = s := by
  cases hblank : isBlank ctx.line.text with
  | true => simp [all, decide, apply, editIf, hblank]
  | false => simp [all, decide, apply, editIf, hblank, h]

theorem Nesting.depth_pos_of_opens {absorbed : Nesting} {l : Line} (hl : WellMarked l.cells)
    (habsorb : s.absorb l = .ok absorbed) (hbody : l.isStringBody = false)
    (hcore : l.core.getLast? = some '\x7b') : 0 < absorbed.depth .brace := by
  obtain ⟨code, hcode⟩ : ∃ code, l.codeCells.map Cell.masked = code ++ ['\x7b'] := by
    rw [l.core_eq hl] at hcore
    obtain ⟨x, hx⟩ := getLast?_eq_some_iff.mp hcore
    obtain ⟨y, hy⟩ := dropWhile_suffix (l := l.codeCells.map Cell.masked) Unicode.isSpace
    refine ⟨y ++ x, ?_⟩
    rw [← hy, append_assoc, ← hx]
    rfl
  have hmasked : l.masked = code ++ ('\x7b' :: l.restCells.map Cell.masked) := by
    rw [Line.masked, ← l.codeCells_append, map_append, hcode]
    simp
  have hrest : (l.restCells.map Cell.masked).filter isDelimiter = [] := by
    rw [filter_eq_nil_iff]
    intro c hc
    obtain ⟨d, hd, rfl⟩ := mem_map.mp hc
    have hspace := Cell.masked_space (l.code_spec.2.2 d hd)
    rw [isDelimiter_of_isSpace hspace]
    exact Bool.false_ne_true
  simp only [absorb, hbody, Bool.false_eq_true, if_false] at habsorb
  obtain ⟨opened, hopened, rfl⟩ := map_eq_ok.mp habsorb
  have hstack := openedAfter_eq_ok hopened
  rw [hmasked, stackAfter_append] at hstack
  obtain ⟨stack, -, hstack⟩ := Option.bind_eq_some_iff.mp hstack
  have hopener : ('\x7b' : Char) = Delimiter.brace.opener := rfl
  rw [hopener, stackAfter_opener, ← stackAfter_filter, hrest] at hstack
  rw [depth_eq_count, Nesting.stack, ← Option.some.inj hstack]
  simp

def ArrowsInBraces (lines : List Line) : Prop :=
  ∀ k, (h : k < lines.length) → arrow.isSuffixOf lines[k].core = true →
    (delimiters (readLines (lines.take (k + 1)))).count '\x7d' <
      (delimiters (readLines (lines.take (k + 1)))).count '\x7b'

instance (lines : List Line) : Decidable (ArrowsInBraces lines) :=
  inferInstanceAs (Decidable (∀ k, (h : k < lines.length) → _))

theorem ArrowsInBraces.split {before after : List Line} {l : Line}
    (h : ArrowsInBraces (before ++ l :: after)) (hl : arrow.isSuffixOf l.core = true) :
    (delimiters (readLines (before ++ [l]))).count '\x7d' < (delimiters (readLines (before ++ [l]))).count '\x7b' := by
  have hk : before.length < (before ++ l :: after).length := by simp
  have hget : (before ++ l :: after)[before.length] = l := by simp
  have htake : (before ++ l :: after).take (before.length + 1) = before ++ [l] := by simp [take_append]
  have hcount := h before.length hk (hget.symm ▸ hl)
  rwa [htake] at hcount

/-! ### Runs -/

variable {edits : Edits}

theorem Settles.stackAfter_eq {last : Nesting}
    (h : Settles s lines edits last) (hmarks : ∀ l ∈ lines, WellMarked l.cells) :
    stackAfter s.stack (delimiters (readLines lines)) = some last.stack := by
  induction h with
  | nil => rfl
  | @cons s absorbed decided last l rest rule edit edits habsorb hdecide _ ih =>
    have hl := (Nesting.absorb_eq_ok (hmarks l (by simp)) habsorb).1
    have hrest := ih fun x hx => hmarks x (mem_cons_of_mem _ hx)
    have hstack : decided.settle.stack = absorbed.stack := by
      have hdecided := stack_decide (contextOf s absorbed l rest) LineRule.all absorbed
      rw [hdecide] at hdecided
      exact hdecided
    rw [← singleton_append, readLines_append, delimiters_append, stackAfter_append, hl,
      Option.bind_some, ← hstack, hrest]

theorem exists_settles {stack : List Delimiter} (hmarks : ∀ l ∈ lines, WellMarked l.cells)
    (h : stackAfter s.stack (delimiters (readLines lines)) = some stack) :
    ∃ edits last, Settles s lines edits last ∧ last.stack = stack := by
  induction lines generalizing s with
  | nil =>
    refine ⟨[], s, .nil, ?_⟩
    exact Option.some.inj h
  | cons l rest ih =>
    rw [← singleton_append, readLines_append, delimiters_append, stackAfter_append] at h
    obtain ⟨middle, hl, hrest⟩ := Option.bind_eq_some_iff.mp h
    obtain ⟨absorbed, habsorb, rfl⟩ := Nesting.exists_absorb (hmarks l (by simp)) hl
    obtain ⟨rule, edit, decided, hdecide⟩ : ∃ rule edit decided,
        LineRule.decide (contextOf s absorbed l rest) LineRule.all absorbed = (rule, edit, decided) :=
      ⟨_, _, _, rfl⟩
    have hdecided := stack_decide (contextOf s absorbed l rest) LineRule.all absorbed
    rw [hdecide] at hdecided
    rw [← hdecided] at hrest
    obtain ⟨edits, last, hsettles, hlast⟩ :=
      ih (s := decided.settle) (fun x hx => hmarks x (mem_cons_of_mem _ hx)) hrest
    exact ⟨_ :: edits, last, .cons habsorb hdecide hsettles, hlast⟩

theorem Settles.closuresInBraces {last : Nesting} {rest : List Line}
    (h : Settles s rest edits last) (before : List Line)
    (hmarks : ∀ l ∈ rest, WellMarked l.cells) (harrows : ArrowsInBraces (before ++ rest))
    (hstack : stackAfter [] (delimiters (readLines before)) = some s.stack)
    (hs : ClosuresInBraces s) : ClosuresInBraces last := by
  induction h generalizing before with
  | nil => exact hs
  | @cons s absorbed decided last l rest rule edit edits habsorb hdecide _ ih =>
    obtain ⟨hl, hclosures⟩ := Nesting.absorb_eq_ok (hmarks l (by simp)) habsorb
    have hread : stackAfter [] (delimiters (readLines (before ++ [l]))) = some absorbed.stack := by
      rw [readLines_append, delimiters_append, stackAfter_append, hstack, Option.bind_some, hl]
    have hpositive : ∀ c ∈ decided.closures, 0 < c.2 := by
      have habsorbed : ∀ c ∈ absorbed.closures, 0 < c.2 := hclosures ▸ hs.positive
      cases hbody : l.isStringBody with
      | true =>
        have hctx : (contextOf s absorbed l rest).line.isStringBody = true := hbody
        have hsame : decided = absorbed := by
          have hdecided := LineRule.decide_of_isStringBody hctx absorbed
          rwa [hdecide] at hdecided
        rwa [hsame]
      | false =>
        have hentry : (arrow.isSuffixOf (contextOf s absorbed l rest).core ||
            opensBareClosure (contextOf s absorbed l rest).core) = true →
            0 < (contextOf s absorbed l rest).bracesAfter := by
          intro hentry
          rcases Bool.or_eq_true_iff.mp hentry with harrow | hbare
          · have hcount := count_stackAfter hread .brace
            have hbraces := harrows.split harrow
            change 0 < absorbed.depth .brace
            rw [Nesting.depth_eq_count]
            simp only [count_nil, Delimiter.opener, Delimiter.closer] at hcount
            omega
          · exact Nesting.depth_pos_of_opens (hmarks l (by simp)) habsorb hbody (opensBareClosure_getLast? hbare)
        have hdecided := LineRule.positive_decide hentry habsorbed LineRule.all
        rwa [hdecide] at hdecided
    have hdecided := stack_decide (contextOf s absorbed l rest) LineRule.all absorbed
    rw [hdecide] at hdecided
    have harrows' : ArrowsInBraces ((before ++ [l]) ++ rest) := by
      rw [append_assoc]
      exact harrows
    refine ih (before ++ [l]) (fun x hx => hmarks x (mem_cons_of_mem _ hx)) harrows' ?_
      (closuresInBraces_settle hpositive)
    rw [hread, ← hdecided]
    rfl

/-! ### Acceptance -/

theorem Nesting.lines_eq_nil_iff (s : Nesting) (d : Delimiter) : s.lines d = [] ↔ d ∉ s.stack := by
  rw [← count_eq_zero, ← depth_eq_count, depth, length_eq_zero_iff]

theorem Nesting.stack_eq_nil_iff (s : Nesting) :
    s.stack = [] ↔ s.lines .paren = [] ∧ s.lines .bracket = [] ∧ s.lines .brace = [] := by
  rw [lines_eq_nil_iff, lines_eq_nil_iff, lines_eq_nil_iff]
  constructor
  · intro h
    rw [h]
    exact ⟨not_mem_nil, not_mem_nil, not_mem_nil⟩
  · rintro ⟨hparen, hbracket, hbrace⟩
    refine eq_nil_iff_forall_not_mem.mpr fun d => ?_
    cases d with
    | paren => exact hparen
    | bracket => exact hbracket
    | brace => exact hbrace

theorem openConstruct?_eq_none_iff {scan : ScanState} : openConstruct? scan s = none ↔
      scan.mode ≠ .blockComment ∧ scan.inString = false ∧ s.stack = [] ∧ s.closures = [] := by
  have hopen : ((s.lines .paren).head?.map (StructuralFault.unterminated (.delimited .paren)) <|>
      (s.lines .bracket).head?.map (StructuralFault.unterminated (.delimited .bracket)) <|>
      s.closures.head?.map (fun c => StructuralFault.unterminated .closure c.1) <|>
      (s.lines .brace).head?.map (StructuralFault.unterminated (.delimited .brace))) = none ↔
      s.stack = [] ∧ s.closures = [] := by
    simp only [Option.orElse_eq_orElse, Option.orElse_eq_or, Option.or_eq_none_iff, Option.map_eq_none_iff,
      head?_eq_none_iff, s.stack_eq_nil_iff]
    constructor
    · rintro ⟨hparen, hbracket, hclosures, hbrace⟩
      exact ⟨⟨hparen, hbracket, hbrace⟩, hclosures⟩
    · rintro ⟨⟨hparen, hbracket, hbrace⟩, hclosures⟩
      exact ⟨hparen, hbracket, hclosures, hbrace⟩
  cases hmode : scan.mode with
  | blockComment => simp [openConstruct?, hmode]
  | triple q => simp [openConstruct?, hmode, ScanState.inString]
  | code | lineComment | oneLine q => simpa [openConstruct?, hmode, ScanState.inString] using hopen

theorem delimiters_readLines (h : ∀ l ∈ lines, l.isStringBody = true → l.delimiters = []) :
    delimiters (readLines lines) = delimiters lines := by
  induction lines with
  | nil => rfl
  | cons l lines ih =>
    have hrest := ih fun x hx => h x (mem_cons_of_mem _ hx)
    simp only [delimiters, readLines] at hrest
    cases hbody : l.isStringBody with
    | false => simp [delimiters, readLines, hbody, hrest]
    | true => simp [delimiters, readLines, hbody, hrest, h l (by simp) hbody]

theorem nested_of_normalize {t u : Chars} (h : normalize t = .ok u) :
    ∃ lines scan, scanLines t = .ok (lines, scan) ∧ scan.mode ≠ .blockComment ∧
      scan.inString = false ∧ Nested (delimiters (readLines lines)) := by
  obtain ⟨lines, scan, edits, last, hscan, hsettles, hopen, -⟩ := normalize_eq_ok_iff.mp h
  obtain ⟨hcomment, hstring, hstack, -⟩ := openConstruct?_eq_none_iff.mp hopen
  have hrun := hsettles.stackAfter_eq (scanLines_eq_ok_iff.mp hscan).1.wellMarked
  rw [hstack] at hrun
  exact ⟨lines, scan, hscan, hcomment, hstring, (nested_iff isDelimiter_of_mem_delimiters).mpr hrun⟩

theorem exists_normalize_of_nested {t : Chars} {scan : ScanState}
    (hscan : scanLines t = .ok (lines, scan)) (harrows : ArrowsInBraces lines)
    (hcomment : scan.mode ≠ .blockComment) (hstring : scan.inString = false)
    (hnested : Nested (delimiters (readLines lines))) : ∃ u, normalize t = .ok u := by
  have hmarks := (scanLines_eq_ok_iff.mp hscan).1.wellMarked
  have hrun := (nested_iff isDelimiter_of_mem_delimiters).mp hnested
  obtain ⟨edits, last, hsettles, hstack⟩ := exists_settles (s := {}) hmarks hrun
  have hstart : ClosuresInBraces {} := by
    refine ⟨?_, fun _ => rfl⟩
    intro c hc
    cases hc
  have hclosures := hsettles.closuresInBraces [] hmarks harrows rfl hstart
  have hdepth : last.depth .brace = 0 := by
    rw [Nesting.depth_eq_count, hstack]
    rfl
  have hopen : openConstruct? scan last = none :=
    openConstruct?_eq_none_iff.mpr ⟨hcomment, hstring, hstack, hclosures.closed hdepth⟩
  exact ⟨_, normalize_eq_ok_iff.mpr ⟨lines, scan, edits, last, hscan, hsettles, hopen, rfl⟩⟩

/-- A text is accepted exactly if its scan ends outside comments and strings and its delimiters are
nested. The delimiters on a line that starts and ends inside triple-quoted strings do not count, and
where there are none the nesting is that of all delimiters in code. -/
theorem normalize_accepts_iff (t : Chars)
    (harrows : ∀ lines scan, scanLines t = .ok (lines, scan) → ArrowsInBraces lines) :
    ((∃ u, normalize t = .ok u) ↔ ∃ lines scan, scanLines t = .ok (lines, scan) ∧ scan.mode ≠ .blockComment ∧
        scan.inString = false ∧ Nested (delimiters (readLines lines))) ∧
    ((∀ lines scan, scanLines t = .ok (lines, scan) →
        ∀ l ∈ lines, l.isStringBody = true → l.delimiters = []) → ((∃ u, normalize t = .ok u) ↔
        ∃ lines scan, scanLines t = .ok (lines, scan) ∧ scan.mode ≠ .blockComment ∧
          scan.inString = false ∧ Nested (delimiters lines))) := by
  have hread : (∃ u, normalize t = .ok u) ↔
      ∃ lines scan, scanLines t = .ok (lines, scan) ∧ scan.mode ≠ .blockComment ∧
        scan.inString = false ∧ Nested (delimiters (readLines lines)) := by
    constructor
    · rintro ⟨u, hu⟩
      exact nested_of_normalize hu
    · rintro ⟨lines, scan, hscan, hcomment, hstring, hnested⟩
      exact exists_normalize_of_nested hscan (harrows lines scan hscan) hcomment hstring hnested
  refine ⟨hread, fun hbodies => hread.trans ?_⟩
  constructor
  · rintro ⟨lines, scan, hscan, hcomment, hstring, hnested⟩
    rw [delimiters_readLines (hbodies lines scan hscan)] at hnested
    exact ⟨lines, scan, hscan, hcomment, hstring, hnested⟩
  · rintro ⟨lines, scan, hscan, hcomment, hstring, hnested⟩
    rw [← delimiters_readLines (hbodies lines scan hscan)] at hnested
    exact ⟨lines, scan, hscan, hcomment, hstring, hnested⟩

def closureBehindString : Chars := "a('''\n;''') \x7b x ->\nb[x]\n\x7d\n".toList

theorem normalize_accepts_closure :
    (∀ lines scan, scanLines closureBehindString = .ok (lines, scan) → ArrowsInBraces lines) ∧
      (∃ lines scan, scanLines closureBehindString = .ok (lines, scan) ∧
        scan.mode ≠ .blockComment ∧ scan.inString = false ∧ Nested (delimiters (readLines lines))) ∧
      ∃ u, normalize closureBehindString = .ok u := by
  have harrows : ∀ lines scan, scanLines closureBehindString = .ok (lines, scan) → ArrowsInBraces lines := by
    have hcheck : (scanLines closureBehindString).toOption.all (fun p => decide (ArrowsInBraces p.1)) = true := by
      decide +kernel
    intro lines scan hscan
    exact of_decide_eq_true (forall_of_toOption_all hcheck (lines, scan) hscan)
  have hnested : ∃ lines scan, scanLines closureBehindString = .ok (lines, scan) ∧ scan.mode ≠ .blockComment ∧
      scan.inString = false ∧ Nested (delimiters (readLines lines)) := by
    have hcheck : (scanLines closureBehindString).toOption.any (fun p => decide (p.2.mode ≠ .blockComment ∧
        p.2.inString = false ∧ Nested (delimiters (readLines p.1)))) = true := by
      decide +kernel
    obtain ⟨p, hp, hcheck⟩ := exists_of_toOption_any hcheck
    exact ⟨p.1, p.2, hp, of_decide_eq_true hcheck⟩
  exact ⟨harrows, hnested, (normalize_accepts_iff closureBehindString harrows).1.mpr hnested⟩

def callBetweenStrings : Chars := "x = '''\n''' + f( '''\n''')\n".toList

def openCallBetweenStrings : Chars := "x = '''\n''' + f( '''\n'''\n".toList

/-- Code between two triple-quoted strings on one line is not read: its opening parenthesis is missed,
so that a nested text is rejected and a text that leaves it open is accepted. -/
theorem code_between_strings_unread :
    ((∃ lines scan, scanLines callBetweenStrings = .ok (lines, scan) ∧
        ArrowsInBraces lines ∧ scan.mode ≠ .blockComment ∧ scan.inString = false ∧ Nested (delimiters lines)) ∧
      ¬∃ u, normalize callBetweenStrings = .ok u) ∧
    (∃ lines scan, scanLines openCallBetweenStrings = .ok (lines, scan) ∧
        ArrowsInBraces lines ∧ ¬Nested (delimiters lines)) ∧
      ∃ u, normalize openCallBetweenStrings = .ok u := by
  refine ⟨⟨?_, ?_⟩, ?_, ?_⟩
  · have h : (scanLines callBetweenStrings).toOption.any (fun p =>
        decide (ArrowsInBraces p.1 ∧ p.2.mode ≠ .blockComment ∧ p.2.inString = false ∧
          Nested (delimiters p.1))) = true := by decide +kernel
    obtain ⟨p, hp, hcheck⟩ := exists_of_toOption_any h
    exact ⟨p.1, p.2, hp, of_decide_eq_true hcheck⟩
  · rintro ⟨u, hu⟩
    have h : (normalize callBetweenStrings).toOption = none := by decide +kernel
    rw [hu] at h
    cases h
  · have h : (scanLines openCallBetweenStrings).toOption.any (fun p =>
        decide (ArrowsInBraces p.1 ∧ ¬Nested (delimiters p.1))) = true := by decide +kernel
    obtain ⟨p, hp, hcheck⟩ := exists_of_toOption_any h
    exact ⟨p.1, p.2, hp, of_decide_eq_true hcheck⟩
  · have h : (normalize openCallBetweenStrings).toOption.any (fun _ => true) = true := by decide +kernel
    obtain ⟨u, hu, -⟩ := exists_of_toOption_any h
    exact ⟨u, hu⟩

end GroovySharp.Source
