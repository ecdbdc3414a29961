import Mathlib.Tactic.MkIffOfInductiveProp
import GroovySharp.Proofs.LineSteps

/-!
# Which lines end a statement

Three laws of normalized texts, each for every line of the text and every state that earlier lines can
leave: where a parenthesis or bracket stays open, where the code ends in an operator that wants an
operand, and where nothing asks for the statement to go on.
-/

namespace GroovySharp.Source

open Text List

/-! ### Lines and their last character -/

namespace Line

variable {l : Line} {s s' : ScanState}

theorem source_edited_eq_iff (l : Line) (e : Edit) : (l.edited e).source = l.source ↔ e.apply l = l.text := by
  rw [source, source, Prod.mk.injEq, text_edited, ending_edited]
  exact and_iff_left rfl

theorem ended_ne_self (h : l.ScansFrom s s') (hs : l.endsInString = false) (hne : l.codeEnd ≠ 0)
    (hlast : l.core.getLast? ≠ some ';') : l.ended ≠ l := by
  intro hsame
  obtain ⟨c, hc, hchar⟩ := getLast?_ended hne
  rw [hsame] at hc
  exact hlast (getLast?_core_of_semicolon h.scans (h.ends.symm.trans hs) hc hchar)

theorem exists_getLast?_codeCells (hw : WellMarked l.cells) {c : Char} (hlast : l.core.getLast? = some c) :
    ∃ d, l.codeCells.getLast? = some d ∧ d.masked = c := by
  cases hcells : l.codeCells.getLast? with
  | none =>
    have hnil : l.codeCells = [] := getLast?_eq_none_iff.mp hcells
    rw [l.core_eq hw, hnil] at hlast
    cases hlast
  | some d =>
    rw [getLast?_core hw hcells] at hlast
    exact ⟨d, rfl, Option.some.inj hlast⟩

theorem not_blank_of_code (h : l.ScansFrom s s') (hs : l.endsInString = false) (hne : l.codeEnd ≠ 0) :
    isBlank l.text = false := by
  cases hlast : l.codeCells.getLast? with
  | none => exact absurd (l.codeEnd_eq_zero_iff.mpr hlast) hne
  | some d =>
    have hmem : d ∈ l.cells := mem_of_mem_take (mem_of_getLast? hlast)
    have hcode := l.code_spec.2.1 d hlast
    have hspace := h.scans.wellMarked.masked_not_space hmem hcode
    have hcontent := mark_getLast? h.scans (h.ends.symm.trans hs) hlast
    have hshown : d.masked = d.char := by
      cases hmark : d.mark with
      | content => exact absurd hmark hcontent
      | comment => exact absurd hmark (Cell.not_comment_of_not_space hspace)
      | _ => simp [Cell.masked, hmark]
    rw [hshown] at hspace
    exact not_isBlank_of_mem (mem_map_of_mem hmem) hspace

end Line

variable {c : Char}

theorem endsWithAny_append_singleton {words : List Chars} (hc : [c] ∈ words)
    (front : Chars) : endsWithAny words (front ++ [c]) = true :=
  any_eq_true.mpr ⟨[c], hc, by simp [isSuffixOf_append_singleton]⟩

theorem dropTail_append_singleton {p : Char → Bool} (hc : p c = false) (front : Chars) :
    dropTail p (front ++ [c]) = front ++ [c] := by
  refine dropTail_of_last ?_
  intro d hd
  obtain rfl : c = d := by simpa using hd
  exact hc

theorem getLast?_ne_of_not_suppressed {core : Chars} (h : endsWithAny suppressingEnds core = false)
    (hc : [c] ∈ suppressingEnds) : core.getLast? ≠ some c := by
  intro hlast
  obtain ⟨front, rfl⟩ := getLast?_eq_some_iff.mp hlast
  rw [endsWithAny_append_singleton hc] at h
  cases h

namespace LineRule

variable {ctx : Context} {s : Nesting} {rule : LineRule} {edit : Edit}

theorem not_suppressed_of_not_endsOpen {core : Chars} (h : endsOpen core = false) :
    endsWithAny suppressingEnds core = false := (Bool.or_eq_false_iff.mp h).2

/-! ### Lines inside parentheses and brackets -/

theorem Outcome.keep_inside (h : Outcome ctx s rule edit)
    (hafter : ctx.after = some .paren ∨ ctx.after = some .bracket) (hexit : rule ≠ .chainExit)
    (hinvalid : rule ≠ .invalidTerminator) : edit = .keep := by
  cases h with
  | stringEnds _ _ hparen hbracket | defaultInsert _ hparen hbracket => exact (hafter.elim hparen hbracket).elim
  | chainExit => exact absurd rfl hexit
  | invalidTerminator => exact absurd rfl hinvalid
  | _ => rfl

theorem Outcome.of_chainExit (h : Outcome ctx s .chainExit edit) :
    edit = .terminate ∧ MayEnd ctx ∧ s.inChain = true ∧ startsChain ctx.nextCore = false ∧
      endsOpen ctx.core = false := by
  cases h with
  | chainExit hend hchain hnext hopen => exact ⟨rfl, hend, hchain, hnext, hopen⟩

theorem Outcome.of_invalidTerminator (h : Outcome ctx s .invalidTerminator edit) :
    edit = invalidEdit ctx s ∧ MayEnd ctx ∧ ctx.after ≠ some .paren ∧ ['['].isSuffixOf ctx.core = false := by
  cases h with
  | invalidTerminator hend hparen hbracket _ => exact ⟨rfl, hend, hparen, hbracket⟩

theorem invalidEdit_of_bracket (h : ctx.after = some .bracket) : invalidEdit ctx s =
      if closesClosure ctx s = false ∧ closesBlock ctx s = false then shapeEdit ctx.core else .keep := by
  have hgoes : goesOn ctx = true := decide_eq_true (.inr (.inl h))
  cases hclosure : closesClosure ctx s with
  | true => simp [invalidEdit, hclosure, hgoes]
  | false => cases hblock : closesBlock ctx s <;> simp [invalidEdit, hclosure, hblock]

end LineRule

namespace LineStep

variable {v : LineStep} {edit : Edit} {a b : ScanState}

theorem source_ne_of_chainExit (hscan : v.line.ScansFrom a b)
    (h : LineRule.Outcome v.context v.before v.settled.rule edit) (hrule : v.settled.rule = .chainExit) :
    (v.line.edited edit).source ≠ v.line.source := by
  rw [hrule] at h
  obtain ⟨rfl, hend, -, -, hopen⟩ := h.of_chainExit
  have hlast : v.line.core.getLast? ≠ some ';' :=
    getLast?_ne_of_not_suppressed (LineRule.not_suppressed_of_not_endsOpen hopen) (by decide)
  rw [Ne, Line.source_edited_eq_iff, ← Line.edited_eq_self_iff]
  exact Line.ended_ne_self hscan hend.no_string hend.has_code hlast

/-- The shape of the code asks for a semicolon that is not there: a closure or a block on one line, an
import, a step up or down. The line closes neither a closure nor a block that was remembered in one. -/
structure AsksForEnd (v : LineStep) : Prop where
  rule : v.settled.rule = .invalidTerminator
  no_closure : LineRule.closesClosure v.context v.before = false
  no_block : LineRule.closesBlock v.context v.before = false
  asks : (LineRule.shapeEdit v.line.core).apply v.line ≠ v.line.text

/-- A line of the normalized text whose line in the text leaves a parenthesis or bracket open. -/
structure StaysInside (v : LineStep) (out : Chars × Ending) : Prop where
  chain : v.settled.rule = .chainExit → v.before.inChain = true ∧
    startsChain (nextCore v.rest) = false ∧ LineRule.endsOpen v.line.core = false
  paren : v.after.innermost = some .paren → (out = v.line.source ↔ v.settled.rule ≠ .chainExit)
  bracket : v.after.innermost = some .bracket → (out = v.line.source ↔ v.settled.rule ≠ .chainExit ∧ ¬v.AsksForEnd)

theorem staysInside (hscan : v.line.ScansFrom a b) (h : LineRule.Outcome v.context v.before v.settled.rule edit) :
    v.StaysInside (v.line.edited edit).source := by
  refine ⟨?_, ?_, ?_⟩
  · intro hrule
    rw [hrule] at h
    obtain ⟨-, -, hchain, hnext, hopen⟩ := h.of_chainExit
    exact ⟨hchain, hnext, hopen⟩
  · intro hafter
    constructor
    · intro hsame hrule
      exact source_ne_of_chainExit hscan h hrule hsame
    · intro hexit
      have hinvalid : v.settled.rule ≠ .invalidTerminator := by
        intro hrule
        rw [hrule] at h
        exact h.of_invalidTerminator.2.2.1 hafter
      rw [h.keep_inside (.inl hafter) hexit hinvalid]
      rfl
  · intro hafter
    -- Two rules end a line without asking whether a bracket is open.
    by_cases hexit : v.settled.rule = .chainExit
    · have hchanged := source_ne_of_chainExit hscan h hexit
      exact ⟨fun hsame => absurd hsame hchanged, fun hnot => absurd hexit hnot.1⟩
    · by_cases hinvalid : v.settled.rule = .invalidTerminator
      · have hedit : edit = LineRule.invalidEdit v.context v.before := by
          rw [hinvalid] at h
          exact h.of_invalidTerminator.1
        rw [Line.source_edited_eq_iff, hedit, LineRule.invalidEdit_of_bracket hafter]
        split
        · next hcloses =>
          constructor
          · intro hsame
            exact ⟨hexit, fun hasks => hasks.asks hsame⟩
          · rintro ⟨-, hnot⟩
            by_contra hchanged
            exact hnot ⟨hinvalid, hcloses.1, hcloses.2, hchanged⟩
        · next hcloses =>
          exact ⟨fun _ => ⟨hexit, fun hasks => hcloses ⟨hasks.no_closure, hasks.no_block⟩⟩, fun _ => rfl⟩
      · rw [h.keep_inside (.inr hafter) hexit hinvalid]
        exact ⟨fun _ => ⟨hexit, fun hasks => hinvalid hasks.rule⟩, fun _ => rfl⟩

end LineStep

/-- Inside an open parenthesis a line of a text is changed exactly if it is taken for the end of a chain
of calls, and inside an open bracket also if the shape of its code asks for a semicolon. -/
theorem normalize_inside_delimiters {t u : Chars} (h : normalize t = .ok u) :
    splitLines t = (stepsOf t).map (·.line.source) ∧ List.Forall₂ LineStep.StaysInside (stepsOf t) (splitLines u) := by
  refine normalize_sources h ?_
  intro v edit a b hscan houtcome
  exact LineStep.staysInside hscan houtcome

def listArgument : Chars := "x\n.y(a,\n[b\n])\n".toList

def listArgumentEnded : Chars := "x\n.y(a,\n[b\n]);\n".toList

theorem normalize_inside_list_argument :
    normalize listArgument = .ok listArgumentEnded ∧
      (stepsOf listArgument).map (·.after.innermost) =
        [none, some .paren, some .bracket, none] ∧
      splitLines listArgument = (stepsOf listArgument).map (·.line.source) ∧
      List.Forall₂ LineStep.StaysInside (stepsOf listArgument) (splitLines listArgumentEnded) := by
  have h : normalize listArgument = .ok listArgumentEnded :=
    normalize_eq_ok_of_toOption (by decide +kernel)
  exact ⟨h, by decide +kernel, normalize_inside_delimiters h⟩

/-- The last line of a chain is ended inside the call that it opens, and a closure on one line is ended
inside the list that it belongs to. -/
theorem chain_and_closure_ended_inside :
    (normalize "x\n.y(a\n)\n".toList = .ok "x\n.y(a;\n);\n".toList ∧
      (stepsOf "x\n.y(a\n)\n".toList).map (·.after.innermost) = [none, some .paren, none] ∧
      (splitLines "x\n.y(a\n)\n".toList).zipWith (· == ·) (splitLines "x\n.y(a;\n);\n".toList) =
        [true, false, false]) ∧
    normalize "z = [\n\x7b b -> c \x7d\n]\n".toList = .ok "z = [\n\x7b b -> c \x7d;\n];\n".toList ∧
      (stepsOf "z = [\n\x7b b -> c \x7d\n]\n".toList).map (·.after.innermost) =
        [some .bracket, some .bracket, none] ∧
      (splitLines "z = [\n\x7b b -> c \x7d\n]\n".toList).zipWith (· == ·)
        (splitLines "z = [\n\x7b b -> c \x7d;\n];\n".toList) = [true, false, false] := by
  refine ⟨⟨?_, ?_, ?_⟩, ?_, ?_, ?_⟩
  · exact normalize_eq_ok_of_toOption (by decide +kernel)
  · decide +kernel
  · decide +kernel
  · exact normalize_eq_ok_of_toOption (by decide +kernel)
  · decide +kernel
  · decide +kernel

/-! ### Lines that end in an operator -/

def danglingOperators : Chars := "+-*/%&|^?:.([,=<>".toList

def continuationOperators : Chars := ",+-*/%?:.=(".toList

def forgottenOperators : Chars := "&|^<>".toList

theorem forall_danglingOperators {P : Char → Prop} [DecidablePred P]
    (h : danglingOperators.all (fun c => decide (P c)) = true) : ∀ c ∈ danglingOperators, P c :=
  fun c hc => of_decide_eq_true (all_eq_true.mp h c hc)

theorem suppressingEnds_of_dangling : ∀ c ∈ danglingOperators, [c] ∈ suppressingEnds :=
  forall_danglingOperators (by decide)

theorem endsWithAny_continuationEnds (front : Chars) (c : Char) : endsWithAny continuationEnds (front ++ [c]) =
      (continuationOperators.contains c || (['&', '&'].isSuffixOf (front ++ [c]) ||
        ['|', '|'].isSuffixOf (front ++ [c]))) := by
  have hchars : continuationOperators = [',', '+', '-', '*', '/', '%', '?', ':', '.', '=', '('] := by decide
  simp only [endsWithAny, continuationEnds, hchars, any_cons, any_nil, contains_cons,
    contains_nil, isSuffixOf_append_singleton, Bool.beq_comm]
  grind

theorem endsWithAny_continuationEnds_eq_false_iff (hc : c ∈ danglingOperators) (hbracket : c ≠ '[')
    (front : Chars) : endsWithAny continuationEnds (front ++ [c]) = false ↔
      c ∈ forgottenOperators ∧ ['&', '&'].isSuffixOf (front ++ [c]) = false ∧
        ['|', '|'].isSuffixOf (front ++ [c]) = false := by
  have hforgotten : ∀ c ∈ danglingOperators, c ≠ '[' →
      (continuationOperators.contains c = false ↔ c ∈ forgottenOperators) :=
    forall_danglingOperators (by decide)
  rw [endsWithAny_continuationEnds, Bool.or_eq_false_iff, Bool.or_eq_false_iff, hforgotten c hc hbracket]

namespace LineRule

variable {ctx : Context} {s : Nesting} {rule : LineRule} {edit : Edit}

theorem Outcome.keep_dangling (h : Outcome ctx s rule edit) (hends : endsWithAny suppressingEnds ctx.core = true)
    (hstring : isBlank (ctx.line.masked.drop (ctx.line.stringCloseAt?.getD 0)) = false)
    (hrule : rule ≠ .invalidTerminator) : edit = .keep := by
  cases h with
  | stringEnds _ hblank =>
    rw [hstring] at hblank
    cases hblank
  | chainExit _ _ _ hopen =>
    rw [endsOpen, hends, Bool.or_true] at hopen
    cases hopen
  | invalidTerminator => exact absurd rfl hrule
  | defaultInsert _ _ _ hvalid =>
    rw [endsInvalid, hends, Bool.true_or, Bool.true_or] at hvalid
    cases hvalid
  | _ => rfl

theorem shapeEdit_dangling {c : Char} (hc : c ∈ danglingOperators) {front : Chars}
    (hup : ['+', '+'].isSuffixOf (front ++ [c]) = false) (hdown : ['-', '-'].isSuffixOf (front ++ [c]) = false)
    (himport : "import ".toList.isPrefixOf (front ++ [c]) = false) :
    shapeEdit (front ++ [c]) = .keep := by
  have hother : ∀ c ∈ danglingOperators,
      (c == ' ' || c == '\t' || c == ';' || c == ')') = false ∧ ('\x7d' == c) = false :=
    forall_danglingOperators (by decide)
  have hstripped : strippedEnd (front ++ [c]) = front ++ [c] :=
    dropTail_append_singleton (hother c hc).1 front
  have hbrace : ['\x7d'].isSuffixOf (strippedEnd (front ++ [c])) = false := by
    rw [hstripped, isSuffixOf_append_singleton]
    exact (hother c hc).2
  simp only [shapeEdit, hbrace, himport, hup, hdown, Bool.false_and, Bool.or_false, Bool.false_eq_true, if_false]

theorem invalidEdit_of_shape (h : shapeEdit ctx.core = .keep) : invalidEdit ctx s =
      if closesClosure ctx s = true ∧ goesOn ctx = false then .terminate else .keep := by
  cases hclosure : closesClosure ctx s with
  | true => cases hgoes : goesOn ctx <;> simp [invalidEdit, hclosure, hgoes]
  | false => simp [invalidEdit, hclosure, h]

theorem goesOn_eq_false_iff {c : Char} (hc : c ∈ danglingOperators) {front : Chars}
    (hcore : ctx.core = front ++ [c]) (hparen : ctx.after ≠ some .paren) : goesOn ctx = false ↔
      ctx.after ≠ some .bracket ∧ endsWithAny continuationEnds (front ++ [c]) = false := by
  have hsemicolon : ∀ c ∈ danglingOperators, (c == ';') = false := forall_danglingOperators (by decide)
  have hdrop : dropTail (· == ';') (front ++ [c]) = front ++ [c] :=
    dropTail_append_singleton (p := (· == ';')) (hsemicolon c hc) front
  rw [goesOn, decide_eq_false_iff_not, hcore, hdrop, not_or, not_or, Bool.not_eq_true]
  exact and_iff_right hparen

end LineRule

theorem WellMarked.mark_dangling {cells : List Cell} (h : WellMarked cells) {c : Cell} (hc : c ∈ cells)
    (hmask : c.masked ∈ danglingOperators) : c.mark = .code := by
  have hquote : ∀ q : Quote, q.char ∉ danglingOperators := by
    intro q
    cases q <;> decide
  cases hmark : c.mark with
  | code => rfl
  | content =>
    have hshown : c.masked = '_' := by simp [Cell.masked, hmark]
    rw [hshown] at hmask
    revert hmask
    decide
  | comment =>
    have hshown : c.masked = ' ' := by simp [Cell.masked, hmark]
    rw [hshown] at hmask
    revert hmask
    decide
  | quote =>
    obtain ⟨q, hq⟩ := h c hc (.inl hmark)
    have hshown : c.masked = q.char := by simp [Cell.masked, hmark, hq]
    exact absurd (hshown ▸ hmask) (hquote q)
  | close =>
    obtain ⟨q, hq⟩ := h c hc (.inr hmark)
    have hshown : c.masked = q.char := by simp [Cell.masked, hmark, hq]
    exact absurd (hshown ▸ hmask) (hquote q)

namespace LineStep

variable {v : LineStep} {edit : Edit} {a b : ScanState}

/-- The code of the line ends in an operator that wants something behind it: not in a step up or down,
and not in an import. -/
@[mk_iff]
structure EndsDangling (v : LineStep) : Prop where
  operator : ∃ c ∈ danglingOperators, v.line.core.getLast? = some c
  no_increment : ['+', '+'].isSuffixOf v.line.core = false
  no_decrement : ['-', '-'].isSuffixOf v.line.core = false
  no_import : "import ".toList.isPrefixOf v.line.core = false

instance : Decidable v.EndsDangling :=
  have : Decidable (∃ c ∈ danglingOperators, v.line.core.getLast? = some c) := List.decidableBEx _ _
  decidable_of_iff' _ (endsDangling_iff v)

/-- The line closes a closure outside brackets, and its operator is none of those that keep such a line
open. -/
structure ForgetsOperator (v : LineStep) : Prop where
  rule : v.settled.rule = .invalidTerminator
  closes : LineRule.closesClosure v.context v.before = true
  outside : v.after.innermost ≠ some .bracket
  operator : ∃ c ∈ forgottenOperators, v.line.core.getLast? = some c
  no_and : ['&', '&'].isSuffixOf v.line.core = false
  no_or : ['|', '|'].isSuffixOf v.line.core = false

theorem forgetsOperator_iff {c : Char} (hc : c ∈ danglingOperators) {front : Chars}
    (hcore : v.line.core = front ++ [c]) (hrule : v.settled.rule = .invalidTerminator)
    (hparen : v.after.innermost ≠ some .paren) (hbracket : c ≠ '[') : v.ForgetsOperator ↔
      LineRule.closesClosure v.context v.before = true ∧ LineRule.goesOn v.context = false := by
  have hgoes : LineRule.goesOn v.context = false ↔ _ :=
    LineRule.goesOn_eq_false_iff hc hcore hparen
  rw [hgoes, endsWithAny_continuationEnds_eq_false_iff hc hbracket]
  constructor
  · rintro ⟨-, hcloses, houtside, ⟨d, hd, hlast⟩, hand, hor⟩
    rw [hcore] at hlast hand hor
    obtain rfl : c = d := by simpa using hlast
    exact ⟨hcloses, houtside, hd, hand, hor⟩
  · rintro ⟨hcloses, houtside, hforgotten, hand, hor⟩
    refine ⟨hrule, hcloses, houtside, ⟨c, hforgotten, ?_⟩, ?_, ?_⟩
    · rw [hcore]
      simp
    · rw [hcore]
      exact hand
    · rw [hcore]
      exact hor

theorem source_eq_iff_of_endsDangling (hscan : v.line.ScansFrom a b)
    (h : LineRule.Outcome v.context v.before v.settled.rule edit) (hdangling : v.EndsDangling) :
    (v.line.edited edit).source = v.line.source ↔ ¬v.ForgetsOperator := by
  obtain ⟨⟨c, hc, hlast⟩, hup, hdown, himport⟩ := hdangling
  obtain ⟨front, hcore⟩ := getLast?_eq_some_iff.mp hlast
  have hctx : v.context.core = front ++ [c] := hcore
  by_cases hrule : v.settled.rule = .invalidTerminator
  · rw [hrule] at h
    obtain ⟨hedit, hend, hparen, hbracket⟩ := h.of_invalidTerminator
    have hopener : c ≠ '[' := by
      rintro rfl
      rw [hctx, isSuffixOf_append_singleton] at hbracket
      cases hbracket
    have hshape : LineRule.shapeEdit v.context.core = .keep := by
      rw [hcore] at hup hdown himport
      rw [hctx]
      exact LineRule.shapeEdit_dangling hc hup hdown himport
    have hchanged : Edit.terminate.apply v.line ≠ v.line.text := by
      rw [Ne, ← Line.edited_eq_self_iff]
      refine Line.ended_ne_self hscan hend.no_string hend.has_code ?_
      rw [hlast]
      rintro ⟨⟩
      revert hc
      decide
    rw [forgetsOperator_iff hc hcore hrule hparen hopener, Line.source_edited_eq_iff, hedit,
      LineRule.invalidEdit_of_shape hshape]
    split
    · next hforgets => exact ⟨fun hsame => absurd hsame hchanged, fun hnot => absurd hforgets hnot⟩
    · next hkept => exact ⟨fun _ => hkept, fun _ => rfl⟩
  · -- An operator is no part of a string, so a string that ends on the line has code behind it.
    obtain ⟨d, hd, hmask⟩ := Line.exists_getLast?_codeCells hscan.scans.wellMarked hlast
    have hmem : d ∈ v.line.cells := mem_of_mem_take (mem_of_getLast? hd)
    have hmark : d.mark = .code := hscan.scans.wellMarked.mark_dangling hmem (hmask ▸ hc)
    have hends : endsWithAny suppressingEnds v.context.core = true := by
      rw [hctx]
      exact endsWithAny_append_singleton (suppressingEnds_of_dangling c hc) front
    rw [h.keep_dangling hends (Line.not_blank_after_close hd hmark) hrule]
    exact ⟨fun _ hforgets => hrule hforgets.rule, fun _ => rfl⟩

end LineStep

/-- A line whose code ends in an operator is left as it is, unless it closes a closure and its operator
is forgotten there. -/
theorem normalize_dangling {t u : Chars} (h : normalize t = .ok u) :
    splitLines t = (stepsOf t).map (·.line.source) ∧
      List.Forall₂ (fun v out => v.EndsDangling → (out = v.line.source ↔ ¬v.ForgetsOperator))
        (stepsOf t) (splitLines u) := by
  refine normalize_sources h ?_
  intro v edit a b hscan houtcome hdangling
  exact LineStep.source_eq_iff_of_endsDangling hscan houtcome hdangling

def danglingClosures : Chars := "x = f \x7b\na\n\x7d ||\ng(\x7b\nb\n\x7d &\n1)\n".toList

def danglingClosuresEnded : Chars := "x = f \x7b\na;\n\x7d ||\ng(\x7b\nb;\n\x7d &\n1);\n".toList

/-- Operators behind closures that end on a line of their own, one of them inside a call. -/
theorem normalize_dangling_closures :
    normalize danglingClosures = .ok danglingClosuresEnded ∧
      (stepsOf danglingClosures).map
          (fun v => decide v.EndsDangling) = [false, false, true, false, false, true, false] ∧
      splitLines danglingClosures = (stepsOf danglingClosures).map (·.line.source) ∧
      List.Forall₂ (fun v out => v.EndsDangling → (out = v.line.source ↔ ¬v.ForgetsOperator))
        (stepsOf danglingClosures) (splitLines danglingClosuresEnded) := by
  have h : normalize danglingClosures = .ok danglingClosuresEnded :=
    normalize_eq_ok_of_toOption (by decide +kernel)
  exact ⟨h, by decide +kernel, normalize_dangling h⟩

/-- A line that closes a closure is ended behind `&`. -/
theorem operator_behind_closure_ended :
    normalize "x = f \x7b\na\n\x7d &\nb\n".toList = .ok "x = f \x7b\na;\n\x7d &;\nb;\n".toList ∧
      (stepsOf "x = f \x7b\na\n\x7d &\nb\n".toList).map (fun v => decide v.EndsDangling) =
        [false, false, true, false] ∧
      (splitLines "x = f \x7b\na\n\x7d &\nb\n".toList).zipWith (· == ·)
        (splitLines "x = f \x7b\na;\n\x7d &;\nb;\n".toList) = [true, false, false, false] := by
  refine ⟨?_, ?_, ?_⟩
  · exact normalize_eq_ok_of_toOption (by decide +kernel)
  · decide +kernel
  · decide +kernel

/-! ### Lines that finish a statement -/

theorem endsWithAny_mono {words more : List Chars} (h : ∀ w ∈ words, w ∈ more) {cs : Chars}
    (hmore : endsWithAny more cs = false) : endsWithAny words cs = false := by
  rw [endsWithAny, any_eq_false] at hmore ⊢
  exact fun w hw => hmore w (h w hw)

namespace LineRule

variable {ctx : Context} {s : Nesting} {rule : LineRule} {edit : Edit}

theorem goesOn_of_not_suppressed (hends : endsWithAny suppressingEnds ctx.core = false)
    (hparen : ctx.after ≠ some .paren) (hbracket : ctx.after ≠ some .bracket) : goesOn ctx = false := by
  have hdrop : dropTail (· == ';') ctx.core = ctx.core := by
    refine dropTail_of_last ?_
    intro c hc
    have hne := getLast?_ne_of_not_suppressed hends (c := ';') (by decide)
    rw [Option.mem_def.mp hc] at hne
    simpa using hne
  have hcontinues : endsWithAny continuationEnds ctx.core = false :=
    endsWithAny_mono (by decide) hends
  rw [goesOn, decide_eq_false_iff_not, hdrop, hcontinues]
  simp [hparen, hbracket]

theorem Outcome.terminate (h : Outcome ctx s rule edit) (htext : isBlank ctx.line.text = false)
    (hend : MayEnd ctx) (hparen : ctx.after ≠ some .paren) (hbracket : ctx.after ≠ some .bracket)
    (hchain : startsChain ctx.nextCore = false) (hat : ['@'].isPrefixOf ctx.core = false)
    (hopen : endsOpen ctx.core = false) (hheader : rule ≠ .controlHeader) : edit = .terminate := by
  obtain ⟨harrow, hends⟩ := Bool.or_eq_false_iff.mp hopen
  cases h with
  | blank h =>
    rw [htext] at h
    cases h
  | multilineStringBody h =>
    rw [Line.isStringBody, hend.no_string, Bool.and_false] at h
    cases h
  | commentOnly h => exact absurd h hend.has_code
  | parenContinuation h => exact absurd h.2 hparen
  | controlHeader => exact absurd rfl hheader
  | stringGoesOn h =>
    rcases h with h | h | h
    · rw [hchain] at h
      cases h
    · exact absurd h hparen
    · exact absurd h hbracket
  | stringEnds | chainExit | defaultInsert => rfl
  | multilineStringStart h =>
    rw [hend.no_string] at h
    cases h
  | chainContinuation h | chainEntry h =>
    rw [hchain] at h
    cases h
  | closureEntry h =>
    rw [harrow, Bool.false_or] at h
    exact absurd (opensBareClosure_getLast? h) (getLast?_ne_of_not_suppressed hends (by decide))
  | unbalancedLine h => exact absurd h hparen
  | enumerableEntry h =>
    obtain ⟨front, hfront⟩ := isSuffixOf_iff_suffix.mp h
    refine absurd ?_ (getLast?_ne_of_not_suppressed hends (c := '[') (by decide))
    rw [← hfront]
    simp
  | invalidTerminator _ _ _ hinvalid =>
    -- Neither the end nor the start of the code is in the way, so the line closes a closure.
    rw [endsInvalid, hends, hat, Bool.or_self, Bool.false_or] at hinvalid
    rw [invalidEdit, if_pos hinvalid, goesOn_of_not_suppressed hends hparen hbracket]
    rfl
  | enumerableContinuation h => exact absurd h hbracket

end LineRule

namespace LineStep

variable {v : LineStep} {edit : Edit} {a b : ScanState}

/-- Nothing asks for the statement of the line to go on, neither behind the line nor in its code, and
the line is no header. -/
@[mk_iff]
structure Finished (v : LineStep) : Prop where
  has_code : v.line.codeEnd ≠ 0
  no_string : v.line.endsInString = false
  no_paren : v.after.innermost ≠ some .paren
  no_bracket : v.after.innermost ≠ some .bracket
  no_chain : startsChain (nextCore v.rest) = false
  no_at_sign : ['@'].isPrefixOf v.line.core = false
  no_arrow : arrow.isSuffixOf v.line.core = false
  no_operator : endsWithAny suppressingEnds v.line.core = false
  no_header : v.settled.rule ≠ .controlHeader

instance : Decidable v.Finished := decidable_of_iff' _ (finished_iff v)

theorem Finished.ends (hfinished : v.Finished) (hscan : v.line.ScansFrom a b)
    (h : LineRule.Outcome v.context v.before v.settled.rule edit) :
    (v.line.edited edit).codeCells.getLast? = some ⟨';', .code⟩ ∧
      (v.line.edited edit).text = insertAt v.line.codeEnd v.line.text := by
  have htext := Line.not_blank_of_code hscan hfinished.no_string hfinished.has_code
  have hopen : LineRule.endsOpen v.line.core = false :=
    Bool.or_eq_false_iff.mpr ⟨hfinished.no_arrow, hfinished.no_operator⟩
  obtain rfl : edit = .terminate :=
    h.terminate htext ⟨hfinished.has_code, hfinished.no_string⟩ hfinished.no_paren
      hfinished.no_bracket hfinished.no_chain hfinished.no_at_sign hopen hfinished.no_header
  have hlast := getLast?_ne_of_not_suppressed hfinished.no_operator (c := ';') (by decide)
  have hchanged := Line.ended_ne_self hscan hfinished.no_string hfinished.has_code hlast
  have hput : v.line.edited .terminate = v.line.put v.line.codeEnd := (Line.ended_eq_put hchanged).1
  rw [hput, Line.text_put]
  refine ⟨?_, rfl⟩
  have hlen := v.line.length_codeCells
  rw [Line.codeCells_put v.line le_rfl, drop_eq_nil_of_le (by omega)]
  simp [semicolon]

end LineStep

/-- Every finished statement is ended: the last character of code on its line is a semicolon, put right
behind the code that was there. -/
theorem normalize_finished {t u : Chars} (h : normalize t = .ok u) :
    ∃ lines scan, scanLines t = .ok ((stepsOf t).map (·.line), scan) ∧ scanLines u = .ok (lines, scan) ∧
      List.Forall₂ (fun v l => v.Finished → l.codeCells.getLast? = some ⟨';', .code⟩ ∧
        l.text = insertAt v.line.codeEnd v.line.text) (stepsOf t) lines := by
  refine normalize_steps h ?_
  intro v edit a b hscan houtcome hfinished
  exact hfinished.ends hscan houtcome

def chainAndString : Chars := "f \x7b a ->\nb\n.c() // d\n\x7d + ''' e\n'''\n".toList

def chainAndStringEnded : Chars := "f \x7b a ->\nb\n.c(); // d\n\x7d + ''' e\n''';\n".toList

/-- The end of a chain inside a closure, and the end of a string behind it. -/
theorem normalize_finished_chain_and_string :
    normalize chainAndString = .ok chainAndStringEnded ∧
      (stepsOf chainAndString).map
          (fun v => decide v.Finished) = [false, false, true, false, true] ∧ ∃ lines scan,
        scanLines chainAndString = .ok ((stepsOf chainAndString).map (·.line), scan) ∧
        scanLines chainAndStringEnded = .ok (lines, scan) ∧
        List.Forall₂ (fun v l => v.Finished → l.codeCells.getLast? = some ⟨';', .code⟩ ∧
            l.text = insertAt v.line.codeEnd v.line.text)
          (stepsOf chainAndString) lines := by
  have h : normalize chainAndString = .ok chainAndStringEnded :=
    normalize_eq_ok_of_toOption (by decide +kernel)
  exact ⟨h, by decide +kernel, normalize_finished h⟩

end GroovySharp.Source
