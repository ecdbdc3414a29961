import GroovySharp.Proofs.AddedSemicolons
import GroovySharp.Proofs.ConversionOutcome
import GroovySharp.Proofs.Spans
import GroovySharp.Stage

/-!
# Failures are reported

A text either has a C# text or the stage that fails reports why, with one exception: in a string, a
dollar sign before a letter that no name starts with breaks the reading down.
-/

namespace GroovySharp.Program

open Grammar Text Text.Interpolated Unicode List
open Source (bind_eq_ok)

/-! ### The first fault -/

def fault? {α : Type} : Except Fault α → Option Fault
  | .error f => some f
  | .ok _ => none

variable {α : Type} {x : Leaf × Span}

theorem fault?_eq_some_iff {x : Except Fault α} {f : Fault} : fault? x = some f ↔ x = .error f := by
  cases x <;> simp [fault?]

theorem fault?_map {β : Type} (x : Except Fault α) (g : α → β) : fault? (do return g (← x)) = fault? x := by
  cases x <;> rfl

theorem fault?_pair {β γ : Type} (x : Except Fault α) (y : Except Fault β) (g : α → β → γ) : fault? (do
      let a ← x
      let b ← y
      return g a b) = (fault? x).or (fault? y) := by
  cases x <;> cases y <;> rfl

mutual

/-- The string literals with holes in a tree, from left to right, with the spans of their nodes. -/
def holed : Tree → List (Leaf × Span)
  | .leaf _ => []
  | .node kind children span _ =>
    match kind, children with
    | .stringLiteral, .leaf l :: rest =>
      if l.kind = .terminal .doubleString ∧ isInterpolated l.text = true then [(l, span)]
      else allHoled rest
    | _, children => allHoled children

def allHoled : List Tree → List (Leaf × Span)
  | [] => []
  | t :: ts => holed t ++ allHoled ts

end

theorem holed_literal (l : Leaf) (rest : List Tree) (span : Span) (text : Chars) :
    holed (.node .stringLiteral (.leaf l :: rest) span text) =
      if l.kind = .terminal .doubleString ∧ isInterpolated l.text = true then [(l, span)]
      else allHoled (.leaf l :: rest) := by
  rw [holed, allHoled, holed, nil_append]

theorem holed_of_not_literal {k : Kind} {children : List Tree} (span : Span) (text : Chars)
    (h : ∀ l rest, k = .stringLiteral → children ≠ .leaf l :: rest) :
    holed (.node k children span text) = allHoled children := by
  rw [holed]
  exact h

def literalFault? (x : Leaf × Span) : Option Fault := fault? (readInterpolated x.1.text x.1.span x.2)

mutual

theorem fault?_expand : ∀ t : Tree, fault? (expand t) = (holed t).findSome? literalFault?
  | .leaf l => rfl
  | .node k children span text => by
    have hall := fault?_expandAll children
    by_cases hk : ∃ l rest, k = .stringLiteral ∧ children = .leaf l :: rest
    · obtain ⟨l, rest, rfl, rfl⟩ := hk
      rw [expand_literal, holed_literal]
      split
      · simp [literalFault?]
      · rw [fault?_map, hall]
    · have hnot : ∀ l rest, k = .stringLiteral → children ≠ .leaf l :: rest :=
        fun l rest hkind hchildren => hk ⟨l, rest, hkind, hchildren⟩
      rw [expand_of_not_literal span text hnot, holed_of_not_literal span text hnot, fault?_map, hall]

theorem fault?_expandAll : ∀ ts : List Tree, fault? (expandAll ts) = (allHoled ts).findSome? literalFault?
  | [] => rfl
  | t :: ts => by rw [expandAll, allHoled, findSome?_append, ← fault?_expand t, ← fault?_expandAll ts, fault?_pair]

end

/-! ### Literals -/

def tailFault? (raw : Chars) (line : Nat) : Tail → Option Fault
  | .text _ => none
  | .openHole => some (.openHole raw line)
  | .emptyHole => some (.emptyHole raw line)
  | .badName => some .badHoleName

def IsExpression (source : Chars) : Prop := ∃ piece, parse ExpressionTable.table source = .ok piece

theorem fault?_readHole (origin : Position) (source : Chars) :
    (fault? (readHole origin source) = none ↔ IsExpression source) ∧
      fault? (readHole origin source) ≠ some .badHoleName := by
  unfold readHole IsExpression
  cases parse ExpressionTable.table source <;> simp [fault?]

theorem fault?_readHoles (base : Position) (span : Span) (kind : LeafKind) (holes : List Hole) :
    (fault? (readHoles base span kind holes) = none ↔ ∀ hole ∈ holes, IsExpression hole.source) ∧
      fault? (readHoles base span kind holes) ≠ some .badHoleName := by
  induction holes generalizing kind with
  | nil => exact ⟨iff_of_true rfl nofun, nofun⟩
  | cons hole holes ih =>
    rw [readHoles]
    obtain ⟨hnone, hbad⟩ := fault?_readHole
      ⟨base.offset + hole.offset, base.line, base.column + hole.offset⟩ hole.source
    obtain ⟨hnones, hbads⟩ := ih .gstringPart
    rw [fault?_pair, Option.or_eq_none_iff, hnone, hnones, forall_mem_cons]
    refine ⟨Iff.rfl, ?_⟩
    rw [Ne, Option.or_eq_some_iff]
    rintro (h | ⟨-, h⟩)
    · exact hbad h
    · exact hbads h

theorem fault?_readInterpolated (raw : Chars) (token span : Span) : fault? (readInterpolated raw token span) =
      (fault? (readHoles token.start span .gstringBegin (split raw).1)).or
        (tailFault? raw span.start.line (split raw).2) := by
  unfold readInterpolated
  cases split raw with
  | mk holes tail =>
    cases hx : readHoles token.start span .gstringBegin holes <;> cases tail <;> simp only [hx] <;> rfl

theorem literalFault?_eq_badHoleName_iff : literalFault? x = some .badHoleName ↔
      (∀ hole ∈ (split x.1.text).1, IsExpression hole.source) ∧ (split x.1.text).2 = .badName := by
  obtain ⟨hnone, hbad⟩ := fault?_readHoles x.1.span.start x.2 .gstringBegin (split x.1.text).1
  have htail : tailFault? x.1.text x.2.start.line (split x.1.text).2 = some .badHoleName ↔
      (split x.1.text).2 = .badName := by
    cases (split x.1.text).2 <;> simp [tailFault?]
  rw [literalFault?, fault?_readInterpolated, Option.or_eq_some_iff, hnone, htail]
  exact or_iff_right hbad

/-! ### Letters that no name starts with -/

def isForeignLetter (c : Char) : Bool := isLetter c && !isNameStart c

def hasForeignHole : Chars → Bool
  | [] => false
  | c :: cs => c == '$' && cs.head?.any isForeignLetter || hasForeignHole cs

theorem hasForeignHole_append {a b : Chars} (h : hasForeignHole b = true) : hasForeignHole (a ++ b) = true := by
  induction a with
  | nil => exact h
  | cons c a ih => simp [hasForeignHole, ih]

theorem hasForeignHole_infix {a b c : Chars} (h : hasForeignHole b = true) :
    hasForeignHole (a ++ b ++ c) = true := by
  rw [List.append_assoc]
  refine hasForeignHole_append ?_
  induction b with
  | nil => cases h
  | cons x b ih =>
    simp only [hasForeignHole, Bool.or_eq_true, Bool.and_eq_true, beq_iff_eq, cons_append] at h ⊢
    rcases h with ⟨rfl, h⟩ | h
    · cases b with
      | nil => cases h
      | cons y b => exact .inl ⟨rfl, h⟩
    · exact .inr (ih h)

theorem dottedLength_pos {c : Char} (h : isNameStart c = true) (fuel : Nat) (cs : Chars) :
    dottedLength (fuel + 1) (c :: cs) ≠ 0 := by
  have hname : nameLength? (c :: cs) = some (1 + (cs.takeWhile isNameChar).length) := by rw [nameLength?, if_pos h]
  unfold dottedLength
  simp only [hname]
  split
  · split <;> omega
  · omega

theorem hasForeignHole_of_badName {fuel offset : Nat} {text cs : Chars}
    (h : (splitFrom fuel offset text cs).2 = .badName) : hasForeignHole cs = true := by
  fun_induction splitFrom fuel offset text cs with
  | case1 | case2 | case4 | case5 | case6 => cases h
  | case3 fuel offset text d rest ih => exact hasForeignHole_append (a := ['\\', d]) (ih h)
  | case7 fuel offset text c _ inner source close rest hrest _ holes tail hsplit _ =>
    rename_i ih
    have hinner : inner = source ++ close :: rest := by rw [← hrest, drop_takeWhile, takeWhile_append_dropWhile]
    rw [hsplit] at ih
    simpa [hinner] using hasForeignHole_append (a := c :: '\x7b' :: source ++ [close]) (ih h)
  | case8 fuel offset text c cs _ hc hname hbrace =>
    obtain ⟨rfl, hopens⟩ := hc
    cases cs with
    | nil => cases hopens
    | cons d cs =>
      have hstart : isNameStart d = false := by
        by_contra hd
        exact dottedLength_pos (by simpa using hd) cs.length cs hname
      have hletter : isLetter d = true := by
        have hd : d ≠ '\x7b' := fun hd => hbrace cs (hd ▸ rfl)
        have hunderscore : d ≠ '_' := by
          rintro rfl
          cases hstart
        simpa [opensHole, hd, hunderscore] using hopens
      simp [hasForeignHole, isForeignLetter, hletter, hstart]
  | case9 fuel offset text c cs _ _ holes tail _ hname hsplit ih =>
    generalize dottedLength cs.length cs = n at *
    obtain ⟨n, rfl⟩ := Nat.exists_eq_succ_of_ne_zero hname
    have hrest := hasForeignHole_append (a := c :: cs.take n.succ) (ih h)
    rwa [cons_append, take_append_drop] at hrest
  | case10 fuel offset text c cs _ _ ih => exact hasForeignHole_append (a := [c]) (ih h)

theorem head?_of_pads {r r' : Chars} (h : Source.Pads r r') : r'.head? = r.head? := by
  cases h <;> rfl

theorem hasForeignHole_of_pads {r r' : Chars} (h : Source.Pads r r')
    (hr : hasForeignHole r' = true) : hasForeignHole r = true := by
  induction h with
  | nil => cases hr
  | keep h ih =>
    rw [hasForeignHole, head?_of_pads h] at hr
    rw [hasForeignHole]
    rcases Bool.or_eq_true_iff.mp hr with hr | hr
    · simp only [hr, Bool.true_or]
    · simp only [ih hr, Bool.or_true]
  | put _ h ih =>
    have hsemicolon : isForeignLetter ';' = false := by decide
    simp only [hasForeignHole, head?_cons, Option.any_some, hsemicolon, Bool.and_false,
      Bool.false_or, Bool.or_eq_true, Bool.and_eq_true, beq_iff_eq] at hr
    rcases hr with ⟨hne, -⟩ | hr
    · cases hne
    · rw [hasForeignHole, ih hr, Bool.or_true]

theorem mem_allHoled {ts : List Tree} (h : x ∈ allHoled ts) : ∃ t ∈ ts, x ∈ holed t := by
  induction ts with
  | nil => cases h
  | cons t ts ih =>
    rcases mem_append.mp h with h | h
    · exact ⟨t, mem_cons_self, h⟩
    · obtain ⟨u, hu, hx⟩ := ih h
      exact ⟨u, mem_cons_of_mem _ hu, hx⟩

theorem holed_infix {s : Chars} {t : Tree} (h : Located s t) (hx : x ∈ holed t) :
    ∃ a b, s = a ++ x.1.text ++ b := by
  induction h with
  | piece | leaf => cases hx
  | @node k children span text _ _ hc ih =>
    have hchildren (hx : x ∈ allHoled children) : ∃ a b, s = a ++ x.1.text ++ b := by
      obtain ⟨t, ht, hx⟩ := mem_allHoled hx
      exact ih t ht hx
    by_cases hk : ∃ l rest, k = .stringLiteral ∧ children = .leaf l :: rest
    · obtain ⟨l, rest, rfl, rfl⟩ := hk
      rw [holed_literal] at hx
      split at hx
      · next hl =>
        obtain rfl := mem_singleton.mp hx
        cases hc (.leaf l) mem_cons_self with
        | piece hpiece =>
          rw [hl.1] at hpiece
          cases hpiece
        | leaf hloc => exact ⟨_, _, hloc.split⟩
      · exact hchildren hx
    · refine hchildren (holed_of_not_literal span text ?_ ▸ hx)
      intro l rest hkind hchildren
      exact hk ⟨l, rest, hkind, hchildren⟩

/-! ### Programs -/

/-- The text is a program but for the holes of its strings, and reading these from left to right comes
to a hole that starts with a letter no name starts with. -/
def StopsAtName (source : Chars) : Prop :=
  ∃ piece before x after, parse ProgramTable.table source = .ok piece ∧
    holed (theTree piece) = before ++ x :: after ∧ (∀ y ∈ before, literalFault? y = none) ∧
    (∀ hole ∈ (split x.1.text).1, IsExpression hole.source) ∧ (split x.1.text).2 = .badName

theorem read_eq_badHoleName_iff {source : Chars} : read source = .error .badHoleName ↔ StopsAtName source := by
  rw [read, StopsAtName]
  cases parse ProgramTable.table source with
  | error stop => simp
  | ok piece =>
    simp only [← fault?_eq_some_iff, fault?_expand, findSome?_eq_some_iff,
      literalFault?_eq_badHoleName_iff, Except.ok.injEq]
    constructor
    · rintro ⟨before, x, after, hholed, hx, hbefore⟩
      exact ⟨piece, before, x, after, rfl, hholed, hbefore, hx⟩
    · rintro ⟨_, before, x, after, rfl, hholed, hbefore, hx⟩
      exact ⟨before, x, after, hholed, hx, hbefore⟩

theorem hasForeignHole_of_stops {source : Chars} (h : StopsAtName source) : hasForeignHole source = true := by
  obtain ⟨piece, before, x, after, hparse, hholed, -, -, hbad⟩ := h
  have hx : x ∈ holed (theTree piece) := by simp [hholed]
  have hinside : hasForeignHole x.1.text = true := by
    obtain ⟨b, hb⟩ := dropLast_prefix x.1.text.tail
    obtain ⟨a, ha⟩ := tail_suffix x.1.text
    rw [← ha, ← hb, ← List.append_assoc]
    exact hasForeignHole_infix (hasForeignHole_of_badName hbad)
  rcases parse_unit hparse with hempty | ⟨-, -, hlocated⟩
  · rw [hempty] at hx
    cases hx
  · obtain ⟨a, b, rfl⟩ := holed_infix hlocated hx
    exact hasForeignHole_infix hinside

theorem reported_iff {f : Fault} : (∃ r, f.complaint = .reported r) ↔ f ≠ .badHoleName := by
  cases f <;> simp [Fault.complaint]

end GroovySharp.Program

namespace GroovySharp

open Grammar Text Program

def ReadOrReported (source : Chars) : Prop :=
  (∃ tree, Program.read source = .ok tree ∧ Formed tree ∧ (kindsOf [.compilationUnit]).admits tree = true) ∨
    ∃ f r, Program.read source = .error f ∧ f.complaint = .reported r

theorem readOrReported_iff {source : Chars} : ReadOrReported source ↔ ¬ StopsAtName source := by
  rw [← read_eq_badHoleName_iff, ReadOrReported]
  cases hread : Program.read source with
  | ok tree =>
    obtain ⟨hformed, hunit⟩ := read_formed hread
    exact iff_of_true (.inl ⟨tree, rfl, hformed, hunit⟩) nofun
  | error f => simp [reported_iff]

def CompiledOrReported (options : Conversion.Options) (source : Chars) : Prop :=
  (∃ result, compile options source = .ok result) ∨
    ∃ f r, compile options source = .error f ∧ f.complaint = .reported r

section

variable {options : Conversion.Options} {t u : Chars}

theorem compile_of_fault (h : Source.normalize t = .ok u) {f : Program.Fault}
    (hread : Program.read u = .error f) : compile options t = .error (.unreadable f) := by
  rw [compile, model, h]
  change (((Program.read u).mapError Failure.unreadable >>= _) >>= _) = _
  rw [hread]
  rfl

variable {tree : Tree} (h : Source.normalize t = .ok u) (hread : Program.read u = .ok tree)

include h hread

theorem model_of_read : model options t = (Conversion.convert options tree).mapError Failure.unconvertible := by
  rw [model, h]
  change ((Program.read u).mapError Failure.unreadable >>= _) = _
  rw [hread]
  rfl

theorem compile_of_convert (hok : Conversion.convert options tree = .ok (unit, warnings))
    (hout : CSharp.render CSharp.fourSpaces unit = .ok output) : compile options t = .ok (output, warnings) := by
  rw [compile, model_of_read h hread, hok]
  change ((CSharp.render CSharp.fourSpaces unit).mapError Failure.unwritable >>= _) = _
  rw [hout]
  rfl

theorem compile_of_refusal (herror : Conversion.convert options tree = .error f) :
    compile options t = .error (.unconvertible f) := by
  rw [compile, model_of_read h hread, herror]
  rfl

theorem compile_of_read
    (hdigits : ∀ l, .leaf l ∈ tree.subtrees → l.kind = .terminal .integer → l.text.length ≤ maxDigits) :
    CompiledOrReported options t := by
  rcases Conversion.convert_outcome options False hread fun l hl hk hlt =>
      absurd (hdigits l hl hk) (by omega) with
    ⟨-, unit, warnings, hok, hatoms⟩ | ⟨-, f, herror, hexpected⟩
  · obtain ⟨output, hout⟩ := CSharp.exists_render CSharp.fourSpaces (u := unit)
      (hatoms ▸ Conversion.native_atoms tree)
    exact .inl ⟨(output, warnings), compile_of_convert h hread hok hout⟩
  · have hcompile : compile options t = .error (.unconvertible f) := compile_of_refusal h hread herror
    cases f with
    | missing site kind role | unsupported site feature => exact .inr ⟨_, _, hcompile, rfl⟩
    | mismatch | numeral | nameless => exact hexpected.elim

end

/-- Of texts without overlong numbers, exactly those are neither converted nor reported on whose reading
comes to a hole that starts with a letter no name starts with. Such a text has a dollar sign right
before such a letter. -/
theorem compiledOrReported_iff (options : Conversion.Options) (t : Chars)
    (hdigits : ∀ u tree, Source.normalize t = .ok u → Program.read u = .ok tree →
      ∀ l, .leaf l ∈ tree.subtrees → l.kind = .terminal .integer → l.text.length ≤ maxDigits) :
    (CompiledOrReported options t ↔ ∀ u, Source.normalize t = .ok u → ¬ StopsAtName u) ∧
      (∀ u, Source.normalize t = .ok u → StopsAtName u → hasForeignHole t = true) ∧
      ∀ s, (ReadOrReported s ↔ ¬ StopsAtName s) ∧ (StopsAtName s → hasForeignHole s = true) := by
  refine ⟨?_, ?_, fun s => ⟨readOrReported_iff, hasForeignHole_of_stops⟩⟩
  · cases hnormal : Source.normalize t with
    | error fault =>
      have hcompile : compile options t = .error (.unbalanced fault) := by
        rw [compile, model, hnormal]
        rfl
      exact iff_of_true (.inr ⟨_, _, hcompile, rfl⟩) nofun
    | ok u =>
      simp only [Except.ok.injEq, forall_eq', ← read_eq_badHoleName_iff]
      cases hread : Program.read u with
      | ok tree => exact iff_of_true (compile_of_read hnormal hread (hdigits u tree hnormal hread)) nofun
      | error f =>
        have hcompile : compile options t = .error (.unreadable f) := compile_of_fault hnormal hread
        constructor
        · rintro (⟨result, hok⟩ | ⟨g, r, herror, hr⟩)
          · rw [hcompile] at hok
            cases hok
          · rw [hcompile] at herror
            cases herror
            exact fun hbad => reported_iff.mp ⟨r, hr⟩ (Except.error.inj hbad)
        · intro hbad
          obtain ⟨r, hr⟩ := reported_iff.mpr fun hf => hbad (congrArg Except.error hf)
          exact .inr ⟨_, r, hcompile, hr⟩
  · intro u hnormal hstops
    exact hasForeignHole_of_pads (Source.pads_of_normalize hnormal) (hasForeignHole_of_stops hstops)

def foreignLetters : Chars := "x = \"é $y.z é\" + '$é' + 12\n".toList

/-- Foreign letters in a string with holes, and one behind a dollar sign in a string without. -/
theorem compiledOrReported_foreign_letters :
    (∀ u tree, Source.normalize foreignLetters = .ok u →
      Program.read u = .ok tree → ∀ l, .leaf l ∈ tree.subtrees → l.kind = .terminal .integer →
        l.text.length ≤ maxDigits) ∧
      CompiledOrReported {} foreignLetters := by
  have hnormal : Source.normalize foreignLetters =
      .ok "x = \"é $y.z é\" + '$é' + 12;\n".toList :=
    Source.normalize_eq_ok_of_toOption (by decide +kernel)
  have hread : (Program.read "x = \"é $y.z é\" + '$é' + 12;\n".toList).toOption.all
      (fun tree => tree.subtrees.all fun n => !n.overlong) = true := by decide +kernel
  have hdigits : ∀ u tree, Source.normalize foreignLetters = .ok u →
      Program.read u = .ok tree → ∀ l, .leaf l ∈ tree.subtrees → l.kind = .terminal .integer →
        l.text.length ≤ maxDigits := by
    intro u tree hu htree l hl hk
    rw [hnormal] at hu
    cases hu
    have hshort := List.all_eq_true.mp (Source.forall_of_toOption_all hread tree htree) _ hl
    simpa [Tree.overlong, hk] using hshort
  refine ⟨hdigits, (compiledOrReported_iff {} _ hdigits).1.mpr ?_⟩
  intro u hu
  rw [hnormal] at hu
  cases hu
  rw [← read_eq_badHoleName_iff, ← fault?_eq_some_iff]
  decide +kernel

/-- The letter is one of those that start a hole, and no name is found at it. -/
theorem foreign_letter_breaks_down :
    ¬ CompiledOrReported {} "x = \"$é\"\n".toList ∧ ¬ ReadOrReported "x = \"$é\";\n".toList := by
  have hnormal : Source.normalize "x = \"$é\"\n".toList = .ok "x = \"$é\";\n".toList :=
    Source.normalize_eq_ok_of_toOption (by decide +kernel)
  have hread : Program.read "x = \"$é\";\n".toList = .error .badHoleName :=
    fault?_eq_some_iff.mp (by decide +kernel)
  refine ⟨?_, fun h => readOrReported_iff.mp h (read_eq_badHoleName_iff.mp hread)⟩
  rintro (⟨result, hok⟩ | ⟨f, r, herror, hr⟩)
  · rw [compile_of_fault hnormal hread] at hok
    cases hok
  · rw [compile_of_fault hnormal hread] at herror
    cases herror
    cases hr

end GroovySharp
