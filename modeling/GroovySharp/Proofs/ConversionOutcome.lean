import GroovySharp.Proofs.StatementConversion
import GroovySharp.Proofs.WrittenNames

/-!
# The outcome of the conversion

Every tree that a program is read into is converted as it should be: it is converted and has a text
exactly if none of its nodes offends, and the names and literals of the result are those of the tree, in
the same order.
-/

namespace GroovySharp.Conversion

open CSharp Grammar Text List

section

variable {options : Options} {long : Prop} {silent : Bool} {t : Tree}

theorem mem_subtrees_of_child {k : Kind} {children : List Tree} {span : Span} {text : Chars}
    {child n : Tree} (hc : child ∈ children) (hn : n ∈ child.subtrees) :
    n ∈ (Tree.node k children span text).subtrees := by
  rw [Tree.subtrees, Tree.allSubtrees_eq_flatMap]
  exact mem_cons_of_mem _ (mem_flatMap.mpr ⟨child, hc, hn⟩)

theorem self_mem_subtrees (t : Tree) : t ∈ t.subtrees := by
  cases t with
  | leaf l => exact mem_singleton.mpr rfl
  | node k children span text => exact mem_cons_self

/-- Each construct is converted as it should be, by induction on the tree. -/
theorem converts_of_formed (hf : Formed t)
    (hlong : ∀ l, .leaf l ∈ t.subtrees → l.kind = .terminal .integer → maxDigits < l.text.length → long) :
    Converts options long silent t := by
  induction hf with
  | leaf => trivial
  | @node k children span text pattern hp hf hform ih =>
    have hc : ∀ t ∈ children, Converts options long silent t := fun t ht =>
      ih t ht fun l hl => hlong l (mem_subtrees_of_child ht hl)
    have hone {q : List Item} (hq : k.patterns = [q]) : Fits q children := by
      rw [hq, mem_singleton] at hp
      exact hp ▸ hf
    have hby (h : ConvertsNode options long silent k) (hq : k.patterns = [k.pattern]) :=
      @h _ span text (hone hq) hform hc
    cases k with
    | compilationUnit => exact compilationUnit_converts (hone rfl) hc
    | importDirective => exact hby importDirective_converts rfl
    | qualifiedName | closureParameters =>
      refine tokens_convert (fun cs => rfl) (fun ls => ⟨⟨_, rfl⟩, rfl⟩) (fun _ => rfl) rfl ?_
      exact admits_of_fits (hone rfl) (by decide)
    | methodDeclaration => exact hby methodDeclaration_converts rfl
    | parameters => exact hby parameters_converts rfl
    | parameter => exact hby parameter_converts rfl
    | localDeclaration =>
      simp only [Kind.patterns, mem_cons, not_mem_nil, or_false] at hp
      rcases hp with rfl | rfl
      · exact localDeclaration_converts hf hform hc
      · exact bareDeclaration_converts hf
    | expressionStatement | throwStatement =>
      exact wrapping_converts (hone rfl) hc (fun cs => rfl)
        (fun e => ⟨⟨_, rfl⟩, by rw [Product.atoms, Stmt.atoms]⟩) (fun _ => rfl) rfl
    | commandCall => exact hby commandCall_converts rfl
    | block => exact hby block_converts rfl
    | ifStatement => exact hby ifStatement_converts rfl
    | whileStatement => exact hby whileStatement_converts rfl
    | classicFor => exact hby classicFor_converts rfl
    | forInit =>
      simp only [Kind.patterns, mem_cons, not_mem_nil, or_false] at hp
      rcases hp with rfl | rfl
      · exact forInit_converts hf hform hc
      · exact forInit_expression_converts hf hc
    | forCondition => exact hby forCondition_converts rfl
    | forUpdate => exact hby forUpdate_converts rfl
    | forIn => exact forEachStatement_converts (.inl rfl) (hone rfl) hc
    | forEach => exact forEachStatement_converts (.inr rfl) (hone rfl) hc
    | switchStatement =>
      simp only [Kind.patterns, mem_cons, not_mem_nil, or_false] at hp
      rcases hp with rfl | rfl
      · exact switchStatement_converts hf hform hc
      · exact defaultless_converts hf hc
    | switchCase => exact hby switchCase_converts rfl
    | tryStatement => exact hby tryStatement_converts rfl
    | catchClause => exact hby catchClause_converts rfl
    | finallyClause => exact hby finallyClause_converts rfl
    | returnStatement => exact hby returnStatement_converts rfl
    | breakStatement | continueStatement =>
      obtain rfl : children = [] := hone rfl
      exact bare_converts rfl ⟨_, rfl⟩ (by rw [Product.atoms, Stmt.atoms]) rfl
    | emptyStatement =>
      obtain rfl : children = [] := hone rfl
      exact bare_converts rfl rfl rfl rfl
    | assignmentExpression => exact hby assignmentExpression_converts rfl
    | ternaryExpression => exact hby ternaryExpression_converts rfl
    | binaryExpression => exact hby binaryExpression_converts rfl
    | unaryExpression => exact hby unaryExpression_converts rfl
    | postfixExpression => exact hby postfixExpression_converts rfl
    | memberAccess => exact hby memberAccess_converts rfl
    | methodCall => exact hby methodCall_converts rfl
    | indexExpression => exact hby indexExpression_converts rfl
    | callExpression => exact hby callExpression_converts rfl
    | objectCreation => exact hby objectCreation_converts rfl
    | creationType =>
      refine tokens_convert (g := fun ls => .name (typeName (dottedName ls))) (fun cs => rfl)
        (fun ls => ⟨⟨_, rfl⟩, rfl⟩) (fun _ => rfl) rfl ?_
      exact admits_of_fits (hone rfl) (by decide)
    | arguments => exact hby arguments_converts rfl
    | namedArgument => exact hby namedArgument_converts rfl
    | closure => exact hby closure_converts rfl
    | identifier => exact hby identifier_converts rfl
    | integerLiteral =>
      have hfits : Fits [.one (tokensOf [.integer])] children := hone rfl
      refine integerLiteral_converts hfits hform fun l hl => ?_
      have hkind : l.kind = .terminal .integer := by
        have hadmits := admits_of_fits (s := tokensOf [.integer]) hfits (by decide) (.leaf l) hl
        obtain ⟨l', heq, hl'⟩ := exists_token_of_single hadmits
        rwa [Tree.leaf.inj heq]
      exact hlong l (mem_subtrees_of_child hl (self_mem_subtrees _)) hkind
    | decimalLiteral => exact hby decimalLiteral_converts rfl
    | stringLiteral => exact hby stringLiteral_converts rfl
    | gstring => exact hby gstring_converts rfl
    | booleanLiteral => exact hby booleanLiteral_converts rfl
    | nullLiteral => exact hby nullLiteral_converts rfl
    | listLiteral => exact hby listLiteral_converts rfl
    | mapLiteral => exact mapLiteral_converts
    | mapEntry => exact fun hne => absurd rfl hne

/-! ### Whole programs -/

theorem atoms_node (k : Kind) (children : List Tree) (span : Span) (text : Chars) :
    (Tree.node k children span text).atoms = Tree.allAtoms children ∨
      ∃ l, (Tree.node k children span text).atoms = leadAtoms k l ++ Tree.allAtoms children := by
  cases children with
  | nil => exact .inl rfl
  | cons t ts =>
    cases t with
    | leaf l => exact .inr ⟨l, rfl⟩
    | node => exact .inl rfl

mutual

theorem native_atoms : ∀ t : Tree, Native t.atoms
  | .leaf _ => fun _ h => by cases h
  | .node k children span text => by
    have hchildren := native_allAtoms children
    rcases atoms_node k children span text with h | ⟨l, h⟩
    · rwa [h]
    · have hlead : Native (leadAtoms k l) := by
        intro category hmem
        cases k <;> simp [leadAtoms] at hmem
      rw [h, native_append]
      exact ⟨hlead, hchildren⟩

theorem native_allAtoms : ∀ ts : List Tree, Native (Tree.allAtoms ts)
  | [] => fun _ h => by cases h
  | t :: ts => by
    rw [Tree.allAtoms, native_append]
    exact ⟨native_atoms t, native_allAtoms ts⟩

end

theorem compilationUnit_of_read (options : Options) (long : Prop) (silent : Bool) {source : Chars}
    (h : Program.read source = .ok t)
    (hlong : ∀ l, .leaf l ∈ t.subtrees → l.kind = .terminal .integer → maxDigits < l.text.length → long) :
    ∃ children span text, t = .node .compilationUnit children span text ∧
      Fits [.many unitShape] children ∧ (∀ t ∈ children, Formed t) ∧
      Meets long silent (compilationUnit options (prepared options children)) (t.Passes silent)
        fun u => u.atoms = t.atoms := by
  obtain ⟨hformed, hunit⟩ := Program.read_formed h
  obtain ⟨k, children, span, text, rfl, hk⟩ := exists_node_of_admits hunit
  obtain rfl := mem_singleton.mp hk
  cases hformed with
  | node hp hf hc =>
    obtain rfl := mem_singleton.mp hp
    refine ⟨children, span, text, rfl, hf, hc, ?_⟩
    rw [prepared_eq_map]
    exact compilationUnit_meets hf fun t ht =>
      converts_of_formed (hc t ht) fun l hl => hlong l (mem_subtrees_of_child ht hl)

theorem convert_outcome (options : Options) (long : Prop) {source : Chars} (h : Program.read source = .ok t)
    (hlong : ∀ l, .leaf l ∈ t.subtrees → l.kind = .terminal .integer → maxDigits < l.text.length → long) :
    (t.Convertible ∧ ∃ unit warnings, convert options t = .ok (unit, warnings) ∧ unit.atoms = t.atoms) ∨
      (¬ t.Convertible ∧ ∃ f, convert options t = .error f ∧ f.Expected long) := by
  obtain ⟨children, span, text, rfl, -, -, hmeets⟩ := compilationUnit_of_read options long false h hlong
  rw [passes_false] at hmeets
  simp only [convert, if_true]
  cases hmeets with
  | gives h hx _ hu =>
    rw [hx]
    exact .inl ⟨h, _, _, rfl, hu⟩
  | fails h hx he =>
    rw [hx]
    exact .inr ⟨h, _, rfl, he⟩
  | noted _ hs => cases hs

/-- A program is converted to one that has a text exactly if no node of its tree offends; otherwise the
conversion names a missing part or a construct without counterpart. -/
theorem convert_renders_iff {source : Chars} (options : Options) (indent : Unicode.Points)
    (h : Program.read source = .ok t)
    (hdigits : ∀ l, .leaf l ∈ t.subtrees → l.kind = .terminal .integer → l.text.length ≤ maxDigits) :
    ((∃ unit warnings output, convert options t = .ok (unit, warnings) ∧ render indent unit = .ok output) ↔
      ∀ n ∈ t.subtrees, n.offends = false) ∧ ((∃ n ∈ t.subtrees, n.offends = true) → ∃ f, convert options t = .error f ∧
        ((∃ site kind role, f = .missing site kind role) ∨ ∃ site feature, f = .unsupported site feature)) := by
  have hconvertible : t.Convertible ↔ ∀ n ∈ t.subtrees, n.offends = false := by
    refine forall₂_congr fun n hn => and_iff_left ?_
    cases n with
    | node => rfl
    | leaf l =>
      by_cases hl : l.kind = .terminal .integer
      · have hle := hdigits l hn hl
        simp only [Tree.overlong, Bool.and_eq_false_iff, decide_eq_false_iff_not]
        exact .inr (by omega)
      · simp [Tree.overlong, hl]
  have houtcome := convert_outcome options False h fun l hl hk hlt =>
    absurd (hdigits l hl hk) (by omega)
  rcases houtcome with ⟨hgood, unit, warnings, hok, hatoms⟩ | ⟨hbad, f, herror, hexpected⟩
  · obtain ⟨output, hout⟩ := exists_render indent (u := unit) (hatoms ▸ native_atoms t)
    have hclean := hconvertible.mp hgood
    refine ⟨iff_of_true ⟨unit, warnings, output, hok, hout⟩ hclean, ?_⟩
    rintro ⟨n, hn, hoffends⟩
    rw [hclean n hn] at hoffends
    cases hoffends
  · refine ⟨iff_of_false ?_ (hconvertible.not.mp hbad), fun _ => ⟨f, herror, ?_⟩⟩
    · rintro ⟨unit, warnings, output, hok, -⟩
      rw [herror] at hok
      cases hok
    · cases f with
      | missing site kind role => exact .inl ⟨site, kind, role, rfl⟩
      | unsupported site feature => exact .inr ⟨site, feature, rfl⟩
      | mismatch | numeral | nameless => exact hexpected.elim

theorem convert_renders_loop_and_power :
    (∃ t, Program.read "for (int i = 0; i <= 9; i++) \x7b println(i); \x7d".toList = .ok t ∧
      (∀ l, .leaf l ∈ t.subtrees → l.kind = .terminal .integer → l.text.length ≤ maxDigits) ∧
      ∃ unit warnings output, convert {} t = .ok (unit, warnings) ∧ render fourSpaces unit = .ok output) ∧
    ∃ t, Program.read "y = [2 ** 3];".toList = .ok t ∧
      (∀ l, .leaf l ∈ t.subtrees → l.kind = .terminal .integer → l.text.length ≤ maxDigits) ∧
      (∃ n ∈ t.subtrees, n.offends = true) ∧ ∃ f, convert {} t = .error f := by
  have hdigits {t : Tree} (h : (t.subtrees.all fun n => !n.overlong) = true) :
      ∀ l, .leaf l ∈ t.subtrees → l.kind = .terminal .integer → l.text.length ≤ maxDigits := by
    intro l hl hk
    have hshort := all_eq_true.mp h _ hl
    simp only [Tree.overlong, hk, decide_true, Bool.true_and, Bool.not_eq_true', decide_eq_false_iff_not,
      Nat.not_lt] at hshort
    exact hshort
  constructor
  · obtain ⟨t, ht, hp⟩ := Source.exists_of_toOption_any
      (x := Program.read "for (int i = 0; i <= 9; i++) \x7b println(i); \x7d".toList)
      (p := fun t => (t.subtrees.all fun n => !n.overlong) && t.subtrees.all fun n => !n.offends)
      (by decide +kernel)
    obtain ⟨hshort, hclean⟩ := Bool.and_eq_true_iff.mp hp
    refine ⟨t, ht, hdigits hshort, (convert_renders_iff {} fourSpaces ht (hdigits hshort)).1.mpr ?_⟩
    intro n hn
    simpa using all_eq_true.mp hclean n hn
  · obtain ⟨t, ht, hp⟩ := Source.exists_of_toOption_any (x := Program.read "y = [2 ** 3];".toList)
      (p := fun t => (t.subtrees.all fun n => !n.overlong) && t.subtrees.any Tree.offends)
      (by decide +kernel)
    obtain ⟨hshort, hoffends⟩ := Bool.and_eq_true_iff.mp hp
    have hoffends := List.any_eq_true.mp hoffends
    obtain ⟨f, herror, -⟩ := (convert_renders_iff {} fourSpaces ht (hdigits hshort)).2 hoffends
    exact ⟨t, ht, hdigits hshort, hoffends, f, herror⟩

theorem gives_of_product {options : Options} {k : Kind} {children : List Tree} {span : Span} {text : Chars}
    {p : Product} {n : Notes} (hf : Formed (.node k children span text)) (hk : k ≠ .mapEntry)
    (h : product options (.node k children span text) = .ok (p, n)) :
    gives k p ∧ p.atoms = (Tree.node k children span text).atoms := by
  have hconverts : Converts options True false _ := converts_of_formed hf fun _ _ _ _ => trivial
  cases hconverts hk with
  | gives _ hx _ hp =>
    cases hx.symm.trans h
    exact hp
  | fails _ hx => cases hx.symm.trans h
  | noted _ hs => cases hs

/-- The conversion neither loses nor repeats nor moves a name or literal. -/
theorem convert_keeps_atoms {source : Chars} {options : Options} {unit : CompilationUnit}
    {warnings : List Warning} (h : Program.read source = .ok t)
    (hc : convert options t = .ok (unit, warnings)) : unit.atoms = t.atoms := by
  rcases convert_outcome options True h fun _ _ _ _ => trivial with ⟨-, u, w, hok, hatoms⟩ | ⟨-, f, herror, -⟩
  · rw [hok] at hc
    obtain ⟨rfl, rfl⟩ := Prod.mk.inj (Except.ok.inj hc)
    exact hatoms
  · rw [herror] at hc
    cases hc

theorem convert_keeps_atoms_switch : ∃ t unit warnings,
      Program.read "switch (x) \x7b case 1: case 2: println \"a$y\"; default: x += f(true) \x7b z \x7d; \x7d".toList =
        .ok t ∧ convert {} t = .ok (unit, warnings) ∧
      unit.atoms = [.name "x", .literal (.integer 1), .literal (.integer 2), .name "Console", .name "y",
        .name "x", .name "f", .literal .true, .name "z"] := by
  obtain ⟨t, ht, hp⟩ := Source.exists_of_toOption_any (x := Program.read
      "switch (x) \x7b case 1: case 2: println \"a$y\"; default: x += f(true) \x7b z \x7d; \x7d".toList)
    (p := fun t => (convert {} t).toOption.isSome && t.atoms == [.name "x", .literal (.integer 1),
      .literal (.integer 2), .name "Console", .name "y", .name "x", .name "f", .literal .true, .name "z"])
    (by decide +kernel)
  obtain ⟨hsome, hatoms⟩ := Bool.and_eq_true_iff.mp hp
  cases hc : convert {} t with
  | error f =>
    rw [hc] at hsome
    cases hsome
  | ok result =>
    have hkept := convert_keeps_atoms ht hc
    exact ⟨t, result.1, result.2, ht, hc, hkept.trans (beq_iff_eq.mp hatoms)⟩

end

end GroovySharp.Conversion
