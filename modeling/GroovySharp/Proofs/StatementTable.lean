import GroovySharp.Proofs.AlikeStacks
import GroovySharp.Proofs.Lexeme

/-!
# Statements in the parse table of programs

Facts about the parse table that are checked row by row: where statements and lists of statements end,
and that a semicolon is read there as the end of a statement or as a statement of its own.
-/

namespace GroovySharp.Grammar

open Bool

open Option

/-! ### Levels of phrases -/

/-- Where a phrase stands: a list of statements or a whole program, a statement or a part of one that
can end it, the last expression of a block, or below. -/
inductive Level
  | list
  | statement
  | final
  | below
  deriving DecidableEq

def Nonterminal.level : Nonterminal → Level
  | compilationUnit | unitItems | statements | blockItems | switchCase | switchCases => .list
  | statement | localDeclaration | expressionStatement | block | ifStatement | whileStatement
  | classicFor | forIn | forEach | switchStatement | tryStatement | catchClause | catchClauses
  | finallyClause | returnStatement | breakStatement | continueStatement | throwStatement
  | emptyStatement | methodDeclaration | importDirective => .statement
  | finalStatement => .final
  | _ => .below

def Nonterminal.grows (n : Nonterminal) : Bool := n == .statements || n == .unitItems

def Production.lastSymbol? (p : Production) : Option Symbol := p.parts.getLast?.map (·.symbol)

/-- What the last symbol of a production says about the phrase that it makes. -/
def Production.endsAlike (p : Production) (number : Nat) : Bool :=
  match p.lastSymbol? with
  | some (.phrase n) =>
    (n.level != .statement || p.head.level == .statement || p.head.grows) &&
      (n.level != .below || p.head.level == .below || p.head.level == .final)
  | some (.terminal _) => p.head.level != .list || number == 69
  | none => true

variable {i q : Nat} {t : Terminal} {T : Table}

theorem endsAlike_of_getElem? {p : Production} (hp : productions[i]? = some p) : p.endsAlike i = true := by
  have hall : productions.zipIdx.all (fun (p, i) => p.endsAlike i) = true := by decide
  exact List.all_eq_true.mp hall (p, i) (List.mem_zipIdx_iff_getElem?.mpr hp)

section

variable {p : Production} (hp : p ∈ productions)

include hp

theorem grows_of_statement {n : Nonterminal} (hl : p.lastSymbol? = some (.phrase n))
    (hn : n.level = .statement) : p.head.level = .statement ∨ p.head.grows = true := by
  obtain ⟨i, hi⟩ := List.mem_iff_getElem?.mp hp
  have hone := endsAlike_of_getElem? hi
  simp only [Production.endsAlike, hl, hn, and_eq_true] at hone
  simpa using hone.1

theorem final_of_below {n : Nonterminal} (hl : p.lastSymbol? = some (.phrase n))
    (hn : n.level = .below) : p.head.level = .below ∨ p.head.level = .final := by
  obtain ⟨i, hi⟩ := List.mem_iff_getElem?.mp hp
  have hone := endsAlike_of_getElem? hi
  simp only [Production.endsAlike, hl, hn, and_eq_true] at hone
  simpa using hone.2

end

theorem case_of_terminal {p : Production} (hp : productions[i]? = some p)
    (ht : p.lastSymbol? = some (.terminal t)) (hl : p.head.level = .list) : i = 69 := by
  have hone := endsAlike_of_getElem? hp
  simpa [Production.endsAlike, ht, hl] using hone

/-! ### Rows -/

def Row.reduceOn? (r : Row) (t : Terminal) : Option Nat :=
  if t.mem r.shifts then none else (r.reduces.find? fun p => t.mem p.2).map (·.1)

theorem action?_eq_reduce_iff :
    T.action? q t = some (.reduce i) ↔ ∃ r, T.rows[q]? = some r ∧ r.reduceOn? t = some i := by
  unfold Table.action? Row.reduceOn?
  cases hr : T.rows[q]? with
  | none => simp
  | some r =>
    cases hs : t.mem r.shifts with
    | true => simp [hs]
    | false =>
      cases hf : r.reduces.find? fun p => t.mem p.2 with
      | none => simp [hs, hf]
      | some p =>
        simp only [bind_eq_bind, bind_some, hs, false_eq_true, if_false, hf,
          pure, Option.some.injEq, Action.reduce.injEq]
        constructor
        · rintro rfl
          exact ⟨r, rfl, by simp [hs, hf]⟩
        · rintro ⟨_, rfl, h⟩
          simpa [hs, hf] using h

theorem Row.mem_reduces {r : Row} (h : r.reduceOn? t = some i) : ∃ set, (i, set) ∈ r.reduces ∧ t.mem set = true := by
  unfold reduceOn? at h
  split at h
  · cases h
  · obtain ⟨p, hp, rfl⟩ := map_eq_some_iff.mp h
    exact ⟨p.2, List.mem_of_find?_eq_some hp, by simpa using List.find?_some hp⟩

theorem Row.mem_accepts (r : Row) (t : Terminal) :
    t.mem r.accepts = (t.mem r.shifts || r.reduces.any fun p => t.mem p.2) := by
  have hfold (l : List (Nat × Nat)) (set : Nat) :
      t.mem (l.foldl (fun set p => set ||| p.2) set) = (t.mem set || l.any fun p => t.mem p.2) := by
    induction l generalizing set with
    | nil => simp
    | cons p l ih =>
      rw [List.foldl_cons, ih, List.any_cons, ← Bool.or_assoc]
      simp only [Terminal.mem, Nat.testBit_or]
  exact hfold r.reduces r.shifts

theorem mem_accepts_of_action? (h : (T.action? q t).isSome) : t.mem (T.accepts q) = true := by
  unfold Table.action? at h
  unfold Table.accepts
  cases hr : T.rows[q]? with
  | none => simp [hr] at h
  | some r =>
    rw [map_some, getD_some, Row.mem_accepts]
    cases hs : t.mem r.shifts with
    | true => rfl
    | false =>
      cases hf : r.reduces.find? fun p => t.mem p.2 with
      | none => simp [hr, hs, hf] at h
      | some p =>
        rw [Bool.false_or, List.any_eq_true]
        have hp := List.find?_some hf
        exact ⟨p, List.mem_of_find?_eq_some hf, hp⟩

def Table.usual (T : Table) : Symbol → Nat
  | .terminal t => T.usualShift t
  | .phrase n => T.usualGoto n

theorem Table.Enters.eq_or_mem {b : Nat} {s : Symbol} (h : T.Enters b s q) :
    q = T.usual s ∨ ∃ r ∈ T.rows, (s, q) ∈ r.moves := by
  have hrow : ∃ r, T.rows[b]? = some r ∧ T.target r s = q := by
    cases s with
    | phrase n => exact map_eq_some_iff.mp h
    | terminal t =>
      simp only [Enters, action?] at h
      cases hr : T.rows[b]? with
      | none => simp [hr] at h
      | some r =>
        simp only [hr, bind_eq_bind, bind_some] at h
        split at h
        · simp only [pure, Option.some.injEq, Action.shift.injEq] at h
          exact ⟨r, rfl, h⟩
        · obtain ⟨p, -, hp⟩ := bind_eq_some_iff.mp h
          cases hp
  obtain ⟨r, hr, rfl⟩ := hrow
  unfold target
  cases hl : r.moves.lookup s with
  | none => exact .inl rfl
  | some q =>
    obtain ⟨a, b, hab, -⟩ := List.lookup_eq_some_iff.mp hl
    refine .inr ⟨r, List.mem_of_getElem? hr, ?_⟩
    simp [hab]

namespace ProgramTable

/-- A check of every production that a row puts together, with the number of the row and the terminals
on which this is done. -/
def checkReduces (P : Nat → Row → Nat → Nat → Bool) : Bool :=
  table.rows.zipIdx.all fun (r, q) => r.reduces.all fun (i, set) => P q r i set

variable {q i b : Nat} {t : Terminal} {p : Production} {s : Symbol}

theorem of_checkReduces {P : Nat → Row → Nat → Nat → Bool} (h : checkReduces P = true)
    (ha : table.action? q t = some (.reduce i)) :
    ∃ r set, table.rows[q]? = some r ∧ t.mem set = true ∧ P q r i set = true := by
  obtain ⟨r, hr, hi⟩ := action?_eq_reduce_iff.mp ha
  obtain ⟨set, hmem, hset⟩ := Row.mem_reduces hi
  have hrow := List.all_eq_true.mp h (r, q) (List.mem_zipIdx_iff_getElem?.mpr hr)
  exact ⟨r, set, hr, hset, List.all_eq_true.mp hrow (i, set) hmem⟩

def openStates : List Nat := [36, 80, 154, 233]

def onlyOn (t : Terminal) (set : Nat) : Bool := Terminal.all.all fun t' => !t'.mem set || t' == t

theorem eq_of_onlyOn {t' : Terminal} {set : Nat} (h : onlyOn t set = true) (ht : t'.mem set = true) : t' = t := by
  have hone := List.all_eq_true.mp h t' t'.mem_all
  simpa [ht] using hone

/-- A statement that ends before some token ends before a semicolon as well, and so does an expression
that ends before a closing brace. -/
def semicolonAlike (r : Row) (i set : Nat) (p : Production) : Bool :=
  !(p.head.level == .statement || p.head.grows || p.head.level == .below && Terminal.closeBrace.mem set) ||
    r.reduceOn? .semicolon == some i

def emptyAlike (q i set : Nat) (p : Production) : Bool :=
  !p.parts.isEmpty || (i == 1 && q == 0 && onlyOn .endOfInput set) ||
    (i == 38 && openStates.contains q && onlyOn .closeBrace set)

def finalAlike (q i set : Nat) (p : Production) : Bool :=
  p.head.level != .final || (q == 100 && i == 39 || q == 101 && i == 40) && onlyOn .closeBrace set

def caseAlike (q i set : Nat) : Bool :=
  i != 69 || q == 379 && Terminal.all.all fun t => !t.mem set ||
    table.action? 37 t == some (.reduce 82) && table.action? 23 t == some (.reduce 28) &&
      table.action? 99 t == some (.reduce 179) && table.action? 385 t == some (.reduce 68)

/-- Where an item ends with another token than a semicolon, all marks and classes of texts are accepted
that are accepted after an empty statement, and all keywords unless it ends only before keywords. -/
def acceptsAlike (r : Row) (set : Nat) (p : Production) : Bool :=
  match p.lastSymbol? with
  | some (.terminal s) =>
    s == .semicolon || !(p.head.level == .statement || p.head.level == .list) ||
      ((Terminal.classes ++ Terminal.marks).all fun k =>
        !k.mem (table.accepts 37) || k.mem r.accepts) &&
      ((Terminal.all.all fun t =>
        !t.mem set || t == .closeBrace || Terminal.keywords.contains t) ||
        Terminal.keywords.all fun k => !k.mem (table.accepts 37) || k.mem r.accepts)
  | _ => true

def reducesAlike (q : Nat) (r : Row) (i set : Nat) (p : Production) : Bool :=
  semicolonAlike r i set p && emptyAlike q i set p && finalAlike q i set p && caseAlike q i set &&
    acceptsAlike r set p

theorem reducesAlike_of_action? (ha : table.action? q t = some (.reduce i)) (hp : productions[i]? = some p) :
    ∃ r set, table.rows[q]? = some r ∧ t.mem set = true ∧ ((((semicolonAlike r i set p = true ∧
      emptyAlike q i set p = true) ∧ finalAlike q i set p = true) ∧ caseAlike q i set = true) ∧
      acceptsAlike r set p = true) := by
  have hrows : checkReduces (fun q r i set => productions[i]?.all (reducesAlike q r i set)) = true := by decide +kernel
  obtain ⟨r, set, hr, hset, hcheck⟩ := of_checkReduces hrows ha
  rw [hp, all_some] at hcheck
  simp only [reducesAlike, and_eq_true] at hcheck
  exact ⟨r, set, hr, hset, hcheck⟩

theorem semicolon_after_statement (ha : table.action? q t = some (.reduce i))
    (hp : productions[i]? = some p) (hl : p.head.level = .statement ∨ p.head.grows = true) :
    table.action? q .semicolon = some (.reduce i) := by
  obtain ⟨r, set, hr, -, ⟨⟨⟨hcheck, -⟩, -⟩, -⟩, -⟩ := reducesAlike_of_action? ha hp
  refine action?_eq_reduce_iff.mpr ⟨r, hr, ?_⟩
  rcases hl with hl | hl
  · simpa [semicolonAlike, hl] using hcheck
  · simpa [semicolonAlike, hl] using hcheck

theorem semicolon_after_expression (ha : table.action? q .closeBrace = some (.reduce i))
    (hp : productions[i]? = some p) (hl : p.head.level = .below) : table.action? q .semicolon = some (.reduce i) := by
  obtain ⟨r, set, hr, hset, ⟨⟨⟨hcheck, -⟩, -⟩, -⟩, -⟩ := reducesAlike_of_action? ha hp
  refine action?_eq_reduce_iff.mpr ⟨r, hr, ?_⟩
  simpa [semicolonAlike, hl, hset] using hcheck

/-! ### Empty productions -/

theorem empty_production (ha : table.action? q t = some (.reduce i)) (hp : productions[i]? = some p)
    (hparts : p.parts = []) : (i = 1 ∧ t = .endOfInput ∧ q = 0) ∨ (i = 38 ∧ t = .closeBrace ∧ q ∈ openStates) := by
  obtain ⟨r, set, -, hset, ⟨⟨⟨-, hcheck⟩, -⟩, -⟩, -⟩ := reducesAlike_of_action? ha hp
  simp only [emptyAlike, hparts, List.isEmpty_nil, Bool.not_true, Bool.false_or, or_eq_true,
    and_eq_true, beq_iff_eq, List.contains_iff_mem] at hcheck
  rcases hcheck with ⟨⟨hi, hq⟩, h⟩ | ⟨⟨hi, hq⟩, h⟩
  · exact .inl ⟨hi, eq_of_onlyOn h hset, hq⟩
  · exact .inr ⟨hi, eq_of_onlyOn h hset, hq⟩

theorem takesAfterEmpty : table.TakesAfterEmpty := by
  intro state i p t next ha hp hparts hg
  have hunit : (table.goto? 0 .compilationUnit).bind (fun n => table.action? n .endOfInput) = some (.shift 67) := rfl
  have hblock : ∀ q ∈ openStates, ∃ final ∈ [173, 235, 287, 320],
      (table.goto? q .blockItems).bind (fun n => table.action? n .closeBrace) = some (.shift final) := by decide
  rcases empty_production ha hp hparts with ⟨rfl, rfl, rfl⟩ | ⟨rfl, rfl, hq⟩
  · obtain rfl : p = ⟨.compilationUnit, [], some .compilationUnit⟩ := (Option.some.inj hp).symm
    simp only [hg, bind_some] at hunit
    exact ⟨67, hunit⟩
  · obtain rfl : p = ⟨.blockItems, [], none⟩ := (Option.some.inj hp).symm
    obtain ⟨final, -, hfinal⟩ := hblock state hq
    simp only [hg, bind_some] at hfinal
    exact ⟨final, hfinal⟩

/-! ### States entered with a symbol -/

def listStates : List Nat := [97, 377, 382, 385]

/-- What holds of every state that a symbol leads to. -/
def movesAlike (s : Symbol) (q : Nat) : Bool :=
  (q != 1 || s == .phrase .compilationUnit) && (s != .phrase .statements || listStates.contains q) &&
    (s != .phrase .unitItems || q == 2) &&
    match s with
    | .phrase _ => q != 0 && !openStates.contains q
    | .terminal t => t.isIgnored || q != 0

theorem movesAlike_of_enters (he : table.Enters b s q) : movesAlike s q = true := by
  have hmoves : (table.rows.all fun r => r.moves.all fun (s, q) => movesAlike s q) = true := by decide +kernel
  rcases he.eq_or_mem with rfl | ⟨r, hr, hm⟩
  · cases s with
    | phrase n => cases n <;> rfl
    | terminal t => cases t <;> rfl
  · exact List.all_eq_true.mp (List.all_eq_true.mp hmoves r hr) _ hm

theorem ne_zero_of_enters (he : table.Enters b s q) (hs : ∀ t, s = .terminal t → t.isIgnored = false) : q ≠ 0 := by
  rintro rfl
  have hmoves := (and_eq_true_iff.mp (movesAlike_of_enters he)).2
  cases s with
  | phrase n => cases hmoves
  | terminal t => simp [hs t rfl] at hmoves

theorem parts_ne_nil {n : Nonterminal} (hg : table.goto? b n = some q)
    (ha : table.action? q t = some (.reduce i)) (hp : productions[i]? = some p) : p.parts ≠ [] := by
  intro hparts
  have hmoves := (and_eq_true_iff.mp (movesAlike_of_enters (s := .phrase n) hg)).2
  rcases empty_production ha hp hparts with ⟨-, -, rfl⟩ | ⟨-, -, hopen⟩
  · cases hmoves
  · simp [hopen] at hmoves

/-- The end of the text is taken only after a whole program, and an assignment or a command stands as
the last of a block only where an item can start. -/
def placedAlike (r : Row) (q : Nat) : Bool :=
  (!Terminal.endOfInput.mem r.shifts || q == 1) &&
    (table.target r (.phrase .assignment) != 100 && table.target r (.phrase .commandCall) != 101 ||
      openStates.contains q || q == 97)

theorem placedAlike_of_getElem? {r : Row} (hr : table.rows[q]? = some r) : placedAlike r q = true := by
  have hrows : table.rows.zipIdx.all (fun (r, q) => placedAlike r q) = true := by decide +kernel
  exact List.all_eq_true.mp hrows (r, q) (List.mem_zipIdx_iff_getElem?.mpr hr)

theorem end_state {e : Nat} (ha : table.action? q .endOfInput = some (.shift e)) : q = 1 := by
  simp only [Table.action?] at ha
  cases hr : table.rows[q]? with
  | none => simp [hr] at ha
  | some r =>
    simp only [hr, bind_eq_bind, bind_some] at ha
    have hrow := (and_eq_true_iff.mp (placedAlike_of_getElem? hr)).1
    cases hs : Terminal.endOfInput.mem r.shifts with
    | true => simpa [hs] using hrow
    | false =>
      rw [hs, if_neg Bool.false_ne_true] at ha
      obtain ⟨p, -, hp⟩ := bind_eq_some_iff.mp ha
      cases hp

theorem entered_of_goto? (h : table.goto? b .assignment = some 100 ∨ table.goto? b .commandCall = some 101) :
    b ∈ openStates ∨ b = 97 := by
  rcases h with h | h
  · obtain ⟨r, hr, hq⟩ := map_eq_some_iff.mp h
    simpa [hq] using (and_eq_true_iff.mp (placedAlike_of_getElem? hr)).2
  · obtain ⟨r, hr, hq⟩ := map_eq_some_iff.mp h
    simpa [hq] using (and_eq_true_iff.mp (placedAlike_of_getElem? hr)).2

theorem unit_of_enters (he : table.Enters b s 1) : s = .phrase .compilationUnit := by
  have hmoves := movesAlike_of_enters he
  simp only [movesAlike, and_eq_true] at hmoves
  simpa using hmoves.1.1.1

/-! ### Lists of statements -/

theorem mem_listStates (hg : table.goto? b .statements = some q) : q ∈ listStates := by
  have hmoves := movesAlike_of_enters (s := .phrase .statements) hg
  simp only [movesAlike, and_eq_true] at hmoves
  simpa using hmoves.1.1.2

theorem goto_unitItems (hg : table.goto? b .unitItems = some q) : q = 2 := by
  have hmoves := movesAlike_of_enters (s := .phrase .unitItems) hg
  simp only [movesAlike, and_eq_true] at hmoves
  simpa using hmoves.1.2

/-- After a statement of a list, a semicolon is a statement of its own. -/
structure TakesEmpty (q : Nat) (n : Nonterminal) (s i : Nat) : Prop where
  semicolon : table.action? q .semicolon = some (.shift 37)
  empty : table.goto? q .emptyStatement = some 23
  statement : table.goto? q .statement = some s
  production : productions[i]? = some ⟨n, [rule n, rule .statement], none⟩
  actions : ∀ t ∈ Terminal.all, (table.action? q t).isSome → table.action? 37 t = some (.reduce 82) ∧
    table.action? 23 t = some (.reduce 28) ∧ table.action? s t = some (.reduce i)

theorem takesEmpty {n : Nonterminal} (hn : n.grows = true) (hg : table.goto? b n = some q) :
    ∃ s i, TakesEmpty q n s i := by
  have hcases : n = .statements ∨ n = .unitItems := by simpa [Nonterminal.grows] using hn
  rcases hcases with rfl | rfl
  · have hq := mem_listStates hg
    have hsemicolon : ∀ q ∈ listStates, table.action? q .semicolon = some (.shift 37) ∧
        table.goto? q .emptyStatement = some 23 ∧ table.goto? q .statement = some 175 := by
      decide
    have hactions : ∀ q ∈ listStates, ∀ t ∈ Terminal.all, (table.action? q t).isSome →
        table.action? 37 t = some (.reduce 82) ∧ table.action? 23 t = some (.reduce 28) ∧
          table.action? 175 t = some (.reduce 180) := by decide
    obtain ⟨h1, h2, h3⟩ := hsemicolon q hq
    exact ⟨175, 180, h1, h2, h3, rfl, hactions q hq⟩
  · obtain rfl := goto_unitItems hg
    have hactions : ∀ t ∈ Terminal.all, (table.action? 2 t).isSome →
        table.action? 37 t = some (.reduce 82) ∧ table.action? 23 t = some (.reduce 28) ∧
          table.action? 70 t = some (.reduce 174) := by decide
    exact ⟨70, 174, rfl, rfl, rfl, rfl, hactions⟩

theorem open_state (hq : q ∈ openStates) :
    table.action? q .semicolon = some (.shift 37) ∧ table.goto? q .emptyStatement = some 23 ∧
      table.goto? q .expressionStatement = some 10 ∧ table.goto? q .statement = some 99 ∧
      table.goto? q .statements = some 97 ∧ table.goto? q .finalStatement = some 98 := by
  have hall : ∀ q ∈ openStates, table.action? q .semicolon = some (.shift 37) ∧
      table.goto? q .emptyStatement = some 23 ∧ table.goto? q .expressionStatement = some 10 ∧
      table.goto? q .statement = some 99 ∧ table.goto? q .statements = some 97 ∧
      table.goto? q .finalStatement = some 98 := by decide
  exact hall q hq

theorem before_close : table.action? 37 .closeBrace = some (.reduce 82) ∧
    table.action? 23 .closeBrace = some (.reduce 28) ∧ table.action? 10 .closeBrace = some (.reduce 15) ∧
    table.action? 99 .closeBrace = some (.reduce 179) ∧ table.action? 175 .closeBrace = some (.reduce 180) ∧
    table.action? 97 .closeBrace = some (.reduce 36) ∧ table.action? 98 .closeBrace = some (.reduce 37) ∧
    table.action? 174 .closeBrace = some (.reduce 35) ∧
    table.goto? 97 .expressionStatement = some 10 ∧ table.goto? 97 .statement = some 175 ∧
    table.goto? 97 .finalStatement = some 174 :=
  ⟨rfl, rfl, rfl, rfl, rfl, rfl, rfl, rfl, rfl, rfl, rfl⟩

/-- A phrase that can be the last of a block, the state entered with it, the production that makes it
the last, the state entered with a semicolon after it, and the production that makes both a statement. -/
structure EndsBlock (n : Nonterminal) (q i e j : Nat) : Prop where
  final : productions[i]? = some ⟨.finalStatement, [rule n], some .expressionStatement⟩
  statement : productions[j]? = some ⟨.expressionStatement, [rule n, drop .semicolon], some .expressionStatement⟩
  semicolon : table.action? q .semicolon = some (.shift e)
  close : table.action? e .closeBrace = some (.reduce j)
  entered : ∀ b, table.goto? b n = some q → b ∈ openStates ∨ b = 97

theorem endsBlock_assignment : EndsBlock .assignment 100 39 82 32 :=
  ⟨rfl, rfl, rfl, rfl, fun _ h => entered_of_goto? (.inl h)⟩

theorem endsBlock_commandCall : EndsBlock .commandCall 101 40 83 33 :=
  ⟨rfl, rfl, rfl, rfl, fun _ h => entered_of_goto? (.inr h)⟩

theorem final_production (ha : table.action? q t = some (.reduce i)) (hp : productions[i]? = some p)
    (hf : p.head.level = .final) : t = .closeBrace ∧ ∃ n e j, EndsBlock n q i e j := by
  obtain ⟨r, set, -, hset, ⟨⟨-, hcheck⟩, -⟩, -⟩ := reducesAlike_of_action? ha hp
  simp only [finalAlike, hf, bne_self_eq_false, Bool.false_or, and_eq_true, or_eq_true, beq_iff_eq] at hcheck
  obtain ⟨hqi, hall⟩ := hcheck
  refine ⟨eq_of_onlyOn hall hset, ?_⟩
  rcases hqi with ⟨rfl, rfl⟩ | ⟨rfl, rfl⟩
  · exact ⟨_, _, _, endsBlock_assignment⟩
  · exact ⟨_, _, _, endsBlock_commandCall⟩

theorem case_production (ha : table.action? q t = some (.reduce 69)) :
    table.action? q .semicolon = some (.shift 37) ∧ table.goto? q .emptyStatement = some 23 ∧
      table.goto? q .statement = some 99 ∧ table.goto? q .statements = some 385 ∧
      table.action? 37 t = some (.reduce 82) ∧ table.action? 23 t = some (.reduce 28) ∧
      table.action? 99 t = some (.reduce 179) ∧ table.action? 385 t = some (.reduce 68) := by
  obtain ⟨r, set, -, hset, ⟨-, hcheck⟩, -⟩ := reducesAlike_of_action? ha rfl
  simp only [caseAlike, bne_self_eq_false, Bool.false_or, and_eq_true, beq_iff_eq] at hcheck
  obtain ⟨rfl, hall⟩ := hcheck
  have ht := List.all_eq_true.mp hall t t.mem_all
  simp only [hset, Bool.not_true, Bool.false_or, and_eq_true, beq_iff_eq] at ht
  obtain ⟨⟨⟨h5, h6⟩, h7⟩, h8⟩ := ht
  exact ⟨rfl, rfl, rfl, rfl, h5, h6, h7, h8⟩

/-- After an empty statement no mark and no class of texts is accepted that is not after an item that
ends without a semicolon. Only before a keyword other keywords can be. -/
theorem mem_accepts_of_empty {s : Terminal} (ha : table.action? q t = some (.reduce i))
    (hp : productions[i]? = some p) (hlast : p.lastSymbol? = some (.terminal s))
    (hs : s ≠ .semicolon) (hl : p.head.level = .statement ∨ p.head.level = .list) (ht : t ≠ .closeBrace) :
    (∀ k ∈ Terminal.classes ++ Terminal.marks, k.mem (table.accepts 37) = true → k.mem (table.accepts q) = true) ∧
      (t ∈ Terminal.keywords ∨ ∀ k ∈ Terminal.keywords, k.mem (table.accepts 37) = true →
        k.mem (table.accepts q) = true) := by
  obtain ⟨r, set, hr, hset, -, hcheck⟩ := reducesAlike_of_action? ha hp
  have haccepts : table.accepts q = r.accepts := by
    rw [Table.accepts, hr]
    rfl
  have hmem {l : List Terminal} (h : l.all (fun k => !k.mem (table.accepts 37) || k.mem r.accepts) = true) :
      ∀ k ∈ l, k.mem (table.accepts 37) = true → k.mem (table.accepts q) = true := by
    intro k hk hk37
    have hone := List.all_eq_true.mp h k hk
    rw [haccepts]
    simpa [hk37] using hone
  have hlevel : (p.head.level == .statement || p.head.level == .list) = true := by simpa using hl
  simp only [acceptsAlike, hlast, beq_eq_false_iff_ne.mpr hs, hlevel, Bool.not_true, Bool.false_or,
    and_eq_true, or_eq_true] at hcheck
  refine ⟨hmem hcheck.1, hcheck.2.imp (fun h => ?_) hmem⟩
  have hone := List.all_eq_true.mp h t t.mem_all
  simpa [hset, ht] using hone

theorem name_mem_accepts : Terminal.name.mem (table.accepts 37) = true := rfl

end ProgramTable

end GroovySharp.Grammar
