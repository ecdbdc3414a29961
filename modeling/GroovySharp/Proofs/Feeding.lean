import GroovySharp.Grammar.Parser

/-!
# Taking a token

A token is taken after some productions have been put together on account of it.
-/

namespace GroovySharp.Grammar

open Text List

/-! ### Productions put together -/

variable {T : Table} {source : Chars} {stack stack' : List Frame}

theorem reduce?_eq_some_iff {index : Nat} : reduce? T source index stack = some stack' ↔
      ∃ (p : Production) (frames rest : List Frame) (state : Nat), productions[index]? = some p ∧
        stack = frames.reverse ++ rest ∧
        frames.map (·.symbol) = p.parts.map (·.symbol) ∧ T.goto? (topState rest) p.head = some state ∧
        stack' = ⟨state, .phrase p.head, p.assemble source (frames.map (·.piece))⟩ :: rest := by
  unfold reduce?
  cases hp : productions[index]? with
  | none => simp
  | some p =>
    simp only [Option.bind_eq_bind, Option.bind_some]
    constructor
    · intro h
      split at h
      · rename_i hsymbols
        obtain ⟨state, hstate, h⟩ := Option.bind_eq_some_iff.mp h
        refine ⟨p, _, stack.drop p.parts.length, state, rfl, ?_, hsymbols, hstate, ?_⟩
        · rw [reverse_reverse, take_append_drop]
        · exact (Option.some.inj h).symm
      · cases h
    · rintro ⟨p', frames, rest, state, hp', rfl, hsymbols, hstate, rfl⟩
      obtain rfl : p = p' := Option.some.inj hp'
      have hlen : frames.reverse.length = p.parts.length := by simpa using congrArg List.length hsymbols
      rw [← hlen, take_left, drop_left, reverse_reverse, if_pos hsymbols, hstate]
      rfl

/-- The stack after some productions put together on account of a terminal. -/
inductive Reduces (T : Table) (source : Chars) (t : Terminal) : List Frame → List Frame → Prop
  | refl {stack : List Frame} : Reduces T source t stack stack
  | step {stack next last : List Frame} {index : Nat}
    (ha : T.action? (topState stack) t = some (.reduce index))
    (hr : reduce? T source index stack = some next) (h : Reduces T source t next last) :
    Reduces T source t stack last

inductive Feeds (T : Table) (source : Chars) (token : Token) (stack : List Frame) :
    List Frame → Prop
  | mk {last : List Frame} {state : Nat} (hr : Reduces T source token.terminal stack last)
    (ha : T.action? (topState last) token.terminal = some (.shift state)) :
    Feeds T source token stack (⟨state, .terminal token.terminal, token.piece⟩ :: last)

section

variable {T : Table} {source : Chars} {t : Terminal} {token : Token}

variable {a b c : List Frame}

theorem Reduces.trans (hab : Reduces T source t a b) (hbc : Reduces T source t b c) : Reduces T source t a c := by
  induction hab with
  | refl => exact hbc
  | step ha hr _ ih => exact .step ha hr (ih hbc)

theorem Reduces.single {stack next : List Frame} {index : Nat}
    (ha : T.action? (topState stack) t = some (.reduce index))
    (hr : reduce? T source index stack = some next) : Reduces T source t stack next :=
  .step ha hr .refl

theorem Reduces.feeds (hab : Reduces T source token.terminal a b)
    (hbc : Feeds T source token b c) : Feeds T source token a c := by
  obtain ⟨hr, ha⟩ := hbc
  exact .mk (hab.trans hr) ha

theorem Feeds.after (hac : Feeds T source token a c)
    (hab : Reduces T source token.terminal a b) : Feeds T source token b c := by
  induction hab with
  | refl => exact hac
  | step ha hr _ ih =>
    obtain ⟨hchain, hshift⟩ := hac
    cases hchain with
    | refl =>
      rw [ha] at hshift
      cases hshift
    | step ha' hr' hchain =>
      obtain rfl := Action.reduce.inj (Option.some.inj (ha.symm.trans ha'))
      obtain rfl := Option.some.inj (hr.symm.trans hr')
      exact ih (.mk hchain hshift)

theorem feeds_of_feed? {fuel : Nat}
    (h : feed? T source token fuel stack = some stack') : Feeds T source token stack stack' := by
  induction fuel generalizing stack with
  | zero => cases h
  | succ fuel ih =>
    rw [feed?] at h
    cases ha : T.action? (topState stack) token.terminal with
    | none => simp [ha] at h
    | some action =>
      cases action with
      | shift state =>
        simp only [ha, Option.some.injEq] at h
        rw [← h]
        exact .mk .refl ha
      | reduce index =>
        simp only [ha] at h
        obtain ⟨next, hr, h⟩ := Option.bind_eq_some_iff.mp h
        exact (Reduces.single ha hr).feeds (ih h)

end

/-! ### The bound on productions -/

/-- How many productions with one part can follow each other above a phrase, at most. -/
def Nonterminal.rank : Nonterminal → Nat
  | literal | listLiteral | mapLiteral => 14
  | primary => 13
  | postfixed => 12
  | prefixed => 11
  | power => 10
  | multiplicative => 9
  | additive => 8
  | relational => 7
  | equality => 6
  | logicalAnd => 5
  | logicalOr => 4
  | conditional | localDeclaration | expressionStatement | ifStatement | whileStatement | classicFor
  | forIn | forEach | switchStatement | tryStatement | returnStatement | breakStatement
  | continueStatement | throwStatement | block | emptyStatement => 3
  | assignment | commandCall | closure | statement | importDirective | methodDeclaration => 2
  | expression | finalStatement | unitItems | statements | parameter | namedArgument | switchCase
  | catchClause => 1
  | _ => 0

def Symbol.rank : Symbol → Nat
  | terminal _ => 15
  | phrase n => n.rank

theorem Symbol.rank_le (s : Symbol) : s.rank ≤ 15 := by
  cases s with
  | terminal t => exact Nat.le_refl 15
  | phrase n => cases n <;> decide

def Production.risesFrom (p : Production) : Bool :=
  match p.parts with
  | [part] => decide (p.head.rank < part.symbol.rank)
  | _ => true

theorem rank_unit {p : Production} (hp : p ∈ productions) {part : Part} (h : p.parts = [part]) :
    p.head.rank < part.symbol.rank := by
  have hall : productions.all Production.risesFrom = true := by decide +kernel
  have hone := all_eq_true.mp hall p hp
  simpa [Production.risesFrom, h] using hone

def chainBound (stack : List Frame) : Nat :=
  match stack with
  | [] => 0
  | f :: rest => 16 * (rest.length + 1) + f.symbol.rank

theorem chainBound_cons (f : Frame) (rest : List Frame) :
    chainBound (f :: rest) = 16 * (rest.length + 1) + f.symbol.rank := rfl

theorem chainBound_ge (stack : List Frame) : 16 * stack.length ≤ chainBound stack := by
  cases stack with
  | nil => exact Nat.le_refl 0
  | cons f rest =>
    rw [chainBound_cons, length_cons]
    omega

theorem chainBound_le (stack : List Frame) : chainBound stack ≤ 16 * stack.length + 15 := by
  cases stack with
  | nil => exact Nat.zero_le _
  | cons f rest =>
    have := f.symbol.rank_le
    rw [chainBound_cons, length_cons]
    omega

theorem chainBound_reduce {index : Nat} {next : List Frame} {p : Production}
    (hp : productions[index]? = some p) (hparts : p.parts ≠ [])
    (hr : reduce? T source index stack = some next) : chainBound next < chainBound stack := by
  obtain ⟨p', frames, rest, state, hp', rfl, hsymbols, -, rfl⟩ := reduce?_eq_some_iff.mp hr
  obtain rfl : p = p' := Option.some.inj (hp.symm.trans hp')
  have hlen : frames.length = p.parts.length := by simpa using congrArg List.length hsymbols
  match hf : frames with
  | [] =>
    have hnil : p.parts = [] := length_eq_zero_iff.mp hlen.symm
    exact absurd hnil hparts
  | [f] =>
    obtain ⟨part, hpart⟩ := length_eq_one_iff.mp hlen.symm
    have hrank := rank_unit (mem_of_getElem? hp) hpart
    have hsymbol : f.symbol = part.symbol := by simpa [hpart] using hsymbols
    simp only [reverse_cons, reverse_nil, nil_append, cons_append, chainBound_cons, Symbol.rank, hsymbol] at hrank ⊢
    omega
  | f :: g :: more =>
    have hnext := (Symbol.phrase p.head).rank_le
    have hge := chainBound_ge ((f :: g :: more).reverse ++ rest)
    simp only [length_append, length_reverse, length_cons] at hge
    change 16 * (rest.length + 1) + (Symbol.phrase p.head).rank < _
    omega

def Table.TakesAfterEmpty (T : Table) : Prop :=
  ∀ (state index : Nat) (p : Production) (t : Terminal) (next : Nat),
    T.action? state t = some (.reduce index) → productions[index]? = some p → p.parts = [] →
      T.goto? state p.head = some next → ∃ final, T.action? next t = some (.shift final)

theorem Feeds.feed?_eq (hT : T.TakesAfterEmpty) {token : Token}
    (h : Feeds T source token stack stack') {fuel : Nat} (hfuel : chainBound stack + 3 ≤ fuel) :
    feed? T source token fuel stack = some stack' := by
  obtain ⟨hr, ha⟩ := h
  induction hr generalizing fuel with
  | refl =>
    obtain ⟨fuel, rfl⟩ : ∃ n, fuel = n + 1 := ⟨fuel - 1, by omega⟩
    rw [feed?, ha]
  | @step stack next last index hstep hred hchain ih =>
    obtain ⟨fuel, rfl⟩ : ∃ n, fuel = n + 1 := ⟨fuel - 1, by omega⟩
    rw [feed?, hstep]
    simp only [hred, Option.bind_some]
    obtain ⟨p, frames, rest, state, hp, rfl, hsymbols, hgoto, rfl⟩ := reduce?_eq_some_iff.mp hred
    by_cases hparts : p.parts = []
    · -- the chain ends here, for the token can be taken
      obtain rfl : frames = [] := by simpa [hparts] using hsymbols
      obtain ⟨final, hfinal⟩ := hT _ _ _ _ _ hstep hp hparts hgoto
      obtain ⟨fuel, rfl⟩ : ∃ n, fuel = n + 1 := ⟨fuel - 1, by omega⟩
      cases hchain with
      | refl => rw [feed?, ha]
      | step hagain _ _ =>
        rw [topState, hfinal] at hagain
        cases hagain
    · have hless := chainBound_reduce hp hparts hred
      refine ih ?_ ha
      omega

theorem feed?_eq_some_iff (hT : T.TakesAfterEmpty) {token : Token} :
    feed? T source token (feedFuel stack) stack = some stack' ↔ Feeds T source token stack stack' := by
  refine ⟨feeds_of_feed?, fun h => h.feed?_eq hT ?_⟩
  have hle := chainBound_le stack
  rw [feedFuel]
  omega

end GroovySharp.Grammar
