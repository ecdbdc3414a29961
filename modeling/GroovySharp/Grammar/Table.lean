import GroovySharp.Grammar.Production

/-!
# Parse tables

A parse table tells a shift-reduce parser what to do in each state. Sets of terminals are numbers in
which bit `i` stands for the terminal of index `i`. Most moves of a symbol lead to one and the same
state; a row lists those that lead elsewhere.
-/

namespace GroovySharp.Grammar

inductive Action
  | shift (state : Nat)
  | reduce (production : Nat)
  deriving Repr, DecidableEq

structure Row where
  shifts : Nat
  /-- The productions put together, each with the terminals on which this is done. -/
  reduces : List (Nat × Nat)
  /-- The moves that do not lead to the usual state of their symbol. -/
  moves : List (Symbol × Nat)
  deriving Repr, DecidableEq

/-- A state in which one production is put together, on the terminals of the set. -/
def Row.reducing (production set : Nat) : Row := ⟨0, [(production, set)], []⟩

def upon (t : Terminal) (state : Nat) : Symbol × Nat := (.terminal t, state)

def past (n : Nonterminal) (state : Nat) : Symbol × Nat := (.phrase n, state)

/-- A state in which only one terminal is shifted. -/
def Row.expecting (t : Terminal) (state : Nat) : Row := ⟨1 <<< t.index, [], [upon t state]⟩

def Row.accepts (r : Row) : Nat := r.reduces.foldl (fun set p => set ||| p.2) r.shifts

/-! ### Frequent sets of terminals

What a statement starts with, and a value with or without closures; what stands behind a statement and
behind a value.
-/

def statementStart : Nat := 0x7f880168022fe699

def valueStart : Nat := 0x7e80016802046080

def plainStart : Nat := 0x7e80016002046080

def statementNext : Nat := 0xff888168023feefb

def valueNext : Nat := 0x3fffd7fd400000

/-! ### Frequent rows of the table of programs

States at the end of a statement and of a value, and those in which a value, a statement, an operand, a
block, or a closure behind a call is expected.
-/

namespace Row

def ending (production : Nat) : Row := .reducing production statementNext

def yielding (production : Nat) : Row := .reducing production valueNext

def value (state : Nat) : Row := ⟨valueStart, [], [past .expression state]⟩

def body (state : Nat) : Row :=
  ⟨statementStart, [], [upon .openBrace 36, past .statement state, past .assignment 25]⟩

def operand (n : Nonterminal) (state : Nat) : Row :=
  ⟨plainStart, [], [past n state, past .prefixed 81]⟩

def block (state : Nat) : Row := ⟨0x800000000, [], [upon .openBrace 36, past .block state]⟩

def called (production state : Nat) : Row :=
  ⟨0x800000000, [(production, valueNext)], [past .closure state]⟩

end Row

/-! ### Tables -/

structure Table where
  /-- The states, counted from zero; the parser starts in the first. -/
  rows : List Row
  usualShift : Terminal → Nat
  usualGoto : Nonterminal → Nat

namespace Table

def target (T : Table) (r : Row) (s : Symbol) : Nat :=
  (r.moves.lookup s).getD <|
    match s with
    | .terminal t => T.usualShift t
    | .phrase n => T.usualGoto n

def action? (T : Table) (state : Nat) (t : Terminal) : Option Action := do
  let r ← T.rows[state]?
  if t.mem r.shifts then return .shift (T.target r (.terminal t))
  let p ← r.reduces.find? fun p => t.mem p.2
  return .reduce p.1

def goto? (T : Table) (state : Nat) (n : Nonterminal) : Option Nat :=
  T.rows[state]?.map fun r => T.target r (.phrase n)

def accepts (T : Table) (state : Nat) : Nat := ((T.rows[state]?).map Row.accepts).getD 0

def terminals (T : Table) : Nat := T.rows.foldl (fun set r => set ||| r.accepts) 0

end Table

end GroovySharp.Grammar
