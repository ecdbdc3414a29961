import GroovySharp.Grammar.ProgramTable

/-!
# Parse table of expressions

The LALR(1) table of the grammar for single expressions, as they stand in interpolated strings. Its
states are those of the table of programs, except for the first and one more, in which the input ends.
-/

namespace GroovySharp.Grammar.ExpressionTable

/-- What can stand behind every expression: a colon, a comma, a semicolon and closing delimiters. -/
def expressionEnds : Nat := 0xb80000c000000

/-- What stands only between the items of a program: `import`, `void`, wildcards and the end. -/
def unitOnly : Nat := 0x8040000000100800

def endOnly : Nat := 1 <<< Terminal.endOfInput.index

def inner (set : Nat) : Nat := set - (set &&& unitOnly)

/-- The input may end where every expression may. -/
def innerNext (set : Nat) : Nat :=
  if set &&& expressionEnds = expressionEnds then set ||| endOnly else inner set

def innerRow (r : Row) : Row :=
  ⟨inner r.shifts, r.reduces.map fun (production, set) => (production, innerNext set), r.moves⟩

def table : Table where
  rows := ⟨valueStart, [], [past .expression 387]⟩ ::
    ProgramTable.table.rows.tail.map innerRow ++ [⟨endOnly, [], []⟩]
  usualShift := ProgramTable.usualShift
  usualGoto := ProgramTable.usualGoto

end GroovySharp.Grammar.ExpressionTable
