import GroovySharp.Proofs.Lexicon
import GroovySharp.Proofs.Numerals
import GroovySharp.Proofs.Reports
import GroovySharp.Proofs.Rescan

/-!
# The range of integers

A program that assigns an integer is translated exactly if its digits stand for less than 2³¹. The sign
stands before the digits and is no part of the number that is compared, so the least integer of 32 bits
is refused.
-/

namespace GroovySharp

open Conversion CSharp List Text Unicode

/-! ### Trees of assigned integers -/

def Leaf.isToken (t : Grammar.Terminal) (text : Chars) (l : Leaf) : Bool :=
  l.kind == .terminal t && l.text == text

/-- The tree of a program that assigns an integer to `x`, with a minus sign before its digits if it is
negative. -/
def Tree.assigns (negative : Bool) (digits : Chars) : Tree → Bool
  | .node .compilationUnit [.node .expressionStatement [.node .assignmentExpression
      [.node .identifier [.leaf x] _ _, .leaf op, .node .integerLiteral [.leaf l] _ _] _ _] _ _] _ _ =>
    !negative && x.isToken .name ['x'] && op.isToken .assign ['='] && l.isToken .integer digits
  | .node .compilationUnit [.node .expressionStatement [.node .assignmentExpression
      [.node .identifier [.leaf x] _ _, .leaf op, .node .unaryExpression [.leaf minus,
        .node .integerLiteral [.leaf l] _ _] _ _] _ _] _ _] _ _ =>
    negative && x.isToken .name ['x'] && op.isToken .assign ['='] && minus.isToken .minus ['-'] &&
      l.isToken .integer digits
  | _ => false

/-! ### Conversion -/

section

variable (options : Options) {negative : Bool} {digits : Chars} {tree : Tree} {m : Nat}

end

section

variable (options : Options) {source text digits : Chars} {tree : Tree} {negative : Bool}

end

end GroovySharp
