import GroovySharp.Text.Trim

/-!
# Positions in a text

A position counts characters from zero, and lines and columns from one. Only a line feed ends a line.
-/

namespace GroovySharp.Text

structure Position where
  offset : Nat := 0
  line : Nat := 1
  column : Nat := 1
  deriving Repr, DecidableEq, Inhabited

namespace Position

def step (p : Position) (c : Char) : Position :=
  if c = '\n' then ⟨p.offset + 1, p.line + 1, 1⟩ else ⟨p.offset + 1, p.line, p.column + 1⟩

def advance (p : Position) (cs : Chars) : Position := cs.foldl step p

def within (origin p : Position) : Position :=
  { offset := origin.offset + p.offset
    line := origin.line + p.line - 1
    column := if p.line = 1 then origin.column + p.column - 1 else p.column }

@[simp] theorem advance_nil (p : Position) : p.advance [] = p := rfl

theorem advance_append (p : Position) (a b : Chars) : p.advance (a ++ b) = (p.advance a).advance b := by
  simp [advance, List.foldl_append]

theorem offset_advance (p : Position) (cs : Chars) : (p.advance cs).offset = p.offset + cs.length := by
  induction cs generalizing p with
  | nil => rfl
  | cons c cs ih =>
    have hstep : (p.step c).offset = p.offset + 1 := by
      unfold step
      split <;> rfl
    simp only [advance, List.foldl_cons, List.length_cons] at ih ⊢
    rw [ih, hstep]
    omega

end Position

/-- The part of a text between two positions. All fields are zero for a construct without text. -/
structure Span where
  start : Position
  stop : Position
  deriving Repr, DecidableEq, Inhabited

namespace Span

def empty : Span := ⟨⟨0, 0, 0⟩, ⟨0, 0, 0⟩⟩

def within (origin : Position) (s : Span) : Span := ⟨origin.within s.start, origin.within s.stop⟩

end Span

end GroovySharp.Text
