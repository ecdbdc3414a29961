import GroovySharp.Unicode.CodePoint

/-!
# Ranges of code points

Tables of disjoint ranges in rising order, written by distances: each entry gives the number of code
points left out before the range and the distance from its first to its last code point, and then its
data. The numbers of all entries stand in one list.
-/

namespace GroovySharp.Unicode

def rangesFrom (next : Nat) : List Nat → List (Nat × Nat)
  | gap :: width :: rest => (next + gap, next + gap + width) :: rangesFrom (next + gap + width + 1) rest
  | _ => []

def runsFrom (next : Nat) : List Nat → List (Nat × Nat × Nat)
  | gap :: width :: a :: rest => (next + gap, next + gap + width, a) :: runsFrom (next + gap + width + 1) rest
  | _ => []

def mappedFrom (next : Nat) : List Nat → List (Nat × Nat × Nat × Nat)
  | gap :: width :: a :: b :: rest => (next + gap, next + gap + width, a, b) :: mappedFrom (next + gap + width + 1) rest
  | _ => []

end GroovySharp.Unicode
