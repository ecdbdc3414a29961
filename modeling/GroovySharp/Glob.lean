/-!
# File patterns

A pattern is matched against a whole path: `*` stands for any text, `?` for any character, and a set
in brackets for one of its characters, or for any other character if it starts with `!`. Separators
are characters like all others.
-/

namespace GroovySharp.Glob

structure Range where
  first : Char
  last : Char
  deriving Repr, DecidableEq

inductive Piece
  | star
  | any
  | char (c : Char)
  /-- One of the characters in the ranges, or none of them if negated. -/
  | set (negated : Bool) (ranges : List Range)
  deriving Repr, DecidableEq

/-! ### Reading patterns -/

/-- The ranges of a set. A hyphen between two characters makes a range of them; elsewhere it stands for
itself. -/
def ranges : List Char → List Range
  | first :: '-' :: last :: rest => ⟨first, last⟩ :: ranges rest
  | c :: rest => ⟨c, c⟩ :: ranges rest
  | [] => []

def closeSet? : List Char → Option (List Char × List Char)
  | [] => none
  | ']' :: rest => some ([], rest)
  | c :: rest => (closeSet? rest).map fun (inside, after) => (c :: inside, after)

def splitSet? : List Char → Option (List Char × List Char)
  | ']' :: rest => (closeSet? rest).map fun (inside, after) => (']' :: inside, after)
  | cs => closeSet? cs

def takeSet? : List Char → Option (Piece × List Char)
  | '!' :: rest => (splitSet? rest).map fun (inside, after) => (.set true (ranges inside), after)
  | cs => (splitSet? cs).map fun (inside, after) => (.set false (ranges inside), after)

/-- Reads at most as many pieces as given. An opening bracket without a closing one stands for
itself. -/
def readPieces : Nat → List Char → List Piece
  | 0, _ => []
  | _, [] => []
  | n + 1, '*' :: rest => .star :: readPieces n rest
  | n + 1, '?' :: rest => .any :: readPieces n rest
  | n + 1, '[' :: rest =>
    match takeSet? rest with
    | some (piece, after) => piece :: readPieces n after
    | none => .char '[' :: readPieces n rest
  | n + 1, c :: rest => .char c :: readPieces n rest

def read (pattern : List Char) : List Piece := readPieces pattern.length pattern

/-! ### Matching -/

def Range.contains (r : Range) (c : Char) : Bool := decide (r.first ≤ c) && decide (c ≤ r.last)

def Piece.fits (c : Char) : Piece → Bool
  | star | any => true
  | char d => c == d
  | set negated rs => rs.any (fun r => r.contains c) != negated

def someTail (p : List Char → Bool) : List Char → Bool
  | [] => p []
  | c :: cs => p (c :: cs) || someTail p cs

def matchesPieces : List Piece → List Char → Bool
  | [], cs => cs.isEmpty
  | .star :: ps, cs => someTail (matchesPieces ps) cs
  | p :: ps, c :: cs => p.fits c && matchesPieces ps cs
  | _ :: _, [] => false

def isMatch (pattern text : List Char) : Bool := matchesPieces (read pattern) text

end GroovySharp.Glob
