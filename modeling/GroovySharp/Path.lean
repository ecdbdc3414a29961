import GroovySharp.Text.Quoted

/-!
# Paths

A path is a root and the names after it. Empty names and single dots between separators do not
count.
-/

namespace GroovySharp

/-- A path: its root, empty for a relative one, and the names after it. -/
structure Path where
  root : String := ""
  names : List String := []
  deriving Repr, DecidableEq, Inhabited

namespace Path

def splitSlashes : Chars → List Chars
  | [] => [[]]
  | '/' :: rest => [] :: splitSlashes rest
  | c :: rest =>
    match splitSlashes rest with
    | [] => [[c]]
    | word :: words => (c :: word) :: words

/-- The root of a path text: two separators at the start are a root of their own, any other number of
them is the common root. -/
def rootOf (cs : Chars) : String :=
  match (cs.takeWhile (· == '/')).length with
  | 0 => ""
  | 2 => "//"
  | _ => "/"

def ofText (s : String) : Path where
  root := rootOf s.toList
  names := ((splitSlashes s.toList).filter fun w => !w.isEmpty && w != ['.']).map String.ofList

def text (p : Path) : String :=
  if p.root.isEmpty && p.names.isEmpty then "." else p.root ++ "/".intercalate p.names

def isAbsolute (p : Path) : Bool := !p.root.isEmpty

def name? (p : Path) : Option String := p.names.getLast?

def parent (p : Path) : Path := { p with names := p.names.dropLast }

def append (p q : Path) : Path := if q.isAbsolute then q else { p with names := p.names ++ q.names }

def settle (names : List String) : List String :=
  (names.foldl (fun seen name => if name = ".." then seen.tail else name :: seen) []).reverse

def withName? (f : String → String) (p : Path) : Option Path :=
  p.name?.map fun name => { p with names := p.names.dropLast ++ [f name] }

/-- The name without its suffix: what stands before its last dot. A dot at either end of the name
starts no suffix. -/
def stem (name : String) : String :=
  let cs := name.toList
  let suffix := (cs.reverse.takeWhile (· != '.')).length
  if suffix = 0 ∨ cs.length ≤ suffix + 1 then name else String.ofList (cs.take (cs.length - suffix - 1))

def withSuffix? (suffix : String) (p : Path) : Option Path :=
  p.withName? fun name => stem name ++ suffix

end Path

end GroovySharp
