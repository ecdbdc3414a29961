import GroovySharp.Disk.Basic

/-!
# Walking directories

The files below a directory, in the order of their names: first the files of a directory, then those
of the directories in it.
-/

namespace GroovySharp.Disk

/-! ### What is seen -/

mutual

def seenWith (jump : Spot → String → Option Entry) (spot : Spot) : Entry → Option Entry
  | .file content => some (.file content)
  | .link target => jump spot.dropLast target
  | .directory es => some (.directory (allSeenWith jump spot es))

def allSeenWith (jump : Spot → String → Option Entry) (spot : Spot) :
    Entries → Entries
  | [] => []
  | (name, e) :: rest =>
    match seenWith jump (spot ++ [name]) e with
    | some e' => (name, e') :: allSeenWith jump spot rest
    | none => allSeenWith jump spot rest

end

/-- The entry with links replaced by what they point to, through at most `left` links on a path; `fuel`
is more than that. Links that lead nowhere are left out. -/
def seen (top : Entry) : (fuel left : Nat) → Spot → Entry → Option Entry
  | 0, _ => fun _ _ => none
  | fuel + 1, left => seenWith fun spot target =>
    match linkNames? target, left with
    | some names, left + 1 =>
      match follow top left spot names with
      | .found spot' e left' => seen top fuel left' spot' e
      | _ => none
    | _, _ => none

def view (top : Entry) (followLinks : Bool) (spot : Spot) (e : Entry) : Option Entry :=
  if followLinks then seen top (maxLinks + 1) maxLinks spot e else seenWith (fun _ _ => none) spot e

/-! ### Walking -/

abbrev Step := List String × Bytes

/-- The entries of a directory, the last name first. -/
def sortedEntries : Entry → Entries
  | .directory es => es.mergeSort fun a b => decide (b.1 ≤ a.1)
  | _ => []

def filesIn (names : List String) (es : Entries) : List Step :=
  es.filterMap fun
    | (name, .file content) => some (names ++ [name], content)
    | _ => none

def directoriesIn (names : List String) (es : Entries) : List (List String × Entry) :=
  es.filterMap fun
    | (name, .directory es) => some (names ++ [name], .directory es)
    | _ => none

/-- Walks the directories on a stack, at most as many as given. The directories found in one are put on
it one by one, and the files are given in the other order. -/
def walkFrom : Nat → List (List String × Entry) → List Step
  | 0, _ => []
  | _, [] => []
  | n + 1, (names, e) :: stack =>
    (filesIn names (sortedEntries e)).reverse ++
      walkFrom n ((directoriesIn names (sortedEntries e)).foldl (fun stack p => p :: stack) stack)

mutual

def directoryCount : Entry → Nat
  | .directory es => directoryCounts es + 1
  | _ => 0

def directoryCounts : Entries → Nat
  | [] => 0
  | (_, e) :: rest => directoryCount e + directoryCounts rest

end

mutual

def linkCount : Entry → Nat
  | .link _ => 1
  | .file _ => 0
  | .directory es => linkCounts es

def linkCounts : Entries → Nat
  | [] => 0
  | (_, e) :: rest => linkCount e + linkCounts rest

end

def walk (e : Entry) : List Step := walkFrom (directoryCount e) [([], e)]

end GroovySharp.Disk
