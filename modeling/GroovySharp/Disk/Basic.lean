import GroovySharp.Encoding.Utf8
import GroovySharp.Error
import GroovySharp.Path

/-!
# Disks

A disk is a tree of directories, files and symbolic links with a working directory in it. Paths are
followed name by name; links on the way are replaced by what they point to, up to a limit.
-/

namespace GroovySharp

inductive Entry
  | file (content : Bytes)
  | link (target : String)
  | directory (entries : List (String × Entry))
  deriving Inhabited

abbrev Entries := List (String × Entry)

namespace Disk

/-! ### Refusals -/

inductive Refusal
  | notFound
  | notDirectory
  | isDirectory
  | alreadyExists
  | tooManyLinks
  | nameTooLong
  deriving Repr, DecidableEq, Inhabited

def Refusal.text : Refusal → String
  | notFound => "[Errno 2] No such file or directory"
  | notDirectory => "[Errno 20] Not a directory"
  | isDirectory => "[Errno 21] Is a directory"
  | alreadyExists => "[Errno 17] File exists"
  | tooManyLinks => "[Errno 40] Too many levels of symbolic links"
  | nameTooLong => "[Errno 36] File name too long"

def Refusal.label : Refusal → String
  | notFound => "FileNotFoundError"
  | notDirectory => "NotADirectoryError"
  | isDirectory => "IsADirectoryError"
  | alreadyExists => "FileExistsError"
  | tooManyLinks | nameTooLong => "OSError"

structure Fault where
  refusal : Refusal
  path : String
  deriving Repr, DecidableEq, Inhabited

def Fault.breakdown (f : Fault) : Breakdown :=
  ⟨f.refusal.label, f.refusal.text ++ ": " ++ String.ofList (Text.quoted f.path.toList)⟩

/-! ### Entries -/

abbrev Spot := List String

def entryAt? : Entry → Spot → Option Entry
  | e, [] => some e
  | .directory es, name :: rest =>
    match es.lookup name with
    | some e => entryAt? e rest
    | none => none
  | _, _ :: _ => none

def assign (name : String) (new : Entry) : Entries → Entries
  | [] => [(name, new)]
  | (k, e) :: rest => if k = name then (k, new) :: rest else (k, e) :: assign name new rest

def putAt (new : Entry) : Entry → Spot → Entry
  | _, [] => new
  | .directory es, name :: rest =>
    .directory (assign name (putAt new ((es.lookup name).getD (.directory [])) rest) es)
  | _, name :: rest => .directory [(name, putAt new (.directory []) rest)]

def removeAt : Entry → Spot → Entry
  | e, [] => e
  | .directory es, [name] => .directory (es.filter fun e => e.1 != name)
  | .directory es, name :: rest =>
    match es.lookup name with
    | some e => .directory (assign name (removeAt e rest) es)
    | none => .directory es
  | e, _ :: _ => e

/-! ### Following paths -/

inductive Target
  /-- To an entry that is no link; `left` more links could be followed. -/
  | found (spot : Spot) (entry : Entry) (left : Nat)
  | vacant (directory : Spot) (name : String)
  | refused (r : Refusal)
  deriving Inhabited

def maxLinks : Nat := 40

def maxName : Nat := 255

def linkNames? (target : String) : Option (List String) :=
  let p := Path.ofText target
  if p.isAbsolute then none else some p.names

/-- Follows names from a spot; `jump` follows what a link stands for. Nothing is found above the top. -/
def descend (top : Entry) (left : Nat) (jump : Spot → List String → Target) :
    Spot → List String → Target
  | spot, [] =>
    match entryAt? top spot with
    | some e => .found spot e left
    | none => .refused .notFound
  | spot, name :: rest =>
    match entryAt? top spot with
    | some (.directory es) =>
      if name = ".." then
        if spot.isEmpty then .refused .notFound else descend top left jump spot.dropLast rest
      else if maxName < (Encoding.Utf8.encode name.toList).length then .refused .nameTooLong
      else
        match es.lookup name with
        | none => if rest.isEmpty then .vacant spot name else .refused .notFound
        | some (.link target) =>
          match linkNames? target with
          | some names => jump spot (names ++ rest)
          | none => .refused .notFound
        | some _ => descend top left jump (spot ++ [name]) rest
    | some _ => .refused .notDirectory
    | none => .refused .notFound

def follow (top : Entry) : Nat → Spot → List String → Target
  | 0 => descend top 0 fun _ _ => .refused .tooManyLinks
  | n + 1 => descend top (n + 1) (follow top n)

end Disk

/-! ### Disks -/

structure Disk where
  mount : Path
  top : Entry := .directory []
  here : Disk.Spot := []
  deriving Inhabited

namespace Disk

/-- The names of a path from the top on; none if it leads elsewhere. A path that is not full starts at
the working directory. -/
def namesOf? (d : Disk) (p : Path) : Option (List String) :=
  if p.root = d.mount.root ∧ d.mount.names.isPrefixOf p.names then
    some (p.names.drop d.mount.names.length)
  else if p.isAbsolute then none
  else some (d.here ++ p.names)

def fullPath (d : Disk) (spot : Spot) : Path := d.mount.append { names := spot }

def find (d : Disk) (p : Path) : Target :=
  match d.namesOf? p with
  | some names => follow d.top maxLinks [] names
  | none => .refused .notFound

def has (d : Disk) (p : Path) : Bool :=
  match d.find p with
  | .found .. => true
  | _ => false

def isDirectory (d : Disk) (p : Path) : Bool :=
  match d.find p with
  | .found _ (.directory _) _ => true
  | _ => false

def read (d : Disk) (p : Path) : Except Fault Bytes :=
  match d.find p with
  | .found _ (.file content) _ => .ok content
  | .found _ (.directory _) _ => .error ⟨.isDirectory, p.text⟩
  | .found _ (.link _) _ => .error ⟨.tooManyLinks, p.text⟩
  | .vacant .. => .error ⟨.notFound, p.text⟩
  | .refused r => .error ⟨r, p.text⟩

def write (d : Disk) (p : Path) (content : Bytes) : Except Fault Disk :=
  match d.find p with
  | .found spot (.file _) _ => .ok { d with top := putAt (.file content) d.top spot }
  | .found _ (.directory _) _ => .error ⟨.isDirectory, p.text⟩
  | .found _ (.link _) _ => .error ⟨.tooManyLinks, p.text⟩
  | .vacant spot name => .ok { d with top := putAt (.file content) d.top (spot ++ [name]) }
  | .refused r => .error ⟨r, p.text⟩

def makeDirectory (d : Disk) (p : Path) : Except Fault Disk :=
  match d.find p with
  | .found .. => .error ⟨.alreadyExists, p.text⟩
  | .vacant spot name => .ok { d with top := putAt (.directory []) d.top (spot ++ [name]) }
  | .refused r => .error ⟨r, p.text⟩

/-- Makes a directory that may exist already, and the missing ones above it; `depth` bounds how many
those are. -/
def makeDirectoriesTo (d : Disk) (p : Path) : Nat → Except Fault Disk
  | 0 => .error ⟨.notFound, p.text⟩
  | depth + 1 =>
    match d.makeDirectory p with
    | .ok d' => .ok d'
    | .error f =>
      if f.refusal = .notFound ∧ p.names ≠ [] then do
        let d' ← d.makeDirectoriesTo p.parent depth
        d'.makeDirectory p
      else if d.isDirectory p then .ok d
      else .error f

def makeDirectories (d : Disk) (p : Path) : Except Fault Disk :=
  d.makeDirectoriesTo p (p.names.length + 1)

def removeTree (d : Disk) (p : Path) : Disk :=
  match d.find p with
  | .found spot (.directory _) _ => { d with top := removeAt d.top spot }
  | _ => d

def removeFile (d : Disk) (p : Path) : Disk :=
  match d.find p with
  | .found spot (.file _) _ => { d with top := removeAt d.top spot }
  | _ => d

def rename (d : Disk) (source target : Path) : Except Fault Disk :=
  match d.find source, d.find target with
  | .found spot e _, .found spot' _ _ => .ok { d with top := putAt e (removeAt d.top spot) spot' }
  | .found spot e _, .vacant dir name =>
    .ok { d with top := putAt e (removeAt d.top spot) (dir ++ [name]) }
  | .found .., .refused r => .error ⟨r, target.text⟩
  | .vacant .., _ => .error ⟨.notFound, source.text⟩
  | .refused r, _ => .error ⟨r, source.text⟩

def place (d : Disk) (spot : Spot) (e : Entry) : Disk := { d with top := putAt e d.top spot }

end Disk

end GroovySharp
