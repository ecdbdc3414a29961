import GroovySharp.Disk.Walk
import GroovySharp.Glob
import GroovySharp.Sink
import GroovySharp.SourceFile

/-!
# Finding source files

Finds the Groovy sources below a directory: files with certain extensions that patterns let through,
of a limited size and with text in them. What is passed over for its size or content is noted.
-/

namespace GroovySharp.Discovery

/-! ### Which files -/

structure Config where
  maxFileSize : Int := 4 * 1024 * 1024
  followLinks : Bool := false
  sniffBytes : Int := 64 * 1024
  /-- Patterns of which one must match, unless there are none. -/
  includeGlobs : List String := []
  /-- Patterns of which none may match. -/
  excludeGlobs : List String := [".git/*", ".gradle/*", "build/*", "out/*", "target/*"]
  extensions : List String := [".groovy", ".gvy", ".gy", ".gsh"]
  deriving Repr, DecidableEq

namespace Config

def languageOf (cfg : Config) (path : String) : Language :=
  let lower := Unicode.lowerCase path.toList
  if cfg.extensions.any fun e => e.toList.isSuffixOf lower then .groovy else .unknown

def anyMatches (globs : List String) (path : String) : Bool :=
  globs.any fun g => Glob.isMatch g.toList path.toList

def wants (cfg : Config) (path : String) : Bool :=
  (cfg.includeGlobs.isEmpty || anyMatches cfg.includeGlobs path) &&
    !anyMatches cfg.excludeGlobs path

end Config

/-! ### Looking at content -/

def isStray (b : UInt8) : Bool :=
  decide (b.toNat < 32) && !(decide (0x9 ≤ b.toNat) && decide (b.toNat ≤ 0xD))

def markedEncoding? : Bytes → Option String
  | 0xEF :: 0xBB :: 0xBF :: _ => some "utf-8-sig"
  | 0xFF :: 0xFE :: _ => some "utf-16-le"
  | 0xFE :: 0xFF :: _ => some "utf-16-be"
  | _ => none

def isBinary (head : Bytes) : Bool :=
  head.contains 0 || decide (head.length < 50 * head.countP isStray)

/-- The encoding of a file by the bytes at its start; none if they are no text. Bytes that end inside
a character of UTF-8 still count as UTF-8. -/
def sniff (head : Bytes) : Option String :=
  match markedEncoding? head with
  | some name => some name
  | none =>
    if isBinary head then none
    else
      match Encoding.Utf8.decode head with
      | .ok _ => some "utf-8"
      | .error s => some (if s.reason = Encoding.Utf8.endReason then "utf-8" else "latin-1")

/-- How many bytes are read from a file at once. -/
def pieceSize : Nat := 1024 * 1024

/-- The content of a file as it is read. -/
def pieces (content : Bytes) : List Bytes :=
  (List.range (content.length / pieceSize + 1)).map fun i => (content.drop (i * pieceSize)).take pieceSize

/-- The bytes at the start of a file that comes in pieces, at most `limit`. -/
def headOf (limit : Int) (pieces : List Bytes) : Bytes :=
  pieces.foldl (fun head piece =>
    if (head.length : Int) < limit then head ++ piece.take (limit - head.length).toNat else head) []

/-! ### Files below a directory -/

def note (path digest : String) (kind : AnomalyKind) (severity : Severity) (detail : String) :
    Anomaly := { path, digest, kind, severity, detail }

/-- Looks at a file: the source file if it is one that is wanted, and the notes after it. -/
def examine (cfg : Config) (path realPath : String) (content : Bytes) (sink : Sink) :
    Option SourceFile × Sink :=
  let size : Int := content.length
  if cfg.languageOf path = .unknown ∨ !cfg.wants path then (none, sink)
  else if cfg.maxFileSize < size then
    (none, sink.emit (note path "" .sizeLimit .warn
      (toString size ++ " bytes exceeds " ++ toString cfg.maxFileSize)))
  else
    let digest := SourceFile.digestOf content
    match sniff (headOf cfg.sniffBytes (pieces content)) with
    | none => (none, sink.emit (note path digest .skipped .info "Binary content detected"))
    | some encoding =>
      let file : SourceFile :=
        { path, realPath, digest, size, language := .groovy, encoding := some encoding }
      if encoding = "latin-1" then
        (some file, sink.emit (note path digest .encoding .warn "Not valid UTF-8; decoding as latin-1"))
      else (some file, sink)

def examineAll (cfg : Config) (base : Path) : List Disk.Step → Sink → List SourceFile × Sink
  | [], sink => ([], sink)
  | (names, content) :: rest, sink =>
    let realPath := (base.append { names }).text
    let (file?, sink) := examine cfg ("/".intercalate names) realPath content sink
    let (files, sink) := examineAll cfg base rest sink
    (file?.toList ++ files, sink)

/-! ### The directory -/

/-- Why files cannot be looked for. -/
inductive Fault
  | notDirectory (path : String)
  | loop (path : String)
  deriving Repr, DecidableEq

def Fault.breakdown : Fault → Breakdown
  | notDirectory path => ⟨"NotADirectoryError", "Discovery root not found or not a directory: " ++ path⟩
  | loop path => ⟨"RuntimeError", "Symlink loop from " ++ String.ofList (Text.quoted path.toList)⟩

/-- The spot that names lead to, with links replaced and missing names kept. `resolve` gives the spot of
a link's target; an error is a spot in a loop of links. -/
def realSpotWith (top : Entry) (resolve : Disk.Spot → Disk.Spot → List String → Except Disk.Spot Disk.Spot) :
    Disk.Spot → List String → Except Disk.Spot Disk.Spot
  | spot, [] => .ok spot
  | spot, name :: rest =>
    if name = ".." then realSpotWith top resolve spot.dropLast rest
    else
      match Disk.entryAt? top (spot ++ [name]) with
      | some (.link target) =>
        match Disk.linkNames? target with
        | some names =>
          match resolve (spot ++ [name]) spot names with
          | .ok spot' => realSpotWith top resolve spot' rest
          | .error loop => .error (loop ++ rest)
        | none => realSpotWith top resolve (spot ++ [name]) rest
      | _ => realSpotWith top resolve (spot ++ [name]) rest

/-- The spot that names lead to while the links in `opened` are being resolved. A link that is among
them is in a loop; so no more links are open at once than there are. -/
def realSpot (top : Entry) : Nat → List Disk.Spot → Disk.Spot → List String →
    Except Disk.Spot Disk.Spot
  | 0, _ => fun spot names => .error (spot ++ names)
  | n + 1, opened => realSpotWith top fun link spot names =>
    if opened.contains link then .error link else realSpot top n (link :: opened) spot names

/-- The spot of a directory where files are looked for. Loops of links end the search, unless double
dots lead out of them. -/
def rootSpot (d : Disk) (names : List String) : Except Fault Disk.Spot :=
  match realSpot d.top (Disk.linkCount d.top + 1) [] [] names with
  | .ok spot => .ok spot
  | .error loop =>
    let spot := Path.settle loop
    match Disk.follow d.top Disk.maxLinks [] spot with
    | .refused .tooManyLinks => .error (.loop (d.fullPath spot).text)
    | _ => .ok spot

/-- The source files below a directory, and the notes after looking for them. -/
def sources (d : Disk) (root : String) (cfg : Config) (sink : Sink) :
    Except Fault (List SourceFile × Sink) :=
  let p := Path.ofText root
  match d.namesOf? p with
  | none => .error (.notDirectory p.text)
  | some names =>
    match rootSpot d names with
    | .error f => .error f
    | .ok spot =>
      match Disk.entryAt? d.top spot with
      | some (.directory es) =>
        match Disk.view d.top cfg.followLinks spot (.directory es) with
        | some e => .ok (examineAll cfg (d.fullPath spot) (Disk.walk e) sink)
        | none => .ok ([], sink)
      | _ => .error (.notDirectory (d.fullPath spot).text)

end GroovySharp.Discovery
