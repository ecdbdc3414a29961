import GroovySharp.Disk.Walk
import GroovySharp.Moment
import GroovySharp.Store.Table

/-!
# Stores

A store collects what a run produces: C# texts, the two tables and a receipt. All of it is put
together in a staging directory, which takes the place of the output directory at the end. The bytes
written can be limited.
-/

namespace GroovySharp

open Unicode

/-! ### Faults -/

inductive StoreFault
  | outside (path : String)
  | nameless
  | namelessDirectory (path : String)
  | full (limit written next : Int) (name : String)
  | unwritable (f : Encoding.Fault)
  | disk (f : Disk.Fault)
  deriving Repr, DecidableEq

def StoreFault.breakdown : StoreFault → Breakdown
  | outside path =>
    ⟨"ValueError", "output path must stay inside the store: " ++
      String.ofList (Text.quoted path.toList)⟩
  | nameless => ⟨"ValueError", "PurePosixPath('.') has an empty name"⟩
  | namelessDirectory path =>
    ⟨"ValueError", "PosixPath(" ++ String.ofList (Text.quoted path.toList) ++ ") has an empty name"⟩
  | full limit written next name =>
    ⟨"RuntimeError", "TranslationStore would exceed max_bytes=" ++ toString limit ++ " (written=" ++
      toString written ++ ", next=" ++ toString next ++ ") at " ++ name⟩
  | unwritable f => ⟨"UnicodeEncodeError", f.encodingMessage⟩
  | disk f => f.breakdown

/-! ### Stores -/

structure StoreConfig where
  level : Int := 7
  /-- How many rows make a part; fewer than a thousand count as a thousand. -/
  rollRows : Int := 200000
  maxBytes? : Option Int := none
  filePrefix : String := "groovy2cs"
  encode : Rows → Bytes := fun _ => []

structure Store where
  config : StoreConfig
  out : Path
  staging : Path
  disk : Disk
  results : Series ResultRow := .empty
  anomalies : Series Anomaly := .empty
  outputs : Nat := 0
  bytesWritten : Nat := 0
  /-- What was written, in order. -/
  log : List String := []

namespace Store

def rollRows (s : Store) : Nat := max 1000 s.config.rollRows.toNat

def outputDirectory : String := "cs"

def resultsDirectory : String := "translations"

def anomaliesDirectory : String := "anomalies"

def receiptName : String := "run_receipt.json"

/-! ### Tables -/

inductive Table
  | results
  | anomalies
  deriving DecidableEq, Repr

namespace Table

def directory : Table → String
  | results => resultsDirectory
  | anomalies => anomaliesDirectory

abbrev Row : Table → Type
  | results => ResultRow
  | anomalies => Anomaly

def collect : (t : Table) → List t.Row → Rows
  | results => .results
  | anomalies => .anomalies

end Table

def series (s : Store) : (t : Table) → Series t.Row
  | .results => s.results
  | .anomalies => s.anomalies

def withSeries (s : Store) : (t : Table) → Series t.Row → Store
  | .results, rows => { s with results := rows }
  | .anomalies, rows => { s with anomalies := rows }

/-! ### Places -/

def staged (s : Store) (names : List String) : Path := s.staging.append { names }

def content (s : Store) : Entry :=
  match s.disk.find s.staging with
  | .found _ e _ => e
  | _ => .directory []

/-! ### Opening -/

def sibling (suffix : String) (out : Path) : Except StoreFault Path :=
  match out.withName? (· ++ suffix) with
  | some p => .ok p
  | none => .error (.namelessDirectory out.text)

def onDisk {α : Type} (r : Except Disk.Fault α) : Except StoreFault α :=
  match r with
  | .ok a => .ok a
  | .error f => .error (.disk f)

def firstDirectories : List String := [outputDirectory, resultsDirectory, anomaliesDirectory]

/-- Opens a store for an output directory. What an earlier run has left in the staging directory is
removed from the disk. -/
def start (config : StoreConfig) (out : Path) (d : Disk) : Except StoreFault (Store × Disk) := do
  let staging ← sibling ".staging" out
  let d ← onDisk ((d.removeTree staging).makeDirectories (staging.append { names := [outputDirectory] }))
  let empty : Entry := .directory (firstDirectories.map fun name => (name, .directory []))
  let own : Disk := { mount := out.parent }
  let name := staging.name?.getD ""
  return ({ config, out, staging, disk := own.place [name] empty }, d)

/-! ### Accounting -/

/-- Accounts for a file that was just written; if it passes the limit it is removed again. -/
def account (size : Nat) (path : Path) (s : Store) : Except StoreFault Unit × Store :=
  let written : Int := s.bytesWritten
  match s.config.maxBytes? with
  | some limit =>
    if limit < written + size then
      (.error (.full limit written size (path.name?.getD "")), { s with disk := s.disk.removeFile path })
    else (.ok (), { s with bytesWritten := s.bytesWritten + size })
  | none => (.ok (), { s with bytesWritten := s.bytesWritten + size })

def logged (line : String) (s : Store) : Store := { s with log := s.log ++ [line] }

def writeFile (path : Path) (content : Bytes) (s : Store) : Except StoreFault Unit × Store :=
  match s.disk.write path content with
  | .error f => (.error (.disk f), s)
  | .ok d => account content.length path { s with disk := d }

/-! ### C# texts -/

/-- Where the C# text of a source goes, from the staging directory on. -/
def outputNames (source : String) : Except StoreFault (List String) :=
  let p := Path.ofText source
  if p.isAbsolute || p.names.contains ".." then .error (.outside source)
  else
    match p.withSuffix? ".cs" with
    | some p => .ok (outputDirectory :: p.names)
    | none => .error .nameless

/-- Writes the C# text of a source; gives its path in the store and its bytes. A text that passes the
limit is removed, but stays counted. -/
def writeOutput (source : String) (text : Points) (s : Store) :
    Except StoreFault (String × Bytes) × Store :=
  match outputNames source with
  | .error f => (.error f, s)
  | .ok names =>
    let path := s.staged names
    match s.disk.makeDirectories path.parent with
    | .error f => (.error (.disk f), s)
    | .ok d =>
      let s := { s with disk := d }
      match Encoding.Utf8.encodePoints text with
      | .error f => (.error (.unwritable f), s)
      | .ok content =>
        match s.disk.write path content with
        | .error f => (.error (.disk f), s)
        | .ok d =>
          let s := { s with disk := d, outputs := s.outputs + 1 }
          match s.account content.length path with
          | (.error f, s) => (.error f, s)
          | (.ok (), s) =>
            let place := "/".intercalate names
            (.ok (place, content), s.logged ("wrote_cs:" ++ place))

/-! ### Parts -/

def partName (s : Store) (table : String) (number : Nat) : String :=
  s.config.filePrefix ++ "_" ++ table ++ "_" ++ Moment.padded 5 number ++ ".parquet"

def writePart (table : String) (number : Nat) (rows : Rows) (s : Store) :
    Except StoreFault Unit × Store :=
  let name := s.partName table number
  match s.writeFile (s.staged [table, name]) (s.config.encode rows) with
  | (.error f, s) => (.error f, s)
  | (.ok (), s) => (.ok (), s.logged ("wrote_" ++ table ++ ":" ++ name))

def flushTable (t : Table) (force : Bool) (s : Store) : Except StoreFault Unit × Store :=
  if (s.series t).needsPart force then
    match s.writePart t.directory (s.series t).count (t.collect (s.series t).waiting.toList) with
    | (.error f, s) => (.error f, s)
    | (.ok (), s) => (.ok (), s.withSeries t (s.series t).cut)
  else (.ok (), s)

def flushAll (force : Bool) (s : Store) : Except StoreFault Unit × Store :=
  match s.flushTable .results force with
  | (.error f, s) => (.error f, s)
  | (.ok (), s) => s.flushTable .anomalies force

def flush (s : Store) : Except StoreFault Unit × Store := s.flushAll false

/-! ### Rows -/

def add (t : Table) (row : t.Row) (s : Store) : Except StoreFault Unit × Store :=
  let s := s.withSeries t ((s.series t).add row)
  if s.rollRows ≤ (s.series t).waiting.size then s.flushTable t false else (.ok (), s)

def appendResult (r : Result) (s : Store) : Except StoreFault Unit × Store :=
  match r.ok, r.output? with
  | true, some text =>
    match s.writeOutput r.file.path text with
    | (.error f, s) => (.error f, s)
    | (.ok output, s) => s.add .results (.ofResult r (some output))
  | _, _ => s.add .results (.ofResult r none)

/-- Takes in anomalies, up to one that cannot be kept. -/
def appendAnomalies : List Anomaly → Store → Except StoreFault Unit × Store
  | [], s => (.ok (), s)
  | a :: rest, s =>
    match s.add .anomalies a with
    | (.error f, s) => (.error f, s)
    | (.ok (), s) => appendAnomalies rest s

end Store

end GroovySharp
