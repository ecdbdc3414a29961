import GroovySharp.Cli.Run
import GroovySharp.Disk.Change
import Std.Time.DateTime.Timestamp

/-!
# The program

Reads what a command needs from the file system, carries the command out, and writes what it changed.
-/

namespace GroovySharp.Cli

/-! ### The file system -/

def systemPath (spot : Disk.Spot) : String := "/" ++ "/".intercalate spot

/-- Loads what stands at a path. Links inside directories are left out; the content of files inside is
loaded only as wanted. -/
partial def loadEntry (wanted : String → Bool) (path : String) (inside : Bool) :
    IO (Option Entry) := do
  let file := (← IO.currentDir) / path
  try
    let info ← if inside then file.symlinkMetadata else file.metadata
    match info.type with
    | .dir =>
      let mut entries : Entries := []
      for e in ← file.readDir do
        if let some entry ← loadEntry wanted (path ++ "/" ++ e.fileName) true then
          entries := (e.fileName, entry) :: entries
      return some (.directory entries)
    | .file =>
      if inside && !wanted path then return some (.file [])
      else return some (.file (← IO.FS.readBinFile file).toList)
    | _ => return none
  catch _ => return none

/-- Loads the directories on the way to a path, and what stands there. -/
def loadPath (wanted : String → Bool) (d : Disk) (path : String) : IO Disk := do
  match d.namesOf? (Path.ofText path) with
  | none => return d
  | some names =>
    let names := Path.settle names
    let mut disk := d
    for n in List.range names.length do
      let spot := names.take n
      if (Disk.entryAt? disk.top spot).isNone then
        if ← ((← IO.currentDir) / systemPath spot).isDir then
          disk := disk.place spot (.directory [])
    if (Disk.entryAt? disk.top names.dropLast).isSome then
      if let some e ← loadEntry wanted (systemPath names) false then
        disk := disk.place names e
    return disk

def applyChange : Disk.Change → IO Unit
  | .remove spot => do
    let file := (← IO.currentDir) / systemPath spot
    if ← file.isDir then IO.FS.removeDirAll file else IO.FS.removeFile file
  | .makeDirectory spot => IO.FS.createDirAll (systemPath spot)
  | .write spot content => IO.FS.writeBinFile (systemPath spot) ⟨content.toArray⟩

/-! ### Running -/

/-- The paths that a command looks at, each with the files in it whose content it needs. -/
def Command.paths : Command → List (String × (String → Bool))
  | .normalize input => [(input, fun _ => false)]
  | .translate input output? => (input :: output?.toList).map fun p => (p, fun _ => false)
  | .batch root out _ _ =>
    let p := Path.ofText out
    let outputs := out :: [".staging", ".bak"].filterMap fun s => (p.withName? (· ++ s)).map Path.text
    (root, fun path => Discovery.Config.languageOf {} path != .unknown) ::
      outputs.map fun p => (p, fun _ => true)

def rowsText : Rows → Bytes
  | .results rows => Encoding.Utf8.encode (JsonValue.array (rows.map ResultRow.value)).render
  | .anomalies rows => Encoding.Utf8.encode (JsonValue.array (rows.map Anomaly.value)).render

def environment : IO Environment := do
  let keys := [Setting.preserveForCondition, Setting.implicitSystemUsing].map Setting.environmentKey
  keys.filterMapM fun k => do return (← IO.getEnv k).map fun v => (k, v)

def plainText (ps : Unicode.Points) : String :=
  String.ofList (ps.map fun
    | .scalar c => c
    | .surrogate _ => Char.ofNat 0xFFFD)

def usage : String :=
  "usage: groovysharp [-h] [-v] normalize FILE | translate FILE [-o FILE] | " ++
    "batch DIRECTORY --out DIRECTORY [--workers N] [--timeout SECONDS]\n"

def main (args : List String) : IO UInt32 := do
  match Command.parse args with
  | .error .help => IO.print usage; return 0
  | .error .usage => IO.eprint usage; return 2
  | .ok command =>
    let start ← IO.monoMsNow
    let here := (Path.ofText (← IO.currentDir).toString).names
    let mut disk : Disk := { mount := Path.ofText "/", here }
    disk := disk.place here (.directory [])
    for (path, wanted) in command.paths do
      disk ← loadPath wanted disk path
    let now := (← Std.Time.Timestamp.now).toSecondsSinceUnixEpoch.val.toNat
    let context : Context := { environment := ← environment, now := ⟨now⟩, encode := rowsText }
    match perform context disk command with
    | .stopped s => return s.code.toUInt32
    | .broken b => IO.eprintln b.describe; return 1
    | .ended e =>
      for c in Disk.changes disk.top e.disk.top do
        applyChange c
      IO.eprint e.complaints
      IO.print (plainText (e.output ((← IO.monoMsNow) - start)))
      return e.code.toUInt32

end GroovySharp.Cli

def main (args : List String) : IO UInt32 := GroovySharp.Cli.main args
