import GroovySharp.Json.Read
import GroovySharp.Store.Basic

/-!
# Receipts

The receipt of a run says what was written and what its digests are. It is the last file of a store;
after it the store takes the place of the output directory.
-/

namespace GroovySharp.Store

open Unicode

/-! ### Writing -/

mutual

def filesUnder (names : List String) : Entry → List Disk.Step
  | .file content => [(names, content)]
  | .link _ => []
  | .directory es => filesUnderAll names es

def filesUnderAll (names : List String) : Entries → List Disk.Step
  | [] => []
  | (name, e) :: rest => filesUnder (names ++ [name]) e ++ filesUnderAll names rest

end

/-- The order of paths by their names, and of names by their code points. -/
def isBefore (a b : List String) : Bool :=
  a.lex b fun x y => x.toList.lex y.toList fun c d => c.toNat.blt d.toNat

def integrity (s : Store) : JsonValue :=
  .ofFields (((filesUnder [] s.content).mergeSort fun a b => !isBefore b.1 a.1).map
    fun (names, content) => ("/".intercalate names, .text (Digest.Blake2b.hexDigest 16 content)))

def summary (s : Store) (now : Moment) : List (String × JsonValue) :=
  [("schema_version", .text schemaVersion), ("translation_rows", .integer s.results.rowsWritten),
    ("anomaly_rows", .integer s.anomalies.rowsWritten), ("outputs", .integer s.outputs),
    ("bytes_written", .integer s.bytesWritten),
    ("compression", .ofFields [("algorithm", .text "zstd"), ("level", .integer s.config.level)]),
    ("files", .ofFields [(resultsDirectory, .integer s.results.count),
      (anomaliesDirectory, .integer s.anomalies.count)]),
    ("created_at_epoch", .integer now.epoch), ("created_at_iso", .text now.text),
    ("transaction_log", .array (s.log.map .text))]

def receipt (s : Store) (now : Moment) (more : Fields) : JsonValue :=
  .object (JsonValue.setField (points "integrity") s.integrity
    (JsonValue.update ((s.summary now).map fun (k, v) => (points k, v)) more))

/-! ### Publishing -/

/-- Puts the store in the place of the output directory. What was there is kept under another name. -/
def publish (s : Store) (d : Disk) : Except StoreFault Disk := do
  let backup ← sibling ".bak" s.out
  let d := match d.find s.staging with
    | .found spot _ _ => { d with top := Disk.putAt s.content d.top spot }
    | .vacant dir name => { d with top := Disk.putAt s.content d.top (dir ++ [name]) }
    | .refused _ => d
  let d ← if d.has s.out then onDisk ((d.removeTree backup).rename s.out backup) else .ok d
  let d ← onDisk (d.makeDirectories s.out.parent)
  onDisk (d.rename s.staging s.out)

/-- Writes what waits and the receipt, and publishes the store; gives the disk after that. -/
def finalize (now : Moment) (more : Fields) (d : Disk) (s : Store) :
    Except StoreFault Disk × Store :=
  match s.flushAll true with
  | (.error f, s) => (.error f, s)
  | (.ok (), s) =>
    match s.disk.write (s.staged [receiptName])
        (Encoding.Utf8.encode (s.receipt now more).render) with
    | .error f => (.error (.disk f), s)
    | .ok own =>
      let s := { s with disk := own }
      match s.publish d with
      | .error f => (.error f, s)
      | .ok d => (.ok d, { s with disk := s.disk.removeTree s.staging })

/-! ### Reading -/

/-- The receipt in an output directory; an empty one if there is none that can be read. -/
def loadReceipt (d : Disk) (out : Path) : JsonValue :=
  match d.read (out.append { names := [receiptName] }) with
  | .error _ => .object []
  | .ok content =>
    match Encoding.Utf8.decode content with
    | .error _ => .object []
    | .ok cs => (JsonValue.read? cs).getD (.object [])

end GroovySharp.Store
