import GroovySharp.Discovery
import GroovySharp.Registry.Run
import GroovySharp.Setting
import GroovySharp.Store.Receipt

/-!
# Batches

A batch works on many files and publishes what comes of them. A file that fails becomes a failed row
and an anomaly; only the store can end a batch early.
-/

namespace GroovySharp.Batch

open Unicode

structure Config where
  level : Int := 7
  rollRows : Int := 200000
  maxStoreBytes? : Option Int := none
  maxFileBytes : Int := 4 * 1024 * 1024
  workers : Int := 4
  limit : Number.Seconds := .fraction 8.0
  flushEvery : Int := 50
  encode : Rows → Bytes := fun _ => []

def Config.store (cfg : Config) : StoreConfig where
  level := cfg.level
  rollRows := cfg.rollRows
  maxBytes? := cfg.maxStoreBytes?
  encode := cfg.encode

def Config.registry (cfg : Config) : Registry where
  readers := [(.groovy, .groovy)]
  limit := cfg.limit
  workers := cfg.workers

structure Summary where
  filesTotal : Nat
  converted : Nat
  failed : Nat
  anomalies : Int
  deriving Repr, DecidableEq

def Summary.rows (s : Summary) : Nat := s.converted + s.failed

def Summary.value (s : Summary) (wallMs : Int) : JsonValue :=
  .ofFields [("files_total", .integer s.filesTotal), ("files_translated", .integer s.converted),
    ("files_failed", .integer s.failed), ("translation_rows", .integer s.rows),
    ("anomalies", .integer s.anomalies), ("wall_ms", .integer wallMs)]

/-! ### Which files are worked on -/

def sorted (files : List SourceFile) : List SourceFile :=
  files.mergeSort fun a b =>
    decide (a.path < b.path) || (a.path == b.path && decide (a.digest ≤ b.digest))

def setAside? (cfg : Config) (f : SourceFile) : Option Anomaly :=
  if !f.isText then
    some { path := f.path, digest := f.digest, kind := .skipped, severity := .info
           detail := "binary-or-nontext" }
  else if cfg.maxFileBytes < f.size then
    some { path := f.path, digest := f.digest, kind := .sizeLimit, severity := .error
           detail := "file-too-large:" ++ toString f.size }
  else none

def eligible (cfg : Config) (files : List SourceFile) : List SourceFile :=
  files.filter fun f => (setAside? cfg f).isNone

def noteSetAside (cfg : Config) (files : List SourceFile) (sink : Sink) : Sink :=
  (files.filterMap (setAside? cfg)).foldl (fun s a => s.emit a) sink

/-! ### Working through the files -/

structure Progress where
  run : Run
  store : Store
  converted : Nat := 0
  failed : Nat := 0

structure Setup where
  config : Config
  work : Work
  pace : Nat → Run.Pace := fun _ => {}

namespace Progress

def drain (p : Progress) : Except StoreFault Progress :=
  match p.store.appendAnomalies p.run.sink.drain.1 with
  | (.error f, _) => .error f
  | (.ok (), store) => .ok { p with store, run := { p.run with sink := p.run.sink.drain.2 } }

def flush (p : Progress) : Except StoreFault Progress :=
  match p.store.flush with
  | (.error f, _) => .error f
  | (.ok (), store) => drain { p with store }

def take (every : Nat) (r : Result) (run : Run) (p : Progress) : Except StoreFault Progress :=
  match p.store.appendResult r with
  | (.error f, _) => .error f
  | (.ok (), store) =>
    let p : Progress :=
      { run, store
        converted := if r.ok then p.converted + 1 else p.converted
        failed := if r.ok then p.failed else p.failed + 1 }
    if (p.converted + p.failed) % every = 0 then p.flush else .ok p

/-- Works through at most the given number of files. -/
def advance (setup : Setup) : Nat → Progress → Except StoreFault Progress
  | 0, p => .ok p
  | n + 1, p =>
    match p.run.next? setup.config.registry setup.work setup.pace with
    | none => .ok p
    | some (r, run) =>
      match p.take (max 1 setup.config.flushEvery.toNat) r run with
      | .error f => .error f
      | .ok p => advance setup n p

end Progress

/-! ### Batches -/

def tallyValue (t : Tally) : JsonValue := .ofFields (t.map fun (k, n) => (k, .integer n))

def receiptFields (meta? : Option JsonValue) (sink : Sink) : Fields :=
  let reader := ReaderInfo.groovy
  [("run_meta", meta?.getD (.object [])), ("step", .text "translate"),
    ("driver", .ofFields [("grammar_name", .text reader.grammarName),
      ("grammar_sha", .text reader.grammarDigest), ("version", .text reader.version)]),
    ("counters", tallyValue sink.counts),
    ("timers", .ofFields (sink.timers.map fun (k, t) => (k, tallyValue t)))].map
      fun (k, v) => (points k, v)

/-- A batch that has ended: its summary, its store, and the disk with what was published. -/
structure Outcome where
  summary : Summary
  store : Store
  disk : Disk

/-- Works on files and publishes what comes of them. The work on a job reads from the disk. -/
def run (cfg : Config) (work : Disk → Work) (pace : Nat → Run.Pace)
    (now : Moment) (files : List SourceFile) (out : Path) (meta? : Option JsonValue) (sink : Sink)
    (d : Disk) : Except StoreFault Outcome := do
  let (store, d) ← Store.start cfg.store out d
  let files := sorted files
  let jobs := (eligible cfg files).map fun f => { file := f : Job }
  let setup : Setup := { config := cfg, work := work d, pace }
  let p ← Progress.advance setup jobs.length
    { run := { source := jobs, sink := noteSetAside cfg files sink }, store }
  let p ← p.drain
  match p.store.finalize now (receiptFields meta? p.run.sink) d with
  | (.error f, _) => .error f
  | (.ok d, store) =>
    return { summary := { filesTotal := files.length, converted := p.converted, failed := p.failed
                          anomalies := p.run.sink.counts.get "total" }
             store, disk := d }

/-! ### Batches over a directory -/

inductive Fault
  | discovery (f : Discovery.Fault)
  | store (f : StoreFault)
  deriving Repr, DecidableEq

def Fault.breakdown : Fault → Breakdown
  | discovery f => f.breakdown
  | store f => f.breakdown

/-- Finds the sources below a directory, works on them and publishes what comes of them; gives also
the counters after the search. -/
def runOn (discovery : Discovery.Config) (cfg : Config)
    (work : Disk → Work) (pace : Nat → Run.Pace) (now : Moment) (root : String)
    (out : Path) (meta? : Option JsonValue) (d : Disk) : Except Fault (Outcome × Tally) :=
  match Discovery.sources d root discovery {} with
  | .error f => .error (.discovery f)
  | .ok (files, sink) =>
    match run cfg work pace now files out meta? sink d with
    | .error f => .error (.store f)
    | .ok o => .ok (o, sink.counts)

end GroovySharp.Batch
