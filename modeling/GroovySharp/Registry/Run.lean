import GroovySharp.Registry.Basic
import GroovySharp.Sink

/-!
# Running jobs

A run keeps a window of jobs in flight. Jobs in flight finish in any order; results are given out in
the order of the jobs. A job that takes too long is given up: its result says so, and what it still
does is counted but its own result is dropped.
-/

namespace GroovySharp

open Unicode

structure Slot where
  number : Nat
  job : Job
  reader? : Option ReaderInfo
  /-- The result, once the job is finished. -/
  answer? : Option Result := none

structure Run where
  /-- Jobs not taken up yet. -/
  source : List Job
  /-- Jobs taken up whose results are not given out yet. -/
  inflight : List Slot := []
  abandoned : List Slot := []
  given : List Result := []
  submitted : Nat := 0
  sink : Sink := {}

namespace Run

/-! ### Notes -/

def unservedNote (f : SourceFile) : Anomaly where
  path := f.path
  digest := f.digest
  kind := if f.language = .unknown then .langUnknown else .skipped
  severity := .info
  detail := "No translation driver for language " ++ f.language.label

def expiredNote (f : SourceFile) (limit : Number.Seconds) : Anomaly where
  path := f.path
  digest := f.digest
  kind := .timeout
  severity := .error
  detail := "Translation exceeded timeout (" ++ limit.text ++ "s)"

def noteWork (f : SourceFile) (elapsed : Float) (outcome : Except Mishap Points) (s : Sink) : Sink :=
  match outcome with
  | .ok _ => (s.incr "translate_files_ok_total" 1).observe "translate_seconds" elapsed
  | .error m =>
    ((s.incr ("translate_failed_" ++ m.stage.label ++ "_total") 1).observe "translate_seconds"
      elapsed).emit (.ofFailure f.path f.digest m.stage.label m.code m.detail m.line?)

/-! ### Moves -/

def canSubmit (reg : Registry) (r : Run) : Bool :=
  decide (r.inflight.length < reg.window) && !r.source.isEmpty

/-- Takes up a job. One in a language without a reader is answered at once. -/
def submit (reg : Registry) (job : Job) (rest : List Job) (r : Run) : Run :=
  let sink := r.sink.incr "translate_submitted_total" 1
  match reg.readerFor? job.file.language with
  | none =>
    { r with
      source := rest
      inflight := r.inflight ++ [⟨r.submitted, job, none, some (.unserved job.file)⟩]
      submitted := r.submitted + 1
      sink := sink.emit (unservedNote job.file) }
  | some reader =>
    { r with
      source := rest
      inflight := r.inflight ++ [⟨r.submitted, job, some reader, none⟩]
      submitted := r.submitted + 1
      sink := sink }

def answer (n : Nat) (answer : Result) (slots : List Slot) : List Slot :=
  slots.map fun s => if s.number = n then { s with answer? := some answer } else s

def give (result : Result) (rest : List Slot) (r : Run) : Run :=
  { r with
    inflight := rest
    given := r.given ++ [result]
    sink := r.sink.incr "translate_completed_total" 1 }

def giveUp (reg : Registry) (slot : Slot) (rest : List Slot) (r : Run) : Run :=
  give (.expired slot.job.file slot.reader? reg.limit) rest
    { r with
      abandoned := r.abandoned ++ [slot]
      sink := (r.sink.incr "translate_timeouts_total" 1).emit (expiredNote slot.job.file reg.limit) }

inductive Event
  | submit
  | finish (number : Nat) (elapsed : Float)
  /-- The result of the first job in flight is given out. -/
  | give
  /-- The first job in flight is given up. -/
  | giveUp

/-- The job of a slot finishes; a slot without a reader, or with a result already, has nothing to
finish. -/
def finishSlot? (work : Work) (elapsed : Float) (s : Slot) (sink : Sink) :
    Option (Result × Sink) :=
  match s.answer?, s.reader? with
  | none, some reader =>
    some (.ofWork s.job.file reader elapsed (work s.job), noteWork s.job.file elapsed (work s.job) sink)
  | _, _ => none

/-- One move of a run; none if it cannot happen. Results are given out only when no job can be taken
up. -/
def step (reg : Registry) (work : Work) (r : Run) : Event → Option Run
  | .submit =>
    if r.canSubmit reg then
      match r.source with
      | job :: rest => some (r.submit reg job rest)
      | [] => none
    else none
  | .finish n elapsed =>
    match r.inflight.find? (·.number == n) with
    | some s =>
      (finishSlot? work elapsed s r.sink).map fun (result, sink) =>
        { r with inflight := answer n result r.inflight, sink }
    | none =>
      match r.abandoned.find? (·.number == n) with
      | some s =>
        (finishSlot? work elapsed s r.sink).map fun (result, sink) =>
          { r with abandoned := answer n result r.abandoned, sink }
      | none => none
  | .give =>
    if r.canSubmit reg then none
    else
      match r.inflight with
      | slot :: rest => slot.answer?.map fun result => r.give result rest
      | [] => none
  | .giveUp =>
    if r.canSubmit reg then none
    else
      match r.inflight with
      | slot :: rest => if slot.answer?.isNone then some (r.giveUp reg slot rest) else none
      | [] => none

def isExhausted (r : Run) : Bool := r.source.isEmpty && r.inflight.isEmpty

/-! ### Running to the end -/

/-- How long a job takes, and whether its reader ends within the limit. -/
structure Pace where
  elapsed : Float := 0.0
  inTime : Bool := true

def refillFrom (reg : Registry) : List Job → Run → Run
  | [], r => { r with source := [] }
  | job :: rest, r =>
    if r.inflight.length < reg.window then refillFrom reg rest (r.submit reg job rest)
    else { r with source := job :: rest }

def refill (reg : Registry) (r : Run) : Run := refillFrom reg r.source r

def move (reg : Registry) (work : Work) (e : Event) (r : Run) : Run :=
  (r.step reg work e).getD r

/-- Gives out the next result. The first job in flight finishes at its pace; if that is too slow the
job is given up, and finishes afterwards. -/
def next? (reg : Registry) (work : Work) (pace : Nat → Pace) (r : Run) :
    Option (Result × Run) :=
  let r := r.refill reg
  match r.inflight with
  | [] => none
  | slot :: _ =>
    let p := pace slot.number
    let finish : Event := .finish slot.number p.elapsed
    let r :=
      if slot.answer?.isSome then r.move reg work .give
      else if p.inTime || !Job.reachesReader (work slot.job) then
        (r.move reg work finish).move reg work .give
      else (r.move reg work .giveUp).move reg work finish
    r.given.getLast?.map fun result => (result, r)

/-- Gives out at most the given number of results. -/
def runFor (reg : Registry) (work : Work) (pace : Nat → Pace) : Nat → Run → Run
  | 0, r => r
  | n + 1, r =>
    match r.next? reg work pace with
    | some (_, r') => runFor reg work pace n r'
    | none => r

def complete (reg : Registry) (work : Work) (pace : Nat → Pace)
    (jobs : List Job) (sink : Sink) : Run :=
  runFor reg work pace jobs.length { source := jobs, sink }

end Run

end GroovySharp
