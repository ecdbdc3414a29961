import GroovySharp.Proofs.Schedules

/-!
# What a run leaves in its sink

A job that no reader serves is noted when it is taken up, one that fails when it finishes, and one that
is given up at that moment.
-/

namespace GroovySharp

open List Sink

/-! ### Counters that anomalies do not touch -/

def Sink.Unlisted (name : String) : Prop :=
  name ≠ "total" ∧ (∀ k : AnomalyKind, name ≠ "kind:" ++ k.label) ∧
    ∀ v : Severity, name ≠ "sev:" ++ v.label

theorem Sink.get_emit_of_unlisted {name : String} (h : Unlisted name) (a : Anomaly) (s : Sink) :
    (s.emit a).counts.get name = s.counts.get name := by
  obtain ⟨htotal, hkind, hseverity⟩ := h
  rw [get_emit, count_eq_zero.mpr]
  · exact Int.add_zero _
  · simp [htotal, hkind, hseverity]

theorem Sink.get_emit_total (a : Anomaly) (s : Sink) :
    (s.emit a).counts.get "total" = s.counts.get "total" + 1 := by
  have hkind : ∀ k : AnomalyKind, "kind:" ++ k.label ≠ "total" := by
    intro k
    cases k <;> decide
  have hseverity : ∀ v : Severity, "sev:" ++ v.label ≠ "total" := by
    intro v
    cases v <;> decide
  rw [get_emit, count_cons_self, count_eq_zero.mpr]
  · rfl
  · simp [(hkind a.kind).symm, (hseverity a.severity).symm]

namespace Run

open Unicode

def Own (name : String) : Prop :=
  Sink.Unlisted name ∧ ∀ stage : Stage, name ≠ "translate_failed_" ++ stage.label ++ "_total"

theorem own_counters : ∀ name ∈ ["translate_submitted_total", "translate_completed_total",
    "translate_files_ok_total"], Own name := by
  intro name hname
  simp only [mem_cons, not_mem_nil, or_false] at hname
  rcases hname with rfl | rfl | rfl
  all_goals
    refine ⟨⟨by decide, fun k => ?_, fun v => ?_⟩, fun stage => ?_⟩
    · cases k <;> decide
    · cases v <;> decide
    · cases stage <;> decide

/-! ### Notes on work -/

def workNotes (f : SourceFile) : Except Mishap Points → List Anomaly
  | .ok _ => []
  | .error m => [.ofFailure f.path f.digest m.stage.label m.code m.detail m.line?]

def jobNotes (reg : Registry) (work : Work) (job : Job) : List Anomaly :=
  match reg.readerFor? job.file.language with
  | none => [unservedNote job.file]
  | some _ => workNotes job.file (work job)

def converts (reg : Registry) (work : Work) (job : Job) : Bool :=
  (reg.readerFor? job.file.language).isSome && (work job).isOk

section

variable {f : SourceFile} {elapsed : Float} {outcome : Except Mishap Points} {s : Sink}

theorem pending_noteWork : (noteWork f elapsed outcome s).pending = s.pending ++ workNotes f outcome := by
  cases outcome with
  | ok output => exact (append_nil _).symm
  | error m => rfl

theorem get_total_noteWork : (noteWork f elapsed outcome s).counts.get "total" =
    s.counts.get "total" + (workNotes f outcome).length := by
  cases outcome with
  | ok output =>
    rw [noteWork, get_observe, get_incr]
    rfl
  | error m =>
    have hname : "total" ≠ "translate_failed_" ++ m.stage.label ++ "_total" := by
      cases m.stage <;> decide
    rw [noteWork, get_emit_total, get_observe, get_incr, if_neg hname, Int.add_zero]
    rfl

theorem get_noteWork {name : String} (h : Own name) :
    (noteWork f elapsed outcome s).counts.get name = s.counts.get name +
      if name = "translate_files_ok_total" ∧ outcome.isOk then 1 else 0 := by
  cases outcome with
  | ok output =>
    rw [noteWork, get_observe, get_incr]
    simp [Except.isOk, Except.toBool]
  | error m =>
    rw [noteWork, get_emit_of_unlisted h.1, get_observe, get_incr, if_neg (h.2 m.stage)]
    simp [Except.isOk, Except.toBool]

end

/-! ### Notes of an event -/

def emits (reg : Registry) (work : Work) (r : Run) (e : Event) : List Anomaly :=
  worth [] reg (jobNotes reg work) (fun job => [expiredNote job.file reg.limit]) r e

section

variable {reg : Registry} {work : Work} {late : Prop} {done ahead : List Job}
  {r r' : Run} {e : Event}

theorem Ordered.readerFor?_eq {slot : Slot} {reader : ReaderInfo}
    (h : Ordered reg work late done ahead r) (hs : slot ∈ r.inflight ∨ slot ∈ r.abandoned)
    (hreads : slot.reader? = some reader) : reg.readerFor? slot.job.file.language = some reader := by
  rcases hs with hs | hs
  · rw [← (h.underway.serves hs).reads, hreads]
  · rw [← (h.abandoned slot hs).2.1.reads, hreads]

theorem jobNotes_of_reads {job : Job} {reader : ReaderInfo} (h : reg.readerFor? job.file.language = some reader) :
    jobNotes reg work job = workNotes job.file (work job) := by
  rw [jobNotes, h]

theorem Ordered.notes_moves (h : Ordered reg work late done ahead r) (hmove : Moves reg work r e r') :
    r'.sink.pending = r.sink.pending ++ emits reg work r e ∧
      r'.sink.counts.get "total" = r.sink.counts.get "total" + (emits reg work r e).length := by
  cases hmove with
  | @submit job rest room next =>
    cases hreader : reg.readerFor? job.file.language <;>
      simp [emits, worth, next, submit, hreader, jobNotes, get_emit_total, get_incr]
  | @finish slot reader elapsed found open_ reads =>
    have hreader := h.readerFor?_eq (.inl (mem_of_find?_eq_some found)) reads
    simp only [emits, worth, find?_append, found, Option.some_or]
    exact jobNotes_of_reads hreader ▸ ⟨pending_noteWork .., get_total_noteWork ..⟩
  | @finishLate slot reader elapsed absent found open_ reads =>
    have hreader := h.readerFor?_eq (.inr (mem_of_find?_eq_some found)) reads
    simp only [emits, worth, find?_append, absent, found, Option.none_or]
    exact jobNotes_of_reads hreader ▸ ⟨pending_noteWork .., get_total_noteWork ..⟩
  | give full first answered => simp [emits, worth, Run.give, get_incr]
  | giveUp full first open_ => simp [emits, worth, first, Run.giveUp, Run.give, get_emit_total, get_incr]

theorem Ordered.get_converted_moves (h : Ordered reg work late done ahead r) (hmove : Moves reg work r e r') :
    r'.sink.counts.get "translate_files_ok_total" = r.sink.counts.get "translate_files_ok_total" +
      worth 0 reg (fun job => if converts reg work job then 1 else 0) (fun _ => 0) r e := by
  have hown := own_counters "translate_files_ok_total" (by decide)
  cases hmove with
  | @submit job rest room next =>
    cases hreader : reg.readerFor? job.file.language <;>
      simp [worth, next, submit, hreader, converts, get_emit_of_unlisted hown.1, get_incr]
  | @finish slot reader elapsed found open_ reads =>
    have hreader := h.readerFor?_eq (.inl (mem_of_find?_eq_some found)) reads
    simp [worth, find?_append, found, get_noteWork hown, converts, hreader]
  | @finishLate slot reader elapsed absent found open_ reads =>
    have hreader := h.readerFor?_eq (.inr (mem_of_find?_eq_some found)) reads
    simp [worth, find?_append, absent, found, get_noteWork hown, converts, hreader]
  | give full first answered => simp [worth, Run.give, get_incr]
  | giveUp full first open_ => simp [worth, first, Run.giveUp, Run.give, get_emit_of_unlisted hown.1, get_incr]

theorem Moves.counted (hmove : Moves reg work r e r') :
    r'.sink.counts.get "translate_submitted_total" - r'.submitted =
        r.sink.counts.get "translate_submitted_total" - r.submitted ∧
      r'.sink.counts.get "translate_completed_total" - r'.given.length =
        r.sink.counts.get "translate_completed_total" - r.given.length := by
  have hown := own_counters "translate_submitted_total" (by decide)
  have hown' := own_counters "translate_completed_total" (by decide)
  cases hmove with
  | @submit job rest room next =>
    cases hreader : reg.readerFor? job.file.language <;>
      simp [Run.submit, hreader, get_emit_of_unlisted hown.1, get_emit_of_unlisted hown'.1, get_incr]
  | finish | finishLate => simp [get_noteWork hown, get_noteWork hown']
  | give full first answered => simp [Run.give, get_incr]
  | giveUp full first open_ =>
    simp [Run.giveUp, Run.give, get_emit_of_unlisted hown.1, get_emit_of_unlisted hown'.1, get_incr]

end

end Run

end GroovySharp
