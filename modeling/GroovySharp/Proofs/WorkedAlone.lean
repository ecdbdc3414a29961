import GroovySharp.Proofs.RunNotes

/-!
# Jobs in parallel give what each job gives alone

Whatever the order in which the jobs in flight finish, as long as none is given up the results come out
in the order of the jobs, each is what the four stages make of that job alone, and the window bounds how
far the run is ahead of its results.
-/

namespace GroovySharp

open Unicode

/-! ### One text through the stages -/

/-- The first stage at which a text fails, and what is said about it. -/
inductive FailsAt (options : Conversion.Options) (source : Chars) : Stage → Complaint → Prop
  | normalize {f : Source.StructuralFault} (fault : Source.normalize source = .error f) :
      FailsAt options source .normalize (.reported f.report)
  | parse {settled : Chars} {f : Program.Fault} (normalized : Source.normalize source = .ok settled)
      (fault : Program.read settled = .error f) : FailsAt options source .parse f.complaint
  | transform {settled : Chars} {tree : Tree} {f : Conversion.Fault}
      (normalized : Source.normalize source = .ok settled) (parsed : Program.read settled = .ok tree)
      (fault : Conversion.convert options tree = .error f) :
      FailsAt options source .transform f.complaint
  | render {settled : Chars} {tree : Tree} {unit : CSharp.CompilationUnit}
      {warnings : List Conversion.Warning} {m : CSharp.Misplaced}
      (normalized : Source.normalize source = .ok settled) (parsed : Program.read settled = .ok tree)
      (converted : Conversion.convert options tree = .ok (unit, warnings))
      (fault : CSharp.render CSharp.fourSpaces unit = .error m) :
      FailsAt options source .render (.broken ⟨"TypeError", m.message⟩)

variable {options : Conversion.Options}

theorem failsAt_of_compile {source : Chars} {f : Failure}
    (h : compile options source = .error f) : FailsAt options source f.stage f.complaint := by
  unfold compile model at h
  cases hnormalize : Source.normalize source with
  | error g =>
    rw [hnormalize] at h
    cases h
    exact .normalize hnormalize
  | ok settled =>
    cases hread : Program.read settled with
    | error g =>
      simp only [hnormalize, hread, Except.mapError, bind, Except.bind] at h
      cases h
      exact .parse hnormalize hread
    | ok tree =>
      cases hconvert : Conversion.convert options tree with
      | error g =>
        simp only [hnormalize, hread, hconvert, Except.mapError, bind, Except.bind] at h
        cases h
        exact .transform hnormalize hread hconvert
      | ok x =>
        obtain ⟨unit, warnings⟩ := x
        cases hrender : CSharp.render CSharp.fourSpaces unit with
        | error m =>
          simp only [hnormalize, hread, hconvert, hrender, Except.mapError, bind, Except.bind] at h
          cases h
          exact .render hnormalize hread hconvert hrender
        | ok text =>
          simp only [hnormalize, hread, hconvert, hrender, Except.mapError, bind, Except.bind] at h
          cases h

/-! ### One job alone -/

structure Result.Carries (r : Result) (output : Points) : Prop where
  ok : r.ok = true
  output? : r.output? = some output
  stage? : r.stage? = none
  errorCode? : r.errorCode? = none
  error? : r.error? = none
  errorLine? : r.errorLine? = none

structure Result.Fails (r : Result) (stage : Stage) (code detail : String) (line? : Option Int) :
    Prop where
  ok : r.ok = false
  output? : r.output? = none
  stage? : r.stage? = some stage.label
  errorCode? : r.errorCode? = some code
  error? : r.error? = some detail
  errorLine? : r.errorLine? = line?

def Result.Tells (r : Result) (stage : Stage) : Complaint → Prop
  | .reported report => r.Fails stage report.code report.describe report.lineStart
  | .broken b => r.Fails stage "INTERNAL" b.describe none

inductive Alone (d : Disk) (options : Conversion.Options) (job : Job) (r : Result) : Prop
  | converted {cs : Chars} {output : Points} {warnings : List Conversion.Warning}
      (text : job.text d = .ok cs) (compiled : compile options cs = .ok (output, warnings))
      (carries : r.Carries output)
  | failed {cs : Chars} {f : Failure} {stage : Stage} {complaint : Complaint}
      (text : job.text d = .ok cs) (compiled : compile options cs = .error f)
      (fails : FailsAt options cs stage complaint) (tells : r.Tells stage complaint)
  | unread {m : Mishap} (text : job.text d = .error m) (stage : m.stage = .read)
      (fails : r.Fails .read m.code m.detail m.line?)

def AloneIn (reg : Registry) (d : Disk) (options : Conversion.Options) (job : Job) (r : Result) : Prop :=
  r.file = job.file ∧ r.reader? = reg.readerFor? job.file.language ∧
    match reg.readerFor? job.file.language with
    | none => r = .unserved job.file
    | some _ => Alone d options job r

theorem stage_of_text_eq_error {d : Disk} {job : Job} {m : Mishap} (h : job.text d = .error m) : m.stage = .read := by
  unfold Job.text Job.decode at h
  split at h
  · cases h
  · split at h
    · split at h
      · split at h
        · cases h
        · cases h
          rfl
      · split at h
        · cases h
        · cases h
          rfl
    · cases h
      rfl

def Mishap.ofFailure (f : Failure) : Mishap := .ofComplaint f.stage f.complaint

/-- The stages of a job do what the compilation of its text does. -/
theorem work_eq_compile (d : Disk) (options : Conversion.Options) (job : Job) :
    job.work d options = job.text d >>= fun cs => ((compile options cs).map (·.1)).mapError Mishap.ofFailure := by
  unfold Job.work
  cases job.text d with
  | error m => rfl
  | ok cs =>
    simp only [bind, Except.bind, Except.mapError, compile, model]
    cases Source.normalize cs with
    | error f => rfl
    | ok settled =>
      dsimp only
      cases Program.read settled with
      | error f => rfl
      | ok tree =>
        dsimp only
        cases Conversion.convert options tree with
        | error f => rfl
        | ok x =>
          dsimp only
          cases CSharp.render CSharp.fourSpaces x.1 <;> rfl

theorem tells_ofFailure (file : SourceFile) (reader : ReaderInfo) (elapsed : Float) (f : Failure) :
    (Result.ofWork file reader elapsed (.error (.ofFailure f))).Tells f.stage f.complaint := by
  rw [Mishap.ofFailure]
  cases f.complaint with
  | reported report | broken b => exact ⟨rfl, rfl, rfl, rfl, rfl, rfl⟩

theorem alone_ofWork (d : Disk) (options : Conversion.Options) (job : Job) (reader : ReaderInfo)
    (elapsed : Float) : Alone d options job (.ofWork job.file reader elapsed (job.work d options)) := by
  rw [work_eq_compile]
  cases htext : job.text d with
  | error m =>
    have hstage := stage_of_text_eq_error htext
    have hlabel : some m.stage.label = some Stage.read.label := by rw [hstage]
    exact .unread htext hstage ⟨rfl, rfl, hlabel, rfl, rfl, rfl⟩
  | ok cs =>
    simp only [bind, Except.bind]
    cases hcompile : compile options cs with
    | ok x => exact .converted htext hcompile ⟨rfl, rfl, rfl, rfl, rfl, rfl⟩
    | error f =>
      exact .failed htext hcompile (failsAt_of_compile hcompile) (tells_ofFailure job.file reader elapsed f)

theorem aloneIn_of_worked {reg : Registry} {d : Disk} {job : Job}
    {result : Result} (h : Run.Worked reg (Job.work d options) job result) : AloneIn reg d options job result := by
  unfold Run.Worked at h
  unfold AloneIn
  cases hreader : reg.readerFor? job.file.language with
  | none =>
    rw [hreader] at h
    obtain rfl : result = .unserved job.file := h
    exact ⟨rfl, rfl, rfl⟩
  | some reader =>
    rw [hreader] at h
    obtain ⟨elapsed, rfl⟩ := h
    refine ⟨?_, ?_, alone_ofWork d options job reader elapsed⟩
    · cases Job.work d options job <;> rfl
    · cases Job.work d options job <;> rfl

namespace Run

/-! ### All jobs -/

/-- What a run of jobs shows after some events, if none of the jobs is given up. -/
structure Faithful (reg : Registry) (d : Disk) (options : Conversion.Options) (jobs : List Job)
    (sink : Sink) (es : List Event) (r : Run) : Prop where
  /-- The results are those of the first jobs, in their order. -/
  given : List.Forall₂ (AloneIn reg d options) (jobs.take r.given.length) r.given
  source : r.source = jobs.drop r.submitted
  window : r.submitted ≤ r.given.length + max 1 reg.workers.toNat
  /-- How many jobs were taken up when a result is given out that `k` others precede. -/
  lookahead : ∀ k, es.getLast? = some .give → r.given.length = k + 1 → r.submitted ≤ k + max 1 reg.workers.toNat
  submitted : r.sink.counts.get "translate_submitted_total" =
    sink.counts.get "translate_submitted_total" + r.submitted
  completed : r.sink.counts.get "translate_completed_total" =
    sink.counts.get "translate_completed_total" + r.given.length
  bounded : es.length ≤ 3 * jobs.length
  progress : r.isExhausted = false → ∃ e r', e ≠ .giveUp ∧ r.step reg (Job.work d options) e = some r'
  ended : r.isExhausted = true → r.given.length = jobs.length ∧ r.submitted = jobs.length

section

variable {reg : Registry} {work : Work} {jobs done ahead : List Job} {sink : Sink}
  {es : List Event} {late : Prop} {r r' : Run}

theorem counted_follow (h : follow reg work es { source := jobs, sink } = some r) :
    r.sink.counts.get "translate_submitted_total" =
        sink.counts.get "translate_submitted_total" + r.submitted ∧
      r.sink.counts.get "translate_completed_total" =
        sink.counts.get "translate_completed_total" + r.given.length := by
  refine follow_induction (P := fun r => r.sink.counts.get "translate_submitted_total" =
      sink.counts.get "translate_submitted_total" + r.submitted ∧
    r.sink.counts.get "translate_completed_total" =
      sink.counts.get "translate_completed_total" + r.given.length) ?_ ?_ h
  · exact ⟨(Int.add_zero _).symm, (Int.add_zero _).symm⟩
  · rintro r r' e - ⟨hsubmitted, hcompleted⟩ hmove
    obtain ⟨hsubmitted', hcompleted'⟩ := hmove.counted
    omega

theorem Ordered.length_given (h : Ordered reg work late done ahead r) : r.given.length = done.length :=
  h.given.length_eq.symm

theorem Ordered.submitted_le (h : Ordered reg work late done ahead r) : r.submitted ≤ r.given.length + reg.window := by
  have hlength := h.underway.length_eq
  have hwindow := h.window
  rw [h.submitted, h.length_given]
  omega

theorem submitted_le_of_give {k : Nat} (h : follow reg work es { source := jobs, sink } = some r)
    (hlast : es.getLast? = some .give) (hlength : r.given.length = k + 1) :
    r.submitted ≤ k + reg.window := by
  obtain ⟨before, rfl⟩ := List.getLast?_eq_some_iff.mp hlast
  rw [follow_append] at h
  obtain ⟨r₀, hbefore, hgive⟩ := Option.bind_eq_some_iff.mp h
  obtain ⟨r₁, hstep, hend⟩ := Option.bind_eq_some_iff.mp hgive
  cases hend
  obtain ⟨done, ahead, hordered, -⟩ := ordered_follow hbefore
  have hle := hordered.submitted_le
  cases moves_of_step hstep with
  | give full first answered =>
    rw [Run.give, List.length_append, List.length_singleton] at hlength
    exact Nat.succ.inj hlength ▸ hle

/-- Whatever the order in which jobs finish, the run is faithful to its jobs. -/
theorem faithful_of_follow (reg : Registry) (d : Disk) (options : Conversion.Options) (jobs : List Job)
    (sink : Sink) (es : List Event) (r : Run) (hes : .giveUp ∉ es)
    (h : follow reg (Job.work d options) es { source := jobs, sink } = some r) :
    Faithful reg d options jobs sink es r := by
  obtain ⟨done, ahead, hordered, hjobs⟩ := ordered_follow h
  obtain ⟨hsubmitted, hcompleted⟩ := counted_follow h
  have hlength := hordered.length_given
  have hstart : Ordered reg (Job.work d options) False [] [] { source := jobs, sink } :=
    ordered_start jobs sink
  have hbounded := hstart.length_add_remaining_le hes h
  refine ⟨?_, ?_, hordered.submitted_le, fun k => submitted_le_of_give h, hsubmitted, hcompleted, ?_,
    hordered.exists_step, ?_⟩
  · rw [hlength, hjobs, List.append_assoc, List.take_left]
    refine hordered.given.imp fun job result hsettled => ?_
    rcases hsettled with hworked | ⟨hlate, -⟩
    · exact aloneIn_of_worked hworked
    · exact absurd hlate hes
  · rw [hjobs, hordered.submitted, ← List.length_append, List.drop_left]
  · have hall : remaining { source := jobs, sink } = 3 * jobs.length := rfl
    omega
  · intro hexhausted
    obtain ⟨hsource, hinflight⟩ : r.source = [] ∧ r.inflight = [] := by simpa [isExhausted] using hexhausted
    have hahead := hordered.underway.length_eq
    rw [hinflight, List.length_nil] at hahead
    rw [hlength, hordered.submitted, hjobs, hsource, List.eq_nil_of_length_eq_zero hahead]
    simp

end

def jobOf (name : String) (language : Language) (text : String) : Job where
  file := { path := name, realPath := "", digest := "", size := 0, language }
  text? := some text.toList

def twoWorkers : Registry where
  readers := [(.groovy, .groovy)]
  workers := 2

/-- The second job finishes before the first, and no reader serves the third. -/
theorem faithful_of_overtaking :
    let jobs := [jobOf "a.groovy" .groovy "x = 1\n", jobOf "b.groovy" .groovy "x = = 1\n",
      jobOf "c.md" .unknown "x"]
    let es : List Event :=
      [.submit, .submit, .finish 1 0, .finish 0 0, .give, .submit, .give, .give]
    .giveUp ∉ es ∧ ∃ r, follow twoWorkers (Job.work default {}) es { source := jobs } = some r ∧
      r.isExhausted = true ∧ Faithful twoWorkers default {} jobs {} es r := by
  intro jobs es
  have hes : Event.giveUp ∉ es := by simp [es]
  have hends : (follow twoWorkers (Job.work default {}) es { source := jobs }).map isExhausted = some true := rfl
  obtain ⟨r, hr, hexhausted⟩ := Option.map_eq_some_iff.mp hends
  exact ⟨hes, r, hr, hexhausted, faithful_of_follow twoWorkers default {} jobs {} es r hes hr⟩

end Run

end GroovySharp
