import GroovySharp.Proofs.BatchOutcome
import GroovySharp.Proofs.PacedRuns
import GroovySharp.Proofs.RunNotes
import GroovySharp.Proofs.StoreKeeping

/-!
# Batches in every order of events

While a batch takes in a result, jobs go on and note what comes of them.
-/

namespace GroovySharp.Batch

open Unicode Store List

/-! ### Events of a batch -/

structure Stand where
  progress : Progress
  /-- The result that was given out and is not taken in yet. -/
  held? : Option Result := none
  emitted : List Anomaly := []

inductive Move
  | run (e : Run.Event)
  | take

namespace Stand

/-- One move of a batch; none if it cannot happen. Until a result is taken in jobs can finish, but nothing
else happens in the run. -/
def step (cfg : Config) (work : Work) (st : Stand) : Move → Option Stand
  | .run e =>
    if st.held?.isSome && !e.finishes then none
    else
      (st.progress.run.step cfg.registry work e).map fun run =>
        { progress := { st.progress with run }
          held? := if e.gives then run.given.getLast? else st.held?
          emitted := st.emitted ++ Run.emits cfg.registry work st.progress.run e }
  | .take =>
    match st.held? with
    | none => none
    | some r =>
      match st.progress.take (max 1 cfg.flushEvery.toNat) r st.progress.run with
      | .error _ => none
      | .ok p => some { st with progress := p, held? := none }

def follow (cfg : Config) (work : Work) : List Move → Stand → Option Stand
  | [], st => some st
  | m :: ms, st => (st.step cfg work m).bind (follow cfg work ms)

end Stand

/-- A batch can end like this: its run is followed to the end in some order, with the results and the
anomalies given, and the store is finished. -/
inductive Concludes (cfg : Config) (work : Disk → Work) (now : Moment)
    (files : List SourceFile) (out : Path) (meta? : Option JsonValue) (sink : Sink) (d : Disk) :
    List Result → List Anomaly → Outcome → Prop
  | intro {store : Store} {d₁ : Disk} {ms : List Move} {st : Stand} {p : Progress} {d₂ : Disk}
      {store₂ : Store} (opened : Store.start cfg.store out d = .ok (store, d₁))
      (followed : Stand.follow cfg (work d₁) ms { progress := firstProgress cfg files sink store } = some st)
      (taken : st.held? = none) (ended : st.progress.run.Ended) (drained : st.progress.drain = .ok p)
      (finished : p.store.finalize now (receiptFields meta? p.run.sink) d₁ = (.ok d₂, store₂)) :
      Concludes cfg work now files out meta? sink d st.progress.run.given st.emitted
        { summary := { filesTotal := (sorted files).length, converted := p.converted, failed := p.failed
                       anomalies := p.run.sink.counts.get "total" }
          store := store₂
          disk := d₂ }

/-! ### Taking in -/

/-- Rows are added to the results, and anomalies go from the sink to the store. -/
structure Took (rows : List ResultRow) (p p' : Progress) : Prop where
  run : ∃ pending, p'.run = { p.run with sink := { p.run.sink with pending } }
  store : ∃ notes xs, Adds rows notes xs p.store p'.store ∧ notes ++ p'.run.sink.pending = p.run.sink.pending

section

variable {p p' : Progress} {r : Result} {every : Nat}

theorem took_drain (h : p.drain = .ok p') :
    Took [] p p' ∧ p'.run.sink.pending = [] ∧ p'.converted = p.converted ∧ p'.failed = p.failed := by
  unfold Progress.drain at h
  split at h
  · cases h
  · next store hstore =>
    cases h
    have hadds := adds_appendAnomalies hstore
    exact ⟨⟨⟨[], rfl⟩, p.run.sink.pending, [], hadds, append_nil _⟩, rfl, rfl, rfl⟩

theorem took_flush (h : p.flush = .ok p') : Took [] p p' ∧ p'.converted = p.converted ∧ p'.failed = p.failed := by
  unfold Progress.flush at h
  split at h
  · cases h
  · next store hstore =>
    obtain ⟨⟨hrun, notes, xs, hadds, hnotes⟩, -, hcounts⟩ := took_drain h
    exact ⟨⟨hrun, notes, xs, (adds_flushAll hstore).trans hadds, hnotes⟩, hcounts⟩

theorem took_take (h : p.take every r p.run = .ok p') :
    Took [rowOf r] p p' ∧ p'.converted = p.converted + [r].countP Result.ok ∧
      p'.failed = p.failed + [r].countP (!·.ok) := by
  unfold Progress.take at h
  split at h
  · cases h
  · next store hstore =>
    have hadds := adds_appendResult hstore
    let taken : Progress :=
      { run := p.run, store
        converted := if r.ok then p.converted + 1 else p.converted
        failed := if r.ok then p.failed else p.failed + 1 }
    have hcounts : taken.converted = p.converted + [r].countP Result.ok ∧
        taken.failed = p.failed + [r].countP (!·.ok) := by
      cases hok : r.ok <;> simp [taken, hok]
    change (if (taken.converted + taken.failed) % every = 0 then taken.flush else .ok taken) = _ at h
    split at h
    · obtain ⟨⟨hrun, notes, xs, hflushed, hnotes⟩, hconverted, hfailed⟩ := took_flush h
      exact ⟨⟨hrun, notes, deliveries r ++ xs, hadds.trans hflushed, hnotes⟩,
        hconverted.trans hcounts.1, hfailed.trans hcounts.2⟩
    · obtain rfl : p' = taken := (Except.ok.inj h).symm
      exact ⟨⟨⟨p.run.sink.pending, rfl⟩, [], deliveries r, hadds, rfl⟩, hcounts⟩

end

/-! ### What every move keeps -/

/-- What holds in every order of events of a batch of jobs that began with a store and a sink. -/
structure Standing (cfg : Config) (work : Work) (jobs : List Job) (sink : Sink)
    (store : Store) (st : Stand) : Prop where
  ordered : ∃ done ahead, Run.Ordered cfg.registry work True done ahead st.progress.run ∧
    jobs = done ++ ahead ++ st.progress.run.source
  /-- The results given out are taken in but for the one that is held. The anomalies taken in and those
  that wait are those that waited at first and those noted. -/
  taken : ∃ taken notes xs, st.progress.run.given = taken ++ st.held?.toList ∧
    Adds (taken.map rowOf) notes xs store st.progress.store ∧
    notes ++ st.progress.run.sink.pending = sink.pending ++ st.emitted ∧
    st.progress.converted = taken.countP Result.ok ∧ st.progress.failed = taken.countP (!·.ok)
  total : st.progress.run.sink.counts.get "total" = sink.counts.get "total" + st.emitted.length

section

variable {cfg : Config} {work : Work} {jobs : List Job} {sink : Sink}
  {store : Store} {st st' : Stand} {m : Move} {ms : List Move}

theorem standing_start (cfg : Config) (work : Work) (jobs : List Job) (sink : Sink)
    (store : Store) : Standing cfg work jobs sink store { progress := { run := { source := jobs, sink }, store } } where
  ordered := ⟨[], [], Run.ordered_start jobs sink, rfl⟩
  taken := ⟨[], [], [], rfl, .refl store, (append_nil _).symm, rfl, rfl⟩
  total := (Int.add_zero _).symm

theorem Standing.run {e : Run.Event} (h : Standing cfg work jobs sink store st)
    (hstep : st.step cfg work (.run e) = some st') : Standing cfg work jobs sink store st' := by
  obtain ⟨done, ahead, hordered, hjobs⟩ := h.ordered
  obtain ⟨taken, notes, xs, hgiven, hadds, hnotes, hcounts⟩ := h.taken
  simp only [Stand.step] at hstep
  split at hstep
  · cases hstep
  next hfree =>
  obtain ⟨run, hrun, rfl⟩ := Option.map_eq_some_iff.mp hstep
  have hmove := Run.moves_of_step hrun
  obtain ⟨done', ahead', hordered', hsame⟩ := hordered.moves hmove fun _ => trivial
  refine ⟨⟨done', ahead', hordered', hjobs.trans hsame.symm⟩, ⟨taken, notes, xs, ?_, hadds, ?_, hcounts⟩, ?_⟩
  · rcases hmove.given with ⟨hquiet, heq⟩ | ⟨hgives, result, heq⟩
    · rw [hquiet]
      exact heq.trans hgiven
    · -- a result is given out only when none is held
      have hnone : st.held? = none := by
        cases hheld : st.held? with
        | none => rfl
        | some held =>
          have hfinishes : e.finishes = true := by simpa [hheld] using hfree
          cases e <;> simp [Run.Event.gives, Run.Event.finishes] at hgives hfinishes
      rw [hnone, Option.toList_none, append_nil] at hgiven
      simp only [hgives, if_true, heq, hgiven, getLast?_concat, Option.toList_some]
  · dsimp only
    rw [(hordered.notes_moves hmove).1, ← append_assoc, hnotes, append_assoc]
  · dsimp only
    rw [(hordered.notes_moves hmove).2, h.total, length_append, Nat.cast_add, Int.add_assoc]

theorem Standing.take (h : Standing cfg work jobs sink store st)
    (hstep : st.step cfg work .take = some st') : Standing cfg work jobs sink store st' := by
  obtain ⟨done, ahead, hordered, hjobs⟩ := h.ordered
  obtain ⟨taken, notes, xs, hgiven, hadds, hnotes, hconverted, hfailed⟩ := h.taken
  have htotal := h.total
  simp only [Stand.step] at hstep
  split at hstep
  · cases hstep
  next r hheld =>
  split at hstep
  · cases hstep
  next p hp =>
  cases hstep
  obtain ⟨⟨⟨pending, hrun⟩, notes', xs', hadds', hnotes'⟩, hconverted', hfailed'⟩ := took_take hp
  refine ⟨?_, ⟨taken ++ [r], notes ++ notes', xs ++ xs', ?_, ?_, ?_, ?_, ?_⟩, ?_⟩
  · rw [hrun]
    exact ⟨done, ahead, ⟨hordered.given, hordered.underway, hordered.submitted, hordered.window,
      hordered.abandoned, hordered.distinct⟩, hjobs⟩
  · rw [hrun, Option.toList_none, append_nil]
    rw [hheld, Option.toList_some] at hgiven
    exact hgiven
  · rw [map_append]
    exact hadds.trans hadds'
  · rw [append_assoc, hnotes', hnotes]
  · rw [hconverted', hconverted, countP_append]
  · rw [hfailed', hfailed, countP_append]
  · rw [hrun]
    exact htotal

theorem Standing.follow (h : Standing cfg work jobs sink store st)
    (hms : Stand.follow cfg work ms st = some st') : Standing cfg work jobs sink store st' := by
  induction ms generalizing st with
  | nil => exact Option.some.inj hms ▸ h
  | cons m ms ih =>
    obtain ⟨st₁, hstep, hrest⟩ := Option.bind_eq_some_iff.mp hms
    cases m with
    | run e => exact ih (h.run hstep) hrest
    | take => exact ih (h.take hstep) hrest

end

end GroovySharp.Batch
