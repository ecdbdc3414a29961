import GroovySharp.Proofs.WorkedAlone
import Mathlib.Algebra.Order.Group.Multiset

/-!
# Work that ends after its job was given up

A job that is given up goes on, and what it comes to is noted and counted when it ends, although its
result was given out before.
-/

namespace GroovySharp

open Unicode List

def Result.note? (r : Result) : Option Anomaly :=
  if r.ok then none
  else match r.stage?, r.reader? with
    | some stage, _ => some (.ofFailure r.file.path r.file.digest stage (r.errorCode?.getD "")
        (r.error?.getD "") r.errorLine?)
    | none, none => some (Run.unservedNote r.file)
    | none, some _ => some (Run.expiredNote r.file r.elapsed)

def Accounted (received : List Anomaly) (given : List Result) : Prop :=
  ∃ notes, notes.Perm received ∧ List.Forall₂ (fun a result => a.path = result.file.path ∧
    a.digest = result.file.digest) notes (given.filter (!·.ok))

theorem Accounted.length_eq {received : List Anomaly} {given : List Result}
    (h : Accounted received given) : received.length = (given.filter (!·.ok)).length := by
  obtain ⟨notes, hperm, hnotes⟩ := h
  rw [← hperm.length_eq, hnotes.length_eq]

theorem forall₂_notes (given : List Result) :
    List.Forall₂ (fun a result => a.path = result.file.path ∧ a.digest = result.file.digest)
      (given.filterMap Result.note?) (given.filter (!·.ok)) := by
  induction given with
  | nil => exact .nil
  | cons result given ih =>
    cases hok : result.ok with
    | true =>
      have hnote : result.note? = none := by rw [Result.note?, hok, if_pos rfl]
      rw [filterMap_cons_none hnote, filter_cons_of_neg (by simp [hok])]
      exact ih
    | false =>
      obtain ⟨a, hnote, habout⟩ : ∃ a, result.note? = some a ∧ a.path = result.file.path ∧
          a.digest = result.file.digest := by
        unfold Result.note?
        rw [hok, if_neg Bool.false_ne_true]
        split <;> exact ⟨_, rfl, rfl, rfl⟩
      rw [filterMap_cons_some hnote, filter_cons_of_pos (by simp [hok])]
      exact .cons habout ih

namespace Run

/-! ### What a result stands for -/

section

variable {reg : Registry} {work : Work} {job : Job} {result : Result}

theorem Worked.note? (h : Worked reg work job result) : result.note?.toList = jobNotes reg work job := by
  unfold Worked at h
  unfold jobNotes
  cases hreader : reg.readerFor? job.file.language with
  | none =>
    rw [hreader] at h
    rw [show result = .unserved job.file from h]
    rfl
  | some reader =>
    rw [hreader] at h
    obtain ⟨elapsed, rfl⟩ := h
    cases work job <;> rfl

theorem Worked.ok (h : Worked reg work job result) : result.ok = converts reg work job := by
  unfold Worked at h
  unfold converts
  split at h
  · next hreader =>
    rw [h, hreader]
    rfl
  · next hreader =>
    obtain ⟨elapsed, rfl⟩ := h
    rw [hreader]
    cases work job <;> rfl

theorem Expired.note? (h : Expired reg job result) : result.note?.toList = [expiredNote job.file reg.limit] := by
  obtain ⟨reader, -, rfl⟩ := h
  rfl

theorem Expired.ok (h : Expired reg job result) : result.ok = false := by
  obtain ⟨reader, -, rfl⟩ := h
  rfl

theorem converts_of_jobNotes_eq_nil (h : jobNotes reg work job = []) : converts reg work job = true := by
  unfold jobNotes at h
  unfold converts
  split at h
  · cases h
  · next reader hreader =>
    rw [hreader]
    cases hwork : work job with
    | ok output => rfl
    | error m =>
      rw [hwork] at h
      cases h

end

/-! ### Sums at the end -/

theorem total_of_ended {M : Type*} [AddCommMonoid M] (f : Result → M) (v : Job → M) {r : Run}
    (h : r.Ended) : total f v r = (r.given.map f).sum + (r.abandoned.map fun s => v s.job).sum := by
  obtain ⟨hexhausted, hanswered⟩ := h
  have hinflight : r.inflight = [] := by
    simp only [isExhausted, Bool.and_eq_true, List.isEmpty_iff] at hexhausted
    exact hexhausted.2
  have hslots : r.abandoned.map (slotWorth v) = r.abandoned.map fun s => v s.job :=
    map_congr_left fun s hs => if_pos (hanswered s hs)
  rw [total, hinflight, hslots, map_nil, sum_nil, add_zero]

theorem sum_map_coe {α β : Type*} (g : α → List β) (l : List α) :
    (l.map fun a => (↑(g a) : Multiset β)).sum = ↑(l.flatMap g) := by
  induction l with
  | nil => rfl
  | cons a l ih => rw [map_cons, sum_cons, ih, flatMap_cons, Multiset.coe_add]

theorem sum_map_ite {α : Type*} (p : α → Bool) (l : List α) :
    (l.map fun a => if p a then (1 : Int) else 0).sum = l.countP p := by
  induction l with
  | nil => rfl
  | cons a l ih =>
    rw [map_cons, sum_cons, ih, countP_cons]
    cases p a
    · simp
    · simp [Int.add_comm]

/-! ### What a run notes and counts -/

section

variable {reg : Registry} {work : Work} {jobs : List Job} {sink : Sink}
  {es : List Event} {r r' : Run} {e : Event}

theorem received_follow (h : follow reg work es { source := jobs, sink } = some r) :
    ∃ received, r.sink.pending = sink.pending ++ received ∧
      (received : Multiset Anomaly) = total (fun result => ↑result.note?.toList)
        (fun job => ↑(jobNotes reg work job)) r := by
  refine ordered_induction (P := fun r => ∃ received, r.sink.pending = sink.pending ++ received ∧
    (received : Multiset Anomaly) = total (fun result => ↑result.note?.toList)
      (fun job => ↑(jobNotes reg work job)) r) ⟨[], (append_nil _).symm, rfl⟩ ?_ h
  rintro r r' e done ahead hordered hmove ⟨received, hpending, htotal⟩
  refine ⟨received ++ emits reg work r e, ?_, ?_⟩
  · rw [(hordered.notes_moves hmove).1, hpending, List.append_assoc]
  · have hmoves := hordered.total_moves (f := fun result => (↑result.note?.toList : Multiset Anomaly))
      (v := fun job => ↑(jobNotes reg work job)) (x := fun job => ↑[expiredNote job.file reg.limit])
      (fun job result hworked => congrArg _ hworked.note?)
      (fun job result hexpired => congrArg _ hexpired.note?) hmove
    have hemits := apply_worth (fun l : List Anomaly => (↑l : Multiset Anomaly)) [] reg
      (jobNotes reg work) (fun job => [expiredNote job.file reg.limit]) r e
    rw [hmoves, ← Multiset.coe_add, htotal]
    exact congrArg _ hemits

theorem converted_follow (h : follow reg work es { source := jobs, sink } = some r) :
    r.sink.counts.get "translate_files_ok_total" = sink.counts.get "translate_files_ok_total" +
      total (fun result => if result.ok then 1 else 0) (fun job => if converts reg work job then 1 else 0) r := by
  refine ordered_induction (P := fun r => r.sink.counts.get "translate_files_ok_total" =
    sink.counts.get "translate_files_ok_total" + total (fun result => if result.ok then 1 else 0)
      (fun job => if converts reg work job then 1 else 0) r) (Int.add_zero _).symm ?_ h
  intro r r' e done ahead hordered hmove hr
  rw [hordered.get_converted_moves hmove, hr, hordered.total_moves (x := fun _ => 0) ?_ ?_ hmove, Int.add_assoc]
  · intro job result hworked
    rw [hworked.ok]
  · intro job result hexpired
    rw [hexpired.ok]
    rfl

theorem Moves.abandoned_eq_nil_iff (h : Moves reg work r e r') :
    r'.abandoned = [] ↔ r.abandoned = [] ∧ e ≠ .giveUp := by
  cases h with
  | @submit job rest room next =>
    unfold Run.submit
    cases reg.readerFor? job.file.language <;> simp
  | finish elapsed found open_ reads => simp
  | finishLate elapsed absent found open_ reads => simp [answer]
  | give full first answered => simp [Run.give]
  | giveUp full first open_ => simp [Run.giveUp, Run.give]

theorem abandoned_follow_eq_nil_iff (h : follow reg work es r = some r') :
    r'.abandoned = [] ↔ r.abandoned = [] ∧ .giveUp ∉ es := by
  induction es generalizing r with
  | nil =>
    cases h
    simp
  | cons e es ih =>
    obtain ⟨r₁, hstep, hrest⟩ := Option.bind_eq_some_iff.mp h
    rw [ih hrest, (moves_of_step hstep).abandoned_eq_nil_iff, mem_cons, not_or, and_assoc, ne_comm]

structure Balance (reg : Registry) (work : Work) (sink : Sink) (es : List Event)
    (r : Run) (received : List Anomaly) : Prop where
  pending : r.sink.pending = sink.pending ++ received
  /-- The anomalies received are those of the failed results and those of late work. -/
  notes : received.Perm (r.given.filterMap Result.note? ++ r.abandoned.flatMap fun s => jobNotes reg work s.job)
  /-- Late work is counted as well. -/
  converted : r.sink.counts.get "translate_files_ok_total" =
    sink.counts.get "translate_files_ok_total" + r.given.countP Result.ok +
      r.abandoned.countP (fun s => converts reg work s.job)
  /-- Anomalies and results agree, and so do converted files and results, if no job was given up and
  only then. -/
  accounted : Accounted received r.given ∧ r.sink.counts.get "translate_files_ok_total" =
    sink.counts.get "translate_files_ok_total" + r.given.countP Result.ok ↔ .giveUp ∉ es

/-- In whatever order jobs finish and are given up, each failed result has its one anomaly in the end, and
the converted files are counted right, exactly when no job was given up. -/
theorem exists_balance (reg : Registry) (work : Work) (jobs : List Job)
    (sink : Sink) (es : List Event) (r : Run)
    (h : follow reg work es { source := jobs, sink } = some r) (hended : r.Ended) :
    ∃ received, Balance reg work sink es r received := by
  obtain ⟨received, hpending, hreceived⟩ := received_follow h
  have hconverted := converted_follow h
  rw [total_of_ended _ _ hended, sum_map_coe, sum_map_coe (fun s : Slot => jobNotes reg work s.job),
    Multiset.coe_add, Multiset.coe_eq_coe, ← List.filterMap_eq_flatMap_toList] at hreceived
  rw [total_of_ended _ _ hended, sum_map_ite, sum_map_ite (fun s : Slot => converts reg work s.job),
    ← Int.add_assoc] at hconverted
  refine ⟨received, hpending, hreceived, hconverted, ?_⟩
  have habandoned : r.abandoned = [] ↔ .giveUp ∉ es :=
    (abandoned_follow_eq_nil_iff h).trans (and_iff_right rfl)
  rw [← habandoned]
  constructor
  · rintro ⟨haccounted, hcounted⟩
    have hlength := hreceived.length_eq
    rw [haccounted.length_eq, List.length_append, ← (forall₂_notes r.given).length_eq] at hlength
    refine List.eq_nil_iff_forall_not_mem.mpr fun s hs => ?_
    -- late work is noted or counted
    have hnotes : jobNotes reg work s.job = [] := by
      have hflat : r.abandoned.flatMap (fun s => jobNotes reg work s.job) = [] :=
        List.eq_nil_of_length_eq_zero (by omega)
      exact List.flatMap_eq_nil_iff.mp hflat s hs
    have hcount : 0 < r.abandoned.countP fun s => converts reg work s.job :=
      List.countP_pos_iff.mpr ⟨s, hs, converts_of_jobNotes_eq_nil hnotes⟩
    omega
  · intro hnil
    rw [hnil, List.flatMap_nil, List.append_nil] at hreceived
    rw [hnil, List.countP_nil, Nat.cast_zero, Int.add_zero] at hconverted
    exact ⟨⟨_, hreceived.symm, forall₂_notes r.given⟩, hconverted⟩

end

def givenUpLate : List Event := [.submit, .giveUp, .finish 0 0]

theorem exists_balance_givenUpLate : ∃ r, follow twoWorkers (Job.work default {}) givenUpLate
        { source := [jobOf "a.groovy" .groovy "x = 1\n"] } = some r ∧ r.Ended ∧
      ∃ received, Balance twoWorkers (Job.work default {}) {} givenUpLate r received := by
  have hends : (follow twoWorkers (Job.work default {}) givenUpLate
      { source := [jobOf "a.groovy" .groovy "x = 1\n"] }).map
        (fun r => (r.isExhausted, r.abandoned.all (·.answer?.isSome))) = some (true, true) := rfl
  obtain ⟨r, hr, heq⟩ := Option.map_eq_some_iff.mp hends
  have hended : r.Ended := ⟨(Prod.mk.inj heq).1, List.all_eq_true.mp (Prod.mk.inj heq).2⟩
  exact ⟨r, hr, hended, exists_balance twoWorkers (Job.work default {}) _ {} givenUpLate r hr hended⟩

/-- Late work is counted as converted though no result is, and leaves a second anomaly. -/
theorem late_work_unaccounted : (follow twoWorkers (Job.work default {}) givenUpLate
        { source := [jobOf "a.groovy" .groovy "x = 1\n"] }).map (fun r => (r.given.map Result.ok,
          r.sink.counts.get "translate_files_ok_total")) = some ([false], 1) ∧
      (follow twoWorkers (Job.work default {}) givenUpLate
        { source := [jobOf "a.groovy" .groovy "x = = 1\n"] }).map (fun r => (r.given.map Result.ok,
          r.sink.pending.map Anomaly.kind)) = some ([false], [.timeout, .parseFailed]) := by
  decide +kernel

end Run

end GroovySharp
