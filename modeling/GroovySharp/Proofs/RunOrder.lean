import GroovySharp.Registry.Run
import Mathlib.Data.List.Basic

/-!
# Results come in the order of the jobs

The jobs in flight are always the next ones of the list, with consecutive numbers.
-/

namespace GroovySharp.Run

open Unicode List

/-! ### What comes of a job -/

def resultOf (reg : Registry) (work : Work) (pace : Nat → Pace) (n : Nat)
    (job : Job) : Result :=
  match reg.readerFor? job.file.language with
  | none => .unserved job.file
  | some reader =>
    if (pace n).inTime || !Job.reachesReader (work job) then
      .ofWork job.file reader (pace n).elapsed (work job)
    else .expired job.file (some reader) reg.limit

def resultsFrom (reg : Registry) (work : Work) (pace : Nat → Pace) :
    Nat → List Job → List Result
  | _, [] => []
  | n, job :: jobs => resultOf reg work pace n job :: resultsFrom reg work pace (n + 1) jobs

theorem file_resultOf (reg : Registry) (work : Work) (pace : Nat → Pace) (n : Nat)
    (job : Job) : (resultOf reg work pace n job).file = job.file := by
  rw [resultOf]
  split
  · rfl
  · split
    · cases work job <;> rfl
    · rfl

def slotOf (reg : Registry) (n : Nat) (job : Job) : Slot :=
  match reg.readerFor? job.file.language with
  | none => ⟨n, job, none, some (.unserved job.file)⟩
  | some reader => ⟨n, job, some reader, none⟩

def slots (reg : Registry) : Nat → List Job → List Slot
  | _, [] => []
  | n, job :: jobs => slotOf reg n job :: slots reg (n + 1) jobs

section

variable {reg : Registry} {n : Nat} {job : Job} {jobs : List Job} {r : Run}

theorem number_slotOf : (slotOf reg n job).number = n := by
  unfold slotOf
  split <;> rfl

theorem job_slotOf : (slotOf reg n job).job = job := by
  unfold slotOf
  split <;> rfl

variable {rest more : List Job} {slot : Slot}

theorem inflight_submit : (r.submit reg job rest).inflight = r.inflight ++ [slotOf reg r.submitted job] := by
  unfold submit slotOf
  cases reg.readerFor? job.file.language <;> rfl

theorem source_submit : (r.submit reg job rest).source = rest := by
  unfold submit
  cases reg.readerFor? job.file.language <;> rfl

theorem submitted_submit : (r.submit reg job rest).submitted = r.submitted + 1 := by
  unfold submit
  cases reg.readerFor? job.file.language <;> rfl

theorem slots_concat (ahead : List Job) :
    slots reg n (ahead ++ [job]) = slots reg n ahead ++ [slotOf reg (n + ahead.length) job] := by
  induction ahead generalizing n with
  | nil => rfl
  | cons a ahead ih => rw [cons_append, slots, ih, slots, length_cons, cons_append, Nat.add_right_comm, ← Nat.add_assoc]

theorem length_slots : (slots reg n jobs).length = jobs.length := by
  induction jobs generalizing n with
  | nil => rfl
  | cons job jobs ih => simp [slots, ih]

theorem le_number {s : Slot} (h : s ∈ slots reg n jobs) : n ≤ s.number := by
  induction jobs generalizing n with
  | nil => cases h
  | cons job jobs ih =>
    rcases mem_cons.mp h with rfl | h
    · exact Nat.le_of_eq number_slotOf.symm
    · exact Nat.le_of_succ_le (ih h)

/-! ### Runs in order -/

/-- The jobs whose results are still to come: those in flight, numbered from `n` on, and behind them
those that are not taken up. -/
def Awaits (reg : Registry) (n : Nat) (jobs : List Job) (r : Run) : Prop :=
  ∃ ahead, jobs = ahead ++ r.source ∧ r.inflight = slots reg n ahead ∧ r.submitted = n + ahead.length

def weight (r : Run) : Nat := r.sink.pending.length + 3 * r.source.length + 2 * r.inflight.length

theorem submit_awaits (h : r.Awaits reg n jobs) (hs : r.source = job :: rest) :
    (r.submit reg job rest).Awaits reg n jobs ∧ (r.submit reg job rest).weight ≤ r.weight := by
  obtain ⟨ahead, hjobs, hinflight, hsubmitted⟩ := h
  have hslot : (r.submit reg job rest).inflight = slots reg n (ahead ++ [job]) := by
    rw [slots_concat, ← hinflight, ← hsubmitted, inflight_submit]
  have hpending : (r.submit reg job rest).sink.pending.length ≤ r.sink.pending.length + 1 := by
    unfold submit
    cases reg.readerFor? job.file.language <;> simp [Sink.incr, Sink.emit]
  refine ⟨⟨ahead ++ [job], ?_, hslot, ?_⟩, ?_⟩
  · rw [hjobs, hs, source_submit, append_assoc, singleton_append]
  · rw [submitted_submit, hsubmitted, length_append, length_singleton, Nat.add_assoc]
  · have hlength : (r.submit reg job rest).inflight.length = r.inflight.length + 1 := by
      rw [hslot, hinflight, length_slots, length_slots, length_append, length_singleton]
    simp only [weight, hlength, source_submit, hs, length_cons]
    omega

theorem canSubmit_refillFrom {source : List Job} (hs : r.source = source) :
    (refillFrom reg source r).canSubmit reg = false := by
  induction source generalizing r with
  | nil => simp [refillFrom, canSubmit]
  | cons job rest ih =>
    rw [refillFrom]
    split
    · exact ih source_submit
    · next hfull => simp [canSubmit, hfull]

/-- What holds of a run and of each run with one more job in flight holds after jobs are taken up. -/
theorem refillFrom_induction {P : Run → Prop} {source : List Job} (hs : r.source = source) (h : P r)
    (hsubmit : ∀ r job rest, r.inflight.length < reg.window → r.source = job :: rest → P r →
      P (r.submit reg job rest)) : P (refillFrom reg source r) := by
  induction source generalizing r with
  | nil => rwa [refillFrom, ← hs]
  | cons job rest ih =>
    rw [refillFrom]
    split
    · next hroom => exact ih source_submit (hsubmit r job rest hroom hs h)
    · rwa [← hs]

theorem refillFrom_awaits {source : List Job} (hs : r.source = source) (h : r.Awaits reg n jobs) :
    (refillFrom reg source r).Awaits reg n jobs ∧ (refillFrom reg source r).weight ≤ r.weight :=
  refillFrom_induction (P := fun r' => r'.Awaits reg n jobs ∧ r'.weight ≤ r.weight) hs ⟨h, Nat.le_refl _⟩
    fun _ _ _ _ hs h => (submit_awaits h.1 hs).imp_right (Nat.le_trans · h.2)

theorem refill_awaits (h : r.Awaits reg n (job :: jobs)) :
    ∃ more, (r.refill reg).inflight = slotOf reg n job :: slots reg (n + 1) more ∧
      jobs = more ++ (r.refill reg).source ∧ (r.refill reg).submitted = n + 1 + more.length ∧
      (r.refill reg).canSubmit reg = false ∧ (r.refill reg).weight ≤ r.weight := by
  obtain ⟨⟨ahead, hjobs, hinflight, hsubmitted⟩, hle⟩ := refillFrom_awaits rfl h
  have hstop : (refillFrom reg r.source r).canSubmit reg = false := canSubmit_refillFrom rfl
  cases ahead with
  | nil =>
    -- nothing in flight and something left is room
    have hroom : (r.refill reg).canSubmit reg = true := by
      have hwindow : 0 < reg.window := Nat.lt_of_lt_of_le Nat.one_pos (Nat.le_max_left 1 _)
      have hsource : (r.refill reg).source = job :: jobs := hjobs.symm
      have hempty : (r.refill reg).inflight = [] := hinflight
      simp [canSubmit, hsource, hempty, hwindow]
    rw [refill, hstop] at hroom
    cases hroom
  | cons first more =>
    obtain ⟨rfl, hmore⟩ := cons.inj hjobs
    refine ⟨more, hinflight, hmore, ?_, hstop, hle⟩
    rw [refill, hsubmitted, length_cons]
    omega

/-! ### Giving out -/

theorem answer_first {result : Result} (h : slot.number = n) : answer n result (slot :: slots reg (n + 1) more) =
      { slot with answer? := some result } :: slots reg (n + 1) more := by
  have hrest : answer n result (slots reg (n + 1) more) = slots reg (n + 1) more := by
    refine (map_congr_left ?_).trans (map_id _)
    intro s hs
    have hle := le_number hs
    rw [if_neg (by omega), id]
  unfold answer at hrest ⊢
  rw [map_cons, if_pos h, hrest]

theorem move_give (work : Work) {rest : List Slot} {result : Result}
    (hc : r.canSubmit reg = false) (hi : r.inflight = slot :: rest)
    (ha : slot.answer? = some result) : r.move reg work .give = r.give result rest := by
  simp [move, step, hc, hi, ha]

theorem move_giveUp (work : Work) {rest : List Slot}
    (hc : r.canSubmit reg = false) (hi : r.inflight = slot :: rest) (ha : slot.answer? = none) :
    r.move reg work .giveUp = r.giveUp reg slot rest := by
  simp [move, step, hc, hi, ha]

theorem move_finish (work : Work) {reader : ReaderInfo} (elapsed : Float)
    (hreader : reg.readerFor? job.file.language = some reader)
    (hi : r.inflight = slotOf reg n job :: slots reg (n + 1) more) : r.move reg work (.finish n elapsed) = { r with
        inflight := ⟨n, job, some reader, some (.ofWork job.file reader elapsed (work job))⟩ :: slots reg (n + 1) more
        sink := noteWork job.file elapsed (work job) r.sink } := by
  have hslot : slotOf reg n job = ⟨n, job, some reader, none⟩ := by rw [slotOf, hreader]
  rw [hslot] at hi
  simp only [move, step, hi, find?_cons, beq_self_eq_true, finishSlot?, Option.map_some, Option.getD_some, answer_first]

theorem length_pending_noteWork (f : SourceFile) (elapsed : Float) (outcome : Except Mishap Points)
    (sink : Sink) : (noteWork f elapsed outcome sink).pending.length ≤ sink.pending.length + 1 := by
  cases outcome <;> simp [noteWork, Sink.incr, Sink.observe, Sink.emit]

theorem move_finish_abandoned (work : Work) (elapsed : Float)
    (hi : r.inflight = slots reg (n + 1) more) :
    ∃ abandoned sink, r.move reg work (.finish n elapsed) = { r with abandoned, sink } ∧
      sink.pending.length ≤ r.sink.pending.length + 1 := by
  have hnone : r.inflight.find? (·.number == n) = none := by
    rw [find?_eq_none, hi]
    intro s hs
    have hle := le_number hs
    simp only [beq_iff_eq]
    omega
  have hsame : ∃ abandoned sink, r = { r with abandoned, sink } ∧
      sink.pending.length ≤ r.sink.pending.length + 1 := ⟨_, _, rfl, Nat.le_succ _⟩
  simp only [move, step, hnone]
  cases hf : r.abandoned.find? (·.number == n) with
  | none => exact hsame
  | some s =>
    cases hfinish : finishSlot? work elapsed s r.sink with
    | none =>
      simp only [hfinish]
      exact hsame
    | some finished =>
      simp only [hfinish]
      refine ⟨_, finished.2, rfl, ?_⟩
      unfold finishSlot? at hfinish
      split at hfinish
      · cases hfinish
        exact length_pending_noteWork ..
      · cases hfinish

theorem next?_awaits (work : Work) (pace : Nat → Pace) (h : r.Awaits reg n (job :: jobs)) :
    ∃ r', r.next? reg work pace = some (resultOf reg work pace n job, r') ∧
      r'.Awaits reg (n + 1) jobs ∧ r'.weight ≤ r.weight := by
  obtain ⟨more, hinflight, hjobs, hsubmitted, hstop, hle⟩ := refill_awaits h
  -- what the three ways to give out a result have in common
  have hgiven {r' : Run} {result : Result} (hg : r'.given = (r.refill reg).given ++ [result])
      (hi : r'.inflight = slots reg (n + 1) more) (hs : r'.source = (r.refill reg).source)
      (hn : r'.submitted = (r.refill reg).submitted)
      (hp : r'.sink.pending.length ≤ (r.refill reg).sink.pending.length + 2) :
      ∃ r'', (r'.given.getLast?.map fun x => (x, r')) = some (result, r'') ∧
        r''.Awaits reg (n + 1) jobs ∧ r''.weight ≤ r.weight := by
    refine ⟨r', by simp [hg], ⟨more, hs ▸ hjobs, hi, hn.trans hsubmitted⟩, Nat.le_trans ?_ hle⟩
    simp only [weight, hi, hs, hinflight, length_cons]
    omega
  rw [next?]
  simp only [hinflight, number_slotOf, job_slotOf]
  cases hreader : reg.readerFor? job.file.language with
  | none =>
    have hslot : slotOf reg n job = ⟨n, job, none, some (.unserved job.file)⟩ := by rw [slotOf, hreader]
    have hmove : (r.refill reg).move reg work .give =
        (r.refill reg).give (.unserved job.file) (slots reg (n + 1) more) :=
      move_give work hstop (hslot ▸ hinflight) rfl
    have hanswer : (slotOf reg n job).answer?.isSome = true := by rw [hslot]; rfl
    simp only [hanswer, if_true, hmove, resultOf, hreader]
    exact hgiven rfl rfl rfl rfl (Nat.le_add_right _ 2)
  | some reader =>
    have hslot : slotOf reg n job = ⟨n, job, some reader, none⟩ := by rw [slotOf, hreader]
    have hanswer : (slotOf reg n job).answer?.isSome = false := by rw [hslot]; rfl
    simp only [hanswer, Bool.false_eq_true, if_false, resultOf, hreader]
    cases (pace n).inTime || !Job.reachesReader (work job) with
    | true =>
      have hfinish := move_finish work (pace n).elapsed hreader hinflight
      have hroom : ((r.refill reg).move reg work (.finish n (pace n).elapsed)).canSubmit reg = false := by
        rw [← hstop, hfinish, canSubmit, canSubmit, hinflight]
        rfl
      have hmove := move_give work hroom (congrArg Run.inflight hfinish) rfl
      simp only [if_true, hmove]
      refine hgiven ?_ rfl ?_ ?_ ?_
      · rw [give, hfinish]
      · rw [give, hfinish]
      · rw [give, hfinish]
      · rw [give, hfinish]
        exact Nat.le_succ_of_le (length_pending_noteWork ..)
    | false =>
      have hmove : (r.refill reg).move reg work .giveUp =
          (r.refill reg).giveUp reg (slotOf reg n job) (slots reg (n + 1) more) :=
        move_giveUp work hstop hinflight (Option.not_isSome_iff_eq_none.mp (by simp [hanswer]))
      have hi : ((r.refill reg).giveUp reg (slotOf reg n job) (slots reg (n + 1) more)).inflight =
          slots reg (n + 1) more := rfl
      obtain ⟨abandoned, sink, hfinish, hpending⟩ := move_finish_abandoned work (pace n).elapsed hi
      simp only [Bool.false_eq_true, if_false, hmove, hfinish]
      refine hgiven ?_ hi rfl rfl ?_
      · rw [giveUp, hslot]
        rfl
      · simpa [giveUp, give, Sink.incr, Sink.emit] using hpending

end

end GroovySharp.Run
