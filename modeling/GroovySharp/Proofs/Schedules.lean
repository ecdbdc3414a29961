import GroovySharp.Proofs.RunOrder
import Mathlib.Algebra.BigOperators.Group.List.Basic
import Mathlib.Data.List.Forall2
import Mathlib.Data.List.Nodup
import Mathlib.Tactic.Abel

/-!
# Every order of events

Jobs finish in any order, in time or after they were given up.
-/

namespace GroovySharp.Run

open Unicode List

def follow (reg : Registry) (work : Work) : List Event → Run → Option Run
  | [], r => some r
  | e :: es, r => (r.step reg work e).bind (follow reg work es)

/-! ### What an event can do -/

inductive Moves (reg : Registry) (work : Work) (r : Run) : Event → Run → Prop
  | submit {job : Job} {rest : List Job} (room : r.inflight.length < reg.window)
      (next : r.source = job :: rest) : Moves reg work r .submit (r.submit reg job rest)
  | finish {slot : Slot} {reader : ReaderInfo} (elapsed : Float)
      (found : r.inflight.find? (·.number == slot.number) = some slot)
      (open_ : slot.answer? = none) (reads : slot.reader? = some reader) :
      Moves reg work r (.finish slot.number elapsed) { r with
          inflight :=
            answer slot.number (.ofWork slot.job.file reader elapsed (work slot.job)) r.inflight
          sink := noteWork slot.job.file elapsed (work slot.job) r.sink }
  | finishLate {slot : Slot} {reader : ReaderInfo} (elapsed : Float)
      (absent : r.inflight.find? (·.number == slot.number) = none)
      (found : r.abandoned.find? (·.number == slot.number) = some slot)
      (open_ : slot.answer? = none) (reads : slot.reader? = some reader) :
      Moves reg work r (.finish slot.number elapsed) { r with
          abandoned :=
            answer slot.number (.ofWork slot.job.file reader elapsed (work slot.job)) r.abandoned
          sink := noteWork slot.job.file elapsed (work slot.job) r.sink }
  | give {slot : Slot} {rest : List Slot} {result : Result} (full : r.canSubmit reg = false)
      (first : r.inflight = slot :: rest) (answered : slot.answer? = some result) :
      Moves reg work r .give (r.give result rest)
  | giveUp {slot : Slot} {rest : List Slot} (full : r.canSubmit reg = false)
      (first : r.inflight = slot :: rest) (open_ : slot.answer? = none) :
      Moves reg work r .giveUp (r.giveUp reg slot rest)

section

variable {reg : Registry} {work : Work} {r r' : Run} {e : Event}

theorem canSubmit_iff : r.canSubmit reg = true ↔
    r.inflight.length < reg.window ∧ ∃ job rest, r.source = job :: rest := by
  cases hs : r.source with
  | nil | cons job rest => simp [canSubmit, hs]

theorem finishSlot?_eq_some {elapsed : Float} {s : Slot} {sink : Sink} {x : Result × Sink}
    (h : finishSlot? work elapsed s sink = some x) : ∃ reader, s.answer? = none ∧ s.reader? = some reader ∧
      x = (.ofWork s.job.file reader elapsed (work s.job), noteWork s.job.file elapsed (work s.job) sink) := by
  unfold finishSlot? at h
  split at h
  · next reader hopen hreads => exact ⟨reader, hopen, hreads, (Option.some.inj h).symm⟩
  · cases h

theorem moves_of_step (h : r.step reg work e = some r') : Moves reg work r e r' := by
  cases e with
  | submit =>
    simp only [step] at h
    split at h
    · next hcan =>
      obtain ⟨room, job, rest, hs⟩ := canSubmit_iff.mp hcan
      rw [hs] at h
      cases h
      exact .submit room hs
    · cases h
  | finish n elapsed =>
    simp only [step] at h
    split at h
    · next s hfound =>
      obtain ⟨⟨result, sink⟩, hfinish, rfl⟩ := Option.map_eq_some_iff.mp h
      obtain ⟨reader, hopen, hreads, heq⟩ := finishSlot?_eq_some hfinish
      obtain rfl : s.number = n := by simpa using find?_some hfound
      cases heq
      exact .finish elapsed hfound hopen hreads
    · next habsent =>
      split at h
      · next s hfound =>
        obtain ⟨⟨result, sink⟩, hfinish, rfl⟩ := Option.map_eq_some_iff.mp h
        obtain ⟨reader, hopen, hreads, heq⟩ := finishSlot?_eq_some hfinish
        obtain rfl : s.number = n := by simpa using find?_some hfound
        cases heq
        exact .finishLate elapsed habsent hfound hopen hreads
      · cases h
  | give =>
    simp only [step] at h
    split at h
    · cases h
    · next hcan =>
      split at h
      · next slot rest hfirst =>
        obtain ⟨result, hanswer, rfl⟩ := Option.map_eq_some_iff.mp h
        exact .give (Bool.not_eq_true _ ▸ hcan) hfirst hanswer
      · cases h
  | giveUp =>
    simp only [step] at h
    split at h
    · cases h
    · next hcan =>
      split at h
      · next slot rest hfirst =>
        split at h
        · next hopen =>
          cases h
          exact .giveUp (Bool.not_eq_true _ ▸ hcan) hfirst (Option.isNone_iff_eq_none.mp hopen)
        · cases h
      · cases h

theorem follow_append (es es' : List Event) (r : Run) :
    follow reg work (es ++ es') r = (follow reg work es r).bind (follow reg work es') := by
  induction es generalizing r with
  | nil => rfl
  | cons e es ih =>
    simp only [cons_append, follow, Option.bind_assoc]
    exact Option.bind_congr fun r₁ _ => ih r₁

theorem follow_induction {P : Run → Prop} {es : List Event} (hr : P r)
    (hstep : ∀ r r' e, e ∈ es → P r → Moves reg work r e r' → P r') (h : follow reg work es r = some r') : P r' := by
  induction es generalizing r with
  | nil => exact Option.some.inj h ▸ hr
  | cons e es ih =>
    obtain ⟨r₁, hmove, hrest⟩ := Option.bind_eq_some_iff.mp h
    exact ih (hstep r r₁ e mem_cons_self hr (moves_of_step hmove))
      (fun s s' e' he' => hstep s s' e' (mem_cons_of_mem e he')) hrest

end

/-! ### Slots and their jobs -/

def Worked (reg : Registry) (work : Work) (job : Job) (result : Result) : Prop :=
  match reg.readerFor? job.file.language with
  | none => result = .unserved job.file
  | some reader => ∃ elapsed, result = .ofWork job.file reader elapsed (work job)

def Expired (reg : Registry) (job : Job) (result : Result) : Prop :=
  ∃ reader, reg.readerFor? job.file.language = some reader ∧ result = .expired job.file (some reader) reg.limit

/-- The slot of the job that was taken up as number `n`. -/
structure Serves (reg : Registry) (work : Work) (n : Nat) (job : Job)
    (s : Slot) : Prop where
  number : s.number = n
  job_eq : s.job = job
  reads : s.reader? = reg.readerFor? job.file.language
  open_reads : s.answer? = none → ∃ reader, s.reader? = some reader
  worked : ∀ result, s.answer? = some result → Worked reg work job result

/-- The slots of jobs numbered from `n` on. -/
inductive Underway (reg : Registry) (work : Work) :
    Nat → List Job → List Slot → Prop
  | nil (n : Nat) : Underway reg work n [] []
  | cons {n : Nat} {job : Job} {jobs : List Job} {s : Slot} {slots : List Slot}
      (first : Serves reg work n job s) (others : Underway reg work (n + 1) jobs slots) :
      Underway reg work n (job :: jobs) (s :: slots)

section

variable {reg : Registry} {work : Work} {n k : Nat} {job : Job}
  {jobs : List Job} {s : Slot} {slots : List Slot} {result : Result}

theorem serves_slotOf : Serves reg work n job (slotOf reg n job) := by
  refine ⟨number_slotOf, job_slotOf, ?_, ?_, ?_⟩
  all_goals
    unfold slotOf
    cases hreader : reg.readerFor? job.file.language with
    | none => simp [Worked, hreader]
    | some reader => simp

theorem Serves.answer (h : Serves reg work n job s) (hwork : Worked reg work job result) :
    Serves reg work n job { s with answer? := some result } :=
  ⟨h.number, h.job_eq, h.reads, nofun, fun _ heq => Option.some.inj heq ▸ hwork⟩

theorem Serves.worked_ofWork {reader : ReaderInfo} (h : Serves reg work n job s)
    (hreads : s.reader? = some reader) (elapsed : Float) :
    Worked reg work job (.ofWork s.job.file reader elapsed (work s.job)) := by
  rw [Worked, ← h.reads, hreads, h.job_eq]
  exact ⟨elapsed, rfl⟩

theorem Underway.length_eq (h : Underway reg work n jobs slots) : jobs.length = slots.length := by
  induction h with
  | nil => rfl
  | cons _ _ ih => simp [ih]

theorem Underway.numbers (h : Underway reg work n jobs slots) : slots.map Slot.number = List.range' n slots.length := by
  induction h with
  | nil => rfl
  | cons first _ ih => rw [map_cons, first.number, ih, length_cons, range'_succ]

theorem Underway.serves (h : Underway reg work n jobs slots) (hs : s ∈ slots) : Serves reg work s.number s.job s := by
  induction h with
  | nil => cases hs
  | cons first _ ih =>
    rcases mem_cons.mp hs with rfl | hs
    · exact first.number ▸ first.job_eq ▸ first
    · exact ih hs

theorem Underway.concat (h : Underway reg work n jobs slots) (hs : Serves reg work (n + jobs.length) job s) :
    Underway reg work n (jobs ++ [job]) (slots ++ [s]) := by
  induction h with
  | nil n => exact .cons hs (.nil _)
  | cons first _ ih =>
    refine .cons first (ih ?_)
    rwa [length_cons, Nat.add_comm _ 1, ← Nat.add_assoc] at hs

theorem Underway.answer (h : Underway reg work n jobs slots)
    (hwork : ∀ s ∈ slots, s.number = k → Worked reg work s.job result) :
    Underway reg work n jobs (answer k result slots) := by
  induction h with
  | nil n => exact .nil n
  | @cons n job jobs s slots first _ ih =>
    rw [forall_mem_cons] at hwork
    refine .cons ?_ (ih hwork.2)
    dsimp only
    split
    · next hk => exact first.answer (first.job_eq ▸ hwork.1 hk)
    · exact first

/-! ### One slot of many -/

theorem exists_split_of_find? (hnodup : (slots.map Slot.number).Nodup)
    (hfind : slots.find? (·.number == s.number) = some s) (result : Result) :
    ∃ before after, slots = before ++ s :: after ∧
      answer s.number result slots = before ++ { s with answer? := some result } :: after := by
  obtain ⟨-, before, after, rfl, hbefore⟩ := find?_eq_some_iff_append.mp hfind
  rw [map_append, map_cons, nodup_append, nodup_cons] at hnodup
  have hother {slots : List Slot} (hne : ∀ t ∈ slots, t.number ≠ s.number) :
      answer s.number result slots = slots := by
    refine (map_congr_left ?_).trans (map_id _)
    intro t ht
    rw [if_neg (hne t ht), id]
  have hfirst := hother fun t ht => by simpa using hbefore t ht
  have hlast := hother fun t (ht : t ∈ after) heq =>
    hnodup.2.1.1 (heq ▸ mem_map_of_mem ht)
  refine ⟨before, after, rfl, ?_⟩
  unfold Run.answer at hfirst hlast ⊢
  rw [map_append, map_cons, hfirst, hlast, if_pos rfl]

theorem number_answer (result : Result) (slots : List Slot) :
    (answer k result slots).map Slot.number = slots.map Slot.number := by
  unfold Run.answer
  rw [map_map]
  refine map_congr_left fun t _ => ?_
  rw [Function.comp_apply]
  split <;> rfl

theorem length_answer (result : Result) (slots : List Slot) : (answer k result slots).length = slots.length := by
  unfold Run.answer
  exact length_map _

theorem eq_of_find? {t : Slot} (hnodup : (slots.map Slot.number).Nodup)
    (hfind : slots.find? (·.number == s.number) = some s) (ht : t ∈ slots) (hnumber : t.number = s.number) : t = s :=
  inj_on_of_nodup_map hnodup ht (mem_of_find?_eq_some hfind) hnumber

end

theorem sum_answer {M : Type*} [AddCommMonoid M] (g : Slot → M) {s : Slot} {slots : List Slot}
    (hnodup : (slots.map Slot.number).Nodup) (hfind : slots.find? (·.number == s.number) = some s) (result : Result) :
    ((answer s.number result slots).map g).sum + g s = (slots.map g).sum + g { s with answer? := some result } := by
  obtain ⟨before, after, hslots, hanswer⟩ := exists_split_of_find? hnodup hfind result
  rw [hanswer, hslots]
  simp only [map_append, map_cons, sum_append, sum_cons]
  abel

/-! ### Runs in order -/

def Settled (reg : Registry) (work : Work) (late : Prop) (job : Job) (result : Result) : Prop :=
  Worked reg work job result ∨ late ∧ Expired reg job result

theorem Settled.file {reg : Registry} {work : Work} {late : Prop} {job : Job}
    {result : Result} (h : Settled reg work late job result) : result.file = job.file := by
  rcases h with hworked | ⟨-, reader, -, rfl⟩
  · unfold Worked at hworked
    split at hworked
    · rw [hworked]
      rfl
    · obtain ⟨elapsed, rfl⟩ := hworked
      cases work job <;> rfl
  · rfl

/-- The results of `done` are given out and the jobs of `ahead` are in flight. -/
structure Ordered (reg : Registry) (work : Work) (late : Prop)
    (done ahead : List Job) (r : Run) : Prop where
  given : List.Forall₂ (Settled reg work late) done r.given
  underway : Underway reg work done.length ahead r.inflight
  submitted : r.submitted = done.length + ahead.length
  window : r.inflight.length ≤ reg.window
  abandoned : ∀ s ∈ r.abandoned, s.number < done.length ∧ Serves reg work s.number s.job s ∧
    ∃ reader, s.reader? = some reader
  distinct : (r.abandoned.map Slot.number).Nodup

section

variable {reg : Registry} {work : Work} {late : Prop} {done ahead : List Job}
  {r r' : Run} {e : Event}

theorem Ordered.nodup (h : Ordered reg work late done ahead r) : (r.inflight.map Slot.number).Nodup := by
  rw [h.underway.numbers]
  exact nodup_range'

theorem ordered_start (jobs : List Job) (sink : Sink) : Ordered reg work late [] [] { source := jobs, sink } where
  given := .nil
  underway := .nil 0
  submitted := rfl
  window := Nat.zero_le _
  abandoned _ hs := absurd hs not_mem_nil
  distinct := nodup_nil

theorem kept_submit (reg : Registry) (r : Run) (job : Job) (rest : List Job) :
    (r.submit reg job rest).given = r.given ∧ (r.submit reg job rest).abandoned = r.abandoned := by
  unfold submit
  cases reg.readerFor? job.file.language <;> exact ⟨rfl, rfl⟩

theorem Ordered.first {slot : Slot} {rest : List Slot} (h : Ordered reg work late done ahead r)
    (hfirst : r.inflight = slot :: rest) : ∃ job jobs, ahead = job :: jobs ∧ Serves reg work done.length job slot := by
  have hunderway := h.underway
  rw [hfirst] at hunderway
  cases hunderway with
  | cons hslot _ => exact ⟨_, _, rfl, hslot⟩

theorem Ordered.pop {job : Job} {slot : Slot} {rest : List Slot} {result : Result}
    (h : Ordered reg work late done (job :: ahead) r) (hfirst : r.inflight = slot :: rest)
    (hsettled : Settled reg work late job result) :
    List.Forall₂ (Settled reg work late) (done ++ [job]) (r.given ++ [result]) ∧
      Underway reg work (done ++ [job]).length ahead rest ∧
      r.submitted = (done ++ [job]).length + ahead.length ∧ rest.length ≤ reg.window := by
  have hunderway := h.underway
  have hsubmitted := h.submitted
  have hwindow := h.window
  rw [hfirst] at hunderway hwindow
  rw [length_cons] at hwindow hsubmitted
  have hlength : (done ++ [job]).length = done.length + 1 := length_append
  rw [hlength]
  cases hunderway with
  | cons first others => exact ⟨rel_append h.given (.cons hsettled .nil), others, by omega, by omega⟩

/-- Each event keeps the run in order, and no job is lost. -/
theorem Ordered.moves (h : Ordered reg work late done ahead r) (hmove : Moves reg work r e r')
    (hlate : e = .giveUp → late) : ∃ done' ahead', Ordered reg work late done' ahead' r' ∧
      done' ++ ahead' ++ r'.source = done ++ ahead ++ r.source := by
  cases hmove with
  | @submit job rest room next =>
    refine ⟨done, ahead ++ [job], ⟨?_, ?_, ?_, ?_, ?_, ?_⟩, ?_⟩
    · exact (kept_submit reg r job rest).1 ▸ h.given
    · rw [inflight_submit]
      exact h.underway.concat (h.submitted ▸ serves_slotOf)
    · rw [submitted_submit, h.submitted, length_append, length_singleton, Nat.add_assoc]
    · rw [inflight_submit, length_append, length_singleton]
      exact room
    · exact (kept_submit reg r job rest).2 ▸ h.abandoned
    · exact (kept_submit reg r job rest).2 ▸ h.distinct
    · rw [source_submit, next]
      simp
  | @finish slot reader elapsed found open_ reads =>
    have hserves := h.underway.serves (mem_of_find?_eq_some found)
    refine ⟨done, ahead, ⟨h.given, h.underway.answer fun t ht hnumber => ?_, h.submitted, ?_,
      h.abandoned, h.distinct⟩, rfl⟩
    · rw [eq_of_find? h.nodup found ht hnumber]
      exact hserves.worked_ofWork reads elapsed
    · rw [length_answer]
      exact h.window
  | @finishLate slot reader elapsed absent found open_ reads =>
    have hserves := (h.abandoned slot (mem_of_find?_eq_some found)).2.1
    refine ⟨done, ahead, ⟨h.given, h.underway, h.submitted, h.window, fun t ht => ?_, ?_⟩, rfl⟩
    · obtain ⟨s, hs, rfl⟩ := mem_map.mp ht
      obtain ⟨hbefore, hserves', hreader⟩ := h.abandoned s hs
      split
      · next hnumber =>
        refine ⟨hbefore, hserves'.answer ?_, hreader⟩
        rw [eq_of_find? h.distinct found hs hnumber]
        exact hserves.worked_ofWork reads elapsed
      · exact ⟨hbefore, hserves', hreader⟩
    · rw [number_answer]
      exact h.distinct
  | @give slot rest result full first answered =>
    obtain ⟨job, ahead, rfl, hslot⟩ := h.first first
    obtain ⟨hgiven, hrest, hsubmitted, hwindow⟩ :=
      h.pop first (.inl (hslot.worked result answered))
    refine ⟨done ++ [job], ahead, ⟨hgiven, hrest, hsubmitted, hwindow, fun s hs => ?_,
      h.distinct⟩, by simp [Run.give]⟩
    obtain ⟨hbefore, hs'⟩ := h.abandoned s hs
    exact ⟨Nat.lt_of_lt_of_le hbefore (by simp), hs'⟩
  | @giveUp slot rest full first open_ =>
    obtain ⟨job, ahead, rfl, hslot⟩ := h.first first
    obtain ⟨reader, hreader⟩ := hslot.open_reads open_
    have hexpired : Expired reg job (.expired slot.job.file slot.reader? reg.limit) :=
      ⟨reader, hslot.reads ▸ hreader, by rw [hslot.job_eq, hreader]⟩
    obtain ⟨hgiven, hrest, hsubmitted, hwindow⟩ := h.pop first (.inr ⟨hlate rfl, hexpired⟩)
    have hnumber : slot.number < (done ++ [job]).length := by
      rw [hslot.number, length_append, length_singleton]
      exact Nat.lt_succ_self _
    refine ⟨done ++ [job], ahead, ⟨hgiven, hrest, hsubmitted, hwindow, fun s hs => ?_, ?_⟩,
      by simp [Run.giveUp, Run.give]⟩
    · rcases mem_append.mp hs with hs | hs
      · obtain ⟨hbefore, hs'⟩ := h.abandoned s hs
        exact ⟨Nat.lt_of_lt_of_le hbefore (by simp), hs'⟩
      · obtain rfl := mem_singleton.mp hs
        exact ⟨hnumber, hslot.number ▸ hslot.job_eq ▸ hslot, reader, hreader⟩
    · -- the job in flight has a number that no job before it has
      simp only [Run.giveUp, Run.give, map_append, map_cons, map_nil]
      refine nodup_append.mpr ⟨h.distinct, nodup_singleton _, ?_⟩
      intro k hk k' hk'
      obtain ⟨s, hs, rfl⟩ := mem_map.mp hk
      obtain rfl := mem_singleton.mp hk'
      have hbefore := (h.abandoned s hs).1
      rw [hslot.number]
      omega

theorem ordered_follow {jobs : List Job} {sink : Sink} {es : List Event}
    (h : follow reg work es { source := jobs, sink } = some r) :
    ∃ done ahead, Ordered reg work (.giveUp ∈ es) done ahead r ∧ jobs = done ++ ahead ++ r.source := by
  refine follow_induction (P := fun r => ∃ done ahead, Ordered reg work (.giveUp ∈ es) done ahead r ∧
    jobs = done ++ ahead ++ r.source) ⟨[], [], ordered_start jobs sink, rfl⟩ ?_ h
  rintro r r' e he ⟨done, ahead, hordered, hjobs⟩ hmove
  obtain ⟨done', ahead', hordered', hsame⟩ := hordered.moves hmove fun heq => heq ▸ he
  exact ⟨done', ahead', hordered', hjobs.trans hsame.symm⟩

theorem ordered_induction {P : Run → Prop} {jobs : List Job} {sink : Sink} {es : List Event}
    (hstart : P { source := jobs, sink })
    (hstep : ∀ r r' e done ahead, Ordered reg work True done ahead r → Moves reg work r e r' → P r → P r')
    (h : follow reg work es { source := jobs, sink } = some r) : P r := by
  refine (follow_induction (P := fun r => P r ∧ ∃ done ahead, Ordered reg work True done ahead r)
    ⟨hstart, [], [], ordered_start jobs sink⟩ ?_ h).1
  rintro r r' e - ⟨hr, done, ahead, hordered⟩ hmove
  obtain ⟨done', ahead', hordered', -⟩ := hordered.moves hmove fun _ => trivial
  exact ⟨hstep r r' e done ahead hordered hmove hr, done', ahead', hordered'⟩

end

/-! ### Sums over jobs -/

/-- What an event comes to: `v` of a job that is finished, or that no reader serves, and `x` of one
that is given up. -/
def worth {α : Type*} (zero : α) (reg : Registry) (v x : Job → α) (r : Run) : Event → α
  | .submit =>
    match r.source with
    | job :: _ => if (reg.readerFor? job.file.language).isNone then v job else zero
    | [] => zero
  | .finish n _ =>
    match (r.inflight ++ r.abandoned).find? (·.number == n) with
    | some s => v s.job
    | none => zero
  | .give => zero
  | .giveUp =>
    match r.inflight with
    | s :: _ => x s.job
    | [] => zero

theorem apply_worth {α β : Type*} (g : α → β) (zero : α) (reg : Registry) (v x : Job → α) (r : Run)
    (e : Event) : g (worth zero reg v x r e) = worth (g zero) reg (g ∘ v) (g ∘ x) r e := by
  cases e with
  | submit => cases hsource : r.source <;> simp only [worth, hsource, Function.comp_apply, apply_ite g]
  | finish n elapsed =>
    cases hfind : (r.inflight ++ r.abandoned).find? (·.number == n) <;> simp only [worth, hfind, Function.comp_apply]
  | give => rfl
  | giveUp => cases hfirst : r.inflight <;> simp only [worth, hfirst, Function.comp_apply]

section

variable {M : Type*} [AddCommMonoid M]

def slotWorth (v : Job → M) (s : Slot) : M := if s.answer?.isSome then v s.job else 0

def total (f : Result → M) (v : Job → M) (r : Run) : M :=
  (r.given.map f).sum + (r.inflight.map (slotWorth v)).sum + (r.abandoned.map (slotWorth v)).sum

variable {reg : Registry} {work : Work} {late : Prop} {done ahead : List Job}
  {r r' : Run} {e : Event} {f : Result → M} {v x : Job → M}

theorem slotWorth_slotOf {n : Nat} {job : Job} : slotWorth v (slotOf reg n job) =
      if (reg.readerFor? job.file.language).isNone then v job else 0 := by
  unfold slotWorth slotOf
  cases reg.readerFor? job.file.language <;> rfl

theorem sum_slotWorth_answer {s : Slot} {slots : List Slot} (hnodup : (slots.map Slot.number).Nodup)
    (hfind : slots.find? (·.number == s.number) = some s) (hopen : s.answer? = none) (result : Result) :
    ((answer s.number result slots).map (slotWorth v)).sum = (slots.map (slotWorth v)).sum + v s.job := by
  have hsum := sum_answer (slotWorth v) hnodup hfind result
  simpa [slotWorth, hopen] using hsum

theorem Ordered.total_moves (h : Ordered reg work late done ahead r)
    (hf : ∀ job result, Worked reg work job result → f result = v job)
    (hx : ∀ job result, Expired reg job result → f result = x job) (hmove : Moves reg work r e r') :
    total f v r' = total f v r + worth 0 reg v x r e := by
  cases hmove with
  | @submit job rest room next =>
    simp only [total, worth, kept_submit, inflight_submit, next, map_append, map_cons,
      map_nil, sum_append, sum_cons, sum_nil, add_zero, slotWorth_slotOf]
    abel
  | @finish slot reader elapsed found open_ reads =>
    simp only [total, worth, find?_append, found, Option.some_or, sum_slotWorth_answer h.nodup found open_]
    abel
  | @finishLate slot reader elapsed absent found open_ reads =>
    simp only [total, worth, find?_append, absent, found, Option.none_or, sum_slotWorth_answer h.distinct found open_]
    abel
  | @give slot rest result full first answered =>
    have hslot := h.underway.serves (s := slot) (first ▸ mem_cons_self)
    have hresult := hf slot.job result (hslot.worked result answered)
    simp only [total, worth, Run.give, first, map_append, map_cons, map_nil,
      sum_append, sum_cons, sum_nil, add_zero, hresult]
    have hworth : slotWorth v slot = v slot.job := by rw [slotWorth, answered]; rfl
    rw [hworth]
    abel
  | @giveUp slot rest full first open_ =>
    have hslot := h.underway.serves (s := slot) (first ▸ mem_cons_self)
    obtain ⟨reader, hreader⟩ := hslot.open_reads open_
    have hresult := hx slot.job (.expired slot.job.file slot.reader? reg.limit)
      ⟨reader, hslot.reads ▸ hreader, by rw [hreader]⟩
    have hworth : slotWorth v slot = 0 := by rw [slotWorth, open_]; rfl
    simp only [total, worth, Run.giveUp, Run.give, first, map_append, map_cons, map_nil,
      sum_append, sum_cons, sum_nil, add_zero, hresult, hworth]
    abel

end

/-! ### Every run comes to an end -/

section

variable {reg : Registry} {work : Work} {late : Prop} {done ahead : List Job}
  {r r' : Run} {e : Event}

def Settles (r : Run) : Prop := ∀ s ∈ r.abandoned, s.answer?.isSome = true

def Ended (r : Run) : Prop := r.isExhausted = true ∧ r.Settles

def remaining (r : Run) : Nat :=
  3 * r.source.length + (r.inflight.map fun s => if s.answer?.isSome then 1 else 2).sum +
    (r.abandoned.map fun s => if s.answer?.isSome then 0 else 1).sum

theorem Ordered.remaining_lt (h : Ordered reg work late done ahead r) (hmove : Moves reg work r e r') :
    r'.remaining < r.remaining := by
  cases hmove with
  | @submit job rest room next =>
    have hslot : (if (slotOf reg r.submitted job).answer?.isSome then 1 else 2) ≤ 2 := by split <;> decide
    simp only [remaining, kept_submit, inflight_submit, source_submit, next, map_append,
      map_cons, map_nil, sum_append, sum_cons, sum_nil, length_cons]
    omega
  | @finish slot reader elapsed found open_ reads =>
    have hsum := sum_answer (fun s => if s.answer?.isSome then 1 else 2) h.nodup found
      (.ofWork slot.job.file reader elapsed (work slot.job))
    simp only [open_, Option.isSome_none, Option.isSome_some, Bool.false_eq_true, if_true, if_false] at hsum
    simp only [remaining]
    omega
  | @finishLate slot reader elapsed absent found open_ reads =>
    have hsum := sum_answer (fun s => if s.answer?.isSome then 0 else 1) h.distinct found
      (.ofWork slot.job.file reader elapsed (work slot.job))
    simp only [open_, Option.isSome_none, Option.isSome_some, Bool.false_eq_true, if_true, if_false] at hsum
    simp only [remaining]
    omega
  | @give slot rest result full first answered =>
    simp only [remaining, Run.give, first, map_cons, sum_cons, answered, Option.isSome_some, if_true]
    omega
  | @giveUp slot rest full first open_ =>
    simp only [remaining, Run.giveUp, Run.give, first, map_cons, map_append, map_nil,
      sum_append, sum_cons, sum_nil, open_, Option.isSome_none, Bool.false_eq_true,
      if_false]
    omega

theorem Ordered.length_add_remaining_le {es : List Event} (h : Ordered reg work late done ahead r)
    (hlate : .giveUp ∈ es → late) (hes : follow reg work es r = some r') : es.length + r'.remaining ≤ r.remaining := by
  induction es generalizing r done ahead with
  | nil =>
    cases hes
    simp
  | cons e es ih =>
    obtain ⟨r₁, hstep, hrest⟩ := Option.bind_eq_some_iff.mp hes
    have hmove := moves_of_step hstep
    obtain ⟨done₁, ahead₁, h₁, -⟩ := h.moves hmove fun heq => hlate (heq ▸ mem_cons_self)
    have hless := h.remaining_lt hmove
    have hle := ih h₁ (fun hmem => hlate (mem_cons_of_mem e hmem)) hrest
    rw [length_cons]
    omega

theorem Ordered.exists_step (h : Ordered reg work late done ahead r) (hmore : r.isExhausted = false) :
    ∃ e r', e ≠ .giveUp ∧ r.step reg work e = some r' := by
  by_cases hcan : r.canSubmit reg = true
  · obtain ⟨-, job, rest, hs⟩ := canSubmit_iff.mp hcan
    exact ⟨.submit, r.submit reg job rest, by rintro ⟨⟩, by simp only [step, hcan, if_true, hs]⟩
  cases hinflight : r.inflight with
  | nil =>
    -- with nothing in flight there is room for the next job
    cases hs : r.source with
    | nil => simp [isExhausted, hs, hinflight] at hmore
    | cons job rest =>
      refine absurd (canSubmit_iff.mpr ⟨?_, job, rest, hs⟩) hcan
      rw [hinflight]
      exact Nat.lt_of_lt_of_le Nat.one_pos (Nat.le_max_left 1 _)
  | cons slot rest =>
    cases hanswer : slot.answer? with
    | some result => exact ⟨.give, r.give result rest, by rintro ⟨⟩, by simp [step, hcan, hinflight, hanswer]⟩
    | none =>
      have hslot := h.underway.serves (s := slot) (hinflight ▸ mem_cons_self)
      obtain ⟨reader, hreader⟩ := hslot.open_reads hanswer
      have hfinish : (r.step reg work (.finish slot.number 0)).isSome = true := by
        simp [step, hinflight, finishSlot?, hanswer, hreader]
      obtain ⟨r', hr'⟩ := Option.isSome_iff_exists.mp hfinish
      exact ⟨.finish slot.number 0, r', by rintro ⟨⟩, hr'⟩

end

end GroovySharp.Run
