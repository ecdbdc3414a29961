import GroovySharp.Proofs.Schedules

/-!
# A paced run is one order of events

Where each job has its pace, the next result is reached by events of a run: jobs are taken up while
there is room, then the first job in flight finishes and its result is given out, or it is given up and
finishes afterwards.
-/

namespace GroovySharp.Run

open Unicode List Option

def Event.gives : Event → Bool
  | .give => true
  | .giveUp => true
  | _ => false

def Event.finishes : Event → Bool
  | .finish _ _ => true
  | _ => false

/-- Events up to the next result; after it is given out only jobs finish. -/
inductive Round (reg : Registry) (work : Work) (r : Run) (result : Result)
    (r' : Run) : Prop
  | intro (before after : List Event) {e : Event} {r₁ r₂ : Run}
      (quiet : ∀ x ∈ before, x.gives = false) (gives : e.gives = true)
      (late : ∀ x ∈ after, x.finishes = true) (reached : follow reg work before r = some r₁)
      (given : r₁.step reg work e = some r₂) (last : r₂.given.getLast? = some result)
      (left : follow reg work after r₂ = some r')

section

variable {reg : Registry} {work : Work} {late : Prop} {done ahead : List Job}
  {r r' : Run} {e : Event}

theorem gives_of_finishes (h : e.finishes = true) : e.gives = false := by
  cases e <;> simp_all [Event.finishes, Event.gives]

theorem Moves.given (h : Moves reg work r e r') : e.gives = false ∧ r'.given = r.given ∨
      e.gives = true ∧ ∃ result, r'.given = r.given ++ [result] := by
  cases h with
  | @submit job rest room next =>
    refine .inl ⟨rfl, ?_⟩
    unfold Run.submit
    cases reg.readerFor? job.file.language <;> rfl
  | finish | finishLate => exact .inl ⟨rfl, rfl⟩
  | give full first answered | giveUp full first open_ => exact .inr ⟨rfl, _, rfl⟩

theorem follow_refill (reg : Registry) (work : Work) (r : Run) :
    ∃ k, follow reg work (List.replicate k .submit) r = some (r.refill reg) := by
  refine refillFrom_induction (P := fun r' => ∃ k, follow reg work (List.replicate k .submit) r = some r') rfl
    ⟨0, rfl⟩ ?_
  rintro r' job rest hroom hs ⟨k, hk⟩
  refine ⟨k + 1, ?_⟩
  have hstep : r'.step reg work .submit = some (r'.submit reg job rest) := by
    simp only [step, canSubmit_iff.mpr ⟨hroom, job, rest, hs⟩, if_true, hs]
  rw [replicate_succ', follow_append, hk, bind_some, follow, hstep]
  rfl

theorem abandoned_refill (reg : Registry) (r : Run) : (r.refill reg).abandoned = r.abandoned := by
  refine refillFrom_induction (P := fun r' => r'.abandoned = r.abandoned) rfl rfl fun r' job rest _ _ h => ?_
  rw [← h, Run.submit]
  cases reg.readerFor? job.file.language <;> rfl

theorem Ordered.follow {es : List Event} (h : Ordered reg work True done ahead r)
    (hes : Run.follow reg work es r = some r') : ∃ done' ahead', Ordered reg work True done' ahead' r' :=
  follow_induction (P := fun r => ∃ done ahead, Ordered reg work True done ahead r) ⟨done, ahead, h⟩
    (fun _ _ _ _ ⟨_, _, hr⟩ hmove =>
      have ⟨done', ahead', hr', _⟩ := hr.moves hmove fun _ => trivial
      ⟨done', ahead', hr'⟩) hes

variable {slot : Slot} {rest : List Slot}

theorem step_finish_first (reg : Registry) (work : Work) {reader : ReaderInfo}
    (elapsed : Float) (hinflight : r.inflight = slot :: rest) (hopen : slot.answer? = none)
    (hreads : slot.reader? = some reader) : r.step reg work (.finish slot.number elapsed) = some { r with
        inflight := answer slot.number (.ofWork slot.job.file reader elapsed (work slot.job)) r.inflight
        sink := noteWork slot.job.file elapsed (work slot.job) r.sink } := by
  simp [step, hinflight, finishSlot?, hopen, hreads]

theorem step_give_answered (work : Work) (result : Result) (sink : Sink)
    (hstop : r.canSubmit reg = false) (hinflight : r.inflight = slot :: rest) :
    Run.step reg work { r with inflight := answer slot.number result r.inflight, sink } .give =
      some (give result (answer slot.number result rest)
        { r with inflight := answer slot.number result r.inflight, sink }) := by
  have hcan : Run.canSubmit reg { r with inflight := answer slot.number result r.inflight, sink } =
      false := by
    rw [← hstop, canSubmit, canSubmit]
    simp only [length_answer]
  have hfirst : answer slot.number result r.inflight =
      { slot with answer? := some result } :: answer slot.number result rest := by
    rw [hinflight, answer, map_cons, if_pos rfl]
    rfl
  simp only [step, hcan, Bool.false_eq_true, if_false]
  rw [hfirst]
  rfl

theorem step_finish_givenUp {reader : ReaderInfo} (elapsed : Float)
    (h : Ordered reg work late done ahead r) (hinflight : r.inflight = slot :: rest)
    (hopen : slot.answer? = none) (hreads : slot.reader? = some reader) :
    (r.giveUp reg slot rest).step reg work (.finish slot.number elapsed) = some { r.giveUp reg slot rest with
        abandoned := answer slot.number (.ofWork slot.job.file reader elapsed (work slot.job)) (r.abandoned ++ [slot])
        sink := noteWork slot.job.file elapsed (work slot.job) (r.giveUp reg slot rest).sink } := by
  have hnodup := h.nodup
  rw [hinflight, map_cons, nodup_cons] at hnodup
  have habsent : rest.find? (·.number == slot.number) = none := by
    refine find?_eq_none.mpr fun t ht => ?_
    simpa using fun heq : t.number = slot.number => hnodup.1 (heq ▸ mem_map_of_mem ht)
  have hfirst : slot.number = done.length := by
    have hnumbers := h.underway.numbers
    rw [hinflight, map_cons, length_cons, range'_succ, cons.injEq] at hnumbers
    exact hnumbers.1
  have hbefore : r.abandoned.find? (·.number == slot.number) = none := by
    refine find?_eq_none.mpr fun t ht => ?_
    have hless := (h.abandoned t ht).1
    simp only [beq_iff_eq]
    omega
  have hinflight' : (r.giveUp reg slot rest).inflight = rest := rfl
  have habandoned : (r.giveUp reg slot rest).abandoned = r.abandoned ++ [slot] := rfl
  simp [step, hinflight', habandoned, habsent, hbefore, finishSlot?, hopen, hreads]

theorem settles_answer {result : Result} (h : r.Settles) :
    ∀ s ∈ answer slot.number result (r.abandoned ++ [slot]), s.answer?.isSome = true := by
  intro s hs
  obtain ⟨t, ht, rfl⟩ := mem_map.mp hs
  split
  · rfl
  · next hne =>
    rcases mem_append.mp ht with ht | ht
    · exact h t ht
    · exact absurd (mem_singleton.mp ht ▸ rfl) hne

theorem Round.length_given {result : Result} (h : Round reg work r result r') :
    r'.given.length = r.given.length + 1 := by
  obtain ⟨before, after, hquiet, hgives, hlate, hreached, hgiven, -, hleft⟩ := h
  have hsame {es : List Event} {r r' : Run} (hes : follow reg work es r = some r')
      (hquiet : ∀ x ∈ es, x.gives = false) : r'.given = r.given :=
    follow_induction (P := fun r' => r'.given = r.given) rfl (fun r₁ r₂ x hx hr₁ hmove => by
      rcases hmove.given with ⟨-, heq⟩ | ⟨hgives, -⟩
      · exact heq.trans hr₁
      · rw [hquiet x hx] at hgives
        cases hgives) hes
  rcases (moves_of_step hgiven).given with ⟨hno, -⟩ | ⟨-, last, heq⟩
  · rw [hgives] at hno
    cases hno
  · rw [hsame hleft fun x hx => gives_of_finishes (hlate x hx), heq, hsame hreached hquiet,
      length_append, length_singleton]

theorem length_inflight_refillFrom (reg : Registry) {source : List Job} {r : Run} (hs : r.source = source) :
    r.inflight.length ≤ (refillFrom reg source r).inflight.length := by
  refine refillFrom_induction (P := fun r' => r.inflight.length ≤ r'.inflight.length) hs (Nat.le_refl _) ?_
  intro r' job rest _ _ h
  rw [inflight_submit, length_append]
  exact Nat.le_add_right_of_le h

theorem isExhausted_of_refill (h : (r.refill reg).inflight = []) : r.isExhausted = true := by
  have hlength := length_inflight_refillFrom reg (r := r) rfl
  rw [← refill, h, length_nil, Nat.le_zero, length_eq_zero_iff] at hlength
  have hsource : r.source = [] := by
    cases hs : r.source with
    | nil => rfl
    | cons job rest =>
      have hroom : r.inflight.length < reg.window := by
        rw [hlength]
        exact Nat.lt_of_lt_of_le Nat.one_pos (Nat.le_max_left 1 _)
      have hless := length_inflight_refillFrom reg (r := r.submit reg job rest) source_submit
      rw [refill, hs, refillFrom, if_pos hroom] at h
      rw [h, inflight_submit, length_append, length_singleton] at hless
      cases hless
  rw [isExhausted, hsource, hlength]
  rfl

/-- A paced run is at its end, or its next result is reached by a round of events. -/
theorem Ordered.next?_cases (pace : Nat → Pace) (h : Ordered reg work True done ahead r)
    (hsettles : r.Settles) : r.next? reg work pace = none ∧ r.isExhausted = true ∨
      ∃ result r', r.next? reg work pace = some (result, r') ∧ Round reg work r result r' ∧ r'.Settles := by
  obtain ⟨k, hrefill⟩ := follow_refill reg work r
  obtain ⟨done₁, ahead₁, h₁⟩ := h.follow hrefill
  have hstop : (r.refill reg).canSubmit reg = false := canSubmit_refillFrom rfl
  have hsettles₁ : (r.refill reg).Settles := by rwa [Settles, abandoned_refill]
  have hquiet : ∀ x ∈ List.replicate k Event.submit, x.gives = false := by
    intro x hx
    rw [eq_of_mem_replicate hx]
    rfl
  cases hinflight : (r.refill reg).inflight with
  | nil => exact .inl ⟨by simp only [next?, hinflight], isExhausted_of_refill hinflight⟩
  | cons slot rest =>
    refine .inr ?_
    simp only [next?, hinflight]
    cases hanswer : slot.answer? with
    | some answered =>
      have hgive : (r.refill reg).step reg work .give = some ((r.refill reg).give answered rest) := by
        simp [step, hstop, hinflight, hanswer]
      refine ⟨answered, (r.refill reg).give answered rest, ?_, .intro _ [] hquiet rfl (by simp)
        hrefill hgive (getLast?_concat ..) rfl, hsettles₁⟩
      simp only [isSome_some, if_true, move, hgive, getD_some, Run.give, getLast?_concat, map_some]
    | none =>
      have hslot := h₁.underway.serves (s := slot) (hinflight ▸ mem_cons_self)
      obtain ⟨reader, hreads⟩ := hslot.open_reads hanswer
      simp only [isSome_none, Bool.false_eq_true, if_false]
      split
      · -- the job finishes in time
        have hfinish := step_finish_first reg work (pace slot.number).elapsed hinflight hanswer hreads
        have hgive := step_give_answered work
          (.ofWork slot.job.file reader (pace slot.number).elapsed (work slot.job))
          (noteWork slot.job.file (pace slot.number).elapsed (work slot.job) (r.refill reg).sink)
          hstop hinflight
        simp only [move, hfinish, hgive, getD_some]
        refine ⟨_, _, by simp only [Run.give, getLast?_concat, map_some],
          .intro (List.replicate k .submit ++ [.finish slot.number (pace slot.number).elapsed]) [] ?_ rfl (by simp)
            ?_ hgive (getLast?_concat ..) rfl, hsettles₁⟩
        · intro x hx
          rcases mem_append.mp hx with hx | hx
          · exact hquiet x hx
          · rw [mem_singleton.mp hx]
            rfl
        · rw [follow_append, hrefill, bind_some, Run.follow, hfinish]
          rfl
      · -- the job is given up, and finishes afterwards
        have hgiveUp : (r.refill reg).step reg work .giveUp = some ((r.refill reg).giveUp reg slot rest) := by
          simp [step, hstop, hinflight, hanswer]
        have hfinish := step_finish_givenUp (pace slot.number).elapsed h₁ hinflight hanswer hreads
        refine ⟨.expired slot.job.file slot.reader? reg.limit, { (r.refill reg).giveUp reg slot rest with
            abandoned := answer slot.number (.ofWork slot.job.file reader (pace slot.number).elapsed (work slot.job))
              ((r.refill reg).abandoned ++ [slot])
            sink := noteWork slot.job.file (pace slot.number).elapsed (work slot.job)
              ((r.refill reg).giveUp reg slot rest).sink }, ?_,
          .intro _ [.finish slot.number (pace slot.number).elapsed] hquiet rfl ?_ hrefill hgiveUp
            (getLast?_concat ..) ?_, settles_answer hsettles₁⟩
        · simp only [move, hgiveUp, hfinish, getD_some]
          simp only [Run.giveUp, Run.give, getLast?_concat, map_some]
        · intro x hx
          rw [mem_singleton.mp hx]
          rfl
        · rw [Run.follow, hfinish]
          rfl

end

/-! ### Anomalies that wait -/

def preceded (xs : List Anomaly) (s : Sink) : Sink := { s with pending := xs ++ s.pending }

theorem incr_preceded (xs : List Anomaly) (name : String) (n : Int) (s : Sink) :
    (preceded xs s).incr name n = preceded xs (s.incr name n) := rfl

theorem observe_preceded (xs : List Anomaly) (name : String) (seconds : Float) (s : Sink) :
    (preceded xs s).observe name seconds = preceded xs (s.observe name seconds) := rfl

theorem emit_preceded (xs : List Anomaly) (a : Anomaly) (s : Sink) :
    (preceded xs s).emit a = preceded xs (s.emit a) := by
  rw [Sink.emit, preceded, Sink.emit, preceded, append_assoc]

def behind (xs : List Anomaly) (r : Run) : Run := { r with sink := preceded xs r.sink }

@[simp] theorem source_behind (xs : List Anomaly) (r : Run) : (r.behind xs).source = r.source := rfl

@[simp] theorem inflight_behind (xs : List Anomaly) (r : Run) : (r.behind xs).inflight = r.inflight := rfl

@[simp] theorem given_behind (xs : List Anomaly) (r : Run) : (r.behind xs).given = r.given := rfl

section

variable {reg : Registry} {work : Work}

theorem finishSlot?_preceded (xs : List Anomaly) (elapsed : Float) (slot : Slot) (s : Sink) :
    finishSlot? work elapsed slot (preceded xs s) =
      (finishSlot? work elapsed slot s).map fun x => (x.1, preceded xs x.2) := by
  unfold finishSlot?
  split
  · unfold noteWork
    cases work slot.job <;>
      simp only [map_some, incr_preceded, observe_preceded, emit_preceded]
  · rfl

theorem submit_behind (xs : List Anomaly) (job : Job) (rest : List Job) (r : Run) :
    (r.behind xs).submit reg job rest = (r.submit reg job rest).behind xs := by
  unfold submit
  cases reg.readerFor? job.file.language <;> simp only [behind, incr_preceded, emit_preceded]

theorem giveUp_behind (xs : List Anomaly) (slot : Slot) (rest : List Slot) (r : Run) :
    (r.behind xs).giveUp reg slot rest = (r.giveUp reg slot rest).behind xs := by
  simp only [giveUp, give, behind, incr_preceded, emit_preceded]

theorem refill_behind (xs : List Anomaly) (r : Run) : (r.behind xs).refill reg = (r.refill reg).behind xs := by
  suffices h : ∀ source (r : Run),
      refillFrom reg source (r.behind xs) = (refillFrom reg source r).behind xs from h _ r
  intro source
  induction source with
  | nil => exact fun r => rfl
  | cons job rest ih =>
    intro r
    rw [refillFrom, refillFrom, inflight_behind, submit_behind, ih]
    split <;> rfl

theorem step_behind (xs : List Anomaly) (e : Event) (r : Run) :
    (r.behind xs).step reg work e = (r.step reg work e).map (behind xs) := by
  have hcan : (r.behind xs).canSubmit reg = r.canSubmit reg := rfl
  cases e with
  | submit =>
    simp only [step, hcan, source_behind, submit_behind]
    split
    · cases r.source <;> rfl
    · rfl
  | finish n elapsed =>
    simp only [step, behind, finishSlot?_preceded]
    split
    · simp only [Option.map_map]
      rfl
    · split
      · simp only [Option.map_map]
        rfl
      · rfl
  | give =>
    simp only [step, hcan, inflight_behind]
    split
    · rfl
    · cases r.inflight with
      | nil => rfl
      | cons slot rest =>
        dsimp only
        rw [Option.map_map]
        rfl
  | giveUp =>
    simp only [step, hcan, inflight_behind, giveUp_behind]
    split
    · rfl
    · cases r.inflight with
      | nil => rfl
      | cons slot rest =>
        dsimp only
        split <;> rfl

theorem move_behind (xs : List Anomaly) (e : Event) (r : Run) :
    (r.behind xs).move reg work e = (r.move reg work e).behind xs := by
  rw [move, move, step_behind]
  cases r.step reg work e <;> rfl

theorem next?_behind (reg : Registry) (work : Work) (pace : Nat → Pace)
    (xs : List Anomaly) (r : Run) : (r.behind xs).next? reg work pace =
      (r.next? reg work pace).map fun x => (x.1, x.2.behind xs) := by
  unfold next?
  simp only [refill_behind, inflight_behind]
  cases (r.refill reg).inflight with
  | nil => rfl
  | cons slot rest =>
    simp only [move_behind, ← apply_ite (behind xs), given_behind, Option.map_map]
    rfl

end

end GroovySharp.Run
