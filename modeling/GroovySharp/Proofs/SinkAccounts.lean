import GroovySharp.Sink
import Mathlib.Algebra.Order.Group.Multiset
import Mathlib.Algebra.Ring.Int.Defs

/-!
# A sink that threads share

Each thing that a thread does with a sink is one step, and the steps of threads may come in any order.
-/

namespace GroovySharp

open List

/-! ### Sums of counters -/

namespace Tally

def sumOver (picks : String → Bool) (t : Tally) : Int := ((t.filter fun p => picks p.1).map (·.2)).sum

variable {picks : String → Bool}

theorem sumOver_add (name : String) (n : Int) (t : Tally) :
    (t.add name n).sumOver picks = t.sumOver picks + if picks name then n else 0 := by
  induction t with
  | nil => by_cases h : picks name <;> simp [add, sumOver, h]
  | cons p rest ih =>
    obtain ⟨k, v⟩ := p
    simp only [sumOver] at ih
    rw [add]
    by_cases hk : k = name
    · subst hk
      by_cases h : picks k
      · simp [sumOver, h]
        omega
      · simp [sumOver, h]
    · by_cases h : picks k
      · simp [sumOver, hk, h, ih]
        omega
      · simp [sumOver, hk, h, ih]

theorem sumOver_count (names : List String) (t : Tally) :
    (t.count names).sumOver picks = t.sumOver picks + (names.countP picks : Int) := by
  induction names generalizing t with
  | nil => exact (Int.add_zero _).symm
  | cons name names ih =>
    have hstep : (t.count (name :: names)).sumOver picks = ((t.add name 1).count names).sumOver picks := rfl
    rw [hstep, ih, sumOver_add, countP_cons]
    split
    · push_cast
      omega
    · push_cast
      omega

end Tally

namespace Sink

/-! ### Names of counters -/

def startsWith (start name : String) : Bool := start.toList.isPrefixOf name.toList

def Guarded (name : String) : Prop :=
  name = "total" ∨ startsWith "kind:" name = true ∨ startsWith "sev:" name = true

instance (name : String) : Decidable (Guarded name) :=
  inferInstanceAs (Decidable (name = "total" ∨ startsWith "kind:" name = true ∨ startsWith "sev:" name = true))

def listed (a : Anomaly) : List String := ["total", "kind:" ++ a.kind.label, "sev:" ++ a.severity.label]

theorem startsWith_append (start rest : String) : startsWith start (start ++ rest) = true := by
  rw [startsWith, String.toList_append, isPrefixOf_iff_prefix]
  exact prefix_append _ _

theorem startsWith_kind_sev (rest : String) : startsWith "kind:" ("sev:" ++ rest) = false := by
  rw [startsWith, String.toList_append]
  rfl

theorem startsWith_sev_kind (rest : String) : startsWith "sev:" ("kind:" ++ rest) = false := by
  rw [startsWith, String.toList_append]
  rfl

theorem label_injective_kind : Function.Injective AnomalyKind.label := by
  have hread : ∀ k : AnomalyKind, AnomalyKind.ofLabel? k.label = some k := by
    intro k
    cases k <;> decide
  intro k k' h
  exact Option.some.inj ((hread k).symm.trans (h ▸ hread k'))

theorem label_injective_severity : Function.Injective Severity.label := by
  have hread : ∀ v : Severity, Severity.ofLabel? v.label = some v := by
    intro v
    cases v <;> decide
  intro v v' h
  exact Option.some.inj ((hread v).symm.trans (h ▸ hread v'))

section

variable (as : List Anomaly)

theorem countP_listed {picks : String → Bool} {q : Anomaly → Bool}
    (h : ∀ a, (listed a).countP picks = if q a then 1 else 0) : (as.flatMap listed).countP picks = as.countP q := by
  induction as with
  | nil => rfl
  | cons a as ih => rw [flatMap_cons, countP_append, h, ih, countP_cons, Nat.add_comm]

theorem countP_listed_kind : (as.flatMap listed).countP (startsWith "kind:") = as.length := by
  have htotal : startsWith "kind:" "total" = false := by decide
  rw [countP_listed as (q := fun _ => true), countP_true]
  simp [listed, htotal, startsWith_append, startsWith_kind_sev]

theorem countP_listed_sev : (as.flatMap listed).countP (startsWith "sev:") = as.length := by
  have htotal : startsWith "sev:" "total" = false := by decide
  rw [countP_listed as (q := fun _ => true), countP_true]
  simp [listed, htotal, startsWith_append, startsWith_sev_kind]

theorem total_ne (start rest : String) (h : startsWith start "total" = false) : start ++ rest ≠ "total" := by
  intro heq
  rw [← heq, startsWith_append] at h
  cases h

theorem kind_ne_sev (label label' : String) : "kind:" ++ label ≠ "sev:" ++ label' := by
  intro heq
  have h := startsWith_kind_sev label'
  rw [← heq, startsWith_append] at h
  cases h

theorem count_listed_total : (as.flatMap listed).count "total" = as.length := by
  rw [count, countP_listed as (q := fun _ => true), countP_true]
  intro a
  simp [listed, total_ne "kind:" a.kind.label (by decide), total_ne "sev:" a.severity.label (by decide)]

theorem count_listed_kind (k : AnomalyKind) :
    (as.flatMap listed).count ("kind:" ++ k.label) = as.countP (·.kind == k) := by
  refine countP_listed as fun a => ?_
  simp [listed, countP_cons, (total_ne "kind:" k.label (by decide)).symm,
    (kind_ne_sev k.label a.severity.label).symm, label_injective_kind.eq_iff]

theorem count_listed_sev (v : Severity) :
    (as.flatMap listed).count ("sev:" ++ v.label) = as.countP (·.severity == v) := by
  refine countP_listed as fun a => ?_
  simp [listed, countP_cons, (total_ne "sev:" v.label (by decide)).symm,
    kind_ne_sev a.kind.label v.label, label_injective_severity.eq_iff]

end

/-! ### Acts -/

inductive Act
  | emit (a : Anomaly)
  | incr (name : String) (n : Int)
  | observe (timer : String) (seconds : Float)
  | drain
  | counters

namespace Act

def apply (s : Sink) : Act → Sink
  | emit a => s.emit a
  | incr name n => s.incr name n
  | observe timer seconds => s.observe timer seconds
  | drain => s.drain.2
  | counters => s

def emitted : Act → List Anomaly
  | emit a => [a]
  | incr _ _ | observe _ _ | drain | counters => []

def drained (s : Sink) : Act → List (List Anomaly)
  | drain => [s.drain.1]
  | emit _ | incr _ _ | observe _ _ | counters => []

def seen (s : Sink) : Act → List Tally
  | counters => [s.counts]
  | emit _ | incr _ _ | observe _ _ | drain => []

def bins (timer : String) : Act → List String
  | observe name seconds => if name = timer then [durationBin seconds] else []
  | emit _ | incr _ _ | drain | counters => []

def Allowed : Act → Prop
  | incr name _ => ¬ Guarded name
  | emit _ | observe _ _ | drain | counters => True

instance : DecidablePred Allowed
  | incr name _ => inferInstanceAs (Decidable (¬ Guarded name))
  | emit _ | observe _ _ | drain | counters => .isTrue trivial

variable {act : Act} {s : Sink}

theorem get_apply {name : String} (h : act.Allowed) (hname : Guarded name) : (act.apply s).counts.get name =
      s.counts.get name + ((act.emitted.flatMap listed).count name : Int) := by
  cases act with
  | emit a =>
    rw [emitted, flatMap_singleton]
    exact get_emit a name s
  | incr other n =>
    have hne : name ≠ other := fun heq => h (heq ▸ hname)
    rw [apply, get_incr, if_neg hne]
    rfl
  | observe timer seconds | drain | counters => exact (Int.add_zero _).symm

theorem sumOver_apply {picks : String → Bool} (h : act.Allowed)
    (hpicks : ∀ name, picks name = true → Guarded name) : (act.apply s).counts.sumOver picks =
      s.counts.sumOver picks + ((act.emitted.flatMap listed).countP picks : Int) := by
  cases act with
  | emit a =>
    rw [emitted, flatMap_singleton]
    exact Tally.sumOver_count (listed a) s.counts
  | incr other n =>
    rw [apply, Sink.incr, Tally.sumOver_add, if_neg fun hother => h (hpicks other hother)]
    rfl
  | observe timer seconds | drain | counters => exact (Int.add_zero _).symm

theorem drained_append_pending : (act.drained s).flatten ++ (act.apply s).pending = s.pending ++ act.emitted := by
  cases act <;> simp [drained, apply, emitted, Sink.drain]

end Act

/-! ### Timers -/

def histogram (s : Sink) (timer : String) : Tally := (s.timers.lookup timer).getD []

structure Timed (bins : List String) (timer : String) (t : Tally) : Prop where
  each : ∀ label, label ≠ timer ++ "::count" → t.get label = (bins.count label : Int)
  all : t.get (timer ++ "::count") = (bins.length : Int)
  sum : t.sumOver (· != timer ++ "::count") = t.get (timer ++ "::count")

section

variable {timer : String} {t : Tally} {bins : List String}

theorem lookup_observeIn (timer other : String) (seconds : Float) (ts : List (String × Tally)) :
    ((observeIn timer seconds ts).lookup other).getD [] = if other = timer then
        ((ts.lookup other).getD []).count [durationBin seconds, timer ++ "::count"]
      else (ts.lookup other).getD [] := by
  induction ts with
  | nil =>
    rw [observeIn, List.lookup_cons]
    by_cases h : other = timer
    · rw [if_pos h, beq_iff_eq.mpr h]
      rfl
    · rw [if_neg h, beq_eq_false_iff_ne.mpr h]
  | cons p ts ih =>
    obtain ⟨k, t⟩ := p
    rw [observeIn, List.lookup_cons]
    by_cases hk : k = timer
    · rw [if_pos hk, List.lookup_cons]
      by_cases h : other = k
      · rw [beq_iff_eq.mpr h, if_pos (h.trans hk)]
        rfl
      · rw [beq_eq_false_iff_ne.mpr h, if_neg fun heq => h (heq.trans hk.symm)]
    · rw [if_neg hk, List.lookup_cons]
      by_cases h : other = k
      · rw [beq_iff_eq.mpr h, if_neg fun heq => hk (h.symm.trans heq)]
      · rw [beq_eq_false_iff_ne.mpr h, ih]

theorem durationBin_ne (seconds : Float) (timer : String) : durationBin seconds ≠ timer ++ "::count" := by
  have hlast : (durationBin seconds).toList.getLast? = some 's' := by
    unfold durationBin
    dsimp only
    split
    · next b hb =>
      have hbins : ∀ label ∈ durationBins.map (·.2), label.toList.getLast? = some 's' := by simp [durationBins]
      exact hbins b.2 (mem_map_of_mem (mem_of_find?_eq_some hb))
    · rfl
  intro heq
  have hcount : ("::count" : String).toList = [':', ':', 'c', 'o', 'u', 'n', 't'] := rfl
  rw [heq, String.toList_append, hcount, getLast?_append] at hlast
  cases hlast

theorem timed_nil (timer : String) : Timed [] timer [] := ⟨fun _ _ => rfl, rfl, rfl⟩

theorem Timed.observe (h : Timed bins timer t) (seconds : Float) :
    Timed (bins ++ [durationBin seconds]) timer (t.count [durationBin seconds, timer ++ "::count"]) := by
  have hne := durationBin_ne seconds timer
  refine ⟨fun label hlabel => ?_, ?_, ?_⟩
  · rw [Tally.get_count, h.each label hlabel, count_append, count_cons, count_cons, count_nil, count_cons, count_nil]
    simp [hlabel.symm]
  · rw [Tally.get_count, h.all]
    simp [hne]
  · rw [Tally.sumOver_count, Tally.get_count, h.sum]
    simp [hne]

theorem Timed.apply {s : Sink} (h : Timed bins timer (s.histogram timer)) (act : Act) :
    Timed (bins ++ act.bins timer) timer ((act.apply s).histogram timer) := by
  cases act with
  | observe name seconds =>
    rw [Act.apply, histogram, Sink.observe, lookup_observeIn, Act.bins]
    by_cases hname : name = timer
    · rw [if_pos hname, if_pos hname.symm, hname]
      exact h.observe seconds
    · rw [if_neg hname, if_neg (Ne.symm hname), append_nil]
      exact h
  | _ =>
    rw [Act.bins, append_nil]
    exact h

end

/-! ### Threads -/

structure Shared where
  sink : Sink := {}
  threads : List (List Act)
  /-- What was done, in order, each with the number of its thread. -/
  done : List (Nat × Act) := []
  /-- What was drained, in order. -/
  drained : List (List Anomaly) := []
  /-- The counters that were seen, in order. -/
  seen : List Tally := []

namespace Shared

def acts (c : Shared) : List Act := c.done.map (·.2)

def actsOf (c : Shared) (thread : Nat) : List Act := (c.done.filter (·.1 == thread)).map (·.2)

def emitted (c : Shared) : List Anomaly := c.acts.flatMap Act.emitted

def bins (c : Shared) (timer : String) : List String := c.acts.flatMap (Act.bins timer)

def advance (c : Shared) (thread : Nat) (act : Act) (rest : List Act) : Shared where
  sink := act.apply c.sink
  threads := c.threads.set thread rest
  done := c.done ++ [(thread, act)]
  drained := c.drained ++ act.drained c.sink
  seen := c.seen ++ act.seen c.sink

theorem emitted_advance (c : Shared) (thread : Nat) (act : Act) (rest : List Act) :
    (c.advance thread act rest).emitted = c.emitted ++ act.emitted := by
  simp [emitted, acts, advance]

theorem bins_advance (c : Shared) (thread : Nat) (act : Act) (rest : List Act) (timer : String) :
    (c.advance thread act rest).bins timer = c.bins timer ++ act.bins timer := by
  simp [bins, acts, advance]

theorem actsOf_advance (c : Shared) (thread : Nat) (act : Act) (rest : List Act) (i : Nat) :
    (c.advance thread act rest).actsOf i = c.actsOf i ++ if thread = i then [act] else [] := by
  rw [actsOf, advance, filter_append, map_append, actsOf]
  by_cases h : thread = i <;> simp [h]

end Shared

inductive Step : Shared → Shared → Prop
  | act {c : Shared} {thread : Nat} {act : Act} {rest : List Act}
    (next : c.threads[thread]? = some (act :: rest)) : Step c (c.advance thread act rest)

structure Balanced (programs : List (List Act)) (c : Shared) : Prop where
  threads : ∀ i, c.actsOf i ++ c.threads.getD i [] = programs.getD i []
  anomalies : c.drained.flatten ++ c.sink.pending = c.emitted
  counts : ∀ name, Guarded name → c.sink.counts.get name = ((c.emitted.flatMap listed).count name : Int)
  sums : ∀ picks, (∀ name, picks name = true → Guarded name) →
    c.sink.counts.sumOver picks = ((c.emitted.flatMap listed).countP picks : Int)
  timers : ∀ timer, Timed (c.bins timer) timer (c.sink.histogram timer)
  seen : ∀ t ∈ c.seen, t.get "total" = t.sumOver (startsWith "kind:") ∧
    t.get "total" = t.sumOver (startsWith "sev:")

section

variable {programs : List (List Act)} {c c' : Shared}

theorem Balanced.total (h : Balanced programs c) : c.sink.counts.get "total" = (c.emitted.length : Int) := by
  rw [h.counts "total" (.inl rfl), count_listed_total]

theorem Balanced.kindSum (h : Balanced programs c) :
    c.sink.counts.sumOver (startsWith "kind:") = (c.emitted.length : Int) := by
  rw [h.sums _ fun _ hname => .inr (.inl hname), countP_listed_kind]

theorem Balanced.severitySum (h : Balanced programs c) :
    c.sink.counts.sumOver (startsWith "sev:") = (c.emitted.length : Int) := by
  rw [h.sums _ fun _ hname => .inr (.inr hname), countP_listed_sev]

theorem balanced_start (programs : List (List Act)) : Balanced programs { threads := programs } where
  threads _ := rfl
  anomalies := rfl
  counts name _ := by
    show Tally.get [("total", 0)] name = 0
    rw [Tally.get, List.lookup_cons]
    split <;> rfl
  sums picks _ := by
    show Tally.sumOver picks [("total", 0)] = 0
    by_cases h : picks "total" <;> simp [Tally.sumOver, h]
  timers timer := timed_nil timer
  seen _ ht := absurd ht not_mem_nil

theorem Balanced.mem_programs (h : Balanced programs c) {i : Nat} {act : Act} {rest : List Act}
    (next : c.threads[i]? = some (act :: rest)) : ∃ p ∈ programs, act ∈ p := by
  have hprogram := h.threads i
  rw [getD_eq_getElem?_getD, next, Option.getD_some, getD_eq_getElem?_getD] at hprogram
  cases hp : programs[i]? with
  | none =>
    rw [hp, Option.getD_none] at hprogram
    simp at hprogram
  | some p =>
    rw [hp, Option.getD_some] at hprogram
    refine ⟨p, mem_of_getElem? hp, ?_⟩
    rw [← hprogram]
    exact mem_append_right _ mem_cons_self

theorem Balanced.step (h : Balanced programs c) (hallowed : ∀ p ∈ programs, ∀ act ∈ p, act.Allowed)
    (hstep : Step c c') : Balanced programs c' := by
  obtain @⟨thread, act, rest, next⟩ := hstep
  obtain ⟨p, hp, hact⟩ := h.mem_programs next
  have hok := hallowed p hp act hact
  refine ⟨fun i => ?_, ?_, fun name hname => ?_, fun picks hpicks => ?_, fun timer => ?_, fun t ht => ?_⟩
  · have hprogram := h.threads i
    rw [getD_eq_getElem?_getD] at hprogram
    rw [Shared.actsOf_advance, Shared.advance, getD_eq_getElem?_getD, getElem?_set]
    by_cases hi : thread = i
    · subst hi
      rw [next, Option.getD_some] at hprogram
      rw [if_pos rfl, if_pos rfl, if_pos (List.getElem?_eq_some_iff.mp next).1, Option.getD_some,
        List.append_assoc, singleton_append, hprogram]
    · rw [if_neg hi, if_neg hi, append_nil, hprogram]
  · rw [Shared.emitted_advance, ← h.anomalies, List.append_assoc, ← act.drained_append_pending,
      ← List.append_assoc, ← flatten_append]
    rfl
  · rw [Shared.emitted_advance, flatMap_append, count_append, Int.natCast_add, ← h.counts name hname]
    exact Act.get_apply hok hname
  · rw [Shared.emitted_advance, flatMap_append, countP_append, Int.natCast_add, ← h.sums picks hpicks]
    exact Act.sumOver_apply hok hpicks
  · rw [Shared.bins_advance]
    exact (h.timers timer).apply act
  · rcases mem_append.mp ht with ht | ht
    · exact h.seen t ht
    · -- only `counters` gives counters, and they are those of the sink before it
      cases act with
      | counters =>
        rw [mem_singleton.mp ht, h.total, h.kindSum, h.severitySum]
        exact ⟨rfl, rfl⟩
      | _ => exact absurd ht not_mem_nil

theorem Balanced.run (h : Balanced programs c) (hallowed : ∀ p ∈ programs, ∀ act ∈ p, act.Allowed)
    (hrun : Relation.ReflTransGen Step c c') : Balanced programs c' := by
  induction hrun with
  | refl => exact h
  | tail _ hstep ih => exact ih.step hallowed hstep

end

structure Conserved (programs : List (List Act)) (c : Shared) : Prop where
  /-- Each thread has done what comes first in its program, in that order. -/
  threads : ∀ i, c.actsOf i ++ c.threads.getD i [] = programs.getD i []
  /-- What was drained and what waits is what was emitted, in order. -/
  anomalies : c.drained.flatten ++ c.sink.pending = c.emitted
  total : c.sink.counts.get "total" = (c.emitted.length : Int)
  kindSum : c.sink.counts.sumOver (startsWith "kind:") = (c.emitted.length : Int)
  severitySum : c.sink.counts.sumOver (startsWith "sev:") = (c.emitted.length : Int)
  kinds : ∀ k : AnomalyKind,
    c.sink.counts.get ("kind:" ++ k.label) = (c.emitted.countP (·.kind == k) : Int)
  severities : ∀ v : Severity,
    c.sink.counts.get ("sev:" ++ v.label) = (c.emitted.countP (·.severity == v) : Int)
  /-- Each bin of a timer counts its observations, and all of them add up. -/
  timers : ∀ timer, Timed (c.bins timer) timer (c.sink.histogram timer)
  seen : ∀ t ∈ c.seen, t.get "total" = t.sumOver (startsWith "kind:") ∧
    t.get "total" = t.sumOver (startsWith "sev:")

/-- Nothing is lost and nothing is counted twice, however the steps of the threads come. -/
theorem conserved_of_run (programs : List (List Act)) (c : Shared) (hallowed : ∀ p ∈ programs, ∀ act ∈ p, act.Allowed)
    (hrun : Relation.ReflTransGen Step { threads := programs } c) : Conserved programs c := by
  have h := (balanced_start programs).run hallowed hrun
  exact {
    threads := h.threads
    anomalies := h.anomalies
    total := h.total
    kindSum := h.kindSum
    severitySum := h.severitySum
    kinds := fun k => by rw [h.counts _ (.inr (.inl (startsWith_append _ _))), count_listed_kind]
    severities := fun v => by rw [h.counts _ (.inr (.inr (startsWith_append _ _))), count_listed_sev]
    timers := h.timers
    seen := h.seen }

/-- The threads of the given numbers take a step each; one that has nothing left to do is passed over. -/
def Shared.follow : List Nat → Shared → Shared
  | [], c => c
  | i :: is, c =>
    match c.threads[i]? with
    | some (act :: rest) => follow is (c.advance i act rest)
    | some [] | none => follow is c

theorem run_follow (is : List Nat) (c : Shared) : Relation.ReflTransGen Step c (c.follow is) := by
  induction is generalizing c with
  | nil => exact .refl
  | cons i is ih =>
    rw [Shared.follow]
    split
    · next next => exact .head (.act next) (ih _)
    · exact ih c
    · exact ih c

def threePrograms : List (List Act) :=
  [[.emit ⟨"a.groovy", "", .skipped, .info, "", none⟩, .drain, .counters],
    [.observe "parse" 0.5, .emit ⟨"b.groovy", "", .timeout, .error, "", none⟩, .drain],
    [.incr "files" 2, .emit ⟨"c.groovy", "", .timeout, .warn, "", none⟩, .incr "kind" (-1)]]

theorem conserved_three_threads : ∃ c, Relation.ReflTransGen Step { threads := threePrograms } c ∧
      c.drained.map (·.map (·.path)) = [["b.groovy", "a.groovy"], []] ∧
      c.sink.pending.map (·.path) = ["c.groovy"] ∧ c.sink.counts.get "kind:TIMEOUT" = 2 ∧
      Conserved threePrograms c := by
  have hallowed : ∀ p ∈ threePrograms, ∀ act ∈ p, act.Allowed := by decide
  have hrun := run_follow [1, 2, 1, 0, 0, 1, 0, 2] { threads := threePrograms }
  exact ⟨_, hrun, by decide +kernel, by decide +kernel, by decide +kernel,
    conserved_of_run threePrograms _ hallowed hrun⟩

end Sink

end GroovySharp
