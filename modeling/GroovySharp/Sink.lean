import GroovySharp.Anomaly

/-!
# Collecting anomalies

A sink keeps anomalies until they are drained, counts them by kind and severity, and keeps named
counters and histograms of durations.
-/

namespace GroovySharp

/-! ### Tallies -/

abbrev Tally := List (String × Int)

namespace Tally

def get (t : Tally) (name : String) : Int := (t.lookup name).getD 0

def add (name : String) (n : Int) : Tally → Tally
  | [] => [(name, n)]
  | (k, v) :: rest => if k = name then (k, v + n) :: rest else (k, v) :: add name n rest

def count (names : List String) (t : Tally) : Tally := names.foldl (fun t name => t.add name 1) t

theorem get_add (t : Tally) (name other : String) (n : Int) :
    (t.add name n).get other = t.get other + if other = name then n else 0 := by
  induction t with
  | nil =>
    by_cases h : other = name
    · simp [add, get, h]
    · have : (other == name) = false := by simp [h]
      simp [add, get, List.lookup_cons, h, this]
  | cons p rest ih =>
    obtain ⟨k, v⟩ := p
    by_cases hk : k = name
    · subst hk
      by_cases h : other = k
      · simp [add, get, h]
      · have : (other == k) = false := by simp [h]
        simp [add, get, List.lookup_cons, h, this]
    · by_cases h : other = k
      · subst h
        simp [add, hk, get]
      · have hne : (other == k) = false := by simp [h]
        simp only [get] at ih
        simp [add, hk, get, List.lookup_cons, hne, ih]

theorem get_count (names : List String) (t : Tally) (other : String) :
    (t.count names).get other = t.get other + (names.count other : Int) := by
  induction names generalizing t with
  | nil => simp [count]
  | cons name names ih =>
    have hstep : (t.count (name :: names)).get other = ((t.add name 1).count names).get other := rfl
    rw [hstep, ih, get_add, List.count_cons]
    by_cases h : name = other
    · subst h
      simp only [if_true, beq_self_eq_true]
      omega
    · have h' : ¬ other = name := fun h' => h h'.symm
      simp [h, h']

end Tally

/-! ### Durations -/

def durationBins : List (Float × String) :=
  [(1e-3, "<1ms"), (1e-2, "<10ms"), (1e-1, "<100ms"), (1.0, "<1s"), (5.0, "<5s"), (30.0, "<30s")]

def durationBin (seconds : Float) : String :=
  let s := if 0.0 < seconds then seconds else 0.0
  match durationBins.find? fun b => s < b.1 with
  | some b => b.2
  | none => ">=30s"

/-! ### Sinks -/

/-- Anomalies that wait to be drained, and counts of all that happened. -/
structure Sink where
  pending : List Anomaly := []
  counts : Tally := [("total", 0)]
  timers : List (String × Tally) := []
  deriving Repr

namespace Sink

def emit (a : Anomaly) (s : Sink) : Sink :=
  { s with
    pending := s.pending ++ [a]
    counts := s.counts.count ["total", "kind:" ++ a.kind.label, "sev:" ++ a.severity.label] }

def incr (name : String) (n : Int) (s : Sink) : Sink := { s with counts := s.counts.add name n }

def drain (s : Sink) : List Anomaly × Sink := (s.pending, { s with pending := [] })

def observeIn (name : String) (seconds : Float) : List (String × Tally) → List (String × Tally)
  | [] => [(name, Tally.count [durationBin seconds, name ++ "::count"] [])]
  | (k, t) :: rest =>
    if k = name then (k, t.count [durationBin seconds, name ++ "::count"]) :: rest
    else (k, t) :: observeIn name seconds rest

def observe (name : String) (seconds : Float) (s : Sink) : Sink :=
  { s with timers := observeIn name seconds s.timers }

def observations (s : Sink) (name : String) : Int :=
  match s.timers.lookup name with
  | some t => t.get (name ++ "::count")
  | none => 0

@[simp] theorem pending_emit (a : Anomaly) (s : Sink) : (s.emit a).pending = s.pending ++ [a] := rfl

@[simp] theorem pending_incr (name : String) (n : Int) (s : Sink) : (s.incr name n).pending = s.pending := rfl

@[simp] theorem pending_observe (name : String) (seconds : Float) (s : Sink) :
    (s.observe name seconds).pending = s.pending := rfl

theorem get_observe (name other : String) (seconds : Float) (s : Sink) :
    (s.observe name seconds).counts.get other = s.counts.get other := rfl

theorem get_incr (name other : String) (n : Int) (s : Sink) :
    (s.incr name n).counts.get other = s.counts.get other + if other = name then n else 0 :=
  Tally.get_add ..

theorem get_emit (a : Anomaly) (other : String) (s : Sink) : (s.emit a).counts.get other = s.counts.get other +
      (["total", "kind:" ++ a.kind.label, "sev:" ++ a.severity.label].count other : Int) :=
  Tally.get_count ..

end Sink

end GroovySharp
