import Mathlib.Data.List.Forall2
import GroovySharp.Proofs.Locality
import GroovySharp.Proofs.Outcomes

/-!
# The steps of a run

What happens at each line of a text: the state that it is met in, what becomes of it and the state that
it leaves.
-/

namespace GroovySharp.Source

open Text List

/-- One line settled in a run, with the lines after it and the states on both sides of it. -/
structure LineStep where
  before : Nesting
  line : Line
  rest : List Line
  settled : SettledLine
  after : Nesting
  settles : settleLine before line rest = .ok (settled, after)

def lineSteps (s : Nesting) : List Line → List LineStep
  | [] => []
  | l :: rest =>
    match h : settleLine s l rest with
    | .error _ => []
    | .ok (settled, s') => ⟨s, l, rest, settled, s', h⟩ :: lineSteps s' rest

def stepsOf (t : Chars) : List LineStep :=
  match scanLines t with
  | .ok (lines, _) => lineSteps {} lines
  | .error _ => []

theorem lineSteps_cons (v : LineStep) : lineSteps v.before (v.line :: v.rest) = v :: lineSteps v.after v.rest := by
  obtain ⟨before, line, rest, settled, after, settles⟩ := v
  simp only [lineSteps]
  split
  · next e he =>
    rw [he] at settles
    cases settles
  · next settled' after' hok =>
    rw [hok] at settles
    cases settles
    rfl

variable {s : Nesting} {lines : List Line}

theorem lineSteps_of_error {l : Line} {rest : List Line} {e : StructuralFault}
    (h : settleLine s l rest = .error e) : lineSteps s (l :: rest) = [] := by
  simp only [lineSteps]
  split
  · rfl
  · next hok =>
    rw [h] at hok
    cases hok

theorem lineSteps_induction {P : List Line → Nesting → Prop}
    (hstep : ∀ past (v : LineStep), lines = past ++ v.line :: v.rest → P past v.before →
      P (past ++ [v.line]) v.after) {past ahead : List Line} (hlines : lines = past ++ ahead)
    (hs : P past s) {k : Nat} {v : LineStep} (hv : (lineSteps s ahead)[k]? = some v) :
    lines = past ++ ((lineSteps s ahead).take k).map (·.line) ++ v.line :: v.rest ∧
      P (past ++ ((lineSteps s ahead).take (k + 1)).map (·.line)) v.after := by
  -- On the lines still ahead: a step moves one of them over to those that are past.
  induction ahead generalizing past s k with
  | nil => cases hv
  | cons l ahead ih =>
    cases hl : settleLine s l ahead with
    | error e =>
      rw [lineSteps_of_error hl] at hv
      cases hv
    | ok p =>
      obtain ⟨settled, s'⟩ := p
      let w : LineStep := ⟨s, l, ahead, settled, s', hl⟩
      have hsteps : lineSteps s (l :: ahead) = w :: lineSteps s' ahead := lineSteps_cons w
      have hw : P (past ++ [l]) s' := hstep past w hlines hs
      rw [hsteps] at hv ⊢
      cases k with
      | zero =>
        obtain rfl : w = v := by simpa using hv
        exact ⟨by simpa using hlines, by simpa using hw⟩
      | succ k =>
        have hlines' : lines = (past ++ [l]) ++ ahead := by simpa using hlines
        obtain ⟨hsplit, hafter⟩ := ih hlines' hw hv
        exact ⟨by simpa using hsplit, by simpa using hafter⟩

/-! ### What a step decides -/

def LineStep.context (v : LineStep) : Context := contextOf v.before v.after v.line v.rest

def LineStep.Gives (v : LineStep) (l : Line) : Prop :=
  ∃ edit, LineRule.Outcome v.context v.before v.settled.rule edit ∧ l = v.line.edited edit

theorem outcome_of_decide {absorbed decided : Nesting} {l : Line} {rest : List Line}
    {rule : LineRule} {edit : Edit} (habsorb : s.absorb l = .ok absorbed)
    (hdecide : LineRule.decide (contextOf s absorbed l rest) LineRule.all absorbed = (rule, edit, decided)) :
    LineRule.Outcome (contextOf s decided.settle l rest) s rule edit := by
  have hopened : decided.opened = absorbed.opened := by
    have hsame := LineRule.opened_decide (contextOf s absorbed l rest) LineRule.all absorbed
    rwa [hdecide] at hsame
  have hcontext : contextOf s decided.settle l rest = contextOf s absorbed l rest := by
    simp only [contextOf, Nesting.settle, Nesting.innermost, Nesting.depth, Nesting.lines, hopened]
  have hframe := Nesting.absorb_frame habsorb
  rw [hcontext]
  refine (LineRule.decide_outcome hdecide).congr ?_ ?_ ?_
  · rw [hframe]
  · rw [hframe]
  · rw [hframe]

theorem Settles.steps {last : Nesting} {edits : Edits} (h : Settles s lines edits last) :
    (lineSteps s lines).map (·.line) = lines ∧
      List.Forall₂ LineStep.Gives (lineSteps s lines) (editedLines lines edits) := by
  induction h with
  | nil => exact ⟨rfl, .nil⟩
  | @cons s absorbed decided last l rest rule edit edits habsorb hdecide _ ih =>
    let v : LineStep := ⟨s, l, rest, settledLine l (rule, edit), decided.settle, settleLine_eq_ok habsorb hdecide⟩
    have hsteps : lineSteps s (l :: rest) = v :: lineSteps decided.settle rest := lineSteps_cons v
    have hv : v.Gives (l.edited edit) := ⟨edit, outcome_of_decide habsorb hdecide, rfl⟩
    obtain ⟨hlines, hgives⟩ := ih
    rw [hsteps, editedLines_cons]
    refine ⟨?_, .cons hv hgives⟩
    rw [map_cons, hlines]

theorem Scanned.scansFrom {n : Nat} {s last : ScanState} (h : Scanned n s lines last) :
    ∀ l ∈ lines, ∃ a b, l.ScansFrom a b := by
  induction h with
  | nil => simp
  | cons hl _ ih =>
    intro x hx
    rcases mem_cons.mp hx with rfl | hx
    · exact ⟨_, _, hl⟩
    · exact ih x hx

theorem normalize_steps {t u : Chars} (h : normalize t = .ok u) {R : LineStep → Line → Prop}
    (hR : ∀ v edit a b, v.line.ScansFrom a b →
      LineRule.Outcome v.context v.before v.settled.rule edit → R v (v.line.edited edit)) :
    ∃ lines scan, scanLines t = .ok ((stepsOf t).map (·.line), scan) ∧ scanLines u = .ok (lines, scan) ∧
      List.Forall₂ R (stepsOf t) lines := by
  obtain ⟨lines, scan, edits, last, hscan, hsettles, -, rfl⟩ := normalize_eq_ok_iff.mp h
  obtain ⟨hlines, hgives⟩ := hsettles.steps
  have hsteps : stepsOf t = lineSteps {} lines := by simp only [stepsOf, hscan]
  rw [hsteps, hlines]
  refine ⟨_, scan, hscan, scanLines_edited hscan hsettles, ?_⟩
  refine forall₂_iff_zip.mpr ⟨hgives.length_eq, ?_⟩
  intro v l hvl
  obtain ⟨edit, houtcome, rfl⟩ := (forall₂_iff_zip.mp hgives).2 hvl
  have hv : v.line ∈ lines := by
    rw [← hlines]
    exact mem_map_of_mem (of_mem_zip hvl).1
  obtain ⟨a, b, hab⟩ := (scanLines_eq_ok_iff.mp hscan).1.scansFrom v.line hv
  exact hR v edit a b hab houtcome

theorem normalize_sources {t u : Chars} (h : normalize t = .ok u)
    {R : LineStep → Chars × Ending → Prop} (hR : ∀ v edit a b, v.line.ScansFrom a b →
      LineRule.Outcome v.context v.before v.settled.rule edit → R v (v.line.edited edit).source) :
    splitLines t = (stepsOf t).map (·.line.source) ∧ List.Forall₂ R (stepsOf t) (splitLines u) := by
  obtain ⟨lines, scan, hscan, hscan', hall⟩ := normalize_steps h (R := fun v l => R v l.source) hR
  obtain ⟨-, hsplit⟩ := scanLines_eq_ok_iff.mp hscan
  obtain ⟨-, hsplit'⟩ := scanLines_eq_ok_iff.mp hscan'
  rw [hsplit, hsplit', map_map, forall₂_map_right_iff]
  exact ⟨rfl, hall⟩

end GroovySharp.Source
