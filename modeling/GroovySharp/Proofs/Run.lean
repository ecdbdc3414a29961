import GroovySharp.Proofs.EditedLine
import GroovySharp.Proofs.LineSplit

/-!
# Runs over the lines of a text

Scanning and settling go through a text line by line.
-/

namespace GroovySharp.Source

open Text List

variable {ε α β : Type} {last : ScanState} {lines : List Line} {s : Nesting}

variable {x : Except ε α} {f : α → Except ε β}

theorem bind_eq_ok {b : β} : (x >>= f) = .ok b ↔ ∃ a, x = .ok a ∧ f a = .ok b := by
  cases x with
  | error e | ok a => simp [bind, Except.bind]

theorem bind_eq_error {e : ε} : (x >>= f) = .error e ↔ x = .error e ∨ ∃ a, x = .ok a ∧ f a = .error e := by
  cases x with
  | error e' | ok a => simp [bind, Except.bind]

theorem map_eq_ok {f : α → β} {b : β} : x.map f = .ok b ↔ ∃ a, x = .ok a ∧ f a = b := by
  cases x with
  | error e | ok a => simp [Except.map]

theorem map_eq_error {f : α → β} {e : ε} : x.map f = .error e ↔ x = .error e := by
  cases x with
  | error e' | ok a => simp [Except.map]

theorem exists_of_toOption_any {p : α → Bool} (h : x.toOption.any p = true) : ∃ a, x = .ok a ∧ p a = true := by
  cases x with
  | error e => cases h
  | ok a => exact ⟨a, rfl, h⟩

theorem forall_of_toOption_all {p : α → Bool} (h : x.toOption.all p = true) : ∀ a, x = .ok a → p a = true := by
  rintro a rfl
  exact h

/-! ### Scanning -/

/-- The line comes out of a scan that starts in `s` and ends in `s'`. -/
structure Line.ScansFrom (l : Line) (s s' : ScanState) : Prop where
  scans : Scans l.number s l.text l.cells s'
  starts : l.startsInString = s.inString
  ends : l.endsInString = s'.inString

/-- The lines come out of a scan from line `n` on. -/
inductive Scanned : Nat → ScanState → List Line → ScanState → Prop
  | nil {n : Nat} {s : ScanState} : Scanned n s [] s
  | cons {s s' last : ScanState} {l : Line} {lines : List Line} (hl : l.ScansFrom s s')
    (hlines : Scanned (l.number + 1) s' lines last) : Scanned l.number s (l :: lines) last

def Line.source (l : Line) : Chars × Ending := (l.text, l.ending)

theorem scanFrom_eq_ok_iff {n : Nat} {s : ScanState} {ps : List (Chars × Ending)} :
    scanFrom n s ps = .ok (lines, last) ↔ Scanned n s lines last ∧ ps = lines.map Line.source := by
  induction ps generalizing n s lines with
  | nil =>
    constructor
    · intro h
      cases h
      exact ⟨.nil, rfl⟩
    · rintro ⟨h, hps⟩
      obtain rfl := map_eq_nil_iff.mp hps.symm
      cases h
      rfl
  | cons p ps ih =>
    obtain ⟨body, ending⟩ := p
    constructor
    · intro h
      obtain ⟨⟨cells, s'⟩, hcells, h⟩ := bind_eq_ok.mp h
      obtain ⟨⟨more, last'⟩, hmore, h⟩ := bind_eq_ok.mp h
      cases h
      have hscan := scanCells_eq_ok_iff.mp hcells
      have hchar : cells.map (·.char) = body := hscan.map_char
      obtain ⟨hlines, rfl⟩ := ih.mp hmore
      have hl : Line.ScansFrom ⟨n, cells, ending, s.inString, s'.inString⟩ s s' :=
        ⟨by rw [Line.text, hchar]; exact hscan, rfl, rfl⟩
      refine ⟨.cons hl hlines, ?_⟩
      simp [Line.source, Line.text, hchar]
    · rintro ⟨h, hps⟩
      cases h with
      | nil => cases hps
      | @cons _ s' _ l lines hl hlines =>
        obtain ⟨rfl, rfl⟩ := Prod.mk.inj (cons.inj hps).1
        have hcells := scanCells_eq_ok_iff.mpr hl.scans
        have hmore := ih.mpr ⟨hlines, (cons.inj hps).2⟩
        refine bind_eq_ok.mpr ⟨_, hcells, bind_eq_ok.mpr ⟨_, hmore, ?_⟩⟩
        rw [← hl.starts, ← hl.ends]
        rfl

theorem scanLines_eq_ok_iff {t : Chars} : scanLines t = .ok (lines, last) ↔
      Scanned 1 {} lines last ∧ splitLines t = lines.map Line.source :=
  scanFrom_eq_ok_iff

theorem Scanned.wellMarked {n : Nat} {s : ScanState} (h : Scanned n s lines last) :
    ∀ l ∈ lines, WellMarked l.cells := by
  induction h with
  | nil =>
    intro l hl
    cases hl
  | cons hl _ ih =>
    intro x hx
    rcases mem_cons.mp hx with rfl | hx
    · exact hl.scans.wellMarked
    · exact ih x hx

/-! ### Settling -/

/-- What the rules see of a line, given the states before and after its delimiters and the lines after
it. -/
def contextOf (s absorbed : Nesting) (l : Line) (rest : List Line) : Context where
  line := l
  core := l.core
  nextCore := nextCore rest
  before := s.innermost
  after := absorbed.innermost
  parensBefore := s.depth .paren
  parensAfter := absorbed.depth .paren
  bracesAfter := absorbed.depth .brace

/-- The rules settle the lines one after another, each with a rule and an edit. -/
inductive Settles : Nesting → List Line → Edits → Nesting → Prop
  | nil {s : Nesting} : Settles s [] [] s
  | cons {s absorbed decided last : Nesting} {l : Line} {rest : List Line} {rule : LineRule}
    {edit : Edit} {edits : Edits} (habsorb : s.absorb l = .ok absorbed)
    (hdecide : LineRule.decide (contextOf s absorbed l rest) LineRule.all absorbed = (rule, edit, decided))
    (hrest : Settles decided.settle rest edits last) :
    Settles s (l :: rest) ((rule, edit) :: edits) last

def settledLine (l : Line) (d : LineRule × Edit) : SettledLine := ⟨d.1, d.2.apply l, l.ending⟩

theorem settleLine_eq_ok {absorbed decided : Nesting} {l : Line} {rest : List Line}
    {rule : LineRule} {edit : Edit} (habsorb : s.absorb l = .ok absorbed)
    (hdecide : LineRule.decide (contextOf s absorbed l rest) LineRule.all absorbed = (rule, edit, decided)) :
    settleLine s l rest = .ok (settledLine l (rule, edit), decided.settle) := by
  have hrule := congrArg (fun d => (Except.ok (settledLine l (d.1, d.2.1), d.2.2.settle) :
    Except StructuralFault (SettledLine × Nesting))) hdecide
  refine Eq.trans ?_ hrule
  rw [settleLine, habsorb]
  rfl

theorem settleLines_eq_ok_iff {last : Nesting} {settled : List SettledLine} :
    settleLines s lines = .ok (settled, last) ↔
      ∃ edits, Settles s lines edits last ∧ settled = zipWith settledLine lines edits := by
  induction lines generalizing s settled with
  | nil =>
    constructor
    · intro h
      cases h
      exact ⟨[], .nil, rfl⟩
    · rintro ⟨edits, h, rfl⟩
      cases h
      rfl
  | cons l rest ih =>
    constructor
    · intro h
      obtain ⟨⟨one, s'⟩, hone, h⟩ := bind_eq_ok.mp h
      obtain ⟨⟨more, last'⟩, hmore, h⟩ := bind_eq_ok.mp h
      cases h
      obtain ⟨absorbed, habsorb, hone⟩ := bind_eq_ok.mp hone
      cases hone
      obtain ⟨edits, hrest, rfl⟩ := ih.mp hmore
      exact ⟨_ :: edits, .cons habsorb rfl hrest, rfl⟩
    · rintro ⟨edits, h, rfl⟩
      cases h with
      | @cons _ absorbed decided _ _ _ rule edit edits habsorb hdecide hrest =>
        have hone := settleLine_eq_ok habsorb hdecide
        have hmore := ih.mpr ⟨edits, hrest, rfl⟩
        exact bind_eq_ok.mpr ⟨_, hone, bind_eq_ok.mpr ⟨_, hmore, rfl⟩⟩

theorem Settles.length_eq {last : Nesting} {edits : Edits}
    (h : Settles s lines edits last) : edits.length = lines.length := by
  induction h with
  | nil => rfl
  | cons _ _ _ ih => rw [length_cons, length_cons, ih]

/-! ### Normalizing -/

def editedLines (lines : List Line) (edits : Edits) : List Line :=
  zipWith (fun l d => l.edited d.2) lines edits

theorem editedLines_cons (l : Line) (lines : List Line) (d : LineRule × Edit) (edits : Edits) :
    editedLines (l :: lines) (d :: edits) = l.edited d.2 :: editedLines lines edits := rfl

theorem joinLines_settled (lines : List Line) (edits : Edits) :
    joinLines (zipWith settledLine lines edits) = joinBodies ((editedLines lines edits).map Line.source) := by
  induction lines generalizing edits with
  | nil => rfl
  | cons l lines ih =>
    cases edits with
    | nil => rfl
    | cons d edits =>
      calc joinLines (zipWith settledLine (l :: lines) (d :: edits))
          = d.2.apply l ++ l.ending.chars ++ joinLines (zipWith settledLine lines edits) := rfl
        _ = (l.edited d.2).text ++ ((l.edited d.2).ending.chars ++
              joinBodies ((editedLines lines edits).map Line.source)) := by
            rw [ih, l.text_edited, l.ending_edited, append_assoc]
        _ = joinBodies ((editedLines (l :: lines) (d :: edits)).map Line.source) := by
            rw [editedLines_cons, map_cons, Line.source, joinBodies_cons]

theorem normalize_eq_ok_iff {t u : Chars} : normalize t = .ok u ↔
      ∃ lines scan edits last, scanLines t = .ok (lines, scan) ∧ Settles {} lines edits last ∧
        openConstruct? scan last = none ∧ u = joinBodies ((editedLines lines edits).map Line.source) := by
  constructor
  · intro h
    obtain ⟨settled, hsettled, rfl⟩ := map_eq_ok.mp h
    obtain ⟨⟨lines, scan⟩, hscan, hsettled⟩ := bind_eq_ok.mp hsettled
    obtain ⟨⟨done, last⟩, hdone, hsettled⟩ := bind_eq_ok.mp hsettled
    obtain ⟨edits, hedits, rfl⟩ := settleLines_eq_ok_iff.mp hdone
    refine ⟨lines, scan, edits, last, hscan, hedits, ?_⟩
    cases hopen : openConstruct? scan last with
    | some fault => simp [hopen] at hsettled
    | none =>
      simp only [hopen] at hsettled
      cases hsettled
      exact ⟨rfl, joinLines_settled lines edits⟩
  · rintro ⟨lines, scan, edits, last, hscan, hedits, hopen, rfl⟩
    have hdone := settleLines_eq_ok_iff.mpr ⟨edits, hedits, rfl⟩
    refine map_eq_ok.mpr ⟨zipWith settledLine lines edits, ?_, joinLines_settled lines edits⟩
    refine bind_eq_ok.mpr ⟨_, hscan, bind_eq_ok.mpr ⟨_, hdone, ?_⟩⟩
    simp only [hopen]
    rfl

end GroovySharp.Source
