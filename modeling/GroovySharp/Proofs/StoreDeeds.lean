import GroovySharp.Proofs.StoreSession

/-!
# What calls do to a store

A store goes on after a call that was refused, with what the call has done until then.
-/

namespace GroovySharp

open List

def StoreFault.isFull : StoreFault → Bool
  | .full .. => true
  | _ => false

namespace Store

open Unicode Disk

/-! ### Tables -/

def waitingRows (s : Store) (t : Table) : Rows := t.collect (s.series t).waiting.toList

def nextName (s : Store) (t : Table) : String := s.partName t.directory (s.pages t).length

def nextPage (s : Store) (t : Table) : Bytes := s.config.encode (s.waitingRows t)

def nextPath (s : Store) (t : Table) : Path := s.staged [t.directory, s.nextName t]

theorem count_series (s : Store) (t : Table) : (s.series t).count = (s.pages t).length := by
  rw [Series.count_eq, pages, length_map]

/-! ### The limit -/

def Affords (s : Store) (size : Nat) : Prop :=
  ∀ limit, s.config.maxBytes? = some limit → (s.bytesWritten : Int) + size ≤ limit

theorem account_cases (size : Nat) (path : Path) (s : Store) : (s.Affords size ∧
      s.account size path = (.ok (), { s with bytesWritten := s.bytesWritten + size })) ∨
    ∃ f, f.isFull = true ∧ s.account size path = (.error f, { s with disk := s.disk.removeFile path }) := by
  unfold account
  dsimp only
  cases hlimit : s.config.maxBytes? with
  | none =>
    refine .inl ⟨fun limit h => ?_, rfl⟩
    rw [hlimit] at h
    cases h
  | some limit =>
    dsimp only
    split
    · exact .inr ⟨_, rfl, rfl⟩
    · next hroom =>
      refine .inl ⟨fun limit' h => ?_, rfl⟩
      rw [hlimit, Option.some.injEq] at h
      omega

/-! ### Deeds -/

/-- A C# text that was tried, and whether it was kept. -/
structure Try where
  delivery : Delivery
  kept : Bool
  deriving DecidableEq

def textLine (source : String) : String := "wrote_cs:" ++ outputPath source

def partLine (t : Table) (name : String) : String := "wrote_" ++ t.directory ++ ":" ++ name

inductive Deed
  | directories
  /-- A C# text is written; one that is not kept is removed again. -/
  | text (x : Delivery) (kept : Bool)
  | row (t : Table) (row : t.Row)
  /-- The rows of a table that wait are written as a part; one that is not kept is removed again. -/
  | part (t : Table) (kept : Bool)

namespace Deed

def tries : Deed → List Try
  | text x kept => [⟨x, kept⟩]
  | directories | row _ _ | part _ _ => []

def rows : Deed → List ResultRow
  | row .results r => [r]
  | directories | text _ _ | row .anomalies _ | part _ _ => []

def notes : Deed → List Anomaly
  | row .anomalies a => [a]
  | directories | text _ _ | row .results _ | part _ _ => []

def isRefused : Deed → Bool
  | text _ kept => !kept
  | part _ kept => !kept
  | directories | row _ _ => false

end Deed

inductive Does : Deed → Store → Store → Prop
  | directories {s : Store} {path : Path} {d : Disk} (made : s.disk.makeDirectories path = .ok d) :
    Does .directories s { s with disk := d }
  | text {s : Store} {x : Delivery} {d : Disk} (inside : Inside x.source)
    (named : (Path.ofText x.source).names ≠ [])
    (written : s.disk.write (s.staged (place x.source)) (bytesOf x.text) = .ok d)
    (affords : s.Affords (bytesOf x.text).length) :
    Does (.text x true) s { s with
      disk := d
      outputs := s.outputs + 1
      bytesWritten := s.bytesWritten + (bytesOf x.text).length
      log := s.log ++ [textLine x.source] }
  | refusedText {s : Store} {x : Delivery} {d : Disk} (inside : Inside x.source)
    (named : (Path.ofText x.source).names ≠ [])
    (written : s.disk.write (s.staged (place x.source)) (bytesOf x.text) = .ok d) :
    Does (.text x false) s { s with
      disk := d.removeFile (s.staged (place x.source))
      outputs := s.outputs + 1 }
  | row {s : Store} {t : Table} {r : t.Row} : Does (.row t r) s (s.withSeries t ((s.series t).add r))
  | part {s : Store} {t : Table} {d : Disk} (written : s.disk.write (s.nextPath t) (s.nextPage t) = .ok d)
    (affords : s.Affords (s.nextPage t).length) :
    Does (.part t true) s (withSeries { s with
      disk := d
      bytesWritten := s.bytesWritten + (s.nextPage t).length
      log := s.log ++ [partLine t (s.nextName t)] } t (s.series t).cut)
  | refusedPart {s : Store} {t : Table} {d : Disk}
    (written : s.disk.write (s.nextPath t) (s.nextPage t) = .ok d) :
    Does (.part t false) s { s with disk := d.removeFile (s.nextPath t) }

inductive Course : List Deed → Store → Store → Prop
  | nil {s : Store} : Course [] s s
  | cons {deed : Deed} {deeds : List Deed} {s s₁ s' : Store} (first : Does deed s s₁)
    (rest : Course deeds s₁ s') : Course (deed :: deeds) s s'

theorem Course.append {ds ds' : List Deed} {s s₁ s' : Store} (h : Course ds s s₁) (h' : Course ds' s₁ s') :
    Course (ds ++ ds') s s' := by
  induction h with
  | nil => exact h'
  | cons first _ ih => exact .cons first (ih h')

/-- A store comes from another by deeds that try these texts and add these rows; if it goes `well`, none of
them is refused. -/
def Leads (ts : List Try) (rows : List ResultRow) (notes : List Anomaly) (well : Prop) (s s' : Store) :
    Prop :=
  ∃ ds, Course ds s s' ∧ ds.flatMap Deed.tries = ts ∧ ds.flatMap Deed.rows = rows ∧
    ds.flatMap Deed.notes = notes ∧ (well → ∀ d ∈ ds, d.isRefused = false)

section

variable {ts ts' : List Try} {rows rows' : List ResultRow} {notes notes' : List Anomaly}
  {well well' : Prop} {s s₁ s' : Store} {deed : Deed}

theorem Leads.refl (s : Store) : Leads [] [] [] well s s :=
  ⟨[], .nil, rfl, rfl, rfl, fun _ _ hd => absurd hd not_mem_nil⟩

theorem Does.leads (h : Does deed s s') (hwell : well → deed.isRefused = false) :
    Leads deed.tries deed.rows deed.notes well s s' := by
  refine ⟨[deed], .cons h .nil, flatMap_singleton _ _, flatMap_singleton _ _,
    flatMap_singleton _ _, fun hgoes d hd => ?_⟩
  rw [mem_singleton.mp hd]
  exact hwell hgoes

theorem Leads.trans (h : Leads ts rows notes well s s₁) (h' : Leads ts' rows' notes' well' s₁ s') :
    Leads (ts ++ ts') (rows ++ rows') (notes ++ notes') (well ∧ well') s s' := by
  obtain ⟨ds, hcourse, rfl, rfl, rfl, hwell⟩ := h
  obtain ⟨ds', hcourse', rfl, rfl, rfl, hwell'⟩ := h'
  refine ⟨ds ++ ds', hcourse.append hcourse', flatMap_append, flatMap_append, flatMap_append, fun hboth d hd => ?_⟩
  rcases mem_append.mp hd with hd | hd
  · exact hwell hboth.1 d hd
  · exact hwell' hboth.2 d hd

theorem Leads.imp (h : Leads ts rows notes well s s') (hwell : well' → well) : Leads ts rows notes well' s s' := by
  obtain ⟨ds, hcourse, hts, hrows, hnotes, hrefused⟩ := h
  exact ⟨ds, hcourse, hts, hrows, hnotes, fun h => hrefused (hwell h)⟩

theorem Leads.keeps (h : Leads ts' rows' notes' well s s')
    (inv : List Try → List ResultRow → List Anomaly → Store → Prop) (ts : List Try)
    (rows : List ResultRow) (notes : List Anomaly)
    (hstep : ∀ {deed : Deed} {s s' : Store} {ts rows notes}, Does deed s s' → inv ts rows notes s →
      inv (ts ++ deed.tries) (rows ++ deed.rows) (notes ++ deed.notes) s')
    (hs : inv ts rows notes s) : inv (ts ++ ts') (rows ++ rows') (notes ++ notes') s' := by
  obtain ⟨ds, hcourse, rfl, rfl, rfl, -⟩ := h
  induction hcourse generalizing ts rows notes with
  | nil => simpa using hs
  | cons first _ ih => simpa [flatMap_cons] using ih _ _ _ (hstep first hs)

end

/-! ### Writing -/

section

variable {s s' : Store} {x : Delivery}

theorem outputNames_eq_ok {names : List String} {source : String} (h : outputNames source = .ok names) :
    Inside source ∧ (Path.ofText source).names ≠ [] ∧ names = place source := by
  have hin : Inside source := by
    by_contra hout
    rw [outputNames, if_pos] at h
    · cases h
    · rw [Inside, not_and_or, Bool.not_eq_false, not_not] at hout
      simpa using hout
  have hnamed : (Path.ofText source).names ≠ [] := by
    intro hnil
    rw [outputNames_of_eq_nil hin hnil] at h
    cases h
  rw [outputNames_of_ne_nil hin hnamed] at h
  exact ⟨hin, hnamed, (Except.ok.inj h).symm⟩

theorem isFull_of_outputNames_eq_error {source : String} {f : StoreFault}
    (h : outputNames source = .error f) : f.isFull = false := by
  unfold outputNames at h
  dsimp only at h
  split at h
  · cases h
    rfl
  · split at h
    · cases h
    · cases h
      rfl

theorem writeOutput_cases (x : Delivery) (s : Store) :
    (∃ f s', s.writeOutput x.source x.text = (.error f, s') ∧ f.isFull = false ∧
      (s' = s ∨ Does .directories s s')) ∨ ∃ s₁, Does .directories s s₁ ∧
      ((∃ s', s.writeOutput x.source x.text = (.ok (outputPath x.source, bytesOf x.text), s') ∧
        Does (.text x true) s₁ s') ∨ ∃ f s', s.writeOutput x.source x.text = (.error f, s') ∧ f.isFull = true ∧
        Does (.text x false) s₁ s') := by
  unfold writeOutput
  split
  · next f hnames => exact .inl ⟨f, s, rfl, isFull_of_outputNames_eq_error hnames, .inl rfl⟩
  next names hnames =>
  obtain ⟨hin, hnamed, rfl⟩ := outputNames_eq_ok hnames
  dsimp only
  split
  · exact .inl ⟨_, s, rfl, rfl, .inl rfl⟩
  next d hmade =>
  split
  · exact .inl ⟨_, _, rfl, rfl, .inr (.directories hmade)⟩
  next content hcontent =>
  obtain rfl : bytesOf x.text = content := by rw [bytesOf, hcontent]
  split
  · exact .inl ⟨_, _, rfl, rfl, .inr (.directories hmade)⟩
  next d' hwrite =>
  refine .inr ⟨{ s with disk := d }, .directories hmade, ?_⟩
  rcases account_cases (bytesOf x.text).length (s.staged (place x.source))
    { s with disk := d', outputs := s.outputs + 1 } with ⟨haffords, heq⟩ | ⟨f, hfull, heq⟩
  · rw [heq]
    exact .inl ⟨_, rfl, .text hin hnamed hwrite haffords⟩
  · rw [heq]
    exact .inr ⟨f, _, rfl, hfull, .refusedText hin hnamed hwrite⟩

def Delivery.tried {α : Type} (x : Delivery) : Except StoreFault α → List Try
  | .ok _ => [⟨x, true⟩]
  | .error f => if f.isFull then [⟨x, false⟩] else []

def triesOf (s : Store) (x : Delivery) : List Try := x.tried (s.writeOutput x.source x.text).1

theorem leads_writeOutput (x : Delivery) (s : Store) :
    Leads (s.triesOf x) [] [] ((s.writeOutput x.source x.text).1.isOk = true) s (s.writeOutput x.source x.text).2 := by
  rw [triesOf]
  rcases writeOutput_cases x s with ⟨f, s', heq, hfull, hdone⟩ | ⟨s₁, hmade, ⟨s', heq, hdone⟩ |
    ⟨f, s', heq, hfull, hdone⟩⟩
  · simp only [heq, Delivery.tried, hfull, Bool.false_eq_true, if_false]
    rcases hdone with rfl | hdone
    · exact .refl _
    · exact hdone.leads fun _ => rfl
  · simp only [heq, Delivery.tried]
    exact ((hmade.leads fun _ => rfl).trans (hdone.leads fun _ => rfl)).imp fun h => ⟨h, h⟩
  · simp only [heq, Delivery.tried, hfull, if_true]
    exact ((hmade.leads fun _ => rfl).trans (hdone.leads nofun)).imp fun h => ⟨h, h⟩

theorem leads_flushTable (t : Table) (force : Bool) (s : Store) :
    Leads [] [] [] ((s.flushTable t force).1 = .ok ()) s (s.flushTable t force).2 := by
  rw [flushTable, count_series]
  split
  · rw [writePart, writeFile, ← waitingRows]
    cases hwrite : s.disk.write (s.staged [t.directory, s.partName t.directory (s.pages t).length])
        (s.config.encode (s.waitingRows t)) with
    | error f => exact .refl _
    | ok d =>
      dsimp only
      rcases account_cases (s.config.encode (s.waitingRows t)).length
        (s.staged [t.directory, s.partName t.directory (s.pages t).length]) { s with disk := d }
        with ⟨haffords, heq⟩ | ⟨f, -, heq⟩
      · rw [heq]
        exact (Does.part hwrite haffords).leads fun _ => rfl
      · rw [heq]
        exact (Does.refusedPart hwrite).leads (by rintro ⟨⟩)
  · exact .refl _

end

/-! ### Calls -/

def Call.rowsIn (c : Call) (s : Store) : List ResultRow :=
  match c with
  | .result r =>
    if (Store.deliveries r).all fun x => (s.writeOutput x.source x.text).1.isOk then [rowOf r] else []
  | _ => []

/-- The anomalies that are added to a store: those up to one at which a part cannot be kept. -/
def notesIn : List Anomaly → Store → List Anomaly
  | [], _ => []
  | a :: rest, s =>
    a :: match s.add .anomalies a with
      | (.error _, _) => []
      | (.ok (), s) => notesIn rest s

def Call.notesIn (c : Call) (s : Store) : List Anomaly :=
  match c with
  | .anomalies as => Store.notesIn as s
  | _ => []

def Call.triesIn (c : Call) (s : Store) : List Try := c.deliveries.flatMap s.triesOf

section

variable {s s' : Store} {c : Call} {cs : List Call}

theorem leads_add (t : Table) (row : t.Row) (s : Store) :
    Leads [] (Deed.row t row).rows (Deed.row t row).notes ((s.add t row).1 = .ok ()) s (s.add t row).2 := by
  have hadded : Leads [] (Deed.row t row).rows (Deed.row t row).notes True s
      (s.withSeries t ((s.series t).add row)) := Does.row.leads fun _ => rfl
  rw [add]
  split
  · have hboth := hadded.trans (leads_flushTable t false _)
    simp only [append_nil] at hboth
    exact hboth.imp fun h => ⟨trivial, h⟩
  · exact hadded.imp fun _ => trivial

theorem leads_appendAnomalies (as : List Anomaly) (s : Store) :
    Leads [] [] (notesIn as s) ((s.appendAnomalies as).1 = .ok ()) s (s.appendAnomalies as).2 := by
  induction as generalizing s with
  | nil => exact .refl s
  | cons a as ih =>
    have hadd := leads_add .anomalies a s
    rw [notesIn, appendAnomalies]
    cases heq : s.add .anomalies a with
    | mk outcome s₁ =>
      rw [heq] at hadd
      cases outcome with
      | error f => exact hadd.imp (by rintro ⟨⟩)
      | ok _ => exact (hadd.trans (ih s₁)).imp fun h => ⟨rfl, h⟩

theorem leads_flushAll (force : Bool) (s : Store) :
    Leads [] [] [] ((s.flushAll force).1 = .ok ()) s (s.flushAll force).2 := by
  have hresults := leads_flushTable .results force s
  rw [flushAll]
  cases heq : s.flushTable .results force with
  | mk outcome s₁ =>
    rw [heq] at hresults
    cases outcome with
    | error f => exact hresults.imp (by rintro ⟨⟩)
    | ok _ => exact (hresults.trans (leads_flushTable .anomalies force s₁)).imp fun h => ⟨rfl, h⟩

theorem leads_appendResult (r : Result) (s : Store) : Leads (Call.triesIn (.result r) s) (Call.rowsIn (.result r) s) []
      ((s.appendResult r).1 = .ok ()) s (s.appendResult r).2 := by
  rw [Call.triesIn, Call.deliveries, Call.rowsIn]
  rcases appendResult_cases r s with ⟨hnone, heq⟩ | ⟨text, hone, heq⟩
  · rw [heq, hnone, rowOf, hnone]
    exact leads_add .results _ s
  · have hwrite := leads_writeOutput ⟨r.file.path, text⟩ s
    rw [heq, hone, flatMap_singleton, all_cons, all_nil, Bool.and_true]
    rcases writeOutput_cases ⟨r.file.path, text⟩ s with ⟨f, s', hfails, -, -⟩ | ⟨s₁, -, ⟨s', hok, -⟩ |
      ⟨f, s', hfails, -, -⟩⟩
    · rw [hfails] at hwrite ⊢
      exact hwrite.imp (by rintro ⟨⟩)
    · rw [hok] at hwrite ⊢
      have hboth := hwrite.trans (leads_add .results (rowOf r) s')
      rw [append_nil, rowOf, hone] at hboth
      rw [rowOf, hone]
      exact hboth.imp fun h => ⟨rfl, h⟩
    · rw [hfails] at hwrite ⊢
      exact hwrite.imp (by rintro ⟨⟩)

theorem leads_call (c : Call) (s : Store) :
    Leads (c.triesIn s) (c.rowsIn s) (c.notesIn s) ((s.call c).1 = .ok ()) s (s.call c).2 := by
  cases c with
  | write source text =>
    have hwrite := leads_writeOutput ⟨source, text⟩ s
    rw [Call.triesIn, Call.deliveries, flatMap_singleton]
    unfold call
    dsimp only at hwrite ⊢
    cases heq : s.writeOutput source text with
    | mk outcome s₁ =>
      rw [heq] at hwrite
      cases outcome with
      | error f => exact hwrite.imp (by rintro ⟨⟩)
      | ok output => exact hwrite.imp fun _ => rfl
  | result r => exact leads_appendResult r s
  | anomalies as => exact leads_appendAnomalies as s
  | flush => exact leads_flushAll false s

def after : List Call → Store → Store
  | [], s => s
  | c :: cs, s => after cs (s.call c).2

def along {α : Type} (brings : Call → Store → List α) : List Call → Store → List α
  | [], _ => []
  | c :: cs, s => brings c s ++ along brings cs (s.call c).2

theorem after_append (cs cs' : List Call) (s : Store) : s.after (cs ++ cs') = (s.after cs).after cs' := by
  induction cs generalizing s with
  | nil => rfl
  | cons c cs ih => exact ih _

theorem after_of_calls (h : s.calls cs = some s') : s.after cs = s' := by
  induction cs generalizing s with
  | nil => exact Option.some.inj h
  | cons c cs ih =>
    rw [calls] at h
    split at h
    · cases h
    · next s₁ hcall =>
      rw [after, hcall]
      exact ih h

theorem leads_after (cs : List Call) (s : Store) :
    Leads (along Call.triesIn cs s) (along Call.rowsIn cs s) (along Call.notesIn cs s)
      ((s.calls cs).isSome = true) s (s.after cs) := by
  induction cs generalizing s with
  | nil => exact .refl s
  | cons c cs ih =>
    refine ((leads_call c s).trans (ih (s.call c).2)).imp fun h => ?_
    rw [calls] at h
    split at h
    · cases h
    · next s₁ hcall =>
      rw [hcall]
      exact ⟨rfl, h⟩

end

end Store

end GroovySharp
