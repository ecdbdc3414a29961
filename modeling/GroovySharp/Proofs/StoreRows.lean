import GroovySharp.Proofs.OutputPlaces
import GroovySharp.Proofs.StoreLimit

/-!
# The rows of a store

Rows wait until there are enough for a part, until all that waits is written, or until the store is
finished; and a part may be refused after its last row was added.
-/

namespace GroovySharp

open Unicode List

/-! ### Fields -/

namespace JsonValue

theorem lookup_setField (key k : Points) (v : JsonValue) (fields : Fields) :
    (setField k v fields).lookup key = if key = k then some v else fields.lookup key := by
  induction fields with
  | nil => exact lookup_cons_ite key k v []
  | cons p fields ih =>
    obtain ⟨k', v'⟩ := p
    rw [setField]
    by_cases hk : k' = k
    · rw [if_pos hk, lookup_cons_ite, lookup_cons_ite, hk]
      split <;> rfl
    · rw [if_neg hk, lookup_cons_ite, lookup_cons_ite, ih]
      split
      · next heq => rw [if_neg fun hkey => hk (heq.symm.trans hkey)]
      · rfl

theorem lookup_update (key : Points) (fields others : Fields) :
    (update fields others).lookup key = (others.reverse.lookup key).or (fields.lookup key) := by
  induction others generalizing fields with
  | nil => rfl
  | cons p others ih =>
    obtain ⟨k, v⟩ := p
    have hstep : update fields ((k, v) :: others) = update (setField k v fields) others := rfl
    rw [hstep, ih, lookup_setField, reverse_cons, lookup_append, Option.or_assoc, lookup_cons_ite, lookup_nil]
    split <;> rfl

end JsonValue

/-! ### Series -/

namespace Series

variable {α : Type} {roll : Nat} {t : Series α}

/-- A series in which nothing was refused: fewer rows wait than make a part, and no part is empty or has more
rows than that. -/
structure Rolled (roll : Nat) (t : Series α) : Prop where
  waiting : t.waiting.size < roll
  parts : ∀ p ∈ t.parts, p ≠ [] ∧ p.length ≤ roll

theorem rolled_empty (hroll : 0 < roll) : Rolled roll ({} : Series α) where
  waiting := hroll
  parts _ hp := absurd hp not_mem_nil

theorem parts_flushed_false (h : ∀ p ∈ t.parts, p ≠ [] ∧ p.length ≤ roll) (hsize : t.waiting.size ≤ roll) :
    ∀ p ∈ (t.flushed false).parts, p ≠ [] ∧ p.length ≤ roll := by
  intro p hp
  rw [flushed] at hp
  split at hp
  · next hneeds =>
    rcases mem_append.mp hp with hp | hp
    · exact h p hp
    · rw [mem_singleton.mp hp]
      refine ⟨fun hnil => ?_, by simpa using hsize⟩
      rw [needsPart, Bool.false_and, Bool.or_false, Array.toList_eq_nil_iff.mp hnil] at hneeds
      cases hneeds
  · exact h p hp

theorem Rolled.flushed (h : Rolled roll t) : Rolled roll (t.flushed false) where
  waiting := by
    rw [waiting_flushed]
    exact Nat.zero_lt_of_lt h.waiting
  parts := parts_flushed_false h.parts (Nat.le_of_lt h.waiting)

theorem Rolled.add (h : Rolled roll t) (row : α) :
    Rolled roll (if roll ≤ (t.add row).waiting.size then (t.add row).flushed false else t.add row) := by
  have hsize : (t.add row).waiting.size = t.waiting.size + 1 := Array.size_push _
  have hlt := h.waiting
  split
  · refine ⟨?_, parts_flushed_false h.parts (by omega)⟩
    rw [waiting_flushed]
    exact Nat.zero_lt_of_lt hlt
  · next hfew => exact ⟨by omega, h.parts⟩

theorem Rolled.flushed_force (h : Rolled roll t) :
    ∀ p ∈ (t.flushed true).parts, p.length ≤ roll ∧ (p = [] → (t.flushed true).parts = [[]]) := by
  intro p hp
  by_cases hempty : t.waiting = #[] ∧ t.parts = []
  · have hsole : (t.flushed true).parts = [[]] := by simp [Series.flushed, needsPart, cut, count_eq, hempty]
    rw [hsole, mem_singleton] at hp
    rw [hp]
    exact ⟨Nat.zero_le _, fun _ => hsole⟩
  · have hsame : t.flushed true = t.flushed false := by
      rw [not_and_or] at hempty
      rcases hempty with hempty | hempty <;> simp [Series.flushed, needsPart, count_eq, hempty]
    rw [hsame] at hp ⊢
    obtain ⟨hne, hle⟩ := h.flushed.parts p hp
    exact ⟨hle, fun hnil => absurd hnil hne⟩

theorem parts_flushed_force_ne_nil (t : Series α) : (t.flushed true).parts ≠ [] := by
  rw [flushed]
  split
  · exact concat_ne_nil _ _
  · next hneeds =>
    rw [needsPart, Bool.or_eq_true, not_or, t.count_eq] at hneeds
    simpa using hneeds.2

theorem rowsWritten_flushed (force : Bool) (t : Series α) : (t.flushed force).rowsWritten = t.rows.length := by
  rw [← parts_flushed force t, rowsWritten_eq]

end Series

namespace Store

open Disk

/-! ### Rows in order -/

/-- The rows in the parts of a store and those that wait are the given ones, in their order; and the files of
its tables are the parts, by number. -/
structure InOrder (rows : List ResultRow) (notes : List Anomaly) (s : Store) : Prop where
  rows : s.results.parts.flatten ++ s.results.waiting.toList = rows
  notes : s.anomalies.parts.flatten ++ s.anomalies.waiting.toList = notes
  rowsWritten : s.results.rowsWritten = s.results.parts.flatten.length
  notesWritten : s.anomalies.rowsWritten = s.anomalies.parts.flatten.length
  paged : Paged s

/-- A later store has the parts of an earlier one, with their files as they were. -/
structure PartsKept (s s' : Store) : Prop where
  results : s.results.parts <+: s'.results.parts
  anomalies : s.anomalies.parts <+: s'.anomalies.parts
  files : ∀ (t : Table) x content, s.file? [t.directory, x] = some content → s'.file? [t.directory, x] = some content

section

variable {out : Path} {name : String} {s s' : Store} {deed : Deed} {ts : List Try} {well : Prop}
  {rows rows' : List ResultRow} {notes notes' : List Anomaly}

theorem inOrder_of_rows (hrows : s.results.rows = rows) (hnotes : s.anomalies.rows = notes)
    (hpaged : Paged s) : InOrder rows notes s :=
  ⟨hrows, hnotes, s.results.rowsWritten_eq, s.anomalies.rowsWritten_eq, hpaged⟩

theorem Does.parts_prefix (hdoes : Does deed s s') :
    s.results.parts <+: s'.results.parts ∧ s.anomalies.parts <+: s'.anomalies.parts := by
  cases hdoes with
  | @part _ t =>
    cases t with
    | results => exact ⟨prefix_append _ _, prefix_rfl⟩
    | anomalies => exact ⟨prefix_rfl, prefix_append _ _⟩
  | @row _ t => cases t <;> exact ⟨prefix_rfl, prefix_rfl⟩
  | _ => exact ⟨prefix_rfl, prefix_rfl⟩

/-- A store in its place, with its rows in order. -/
structure PlacedInOrder (out : Path) (name : String) (rows : List ResultRow) (notes : List Anomaly) (s : Store) :
    Prop where
  placed : Placed out name s
  inOrder : InOrder rows notes s

theorem ordered_fresh (config : StoreConfig) (out : Path) (name : String) :
    PlacedInOrder out (name ++ ".staging") [] [] (fresh config out name) :=
  ⟨placed_fresh config out name, inOrder_of_rows rfl rfl (paged_fresh config out name)⟩

theorem PlacedInOrder.does (h : PlacedInOrder out name rows notes s) (hdoes : Does deed s s') :
    PlacedInOrder out name (rows ++ deed.rows) (notes ++ deed.notes) s' := by
  obtain ⟨hrows, hnotes⟩ := hdoes.rows_eq
  refine ⟨(hdoes.placed h.placed).1, inOrder_of_rows ?_ ?_ (hdoes.paged h.placed h.inOrder.paged)⟩
  · rw [hrows, ← h.inOrder.rows, Series.rows]
  · rw [hnotes, ← h.inOrder.notes, Series.rows]

theorem PlacedInOrder.receipted {content : Bytes} (h : PlacedInOrder out name rows notes s)
    (hwrites : Receipted content s s') : PlacedInOrder out name rows notes s' := by
  have hpaged := hwrites.paged h.placed h.inOrder.paged
  refine ⟨(hwrites.placed h.placed).1, ?_⟩
  obtain ⟨own, -, rfl⟩ := hwrites
  exact inOrder_of_rows h.inOrder.rows h.inOrder.notes hpaged

theorem PlacedInOrder.leads (h : PlacedInOrder out name rows notes s) (hleads : Leads ts rows' notes' well s s') :
    PlacedInOrder out name (rows ++ rows') (notes ++ notes') s' ∧ PartsKept s s' := by
  have hkept := hleads.keeps (fun ts rows notes s' => PlacedInOrder out name rows notes s' ∧ Spares s ts s' ∧
      s.results.parts <+: s'.results.parts ∧ s.anomalies.parts <+: s'.anomalies.parts) [] rows notes
    (fun hdoes ⟨hordered, hspares, hresults, hanomalies⟩ =>
      ⟨hordered.does hdoes, hdoes.spares hordered.placed hordered.inOrder.paged hspares,
        hresults.trans hdoes.parts_prefix.1, hanomalies.trans hdoes.parts_prefix.2⟩)
    ⟨h, Spares.refl s, prefix_rfl, prefix_rfl⟩
  obtain ⟨hordered, hspares, hresults, hanomalies⟩ := hkept
  refine ⟨hordered, hresults, hanomalies, fun t x content hfile => ?_⟩
  refine hspares.files _ content (by simp) (fun t' _ heq => ?_) hfile
  exact outputDirectory_ne_directory t (List.cons.inj heq).1.symm

theorem PartsKept.receipted {s₁ : Store} {content : Bytes} (hplaced : Placed out name s₁)
    (h : PartsKept s s₁) (hwrites : Receipted content s₁ s') : PartsKept s s' := by
  have hfiles := (hwrites.placed hplaced).2
  obtain ⟨own, -, rfl⟩ := hwrites
  refine ⟨h.results, h.anomalies, fun t x old hfile => ?_⟩
  rw [hfiles, if_neg (by simp)]
  exact h.files t x old hfile

end

/-! ### Calls that are not refused -/

section

variable {s s' : Store} {force : Bool}

theorem series_add {t : Table} {row : t.Row} (h : s.add t row = (.ok (), s')) :
    s'.series t = (if s.rollRows ≤ ((s.series t).add row).waiting.size then ((s.series t).add row).flushed false
      else (s.series t).add row) ∧ (∀ t' ≠ t, s'.series t' = s.series t') ∧ s'.config = s.config := by
  obtain ⟨hseries, hother, hconfig⟩ := series_withSeries s t ((s.series t).add row)
  rw [add, rollRows, hconfig, hseries] at h
  split at h
  · next hmany =>
    obtain ⟨hrows, hother', hconfig'⟩ := series_flushTable h
    rw [hseries] at hrows
    exact ⟨hrows.trans (if_pos hmany).symm, fun t' hne => (hother' t' hne).trans (hother t' hne),
      hconfig'.trans hconfig⟩
  · next hfew =>
    cases h
    exact ⟨hseries.trans (if_neg hfew).symm, hother, hconfig⟩

def Rolling (s : Store) : Prop := ∀ t, (s.series t).Rolled s.rollRows

theorem rolling_fresh (config : StoreConfig) (out : Path) (name : String) : Rolling (fresh config out name) :=
  have hroll : 0 < (fresh config out name).rollRows := Nat.lt_of_lt_of_le (by decide) (Nat.le_max_left 1000 _)
  fun t => by cases t <;> exact Series.rolled_empty hroll

theorem rolling_of_series (hconfig : s'.config = s.config) (h : ∀ t, (s'.series t).Rolled s.rollRows) :
    Rolling s' := by
  have hroll : s'.rollRows = s.rollRows := by rw [rollRows, rollRows, hconfig]
  rwa [Rolling, hroll]

theorem Rolling.add {t : Table} {row : t.Row} (h : Rolling s) (hok : s.add t row = (.ok (), s')) : Rolling s' := by
  obtain ⟨hrows, hother, hconfig⟩ := series_add hok
  refine rolling_of_series hconfig fun t' => ?_
  by_cases ht : t' = t
  · subst ht
    exact hrows ▸ (h t').add row
  · exact hother t' ht ▸ h t'

theorem Rolling.writeOutput {source : String} {text : Points} {output : String × Bytes} (h : Rolling s)
    (hok : s.writeOutput source text = (.ok output, s')) : Rolling s' := by
  obtain ⟨-, s₁, hmade, hdone⟩ := writeOutput_does hok
  cases hmade
  cases hdone
  exact rolling_of_series rfl h

theorem Rolling.appendResult {r : Result} (h : Rolling s) (hok : s.appendResult r = (.ok (), s')) : Rolling s' := by
  unfold Store.appendResult at hok
  split at hok
  · split at hok
    · cases hok
    · next hwrite => exact (h.writeOutput hwrite).add hok
  · exact h.add hok

theorem Rolling.appendAnomalies {as : List Anomaly} (h : Rolling s)
    (hok : s.appendAnomalies as = (.ok (), s')) : Rolling s' := by
  induction as generalizing s with
  | nil =>
    cases hok
    exact h
  | cons a as ih =>
    rw [Store.appendAnomalies] at hok
    split at hok
    · cases hok
    · next s₁ hadd => exact ih (h.add hadd) hok

theorem Rolling.call {c : Call} (h : Rolling s) (hok : s.call c = (.ok (), s')) : Rolling s' := by
  cases c with
  | write source text =>
    unfold Store.call at hok
    dsimp only at hok
    split at hok
    · cases hok
    · next hwrite =>
      cases hok
      exact h.writeOutput hwrite
  | result r => exact h.appendResult hok
  | anomalies as => exact h.appendAnomalies hok
  | flush =>
    obtain ⟨hseries, hconfig⟩ := series_flushAll hok
    exact rolling_of_series hconfig fun t => hseries t ▸ (h t).flushed

theorem Rolling.calls {cs : List Call} (h : Rolling s) (hok : s.calls cs = some s') : Rolling s' := by
  induction cs generalizing s with
  | nil =>
    cases hok
    exact h
  | cons c cs ih =>
    rw [Store.calls] at hok
    split at hok
    · cases hok
    · next s₁ hcall => exact ih (h.call hcall) hok

end

/-! ### Receipts -/

section

variable {s s' : Store} {now : Moment} {more : Fields}

theorem lookup_receipt (s : Store) (now : Moment) (more : Fields) :
    ∃ fields, s.receipt now more = .object fields ∧
      fields.lookup (points "translation_rows") = some
        ((more.reverse.lookup (points "translation_rows")).getD (.integer s.results.rowsWritten)) ∧
      fields.lookup (points "anomaly_rows") = some
        ((more.reverse.lookup (points "anomaly_rows")).getD (.integer s.anomalies.rowsWritten)) := by
  refine ⟨_, rfl, ?_, ?_⟩
  · rw [JsonValue.lookup_setField, if_neg (by decide), JsonValue.lookup_update]
    exact Option.or_some
  · rw [JsonValue.lookup_setField, if_neg (by decide), JsonValue.lookup_update]
    exact Option.or_some

end

/-! ### Runs -/

/-- All rows of a store that is finished are in parts, each table has a part, and the receipt counts the rows
unless fields of these names were given for it. The tables and the receipt are in the output directory. -/
structure Finished (d : Disk) (out : Path) (added : List ResultRow) (noted : List Anomaly) (now : Moment)
    (more : Fields) (s s₂ : Store) (d₂ : Disk) : Prop where
  rows : s₂.results.parts.flatten = added
  notes : s₂.anomalies.parts.flatten = noted
  waiting : s₂.results.waiting = #[] ∧ s₂.anomalies.waiting = #[]
  parts : s₂.results.parts ≠ [] ∧ s₂.anomalies.parts ≠ []
  kept : s.results.parts <+: s₂.results.parts ∧ s.anomalies.parts <+: s₂.anomalies.parts
  receipt : ∃ s₁ fields, s.flushAll true = (.ok (), s₁) ∧ s₁.receipt now more = .object fields ∧
    fields.lookup (points "translation_rows") =
      some ((more.reverse.lookup (points "translation_rows")).getD (.integer added.length)) ∧
    fields.lookup (points "anomaly_rows") =
      some ((more.reverse.lookup (points "anomaly_rows")).getD (.integer noted.length)) ∧
    ∀ names name, HasRoom d out names name → d₂.read (out.append { names := [receiptName] }) =
      .ok (Encoding.Utf8.encode (JsonValue.object fields).render)
  published : ∀ names name, HasRoom d out names name → ∀ (t : Table) x content,
    fileAt? d₂.top (names ++ [name] ++ [t.directory, x]) = some content ↔
      ∃ k, x = s₂.partName t.directory k ∧ (s₂.pages t)[k]? = some content

structure RowsKept (d d₁ : Disk) (out : Path) (s₀ : Store) (cs : List Call) : Prop where
  inOrder : InOrder (along Call.rowsIn cs s₀) (along Call.notesIn cs s₀) (s₀.after cs)
  later : ∀ cs', PartsKept (s₀.after cs) (s₀.after (cs ++ cs'))
  failed : ∀ now more d' f s', (s₀.after cs).finalize now more d' = (.error f, s') →
    InOrder (along Call.rowsIn cs s₀) (along Call.notesIn cs s₀) s' ∧ PartsKept (s₀.after cs) s'
  finished : ∀ now more d₂ s₂, (s₀.after cs).finalize now more d₁ = (.ok d₂, s₂) →
    Finished d out (along Call.rowsIn cs s₀) (along Call.notesIn cs s₀) now more (s₀.after cs) s₂ d₂
  /-- If nothing was refused, no part has too many rows, and only that of a table without rows is empty. -/
  rolled : ∀ now more d₂ s₂, (s₀.calls cs).isSome = true → (s₀.after cs).finalize now more d₁ = (.ok d₂, s₂) →
      (∀ p ∈ s₂.results.parts, p.length ≤ s₂.rollRows ∧ (p = [] → s₂.results.parts = [[]])) ∧
        ∀ p ∈ s₂.anomalies.parts, p.length ≤ s₂.rollRows ∧ (p = [] → s₂.anomalies.parts = [[]])

section

variable {out : Path} {name : String} {s s' : Store} {rows : List ResultRow} {notes : List Anomaly}
  {now : Moment} {more : Fields} {d d₁ d₂ : Disk}

theorem PlacedInOrder.finalize_error {f : StoreFault} (h : PlacedInOrder out name rows notes s)
    (hfails : s.finalize now more d = (.error f, s')) : InOrder rows notes s' ∧ PartsKept s s' := by
  obtain ⟨s₁, hleads, hdone⟩ := leads_of_finalize_eq_error hfails
  obtain ⟨hordered, hkept⟩ := h.leads hleads
  rw [append_nil, append_nil] at hordered
  rcases hdone with rfl | ⟨content, hwrites⟩
  · exact ⟨hordered.inOrder, hkept⟩
  · exact ⟨(hordered.receipted hwrites).inOrder, hkept.receipted hordered.placed hwrites⟩

theorem PlacedInOrder.finalize (h : PlacedInOrder out (name ++ ".staging") rows notes s)
    (hopened : ∀ names name', HasRoom d out names name' → name' = name ∧ Opened d₁ out names name)
    (hnamed : out.name? = some name) (hok : s.finalize now more d₁ = (.ok d₂, s')) :
    Finished d out rows notes now more s s' d₂ := by
  obtain ⟨s₁, own, hflush, -, -, rfl⟩ := finalize_eq_ok hok
  obtain ⟨hseries, hconfig⟩ := series_flushAll hflush
  have hresults : s₁.results = s.results.flushed true := hseries .results
  have hanomalies : s₁.anomalies = s.anomalies.flushed true := hseries .anomalies
  have hleads := leads_flushAll true s
  rw [hflush] at hleads
  obtain ⟨hordered, hkept⟩ := h.leads hleads
  obtain ⟨fields, hfields, hrows, hnotes⟩ := lookup_receipt s₁ now more
  have hrowsWritten : s₁.results.rowsWritten = rows.length := by
    rw [hresults, Series.rowsWritten_flushed, Series.rows, h.inOrder.rows]
  have hnotesWritten : s₁.anomalies.rowsWritten = notes.length := by
    rw [hanomalies, Series.rowsWritten_flushed, Series.rows, h.inOrder.notes]
  rw [hrowsWritten] at hrows
  rw [hnotesWritten] at hnotes
  -- the receipt is no part, so the tables in the output directory are those of the staging directory
  have hout (names : Spot) (name' : String) (hroom : HasRoom d out names name') :
      Opened d₁ out names name' ∧ d₂ = { d₁ with top := d₂.top } ∧ ∀ z, fileAt? d₂.top (names ++ [name'] ++ z) =
          if z = [receiptName] then some (Encoding.Utf8.encode (s₁.receipt now more).render)
          else s₁.file? z := by
    obtain ⟨rfl, hd⟩ := hopened names name' hroom
    obtain ⟨s₁', hflush', -, hd₂, hfiles⟩ := h.placed.finalize hd hnamed hok
    obtain rfl : s₁ = s₁' := (Prod.mk.inj (hflush.symm.trans hflush')).2
    exact ⟨hd, hd₂, hfiles⟩
  exact {
    rows := by
      dsimp only
      rw [hresults, Series.parts_flushed, Series.rows, h.inOrder.rows]
    notes := by
      dsimp only
      rw [hanomalies, Series.parts_flushed, Series.rows, h.inOrder.notes]
    waiting := by
      dsimp only
      rw [hresults, hanomalies]
      exact ⟨Series.waiting_flushed true _, Series.waiting_flushed true _⟩
    parts := by
      dsimp only
      rw [hresults, hanomalies]
      exact ⟨Series.parts_flushed_force_ne_nil _, Series.parts_flushed_force_ne_nil _⟩
    kept := ⟨hkept.results, hkept.anomalies⟩
    receipt := by
      refine ⟨s₁, fields, hflush, hfields, hrows, hnotes, fun names name' hroom => ?_⟩
      obtain ⟨hd, hd₂, hfiles⟩ := hout names name' hroom
      have hfile := hfiles [receiptName]
      rw [if_pos rfl, fileAt?_eq_some, hfields] at hfile
      rw [hd₂]
      exact read_eq (hd.namesOf?_below [receiptName]) (hd.fit_out.append fit_receiptName) hfile
    published := by
      intro names name' hroom t x content
      obtain ⟨-, -, hfiles⟩ := hout names name' hroom
      rw [hfiles, if_neg (by simp)]
      exact hordered.inOrder.paged t x content }

end

/-- Whatever calls a store has taken, and whether they were refused or not, the rows that they have added are
in its parts and among those that wait, in their order; and all of them are published. -/
theorem rowsKept_of_after (config : StoreConfig) (out : Path) (d d₁ : Disk) (s₀ : Store) (cs : List Call)
    (hstart : start config out d = .ok (s₀, d₁)) : RowsKept d d₁ out s₀ cs := by
  obtain ⟨name, hnamed, rfl⟩ := eq_fresh_of_start hstart
  obtain ⟨hordered, -⟩ := (ordered_fresh config out name).leads (leads_after cs _)
  rw [List.nil_append, List.nil_append] at hordered
  exact {
    inOrder := hordered.inOrder
    later := fun cs' => by
      rw [after_append]
      exact (hordered.leads (leads_after cs' _)).2
    failed := fun _ _ _ _ _ hfails => hordered.finalize_error hfails
    finished := fun _ _ _ _ hok => by
      refine hordered.finalize (fun names name' hroom => ?_) hnamed hok
      obtain rfl : name = name' := Option.some.inj (hnamed.symm.trans hroom.named)
      obtain ⟨d', hstart', hopened⟩ := hroom.start_eq_ok config
      obtain rfl : d' = d₁ := (Prod.mk.inj (Except.ok.inj (hstart'.symm.trans hstart))).2
      exact ⟨rfl, hopened⟩
    rolled := fun now more d₂ s₂ hcalls hok => by
      obtain ⟨s, hs⟩ := Option.isSome_iff_exists.mp hcalls
      rw [after_of_calls hs] at hok
      have hrolling := (rolling_fresh config out name).calls hs
      obtain ⟨hseries, hconfig⟩ := series_finalize hok
      have hroll : s₂.rollRows = s.rollRows := by rw [rollRows, rollRows, hconfig]
      have hparts (t : Table) : ∀ p ∈ (s₂.series t).parts,
          p.length ≤ s₂.rollRows ∧ (p = [] → (s₂.series t).parts = [[]]) := by
        rw [hseries, hroll]
        exact (hrolling t).flushed_force
      exact ⟨hparts .results, hparts .anomalies⟩ }

def uneven : StoreConfig where
  maxBytes? := some 10
  encode
    | .anomalies [_] => List.replicate 11 0
    | _ => [1]

def unevenCalls : List Call :=
  [.anomalies [{ path := "a.groovy", digest := "", kind := .skipped, severity := .info }], .flush,
    .anomalies [{ path := "b.groovy", digest := "", kind := .timeout, severity := .error }], .flush,
    .result (converted "a.groovy" "x = 1;\n")]

theorem rowsKept_uneven :
    ∃ s₀ d₁, start uneven { names := ["out"] } (Batch.diskOf []) = .ok (s₀, d₁) ∧
      (s₀.after unevenCalls).anomalies.parts.map (·.map (·.path)) = [["a.groovy", "b.groovy"]] ∧
      (s₀.after unevenCalls).log = ["wrote_anomalies:groovy2cs_anomalies_00000.parquet", "wrote_cs:cs/a.cs"] ∧
      ((s₀.after unevenCalls).finalize {} [] d₁).1.isOk = true ∧
      RowsKept (Batch.diskOf []) d₁ { names := ["out"] } s₀ unevenCalls := by
  have hends : ((start uneven { names := ["out"] } (Batch.diskOf [])).toOption.map fun x =>
      ((x.1.after unevenCalls).anomalies.parts.map (·.map (·.path)), (x.1.after unevenCalls).log,
        ((x.1.after unevenCalls).finalize {} [] x.2).1.isOk)) =
      some ([["a.groovy", "b.groovy"]],
        ["wrote_anomalies:groovy2cs_anomalies_00000.parquet", "wrote_cs:cs/a.cs"], true) := by
    decide +kernel
  cases hstart : start uneven { names := ["out"] } (Batch.diskOf []) with
  | error f =>
    rw [hstart] at hends
    cases hends
  | ok x =>
    rw [hstart] at hends
    obtain ⟨hparts, hrest⟩ := Prod.mk.inj (Option.some.inj hends)
    obtain ⟨hlog, hok⟩ := Prod.mk.inj hrest
    exact ⟨x.1, x.2, rfl, hparts, hlog, hok, rowsKept_of_after uneven { names := ["out"] }
      (Batch.diskOf []) x.2 x.1 unevenCalls hstart⟩

def rowsIn? : JsonValue → Option Chars
  | .object fields => (fields.lookup (points "translation_rows")).map JsonValue.render
  | _ => none

/-- A number of rows that is given for the receipt stays in it, though there are no rows. -/
theorem given_rows_stay_in_receipt :
    (start {} { names := ["out"] } (Batch.diskOf [])).toOption.map (fun x =>
      ((x.1.finalize {} [(points "translation_rows", .integer 5)] x.2).1.isOk,
        ((x.1.flushAll true).2.results.rows.length,
          rowsIn? ((x.1.flushAll true).2.receipt {} [(points "translation_rows", .integer 5)])))) =
      some (true, 0, some ['5']) := by
  decide +kernel

end Store

end GroovySharp
