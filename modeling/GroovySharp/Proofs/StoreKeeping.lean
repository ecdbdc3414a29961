import GroovySharp.Proofs.StoreFiles

/-!
# What a store keeps

Calls that are not refused add rows and texts to what a store has. The last text for each place and the parts
of the tables can be read in its staging directory, and in the output directory once it is finished.
-/

namespace GroovySharp

open List

namespace Series

variable {α : Type}

def flushed (force : Bool) (t : Series α) : Series α := if t.needsPart force then t.cut else t

theorem waiting_flushed (force : Bool) (t : Series α) : (t.flushed force).waiting = #[] := by
  rw [flushed]
  split
  · rfl
  · next hneeds =>
    rw [needsPart, Bool.or_eq_true, not_or] at hneeds
    simpa using hneeds.1

theorem parts_flushed (force : Bool) (t : Series α) : (t.flushed force).parts.flatten = t.rows := by
  have hrows : (t.flushed force).rows = t.rows := by
    rw [flushed]
    split
    · exact rows_cut t
    · rfl
  rw [← hrows, rows, waiting_flushed, append_nil]

end Series

namespace Store

open Unicode Disk

/-! ### Texts and parts -/

/-- A store in its place that has the last text for each place and the parts of the tables, under names that
fit. -/
structure Keeping (out : Path) (name : String) (xs : List Delivery) (s : Store) : Prop
    extends Placed out name s where
  paged : Paged s
  fit : ∀ t, ∀ k < (s.pages t).length, Fit [s.partName t.directory k]
  proper : ∀ x ∈ xs, (Path.ofText x.source).names ≠ [] ∧ Fit (name :: place x.source)
  texts : ∀ x ∈ xs, ∃ y, lastAt xs (place x.source) = some y ∧ s.file? (place x.source) = some (bytesOf y.text)

structure Adds (rows : List ResultRow) (notes : List Anomaly) (xs : List Delivery) (s s' : Store) :
    Prop where
  config : s'.config = s.config
  rows : s'.results.rows = s.results.rows ++ rows
  notes : s'.anomalies.rows = s.anomalies.rows ++ notes
  keeping : ∀ {out name ys}, Keeping out name ys s → Keeping out name (ys ++ xs) s'

section

variable {out : Path} {name : String} {rows rows' : List ResultRow} {notes notes' : List Anomaly}
  {xs xs' : List Delivery} {s s' s'' : Store} {deed : Deed}

theorem keeping_fresh (config : StoreConfig) (out : Path) (name : String) :
    Keeping out (name ++ ".staging") [] (fresh config out name) where
  toPlaced := placed_fresh config out name
  paged := paged_fresh config out name
  fit t k hk := by cases t <;> cases hk
  proper _ hx := absurd hx not_mem_nil
  texts _ hx := absurd hx not_mem_nil

theorem Keeping.fit_does (h : Keeping out name xs s) (hdoes : Does deed s s') (t : Table) {k : Nat}
    (hk : k < (s'.pages t).length) : Fit [s.partName t.directory k] := by
  by_cases hold : k < (s.pages t).length
  · exact h.fit t k hold
  · rw [hdoes.pages_eq] at hk
    cases deed with
    | part t' kept =>
      rw [Deed.pagesAfter] at hk
      split at hk
      · next hpart =>
        obtain ⟨-, rfl⟩ := hpart
        rw [length_append, length_singleton] at hk
        obtain rfl : k = (s.pages t).length := by omega
        have hfit := (hdoes.fit h.toPlaced).2 t kept rfl
        exact fun last hlast => hfit last (mem_cons_of_mem _ (mem_cons_of_mem _ hlast))
      · exact absurd hk hold
    | _ => exact absurd hk hold

theorem Keeping.texts_does (h : Keeping out name xs s) (hdoes : Does deed s s') (hkept : deed.isRefused = false) :
    ∀ x ∈ xs ++ deed.tries.map (·.delivery), ∃ y, lastAt (xs ++ deed.tries.map (·.delivery)) (place x.source) = some y ∧
      s'.file? (place x.source) = some (bytesOf y.text) := by
  intro x hx
  rw [(hdoes.placed h.toPlaced).2]
  cases deed with
  | text y kept =>
    obtain rfl : kept = true := by simpa [Deed.isRefused] using hkept
    rw [Deed.tries, map_singleton] at hx ⊢
    rw [lastAt_concat, Deed.fileAfter]
    by_cases hsame : place y.source = place x.source
    · exact ⟨y, if_pos hsame, if_pos hsame.symm⟩
    · rw [if_neg hsame, if_neg (Ne.symm hsame)]
      exact h.texts x ((mem_append.mp hx).resolve_right fun hxy => hsame (mem_singleton.mp hxy ▸ rfl))
  | part t kept =>
    have hother : place x.source ≠ [t.directory, s.nextName t] := fun heq =>
      outputDirectory_ne_directory t (List.cons.inj heq).1
    rw [Deed.tries, map_nil, append_nil] at hx ⊢
    rw [Deed.fileAfter, if_neg hother]
    exact h.texts x hx
  | directories | row =>
    rw [Deed.tries, map_nil, append_nil] at hx ⊢
    exact h.texts x hx

theorem Keeping.does (h : Keeping out name xs s) (hdoes : Does deed s s') (hkept : deed.isRefused = false) :
    Keeping out name (xs ++ deed.tries.map (·.delivery)) s' where
  toPlaced := (hdoes.placed h.toPlaced).1
  paged := hdoes.paged h.toPlaced h.paged
  fit t k hk := by
    rw [partName, hdoes.config]
    exact h.fit_does hdoes t hk
  proper x hx := by
    rcases mem_append.mp hx with hx | hx
    · exact h.proper x hx
    · obtain ⟨t, ht, rfl⟩ := mem_map.mp hx
      exact (hdoes.fit h.toPlaced).1 t ht
  texts := h.texts_does hdoes hkept

/-! ### Adding -/

theorem Adds.refl (s : Store) : Adds [] [] [] s s where
  config := rfl
  rows := (append_nil _).symm
  notes := (append_nil _).symm
  keeping h := by rwa [append_nil]

theorem Adds.trans (h : Adds rows notes xs s s') (h' : Adds rows' notes' xs' s' s'') :
    Adds (rows ++ rows') (notes ++ notes') (xs ++ xs') s s'' where
  config := h'.config.trans h.config
  rows := by rw [h'.rows, h.rows, List.append_assoc]
  notes := by rw [h'.notes, h.notes, List.append_assoc]
  keeping hs := by
    rw [← List.append_assoc]
    exact h'.keeping (h.keeping hs)

theorem Does.adds (h : Does deed s s') (hkept : deed.isRefused = false) :
    Adds deed.rows deed.notes (deed.tries.map (·.delivery)) s s' :=
  ⟨h.config, h.rows_eq.1, h.rows_eq.2, fun hs => hs.does h hkept⟩

theorem Leads.adds {ts : List Try} {well : Prop} (h : Leads ts rows notes well s s') (hwell : well) :
    Adds rows notes (ts.map (·.delivery)) s s' := by
  obtain ⟨ds, hcourse, rfl, rfl, rfl, hrefused⟩ := h
  have hkept := hrefused hwell
  clear hrefused
  induction hcourse with
  | nil => exact .refl _
  | cons first _ ih =>
    rw [forall_mem_cons] at hkept
    simpa only [flatMap_cons, map_append] using (first.adds hkept.1).trans (ih hkept.2)

variable {force : Bool} {r : Result} {as : List Anomaly} {c : Call} {cs : List Call}

theorem adds_flushAll (h : s.flushAll force = (.ok (), s')) : Adds [] [] [] s s' := by
  have hleads := leads_flushAll force s
  rw [h] at hleads
  exact hleads.adds rfl

theorem adds_addResult {row : ResultRow} (h : s.add .results row = (.ok (), s')) : Adds [row] [] [] s s' := by
  have hleads := leads_add .results row s
  rw [h] at hleads
  exact hleads.adds rfl

theorem notesIn_eq (h : s.appendAnomalies as = (.ok (), s')) : notesIn as s = as := by
  induction as generalizing s with
  | nil => rfl
  | cons a as ih =>
    rw [appendAnomalies] at h
    rw [notesIn]
    cases hadd : s.add .anomalies a with
    | mk outcome s₁ =>
      rw [hadd] at h
      cases outcome with
      | error f => cases h
      | ok _ => exact congrArg (a :: ·) (ih h)

theorem adds_appendAnomalies (h : s.appendAnomalies as = (.ok (), s')) : Adds [] as [] s s' := by
  have hleads := leads_appendAnomalies as s
  rw [h, notesIn_eq h] at hleads
  exact hleads.adds rfl

theorem writeOutput_does {source : String} {text : Points} {output : String × Bytes}
    (h : s.writeOutput source text = (.ok output, s')) : output = (outputPath source, bytesOf text) ∧
      ∃ s₁, Does .directories s s₁ ∧ Does (.text ⟨source, text⟩ true) s₁ s' := by
  rcases writeOutput_cases ⟨source, text⟩ s with ⟨f, s₂, hfails, -, -⟩ | ⟨s₁, hmade, ⟨s₂, hok, hdone⟩ |
    ⟨f, s₂, hfails, -, -⟩⟩
  · cases hfails.symm.trans h
  · cases hok.symm.trans h
    exact ⟨rfl, s₁, hmade, hdone⟩
  · cases hfails.symm.trans h

theorem adds_appendResult (h : s.appendResult r = (.ok (), s')) : Adds [rowOf r] [] (deliveries r) s s' := by
  rcases appendResult_cases r s with ⟨hnone, heq⟩ | ⟨text, hone, heq⟩
  · rw [heq] at h
    rw [rowOf, hnone]
    exact adds_addResult h
  · rw [heq] at h
    split at h
    · cases h
    · next output s₁ hwrite =>
      obtain ⟨rfl, _, hmade, hdone⟩ := writeOutput_does hwrite
      rw [rowOf, hone]
      exact ((hmade.adds rfl).trans (hdone.adds rfl)).trans (adds_addResult h)

theorem adds_call (h : s.call c = (.ok (), s')) : Adds c.rows c.notes c.deliveries s s' := by
  cases c with
  | write source text =>
    unfold Store.call at h
    dsimp only at h
    split at h
    · cases h
    · next hwrite =>
      cases h
      obtain ⟨-, _, hmade, hdone⟩ := writeOutput_does hwrite
      exact (hmade.adds rfl).trans (hdone.adds rfl)
  | result r => exact adds_appendResult h
  | anomalies as => exact adds_appendAnomalies h
  | flush => exact adds_flushAll h

theorem adds_calls (h : s.calls cs = some s') :
    Adds (cs.flatMap Call.rows) (cs.flatMap Call.notes) (cs.flatMap Call.deliveries) s s' := by
  induction cs generalizing s with
  | nil =>
    cases h
    exact .refl _
  | cons c cs ih =>
    rw [Store.calls] at h
    split at h
    · cases h
    · next s₁ hcall => exact (adds_call hcall).trans (ih h)

/-! ### Series -/

theorem writePart_eq_ok {table : String} {number : Nat} {part : Rows}
    (h : s.writePart table number part = (.ok (), s')) :
    ∃ d bytesWritten log, s' = { s with disk := d, bytesWritten, log } := by
  unfold writePart writeFile at h
  dsimp only at h
  cases hwrite : s.disk.write (s.staged [table, s.partName table number]) (s.config.encode part) with
  | error f =>
    rw [hwrite] at h
    cases h
  | ok d =>
    rw [hwrite] at h
    dsimp only at h
    split at h
    · cases h
    · next haccount =>
      obtain rfl := account_eq_ok haccount
      cases h
      exact ⟨d, _, _, rfl⟩

theorem series_withSeries (s : Store) (t : Table) (rows : Series t.Row) :
    (s.withSeries t rows).series t = rows ∧ (∀ t' ≠ t, (s.withSeries t rows).series t' = s.series t') ∧
      (s.withSeries t rows).config = s.config := by
  refine ⟨by cases t <;> rfl, fun t' hne => ?_, by cases t <;> rfl⟩
  cases t <;> cases t' <;> first | rfl | exact absurd rfl hne

theorem series_flushTable {t : Table} (h : s.flushTable t force = (.ok (), s')) :
    s'.series t = (s.series t).flushed force ∧ (∀ t' ≠ t, s'.series t' = s.series t') ∧ s'.config = s.config := by
  rw [flushTable] at h
  rw [Series.flushed]
  split at h
  · next hneeds =>
    rw [if_pos hneeds]
    split at h
    · cases h
    · next hpart =>
      obtain ⟨d, bytesWritten, log, rfl⟩ := writePart_eq_ok hpart
      cases h
      exact series_withSeries { s with disk := d, bytesWritten, log } t _
  · next hneeds =>
    cases h
    rw [if_neg hneeds]
    exact ⟨rfl, fun _ _ => rfl, rfl⟩

theorem series_flushAll (h : s.flushAll force = (.ok (), s')) :
    (∀ t, s'.series t = (s.series t).flushed force) ∧ s'.config = s.config := by
  unfold flushAll at h
  split at h
  · cases h
  · next s₁ hresults =>
    obtain ⟨hrows, hother, hconfig⟩ := series_flushTable hresults
    obtain ⟨hrows', hother', hconfig'⟩ := series_flushTable h
    refine ⟨fun t => ?_, hconfig'.trans hconfig⟩
    cases t with
    | results => exact (hother' .results (by decide)).trans hrows
    | anomalies => exact hrows'.trans (congrArg _ (hother .anomalies (by decide)))

/-! ### Finishing -/

variable {now : Moment} {more : Fields} {d d' : Disk} {names : Spot}

theorem series_finalize (hok : s.finalize now more d = (.ok d', s')) :
    (∀ t, s'.series t = (s.series t).flushed true) ∧ s'.config = s.config := by
  obtain ⟨s₁, own, hflush, -, -, rfl⟩ := finalize_eq_ok hok
  exact @series_flushAll s s₁ true hflush

theorem parts_finalize (h : s.finalize now more d = (.ok d', s')) : s'.config = s.config ∧
    s'.results.parts.flatten = s.results.rows ∧ s'.anomalies.parts.flatten = s.anomalies.rows := by
  obtain ⟨hseries, hconfig⟩ := series_finalize h
  have hparts (t : Table) : (s'.series t).parts.flatten = (s.series t).rows := by
    rw [hseries, Series.parts_flushed]
  exact ⟨hconfig, hparts .results, hparts .anomalies⟩

/-- A table in the directory at `spot`, to which `out` leads: its files are its parts, by number. -/
structure Tabled (d : Disk) (out : Path) (spot : Spot) (table : String) (nameOf : Nat → String)
    (pages : List Bytes) : Prop where
  only : ∀ x content, look? d.top (spot ++ [table, x]) = some (.file content) →
    ∃ k, x = nameOf k ∧ pages[k]? = some content
  read : ∀ k content, pages[k]? = some content → d.read (out.append { names := [table, nameOf k] }) = .ok content

variable (h : Keeping out (name ++ ".staging") xs s) (hd : Opened d out names name)
  (hnamed : out.name? = some name) (hok : s.finalize now more d = (.ok d', s'))

include h hd hnamed hok

theorem Keeping.finalize :
    ∃ s₁ own, Keeping out (name ++ ".staging") xs s₁ ∧ s' = { s₁ with disk := own } ∧ d' = { d with top := d'.top } ∧
      ∀ z ≠ [receiptName], fileAt? d'.top (names ++ [name] ++ z) = s₁.file? z := by
  obtain ⟨s₁, hflush, ⟨own, hown⟩, hd', hfiles⟩ := h.toPlaced.finalize hd hnamed hok
  have hs₁ := (adds_flushAll hflush).keeping h
  rw [append_nil] at hs₁
  exact ⟨s₁, own, hs₁, hown, hd', fun z hz => (hfiles z).trans (if_neg hz)⟩

theorem Keeping.read_finalize {x : Delivery} (hx : x ∈ xs) : ∃ y, lastAt xs (place x.source) = some y ∧
      d'.read (out.append { names := place x.source }) = .ok (bytesOf y.text) := by
  obtain ⟨s₁, own, hkeeping, -, hd', hfiles⟩ := h.finalize hd hnamed hok
  obtain ⟨y, hy, htext⟩ := hkeeping.texts x hx
  have hfit := (hkeeping.proper x hx).2
  have hplace : place x.source ≠ [receiptName] := fun heq => absurd (List.cons.inj heq).1 (by decide)
  rw [hd']
  exact ⟨y, hy, read_eq (hd.namesOf?_below (place x.source))
    (hd.fit_out.append fun last hlast => hfit last (mem_cons_of_mem _ hlast))
    (fileAt?_eq_some.mp ((hfiles _ hplace).trans htext))⟩

theorem Keeping.tabled_finalize (t : Table) :
    Tabled d' out (names ++ [name]) t.directory (s'.partName t.directory) (s'.pages t) := by
  obtain ⟨s₁, own, hkeeping, rfl, hd', hfiles⟩ := h.finalize hd hnamed hok
  have hfile (x : String) : fileAt? d'.top (names ++ [name] ++ [t.directory, x]) = s₁.file? [t.directory, x] :=
    hfiles _ (by simp)
  have hpaged := hkeeping.paged t
  have htable : Fit [t.directory] := fit_firstDirectories _ (by cases t <;> decide)
  refine ⟨fun x content hx => (hpaged x content).mp ?_, fun k content hk => ?_⟩
  · rw [← hfile]
    exact fileAt?_eq_some.mpr hx
  · have hfit := hkeeping.fit t k (List.getElem?_eq_some_iff.mp hk).1
    rw [hd']
    exact read_eq (hd.namesOf?_below [t.directory, _]) (hd.fit_out.append (htable.append hfit))
      (fileAt?_eq_some.mp ((hfile _).trans ((hpaged _ content).mpr ⟨k, rfl, hk⟩)))

end

end Store

end GroovySharp
