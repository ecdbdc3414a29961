import GroovySharp.Proofs.BatchEvents
import Mathlib.Data.Prod.Lex
import Mathlib.Data.String.Basic

/-!
# The accounts of a batch

A batch that ends has a row for each file that it worked on, in the order of the files, and has
published every anomaly that was noted, in the order in which they were.
-/

namespace GroovySharp.Batch

open Unicode Store List

/-! ### A paced batch is one order of events -/

section

variable {cfg : Config} {work : Work} {jobs : List Job} {sink : Sink}
  {store : Store} {st st' : Stand} {p : Progress} {result : Result} {r : Run}

theorem Stand.follow_append (ms ms' : List Move) (st : Stand) : Stand.follow cfg work (ms ++ ms') st =
      (Stand.follow cfg work ms st).bind (Stand.follow cfg work ms') := by
  induction ms generalizing st with
  | nil => rfl
  | cons m ms ih =>
    simp only [cons_append, Stand.follow, Option.bind_assoc]
    exact Option.bind_congr fun st₁ _ => ih st₁

theorem follow_quiet (st : Stand) {es : List Run.Event} (h : Run.follow cfg.registry work es st.progress.run = some r)
    (hquiet : ∀ e ∈ es, e.gives = false) (hheld : st.held? = none ∨ ∀ e ∈ es, e.finishes = true) :
    ∃ emitted, Stand.follow cfg work (es.map .run) st =
      some { progress := { st.progress with run := r }, held? := st.held?, emitted } := by
  induction es generalizing st with
  | nil =>
    cases h
    exact ⟨st.emitted, rfl⟩
  | cons e es ih =>
    rw [forall_mem_cons] at hquiet
    obtain ⟨r₁, hstep, hrest⟩ := Option.bind_eq_some_iff.mp h
    have hfree : (st.held?.isSome && !e.finishes) = false := by
      rcases hheld with hnone | hfinishes
      · rw [hnone]
        rfl
      · rw [hfinishes e mem_cons_self, Bool.not_true, Bool.and_false]
    have hmove : st.step cfg work (.run e) = some
        { progress := { st.progress with run := r₁ }, held? := st.held?
          emitted := st.emitted ++ Run.emits cfg.registry work st.progress.run e } := by
      simp only [Stand.step, hfree, Bool.false_eq_true, if_false, hstep, Option.map_some, hquiet.1]
    obtain ⟨emitted, hfollow⟩ := ih
      { progress := { st.progress with run := r₁ }, held? := st.held?
        emitted := st.emitted ++ Run.emits cfg.registry work st.progress.run e }
      hrest hquiet.2 (hheld.imp_right fun h e he => h e (mem_cons_of_mem _ he))
    refine ⟨emitted, ?_⟩
    rw [map_cons, Stand.follow, hmove]
    exact hfollow

theorem follow_round (h : Run.Round cfg.registry work st.progress.run result r) (hheld : st.held? = none)
    (htake : st.progress.take (max 1 cfg.flushEvery.toNat) result r = .ok p) :
    ∃ ms emitted, Stand.follow cfg work ms st = some { progress := p, emitted } := by
  obtain @⟨before, after, e, r₁, r₂, hquiet, hgives, hlate, hreached, hgiven, hlast, hleft⟩ := h
  obtain ⟨emitted₁, hbefore⟩ := follow_quiet st hreached hquiet (.inl hheld)
  rw [hheld] at hbefore
  let held : Stand :=
    { progress := { st.progress with run := r₂ }, held? := some result
      emitted := emitted₁ ++ Run.emits cfg.registry work r₁ e }
  have hmove : Stand.step cfg work { progress := { st.progress with run := r₁ }, emitted := emitted₁ }
      (.run e) = some held := by
    simp only [Stand.step, Option.isSome_none, Bool.false_and, Bool.false_eq_true, if_false, hgiven,
      Option.map_some, hgives, if_true, hlast, held]
  obtain ⟨emitted₂, hafter⟩ := follow_quiet held hleft (fun x hx => Run.gives_of_finishes (hlate x hx)) (.inr hlate)
  let finished : Stand :=
    { progress := { st.progress with run := r }, held? := some result, emitted := emitted₂ }
  have htaken : finished.step cfg work .take = some { progress := p, emitted := emitted₂ } := by
    have hsame : finished.progress.take (max 1 cfg.flushEvery.toNat) result r = .ok p := htake
    simp only [Stand.step, finished] at hsame ⊢
    rw [hsame]
  refine ⟨before.map .run ++ .run e :: (after.map .run ++ [.take]), emitted₂, ?_⟩
  rw [Stand.follow_append, hbefore, Option.bind_some, Stand.follow, hmove, Option.bind_some,
    Stand.follow_append, hafter, Option.bind_some, Stand.follow, htaken]
  rfl

theorem Standing.advance {pace : Nat → Run.Pace} {n : Nat} (h : Standing cfg work jobs sink store st)
    (hheld : st.held? = none) (hsettles : st.progress.run.Settles) (hn : jobs.length ≤ st.progress.run.given.length + n)
    (hok : Progress.advance { config := cfg, work, pace } n st.progress = .ok p) :
    ∃ ms emitted, Stand.follow cfg work ms st = some { progress := p, emitted } ∧ p.run.Ended := by
  induction n generalizing st with
  | zero =>
    cases hok
    obtain ⟨done, ahead, hordered, hjobs⟩ := h.ordered
    have hlength := congrArg List.length hjobs
    rw [length_append, length_append, hordered.given.length_eq] at hlength
    have hahead := hordered.underway.length_eq
    have hsource : st.progress.run.source = [] := eq_nil_of_length_eq_zero (by omega)
    have hinflight : st.progress.run.inflight = [] := eq_nil_of_length_eq_zero (by omega)
    refine ⟨[], st.emitted, ?_, by rw [Run.isExhausted, hsource, hinflight]; rfl, hsettles⟩
    rw [Stand.follow, ← hheld]
  | succ n ih =>
    obtain ⟨done, ahead, hordered, -⟩ := h.ordered
    rw [Progress.advance] at hok
    rcases hordered.next?_cases pace hsettles with ⟨hnone, hexhausted⟩ | ⟨result, r, hnext, hround, hr⟩
    · simp only [hnone] at hok
      cases hok
      refine ⟨[], st.emitted, ?_, hexhausted, hsettles⟩
      rw [Stand.follow, ← hheld]
    · simp only [hnext] at hok
      split at hok
      · cases hok
      · next p₁ htake =>
        obtain ⟨ms₁, emitted₁, hfollow₁⟩ := follow_round hround hheld htake
        obtain ⟨⟨⟨pending, hrun⟩, -⟩, -⟩ := took_take (p := { st.progress with run := r }) htake
        have hgiven := hround.length_given
        have hsettles₁ : p₁.run.Settles := by
          rw [hrun]
          exact hr
        have hn₁ : jobs.length ≤ p₁.run.given.length + n := by
          rw [hrun]
          dsimp only
          omega
        obtain ⟨ms₂, emitted₂, hfollow₂, hended⟩ := ih (h.follow hfollow₁) rfl hsettles₁ hn₁ hok
        refine ⟨ms₁ ++ ms₂, emitted₂, ?_, hended⟩
        rw [Stand.follow_append, hfollow₁, Option.bind_some, hfollow₂]

end

/-! ### The run of a batch -/

def Progress.whole (p : Progress) : Run := p.run.behind p.store.anomalies.rows

theorem Took.whole_eq {rows : List ResultRow} {p p' : Progress} (h : Took rows p p') : p'.whole = p.whole := by
  obtain ⟨⟨pending, hrun⟩, notes, xs, hadds, hnotes⟩ := h
  rw [hrun] at hnotes
  rw [Progress.whole, Progress.whole, hrun, hadds.notes, Run.behind, Run.behind, Run.preceded, Run.preceded]
  dsimp only at hnotes ⊢
  rw [List.append_assoc, hnotes]

theorem whole_advance {setup : Setup} {n : Nat} {p p' : Progress} (h : Progress.advance setup n p = .ok p') :
    p'.whole = p.whole.runFor setup.config.registry setup.work setup.pace n := by
  induction n generalizing p with
  | zero => rw [Run.runFor, Except.ok.inj h]
  | succ n ih =>
    have hnext := Run.next?_behind setup.config.registry setup.work setup.pace p.store.anomalies.rows p.run
    rw [← Progress.whole] at hnext
    rw [Progress.advance] at h
    rw [Run.runFor, hnext]
    split at h
    · next hnone =>
      rw [hnone, Except.ok.inj h]
      rfl
    · next result run hsome =>
      rw [hsome]
      split at h
      · cases h
      next p₁ htake =>
      have htook := (took_take (p := { p with run }) htake).1
      rw [ih h, htook.whole_eq]
      rfl

def runOf (cfg : Config) (work : Work) (pace : Nat → Run.Pace)
    (files : List SourceFile) (sink : Sink) : Run :=
  Run.complete cfg.registry work pace (jobsOf cfg files) (noteSetAside cfg (sorted files) sink)

section

variable {cfg : Config} {work : Disk → Work} {pace : Nat → Run.Pace} {now : Moment}
  {files : List SourceFile} {out : Path} {meta? : Option JsonValue} {sink : Sink} {d : Disk} {o : Outcome}
  {results : List Result} {emitted : List Anomaly}

/-- A batch that works at its pace ends in one of the ways in which batches end, with the results and the
anomalies of its run. -/
theorem concludes_of_run (h : run cfg work pace now files out meta? sink d = .ok o) :
    ∃ store d₁ emitted, Store.start cfg.store out d = .ok (store, d₁) ∧
      Concludes cfg work now files out meta? sink d (runOf cfg (work d₁) pace files sink).given emitted o ∧
      (noteSetAside cfg (sorted files) sink).pending ++ emitted =
        (runOf cfg (work d₁) pace files sink).sink.pending := by
  simp only [run, bind, Except.bind] at h
  split at h
  · cases h
  next x hstart =>
  obtain ⟨store, d₁⟩ := x
  split at h
  · cases h
  next p₁ hadvance =>
  split at h
  · cases h
  next p hdrain =>
  split at h
  · cases h
  next d₂ store₂ hfinal =>
  cases h
  have hstanding := standing_start cfg (work d₁) (jobsOf cfg files) (noteSetAside cfg (sorted files) sink) store
  obtain ⟨ms, emitted, hfollow, hended⟩ := hstanding.advance (n := (jobsOf cfg files).length) rfl
    (fun s hs => absurd hs not_mem_nil) (Nat.le_add_left _ _) hadvance
  obtain ⟨taken, notes, xs, -, hadds, hnotes, -⟩ := (hstanding.follow hfollow).taken
  obtain ⟨name, -, rfl⟩ := eq_fresh_of_start hstart
  have hwhole : p₁.whole = runOf cfg (work d₁) pace files sink := whole_advance hadvance
  have hrows : p₁.store.anomalies.rows = notes := hadds.notes
  refine ⟨_, d₁, emitted, hstart, ?_, ?_⟩
  · rw [← hwhole]
    exact .intro hstart hfollow rfl hended hdrain hfinal
  · rw [← hwhole, ← hnotes, ← hrows]
    rfl

end

/-! ### Accounts -/

def isSetAside (cfg : Config) (f : SourceFile) : Bool := !f.isText || decide (cfg.maxFileBytes < f.size)

def Outcome.rows (o : Outcome) : List ResultRow := o.store.results.parts.flatten

def Outcome.notes (o : Outcome) : List Anomaly := o.store.anomalies.parts.flatten

/-- The accounts of a batch that has ended with these results; besides the anomalies about files that were
set aside, those of `emitted` were noted. -/
structure Accounts (cfg : Config) (files : List SourceFile) (out : Path) (sink : Sink) (d : Disk)
    (results : List Result) (emitted : List Anomaly) (o : Outcome) : Prop where
  total : o.summary.filesTotal = files.length
  parted : o.summary.filesTotal = o.summary.converted + o.summary.failed + files.countP (isSetAside cfg)
  converted : o.summary.converted = o.rows.countP ResultRow.ok
  failed : o.summary.failed = o.rows.countP (!·.ok)
  counted : o.summary.rows = o.rows.length
  /-- Each file that is not set aside has one row. -/
  each : (o.rows.map fun row => (row.path, row.digest)).Perm
    ((files.filter (!isSetAside cfg ·)).map fun f => (f.path, f.digest))
  ordered : o.rows.Pairwise fun a b => toLex (a.path, a.digest) ≤ toLex (b.path, b.digest)
  rows : o.rows = results.map rowOf
  /-- The anomalies are those that waited, those about files set aside, and those noted afterwards. -/
  notes : o.notes = sink.pending ++ (sorted files).filterMap (setAside? cfg) ++ emitted
  anomalies : o.summary.anomalies = o.notes.length
  encoded : o.store.config = cfg.store
  /-- The files of each table in the output directory are the parts in the store. -/
  published : ∀ names name, HasRoom d out names name → ∀ t : Table,
    Tabled o.disk out (names ++ [name]) t.directory (o.store.partName t.directory) (o.store.pages t)

theorem isSome_setAside? (cfg : Config) (f : SourceFile) : (setAside? cfg f).isSome = isSetAside cfg f := by
  unfold setAside? isSetAside
  split
  · next htext => rw [htext, Option.isSome_some, Bool.true_or]
  · next htext =>
    rw [Bool.not_eq_true] at htext
    rw [htext, Bool.false_or]
    split
    · next hsize => rw [Option.isSome_some, decide_eq_true hsize]
    · next hsize => rw [Option.isSome_none, decide_eq_false hsize]

theorem eligible_eq (cfg : Config) (files : List SourceFile) : eligible cfg files = files.filter (!isSetAside cfg ·) :=
  filter_congr fun f _ => by rw [← isSome_setAside?, Option.not_isSome]

theorem pairwise_sorted (files : List SourceFile) : (sorted files).Pairwise fun a b =>
    toLex (a.path, a.digest) ≤ toLex (b.path, b.digest) := by
  have hle (a b : SourceFile) :
      (decide (a.path < b.path) || (a.path == b.path && decide (a.digest ≤ b.digest))) = true ↔
        toLex (a.path, a.digest) ≤ toLex (b.path, b.digest) := by
    simp [Prod.Lex.toLex_le_toLex]
  have hsorted : (sorted files).Pairwise fun a b =>
      (decide (a.path < b.path) || (a.path == b.path && decide (a.digest ≤ b.digest))) = true := by
    refine pairwise_mergeSort (fun a b c hab hbc => ?_) (fun a b => ?_) files
    · exact (hle a c).mpr (((hle a b).mp hab).trans ((hle b c).mp hbc))
    · rw [Bool.or_eq_true, hle, hle]
      exact le_total _ _
  exact hsorted.imp fun {a b} hab => (hle a b).mp hab

theorem get_total_noteSetAside (cfg : Config) (files : List SourceFile) (sink : Sink) :
    (noteSetAside cfg files sink).counts.get "total" =
      sink.counts.get "total" + (files.filterMap (setAside? cfg)).length := by
  rw [noteSetAside]
  generalize files.filterMap (setAside? cfg) = notes
  induction notes generalizing sink with
  | nil => exact (Int.add_zero _).symm
  | cons a notes ih =>
    rw [foldl_cons, ih, Sink.get_emit_total, length_cons]
    omega

section

variable {cfg : Config} {work : Disk → Work} {now : Moment}
  {files : List SourceFile} {out : Path} {meta? : Option JsonValue} {sink : Sink} {d : Disk} {o : Outcome}
  {results : List Result} {emitted : List Anomaly}

theorem Concludes.closing (h : Concludes cfg work now files out meta? sink d results emitted o) :
    ∃ store d₁ xs, ∃ p : Progress, Store.start cfg.store out d = .ok (store, d₁) ∧
      Adds (results.map rowOf) (sink.pending ++ (sorted files).filterMap (setAside? cfg) ++ emitted) xs
        store p.store ∧ p.store.finalize now (receiptFields meta? p.run.sink) d₁ = (.ok o.disk, o.store) ∧
      results.map Result.file = eligible cfg (sorted files) ∧ o.summary =
        { filesTotal := files.length, converted := results.countP Result.ok
          failed := results.countP (!·.ok)
          anomalies := sink.counts.get "total" + ((sorted files).filterMap (setAside? cfg)).length +
            emitted.length } := by
  obtain @⟨store, d₁, ms, st, p, d₂, store₂, hstart, hfollow, hheld, hended, hdrain, hfinal⟩ := h
  have hstanding := (standing_start cfg (work d₁) (jobsOf cfg files)
    (noteSetAside cfg (sorted files) sink) store).follow hfollow
  obtain ⟨done, ahead, hordered, hjobs⟩ := hstanding.ordered
  obtain ⟨taken, notes, xs, hgiven, hadds, hnotes, hconverted, hfailed⟩ := hstanding.taken
  obtain ⟨⟨⟨pending, hrun⟩, notes', xs', hadds', hnotes'⟩, hempty, hconverted', hfailed'⟩ :=
    took_drain hdrain
  rw [hheld, Option.toList_none, append_nil] at hgiven
  rw [hempty, append_nil] at hnotes'
  rw [pending_noteSetAside, ← hnotes'] at hnotes
  -- nothing is left of the jobs
  have hdone : jobsOf cfg files = done := by
    have hexhausted := hended.1
    simp only [Run.isExhausted, Bool.and_eq_true, List.isEmpty_iff] at hexhausted
    have hahead := hordered.underway.length_eq
    rw [hexhausted.2] at hahead
    rw [hjobs, hexhausted.1, append_nil, eq_nil_of_length_eq_zero hahead, append_nil]
  refine ⟨store, d₁, xs ++ xs', p, hstart, ?_, hfinal, ?_, ?_⟩
  · rw [← hnotes, hgiven, ← append_nil (taken.map rowOf)]
    exact hadds.trans hadds'
  · have hfiles : List.Forall₂ Eq (st.progress.run.given.map Result.file) (done.map Job.file) := by
      rw [forall₂_map_left_iff, forall₂_map_right_iff]
      exact hordered.given.flip.imp fun _ _ => Run.Settled.file
    rw [forall₂_eq_eq_eq] at hfiles
    rw [hfiles, ← hdone, jobsOf, map_map]
    exact map_id _
  · have htotal := hstanding.total
    rw [get_total_noteSetAside] at htotal
    have hsink : p.run.sink.counts = st.progress.run.sink.counts := by rw [hrun]
    rw [hsink, htotal, hconverted', hfailed', hconverted, hfailed, ← hgiven, sorted, length_mergeSort]

theorem Concludes.accounts (h : Concludes cfg work now files out meta? sink d results emitted o)
    (hsink : sink.counts.get "total" = sink.pending.length) :
    Accounts cfg files out sink d results emitted o := by
  obtain ⟨store, d₁, xs, p, hstart, hadds, hfinal, hfiles, hsummary⟩ := h.closing
  obtain ⟨name, hnamed, rfl⟩ := eq_fresh_of_start hstart
  obtain ⟨hconfig, hresults, hanomalies⟩ := parts_finalize hfinal
  have hrows : o.rows = results.map rowOf := hresults.trans hadds.rows
  have hnotes : o.notes = sink.pending ++ (sorted files).filterMap (setAside? cfg) ++ emitted :=
    hanomalies.trans hadds.notes
  have heligible : (eligible cfg (sorted files)).Perm (eligible cfg files) :=
    (mergeSort_perm files _).filter _
  have hkeys : (o.rows.map fun row => (row.path, row.digest)) =
      (eligible cfg (sorted files)).map fun f => (f.path, f.digest) := by
    rw [hrows, ← hfiles, map_map, map_map]
    rfl
  have hconverted : o.summary.converted = o.rows.countP ResultRow.ok := by
    rw [hsummary, hrows, countP_map]
    rfl
  have hfailed : o.summary.failed = o.rows.countP (!·.ok) := by
    rw [hsummary, hrows, countP_map]
    rfl
  have hcounted : o.summary.rows = o.rows.length := by
    rw [Summary.rows, hconverted, hfailed]
    simpa using (length_eq_countP_add_countP ResultRow.ok (l := o.rows)).symm
  have htotal : o.summary.filesTotal = files.length := by rw [hsummary]
  refine ⟨htotal, ?_, hconverted, hfailed, hcounted, ?_, ?_, hrows, hnotes, ?_, hconfig.trans hadds.config,
    fun names name' hroom => ?_⟩
  · have hlength := congrArg List.length hkeys
    rw [length_map, length_map, heligible.length_eq] at hlength
    have haside : (fun f => (setAside? cfg f).isSome) = isSetAside cfg := funext (isSome_setAside? cfg)
    have hparts := length_setAside_add_eligible cfg files
    rw [length_filterMap_eq_countP, haside] at hparts
    rw [Summary.rows] at hcounted
    omega
  · rw [hkeys, ← eligible_eq]
    exact heligible.map _
  · have hpairs : ((eligible cfg (sorted files)).map fun f => (f.path, f.digest)).Pairwise
        fun a b => toLex a ≤ toLex b := pairwise_map.mpr ((pairwise_sorted files).filter _)
    rw [← hkeys, pairwise_map] at hpairs
    exact hpairs
  · rw [hsummary, hnotes, hsink, length_append, length_append]
    push_cast
    rfl
  · obtain rfl : name = name' := Option.some.inj (hnamed.symm.trans hroom.named)
    obtain ⟨d', hstart', hopened⟩ := hroom.start_eq_ok cfg.store
    obtain rfl : d' = d₁ := (Prod.mk.inj (Except.ok.inj (hstart'.symm.trans hstart))).2
    exact (hadds.keeping (keeping_fresh cfg.store out name)).tabled_finalize hopened hnamed hfinal

theorem start_disk_eq {config config' : StoreConfig} {s s' : Store} {d₁ d₂ : Disk}
    (h : Store.start config out d = .ok (s, d₁)) (h' : Store.start config' out d = .ok (s', d₂)) : d₁ = d₂ := by
  obtain ⟨name, hnamed, -⟩ := eq_fresh_of_start h
  rw [start_eq hnamed] at h h'
  cases hmade : onDisk (stagingMade d out name) with
  | error f =>
    rw [hmade] at h
    cases h
  | ok d' =>
    rw [hmade] at h h'
    cases h
    cases h'
    rfl

end

/-- Whenever a batch ends, in whatever order things happened, its accounts are in order; and its tables
depend only on the results and on the order in which anomalies were noted, not on how often the tables are
written or on how many rows make a part. -/
theorem accounts_of_batch (cfg : Config) (work : Disk → Work) (now : Moment)
    (files : List SourceFile) (out : Path) (meta? : Option JsonValue) (sink : Sink) (d : Disk)
    (hsink : sink.counts.get "total" = sink.pending.length) :
    (∀ pace o, run cfg work pace now files out meta? sink d = .ok o →
      (∃ results emitted, Concludes cfg work now files out meta? sink d results emitted o) ∧ ∀ flushEvery rollRows o',
        run { cfg with flushEvery, rollRows } work pace now files out meta? sink d = .ok o' →
          o'.rows = o.rows ∧ o'.notes = o.notes) ∧
    ∀ results emitted o, Concludes cfg work now files out meta? sink d results emitted o →
      Accounts cfg files out sink d results emitted o ∧ ∀ flushEvery rollRows o',
        Concludes { cfg with flushEvery, rollRows } work now files out meta? sink d results emitted o' →
          o'.rows = o.rows ∧ o'.notes = o.notes := by
  have hsame {results : List Result} {emitted : List Anomaly} {flushEvery rollRows : Int} {o o' : Outcome}
      (h : Concludes cfg work now files out meta? sink d results emitted o)
      (h' : Concludes { cfg with flushEvery, rollRows } work now files out meta? sink d results emitted o') :
      o'.rows = o.rows ∧ o'.notes = o.notes := by
    have haccounts := h.accounts hsink
    have haccounts' := h'.accounts hsink
    exact ⟨haccounts'.rows.trans haccounts.rows.symm, haccounts'.notes.trans haccounts.notes.symm⟩
  refine ⟨fun pace o hrun => ?_, fun results emitted o h => ⟨h.accounts hsink, fun _ _ _ h' => hsame h h'⟩⟩
  obtain ⟨store, d₁, emitted, hstart, hconcludes, hemitted⟩ := concludes_of_run hrun
  refine ⟨⟨_, emitted, hconcludes⟩, fun flushEvery rollRows o' hrun' => ?_⟩
  obtain ⟨store', d₂, emitted', hstart', hconcludes', hemitted'⟩ := concludes_of_run hrun'
  obtain rfl := start_disk_eq hstart hstart'
  obtain rfl : emitted = emitted' := List.append_cancel_left (hemitted.trans hemitted'.symm)
  exact hsame hconcludes hconcludes'

def threeFiles : List SourceFile :=
  [sourceOf "a.groovy", sourceOf "b.groovy", { sourceOf "c.groovy" with isText := false }]

def twoTexts : Disk := diskOf [("a.groovy", "x = 1\n"), ("b.groovy", "x = = 1\n")]

def lateBatch (flushEvery : Int) : Except StoreFault Outcome :=
  run { flushEvery } (fun d => Job.work d {}) (fun n => { inTime := n == 0 }) {} threeFiles
    { names := ["out"] } none {} twoTexts

theorem exists_lateBatch_eq_ok (flushEvery : Int) (h : flushEvery ∈ [1, 50]) :
    ∃ o, lateBatch flushEvery = .ok o ∧ o.rows.map (·.path) = ["a.groovy", "b.groovy"] ∧
      o.notes.map (·.path) = ["c.groovy", "b.groovy", "b.groovy"] := by
  have hends : (lateBatch flushEvery).toOption.map (fun o => (o.rows.map (·.path), o.notes.map (·.path))) =
      some (["a.groovy", "b.groovy"], ["c.groovy", "b.groovy", "b.groovy"]) := by
    have hsorted : sorted threeFiles = threeFiles := mergeSort_of_pairwise (by decide)
    rw [lateBatch, run, hsorted]
    simp only [mem_cons, not_mem_nil, or_false] at h
    rcases h with rfl | rfl
    · decide +kernel
    · decide +kernel
  cases hrun : lateBatch flushEvery with
  | error f =>
    rw [hrun] at hends
    cases hends
  | ok o =>
    rw [hrun] at hends
    obtain ⟨hrows, hnotes⟩ := Prod.mk.inj (Option.some.inj hends)
    exact ⟨o, rfl, hrows, hnotes⟩

/-- The second file is noted when it is given up, and again when it fails afterwards. -/
theorem accounts_of_lateBatch : ∃ o o', lateBatch 1 = .ok o ∧ lateBatch 50 = .ok o' ∧
      o.notes.map (·.path) = ["c.groovy", "b.groovy", "b.groovy"] ∧
      o'.rows = o.rows ∧ o'.notes = o.notes ∧
      ∃ results emitted, Accounts { flushEvery := 1 } threeFiles { names := ["out"] } {} twoTexts results
        emitted o := by
  obtain ⟨o, hrun, -, hnotes⟩ := exists_lateBatch_eq_ok 1 (by simp)
  obtain ⟨o', hrun', -, -⟩ := exists_lateBatch_eq_ok 50 (by simp)
  obtain ⟨hpaced, hconcluded⟩ := accounts_of_batch { flushEvery := 1 } (fun d => Job.work d {}) {}
    threeFiles { names := ["out"] } none {} twoTexts rfl
  obtain ⟨⟨results, emitted, hconcludes⟩, hsame⟩ := hpaced (fun n => { inTime := n == 0 }) o hrun
  obtain ⟨hrows, hequal⟩ := hsame 50 200000 o' hrun'
  exact ⟨o, o', hrun, hrun', hnotes, hrows, hequal, results, emitted, (hconcluded results emitted o hconcludes).1⟩

end GroovySharp.Batch
