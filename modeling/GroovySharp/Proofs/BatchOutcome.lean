import GroovySharp.Batch
import GroovySharp.Proofs.RunOrder
import GroovySharp.Proofs.StorePublishing

/-!
# What stops a batch

A batch works through its files in order.
-/

namespace GroovySharp.Batch

open Unicode Store Disk List

/-! ### Progress -/

/-- A batch under way: the results of `jobs` are still to come, numbered from `k` on, and the texts of
`xs` are in the store. The rows of both tables stay below `limit`. -/
structure Working (reg : Registry) (out : Path) (name : String) (limit k : Nat) (jobs : List Job)
    (xs : List Delivery) (p : Progress) : Prop where
  awaits : p.run.Awaits reg k jobs
  filled : ∃ n m, Filled out name xs n m p.store ∧ n + jobs.length ≤ limit ∧ m + p.run.weight ≤ limit

section

variable {reg : Registry} {out : Path} {name : String} {limit k : Nat} {jobs : List Job}
  {xs : List Delivery} {p p' : Progress} {r : Result} {run : Run}

theorem Working.drain (h : Working reg out name limit k jobs xs p) (hlimit : limit < maxRows) :
    ∃ p', p.drain = .ok p' ∧ Working reg out name limit k jobs xs p' ∧ p'.converted = p.converted ∧
      p'.failed = p.failed := by
  obtain ⟨n, m, hfilled, hn, hm⟩ := h.filled
  have hpending : p.run.sink.pending.length ≤ p.run.weight := by
    rw [Run.weight]
    omega
  obtain ⟨store, hstore, hfilled'⟩ :=
    hfilled.appendAnomalies p.run.sink.pending (by omega)
  refine ⟨{ p with store, run := { p.run with sink := p.run.sink.drain.2 } }, ?_, ⟨h.awaits, n,
    m + p.run.sink.pending.length, hfilled', hn, ?_⟩, rfl, rfl⟩
  · rw [Progress.drain]
    dsimp only [Sink.drain]
    rw [hstore]
  · simp only [Run.weight, Sink.drain, length_nil] at hm ⊢
    omega

theorem Working.flush (h : Working reg out name limit k jobs xs p) (hlimit : limit < maxRows) :
    ∃ p', p.flush = .ok p' ∧ Working reg out name limit k jobs xs p' ∧ p'.converted = p.converted ∧
      p'.failed = p.failed := by
  obtain ⟨n, m, hfilled, hn, hm⟩ := h.filled
  obtain ⟨store, hstore, hfilled'⟩ := hfilled.flushAll (by omega) (by omega) false
  have hflushed : Working reg out name limit k jobs xs { p with store } :=
    ⟨h.awaits, n, m, hfilled', hn, hm⟩
  rw [Progress.flush, Store.flush, hstore]
  exact hflushed.drain hlimit

theorem Working.take (every : Nat) {job : Job} (h : Working reg out name limit k (job :: jobs) xs p)
    (hlimit : limit < maxRows) (hawaits : run.Awaits reg (k + 1) jobs)
    (hweight : run.weight ≤ p.run.weight) (hin : Inside r.file.path) (hxs : Writable (xs ++ deliveries r)) :
    ∃ p', p.take every r run = .ok p' ∧ Working reg out name limit (k + 1) jobs (xs ++ deliveries r) p' ∧
      p'.converted = p.converted + [r].countP (·.ok) ∧ p'.failed = p.failed + [r].countP (!·.ok) := by
  obtain ⟨n, m, hfilled, hn, hm⟩ := h.filled
  rw [length_cons] at hn
  obtain ⟨store, hstore, hfilled'⟩ := hfilled.appendResult (by omega) hin hxs
  let taken : Progress :=
    { run, store
      converted := if r.ok then p.converted + 1 else p.converted
      failed := if r.ok then p.failed else p.failed + 1 }
  have htaken : Working reg out name limit (k + 1) jobs (xs ++ deliveries r) taken :=
    ⟨hawaits, n + 1, m, hfilled', by omega, Nat.le_trans (Nat.add_le_add_left hweight m) hm⟩
  have hcounts : taken.converted = p.converted + [r].countP (·.ok) ∧
      taken.failed = p.failed + [r].countP (!·.ok) := by
    cases hok : r.ok <;> simp [taken, hok]
  have heq : p.take every r run =
      if (taken.converted + taken.failed) % every = 0 then taken.flush else .ok taken := by
    rw [Progress.take, hstore]
  rw [heq]
  split
  · obtain ⟨p', hflush, hp', hconverted, hfailed⟩ := htaken.flush hlimit
    exact ⟨p', hflush, hp', hconverted.trans hcounts.1, hfailed.trans hcounts.2⟩
  · exact ⟨taken, rfl, htaken, hcounts⟩

theorem Working.of_take_eq_ok {every : Nat} (h : Working reg out name limit k jobs xs p)
    (hin : Inside r.file.path) (hxs : Writable xs) (hok : p.take every r run = .ok p') :
    Writable (xs ++ deliveries r) := by
  obtain ⟨n, m, hfilled, -, -⟩ := h.filled
  rw [Progress.take] at hok
  split at hok
  · cases hok
  · next store hstore => exact hfilled.of_appendResult_eq_ok hin hxs hstore

end

/-! ### The whole run -/

section

variable {setup : Setup} {out : Path} {name : String} {limit k : Nat} {jobs : List Job}
  {xs : List Delivery} {p p' : Progress}

def Setup.resultOf (setup : Setup) (k : Nat) (job : Job) : Result :=
  Run.resultOf setup.config.registry setup.work setup.pace k job

def Setup.resultsFrom (setup : Setup) (k : Nat) (jobs : List Job) : List Result :=
  Run.resultsFrom setup.config.registry setup.work setup.pace k jobs

theorem Setup.resultsFrom_cons (setup : Setup) (k : Nat) (job : Job) (jobs : List Job) :
    setup.resultsFrom k (job :: jobs) = setup.resultOf k job :: setup.resultsFrom (k + 1) jobs := rfl

theorem Setup.inside_resultOf {job : Job} (h : Inside job.file.path) : Inside (setup.resultOf k job).file.path := by
  rwa [Setup.resultOf, Run.file_resultOf]

theorem Setup.inside_deliveries {x : Delivery} (hin : ∀ job ∈ jobs, Inside job.file.path)
    (hx : x ∈ (setup.resultsFrom k jobs).flatMap deliveries) : Inside x.source := by
  induction jobs generalizing k with
  | nil => cases hx
  | cons job jobs ih =>
    rw [forall_mem_cons] at hin
    rw [Setup.resultsFrom_cons, flatMap_cons, mem_append] at hx
    rcases hx with hx | hx
    · rw [source_of_mem_deliveries hx]
      exact Setup.inside_resultOf hin.1
    · exact ih hin.2 hx

theorem Working.advance_cons {job : Job} (h : Working setup.config.registry out name limit k (job :: jobs) xs p) :
    ∃ run : Run, run.Awaits setup.config.registry (k + 1) jobs ∧ run.weight ≤ p.run.weight ∧
      Progress.advance setup (job :: jobs).length p =
        match p.take (max 1 setup.config.flushEvery.toNat) (setup.resultOf k job) run with
        | .error f => .error f
        | .ok p => Progress.advance setup jobs.length p := by
  obtain ⟨run, hnext, hawaits, hweight⟩ := Run.next?_awaits setup.work setup.pace h.awaits
  refine ⟨run, hawaits, hweight, ?_⟩
  rw [length_cons, Progress.advance, hnext]
  rfl

theorem Working.advance (h : Working setup.config.registry out name limit k jobs xs p)
    (hlimit : limit < maxRows) (hin : ∀ job ∈ jobs, Inside job.file.path)
    (hxs : Writable (xs ++ (setup.resultsFrom k jobs).flatMap deliveries)) :
    ∃ p', Progress.advance setup jobs.length p = .ok p' ∧
      Working setup.config.registry out name limit (k + jobs.length) []
        (xs ++ (setup.resultsFrom k jobs).flatMap deliveries) p' ∧
      p'.converted = p.converted + (setup.resultsFrom k jobs).countP (·.ok) ∧
      p'.failed = p.failed + (setup.resultsFrom k jobs).countP (!·.ok) := by
  induction jobs generalizing k xs p with
  | nil => exact ⟨p, rfl, by simpa [Setup.resultsFrom, Run.resultsFrom] using h, rfl, rfl⟩
  | cons job jobs ih =>
    rw [forall_mem_cons] at hin
    rw [Setup.resultsFrom_cons, flatMap_cons, ← append_assoc] at hxs ⊢
    obtain ⟨run, hawaits, hweight, hstep⟩ := h.advance_cons
    obtain ⟨p₁, htake, h₁, hconverted₁, hfailed₁⟩ := h.take (max 1 setup.config.flushEvery.toNat) hlimit
      hawaits hweight (Setup.inside_resultOf hin.1) hxs.of_append
    obtain ⟨p₂, hadvance, h₂, hconverted₂, hfailed₂⟩ := ih h₁ hin.2 hxs
    refine ⟨p₂, ?_, ?_, ?_, ?_⟩
    · rw [hstep, htake]
      exact hadvance
    · rwa [length_cons, Nat.add_comm jobs.length, ← Nat.add_assoc]
    · rw [hconverted₂, hconverted₁, Nat.add_assoc, ← countP_append, singleton_append]
    · rw [hfailed₂, hfailed₁, Nat.add_assoc, ← countP_append, singleton_append]

theorem Working.of_advance_eq_ok (h : Working setup.config.registry out name limit k jobs xs p)
    (hlimit : limit < maxRows) (hin : ∀ job ∈ jobs, Inside job.file.path) (hxs : Writable xs)
    (hok : Progress.advance setup jobs.length p = .ok p') :
    Writable (xs ++ (setup.resultsFrom k jobs).flatMap deliveries) := by
  induction jobs generalizing k xs p with
  | nil => simpa [Setup.resultsFrom, Run.resultsFrom] using hxs
  | cons job jobs ih =>
    rw [forall_mem_cons] at hin
    have hpath : Inside (setup.resultOf k job).file.path := Setup.inside_resultOf hin.1
    obtain ⟨run, hawaits, hweight, hstep⟩ := h.advance_cons
    rw [hstep] at hok
    split at hok
    · cases hok
    · next p₁ htake =>
      have hfirst := h.of_take_eq_ok hpath hxs htake
      obtain ⟨p₂, htake', h₁, -, -⟩ := h.take (max 1 setup.config.flushEvery.toNat) hlimit hawaits
        hweight hpath hfirst
      obtain rfl : p₁ = p₂ := Except.ok.inj (htake.symm.trans htake')
      rw [Setup.resultsFrom_cons, flatMap_cons, ← append_assoc]
      exact ih h₁ hin.2 hfirst hok

end

/-! ### Batches -/

def jobsOf (cfg : Config) (files : List SourceFile) : List Job :=
  (eligible cfg (sorted files)).map fun f => { file := f }

def resultsOf (cfg : Config) (work : Work) (pace : Nat → Run.Pace)
    (files : List SourceFile) : List Result :=
  Run.resultsFrom cfg.registry work pace 0 (jobsOf cfg files)

/-- The batch has ended with these results: its summary counts them, and their texts are in the output
directory. -/
structure Outcome.Reports (o : Outcome) (out : Path) (files : List SourceFile) (results : List Result) :
    Prop where
  published : Published o.disk out (results.flatMap deliveries)
  total : o.summary.filesTotal = files.length
  converted : o.summary.converted = results.countP (·.ok)
  failed : o.summary.failed = results.countP (!·.ok)

section

variable {cfg : Config} {files : List SourceFile} {sink : Sink}

theorem pending_noteSetAside : (noteSetAside cfg files sink).pending =
    sink.pending ++ files.filterMap (setAside? cfg) := by
  rw [noteSetAside]
  generalize files.filterMap (setAside? cfg) = notes
  induction notes generalizing sink with
  | nil => exact (append_nil _).symm
  | cons a notes ih => rw [foldl_cons, ih, Sink.pending_emit, append_assoc, singleton_append]

theorem length_pending_noteSetAside : (noteSetAside cfg files sink).pending.length =
      sink.pending.length + (files.filterMap (setAside? cfg)).length := by
  rw [pending_noteSetAside, length_append]

theorem length_setAside_add_eligible (cfg : Config) (files : List SourceFile) :
    (files.filterMap (setAside? cfg)).length + (eligible cfg files).length = files.length := by
  induction files with
  | nil => rfl
  | cons f files ih =>
    rw [eligible] at ih ⊢
    cases hf : setAside? cfg f with
    | none =>
      rw [filterMap_cons_none hf, filter_cons_of_pos (by simp [hf]), length_cons, length_cons, ← ih, Nat.add_assoc]
    | some a =>
      rw [filterMap_cons_some hf, filter_cons_of_neg (by simp [hf]), length_cons, length_cons, ← ih]
      omega

theorem mem_of_mem_jobsOf {job : Job} (h : job ∈ jobsOf cfg files) : job.file ∈ files := by
  obtain ⟨f, hf, rfl⟩ := mem_map.mp h
  exact mem_mergeSort.mp (mem_filter.mp hf).1

variable {d d₁ : Disk} {out : Path} {names : Spot} {name : String} {s : Store}

def firstProgress (cfg : Config) (files : List SourceFile) (sink : Sink) (store : Store) : Progress where
  run := { source := jobsOf cfg files, sink := noteSetAside cfg (sorted files) sink }
  store := store

theorem working_firstProgress (cfg : Config) (files : List SourceFile) (sink : Sink) (hs : Filled out name [] 0 0 s) :
    Working cfg.registry out name (sink.pending.length + 3 * files.length) 0 (jobsOf cfg files) []
      (firstProgress cfg files sink s) := by
  have hlength : (sorted files).length = files.length := length_mergeSort files
  have hparts := length_setAside_add_eligible cfg (sorted files)
  have hjobs : (jobsOf cfg files).length = (eligible cfg (sorted files)).length := length_map _
  refine ⟨⟨[], rfl, rfl, rfl⟩, 0, 0, hs, ?_, ?_⟩
  · omega
  · simp only [firstProgress, Run.weight, length_pending_noteSetAside, length_nil]
    omega

variable {work : Disk → Work} {pace : Nat → Run.Pace} {now : Moment} {meta? : Option JsonValue}

theorem run_eq_ok (hroom : HasRoom d out names name) (hs : Filled out (name ++ ".staging") [] 0 0 s)
    (hd : Opened d₁ out names name) (hstart : Store.start cfg.store out d = .ok (s, d₁))
    (hpaths : ∀ f ∈ files, Inside f.path) (hcount : sink.pending.length + 3 * files.length < maxRows)
    (hxs : Writable ((resultsOf cfg (work d₁) pace files).flatMap deliveries)) :
    ∃ o, run cfg work pace now files out meta? sink d = .ok o ∧
      o.Reports out files (resultsOf cfg (work d₁) pace files) := by
  let setup : Setup := { config := cfg, work := work d₁, pace }
  have hjobs : ∀ job ∈ jobsOf cfg files, Inside job.file.path :=
    fun job hjob => hpaths _ (mem_of_mem_jobsOf hjob)
  have hworking : Working setup.config.registry out (name ++ ".staging")
      (sink.pending.length + 3 * files.length) 0 (jobsOf cfg files) [] (firstProgress cfg files sink s) :=
    working_firstProgress cfg files sink hs
  obtain ⟨p₁, hadvance, h₁, hconverted₁, hfailed₁⟩ := hworking.advance hcount hjobs hxs
  obtain ⟨p₂, hdrain, h₂, hconverted₂, hfailed₂⟩ := h₁.drain hcount
  obtain ⟨n, m, hfilled, hn, hm⟩ := h₂.filled
  have hfit : ∀ x ∈ (setup.resultsFrom 0 (jobsOf cfg files)).flatMap deliveries, Fit (place x.source) :=
    fun x hx => fit_place (Setup.inside_deliveries hjobs hx) (hxs.keepable x hx).named (hxs.keepable x hx).short
  obtain ⟨d', s', hfinal, hpublished⟩ := hfilled.finalize (by omega) (by omega) hd hroom.named hfit now
    (receiptFields meta? p₂.run.sink)
  refine ⟨{ summary := { filesTotal := (sorted files).length, converted := p₂.converted
                         failed := p₂.failed, anomalies := p₂.run.sink.counts.get "total" }
            store := s', disk := d' }, ?_, hpublished, length_mergeSort files, ?_, ?_⟩
  · simp only [run, hstart, bind, Except.bind]
    simp only [setup, jobsOf, firstProgress] at hadvance
    simp only [hadvance, hdrain, hfinal]
    rfl
  · rw [hconverted₂, hconverted₁]
    exact Nat.zero_add _
  · rw [hfailed₂, hfailed₁]
    exact Nat.zero_add _

theorem writable_of_run_eq_ok {o : Outcome} (hs : Filled out (name ++ ".staging") [] 0 0 s)
    (hstart : Store.start cfg.store out d = .ok (s, d₁)) (hpaths : ∀ f ∈ files, Inside f.path)
    (hcount : sink.pending.length + 3 * files.length < maxRows)
    (hok : run cfg work pace now files out meta? sink d = .ok o) :
    Writable ((resultsOf cfg (work d₁) pace files).flatMap deliveries) := by
  let setup : Setup := { config := cfg, work := work d₁, pace }
  have hworking : Working setup.config.registry out (name ++ ".staging")
      (sink.pending.length + 3 * files.length) 0 (jobsOf cfg files) [] (firstProgress cfg files sink s) :=
    working_firstProgress cfg files sink hs
  cases hadvance : Progress.advance setup (jobsOf cfg files).length (firstProgress cfg files sink s) with
  | error f =>
    simp only [run, hstart, bind, Except.bind] at hok
    simp only [setup, jobsOf, firstProgress] at hadvance
    simp only [hadvance] at hok
    cases hok
  | ok p =>
    exact hworking.of_advance_eq_ok hcount (fun job hjob => hpaths _ (mem_of_mem_jobsOf hjob)) writable_nil hadvance

/-- Where there is room for the output directory and its size is not limited, a batch of files with
relative paths ends, and reports its results, exactly if the texts that they give can be kept: each has
only code points that can be encoded and a place of short names, and none stands above another. Files
that fail give no text. -/
theorem run_isOk_iff_writable (hroom : HasRoom d out names name) (cfg : Config)
    (hlimit : cfg.maxStoreBytes? = none) (work : Disk → Work)
    (pace : Nat → Run.Pace) (now : Moment) (files : List SourceFile)
    (hpaths : ∀ f ∈ files, Inside f.path) (meta? : Option JsonValue) (sink : Sink)
    (hcount : sink.pending.length + 3 * files.length < maxRows) : ∃ s d₁, Store.start cfg.store out d = .ok (s, d₁) ∧
      ((∃ o, run cfg work pace now files out meta? sink d = .ok o) ↔
        Writable ((resultsOf cfg (work d₁) pace files).flatMap deliveries)) ∧
      ∀ o, run cfg work pace now files out meta? sink d = .ok o →
        o.Reports out files (resultsOf cfg (work d₁) pace files) := by
  obtain ⟨s, d₁, hstart, hs, hd⟩ := start_eq_ok hroom cfg.store hlimit rfl
  have hkept {o : Outcome} (hok : run cfg work pace now files out meta? sink d = .ok o) :
      Writable ((resultsOf cfg (work d₁) pace files).flatMap deliveries) :=
    writable_of_run_eq_ok hs hstart hpaths hcount hok
  refine ⟨s, d₁, hstart, ⟨fun ⟨o, hok⟩ => hkept hok, fun hxs => ?_⟩, fun o hok => ?_⟩
  · obtain ⟨o, hok, -⟩ := run_eq_ok hroom hs hd hstart hpaths hcount hxs
    exact ⟨o, hok⟩
  · obtain ⟨o', hok', hreports⟩ := run_eq_ok hroom hs hd hstart hpaths hcount (hkept hok)
    obtain rfl : o = o' := Except.ok.inj (hok.symm.trans hok')
    exact hreports

end

/-! ### Small disks -/

def diskOf (files : List (String × String)) : Disk where
  mount := { root := "/", names := ["work"] }
  top := .directory (files.map fun (name, text) => (name, .file (Encoding.Utf8.encode text.toList)))

def sourceOf (name : String) : SourceFile where
  path := name
  realPath := name
  digest := ""
  size := 0
  language := .groovy

theorem hasRoom_diskOf {files : List (String × String)}
    (h : ∀ name ∈ ["out", "out.staging", "out.bak"],
      (entryAt? (diskOf files).top [name]).isNone = true) :
    HasRoom (diskOf files) { names := ["out"] } [] "out" := by
  have hclear {name : String} (hname : name ∈ ["out", "out.staging", "out.bak"]) :
      Clear (diskOf files).top ([] ++ [name]) := by
    intro y hy
    rcases prefix_concat_iff.mp hy with rfl | hy
    · exact .inl (look?_eq_none.mpr (Option.isNone_iff_eq_none.mp (h name hname)))
    · rw [prefix_nil.mp hy]
      exact .inr rfl
  refine ⟨rfl, rfl, rfl, rfl, by decide, fun t => ?_, hclear (by simp), hclear (by simp)⟩
  rw [look?, nil_append, Option.isNone_iff_eq_none.mp (h "out" (by simp))]
  rintro ⟨⟩

def unevenFiles : List SourceFile := [sourceOf "a.groovy", sourceOf "b.groovy"]

def unevenDisk : Disk := diskOf [("a.groovy", "x = 1\n"), ("b.groovy", "x = (\n")]

/-- One of two files is not balanced; the text of the other is published. -/
theorem run_isOk_unbalanced_file :
    ∃ o, run {} (fun d => Job.work d {}) (fun _ => {}) {} unevenFiles { names := ["out"] } none {} unevenDisk = .ok o ∧
      o.summary.converted = 1 ∧ o.summary.failed = 1 ∧
      o.disk.read { names := ["out", "cs", "a.cs"] } = .ok (Encoding.Utf8.encode "x = 1;\n".toList) := by
  have hroom : HasRoom unevenDisk { names := ["out"] } [] "out" := hasRoom_diskOf (by decide)
  obtain ⟨s, d₁, hstart, hiff, hreports⟩ := run_isOk_iff_writable hroom {} rfl (fun d => Job.work d {})
    (fun _ => {}) {} unevenFiles (by decide) none {} (by decide)
  have hd₁ : some d₁ = (Store.start ({} : Config).store { names := ["out"] } unevenDisk).toOption.map Prod.snd := by
    rw [hstart]
    rfl
  have hsorted : sorted unevenFiles = unevenFiles := List.mergeSort_of_pairwise (by decide)
  have hresults : (resultsOf {} (Job.work d₁ {}) (fun _ => {}) unevenFiles).map (fun r => (r.ok, deliveries r)) =
      [(true, [⟨"a.groovy", points "x = 1;\n"⟩]), (false, [])] := by
    obtain rfl := Option.some.inj (hd₁.trans rfl)
    rw [resultsOf, jobsOf, hsorted]
    decide +kernel
  have hdeliveries : (resultsOf {} (Job.work d₁ {}) (fun _ => {}) unevenFiles).flatMap deliveries =
      [⟨"a.groovy", points "x = 1;\n"⟩] := by
    simpa [List.flatMap_map] using congrArg (List.flatMap Prod.snd) hresults
  have hconverted := congrArg (countP Prod.fst) hresults
  have hfailed := congrArg (countP fun x => !x.1) hresults
  rw [List.countP_map] at hconverted hfailed
  rw [hdeliveries] at hiff
  obtain ⟨o, hok⟩ := hiff.mpr ((writable_concat_iff writable_nil).mpr ⟨⟨by decide, by decide, by decide⟩, nofun⟩)
  obtain ⟨hpublished, -, hones, hzeros⟩ := hreports o hok
  rw [hdeliveries] at hpublished
  obtain ⟨y, hy, -, content, hcontent, hread⟩ := hpublished.texts _ List.mem_cons_self
  rw [mem_singleton.mp hy] at hcontent
  refine ⟨o, hok, hones.trans hconverted, hzeros.trans hfailed, ?_⟩
  rw [← Except.ok.inj hcontent] at hread
  exact hread

def surrogateDisk : Disk := diskOf [("a.groovy", "x = '\\uD800'\n")]

/-- The escape of a lone surrogate is taken as it is, and the text cannot be encoded. -/
theorem lone_surrogate_stops_batch :
    HasRoom surrogateDisk { names := ["out"] } [] "out" ∧
      ({} : Config).maxStoreBytes? = none ∧ Inside (sourceOf "a.groovy").path ∧
      ∀ o, run {} (fun d => Job.work d {}) (fun _ => {}) {} [sourceOf "a.groovy"] { names := ["out"] } none {}
        surrogateDisk ≠ .ok o := by
  have hroom : HasRoom surrogateDisk { names := ["out"] } [] "out" := hasRoom_diskOf (by decide)
  refine ⟨hroom, rfl, by decide, fun o hok => ?_⟩
  obtain ⟨s, d₁, hstart, hs, -⟩ := start_eq_ok hroom ({} : Config).store rfl rfl
  have hd₁ : some d₁ = (Store.start ({} : Config).store { names := ["out"] } surrogateDisk).toOption.map Prod.snd := by
    rw [hstart]
    rfl
  have hdeliveries : (resultsOf {} (Job.work d₁ {}) (fun _ => {}) [sourceOf "a.groovy"]).flatMap deliveries =
      [⟨"a.groovy", points "x = \"" ++ [.surrogate 0] ++ points "\";\n"⟩] := by
    obtain rfl := Option.some.inj (hd₁.trans rfl)
    rw [resultsOf, jobsOf, sorted, List.mergeSort_singleton]
    decide +kernel
  have hkept := writable_of_run_eq_ok hs hstart (by decide) (by decide) hok
  rw [hdeliveries] at hkept
  exact absurd (hkept.keepable _ List.mem_cons_self).scalar (by decide)

end GroovySharp.Batch
