import GroovySharp.Proofs.DiskFiles
import GroovySharp.Proofs.StoreDeeds

/-!
# The files of a store

A deed changes at most one file of the staging directory: a text or a part that is kept stands at its
spot afterwards, and nothing stands there if it is refused.
-/

namespace GroovySharp

open List

namespace Disk

def fileAt? (e : Entry) (x : Spot) : Option Bytes :=
  match look? e x with
  | some (.file content) => some content
  | _ => none

section

variable {e e' top top' : Entry} {x y : Spot}

theorem fileAt?_congr (h : look? e x = look? e' y) : fileAt? e x = fileAt? e' y := by rw [fileAt?, fileAt?, h]

theorem fileAt?_eq_some {content : Bytes} : fileAt? e x = some content ↔ look? e x = some (.file content) := by
  rw [fileAt?]
  split
  · next old hold => rw [hold, Option.some.injEq, Option.some.injEq, Entry.file.injEq]
  · next hother =>
    constructor
    · nofun
    · intro hfile
      exact absurd hfile (hother content)

theorem fileAt?_eq_of_look?_file {new? : Option Bytes} (h : look? e x = new?.map Entry.file) : fileAt? e x = new? := by
  rw [fileAt?, h]
  cases new? with
  | none | some content => rfl

theorem Extends.fileAt?_eq (h : Extends top top') (x : Spot) : fileAt? top' x = fileAt? top x := by
  rcases h x with heq | ⟨hnone, hdir⟩
  · exact fileAt?_congr heq
  · rw [fileAt?, fileAt?, hnone, hdir]

end

end Disk

namespace Store

open Unicode Disk

def file? (s : Store) (names : List String) : Option Bytes := fileAt? s.content names

/-- A store for an output directory, whose staging directory is `name` in a disk of its own that has no
links. -/
structure Placed (out : Path) (name : String) (s : Store) : Prop extends Sited out name s where
  dots : name ≠ ".."
  linkless : Linkless s.disk.top
  base : look? s.disk.top [name] = some (.directory [])

section

variable {out : Path} {name : String} {s s' : Store}

theorem placed_fresh (config : StoreConfig) (out : Path) (name : String) :
    Placed out (name ++ ".staging") (fresh config out name) := by
  have hholds := holds_emptyTop (name ++ ".staging")
  refine ⟨⟨rfl, rfl, rfl⟩, fun hdots => ?_, hholds.linkless, hholds.base⟩
  have hlength := congrArg String.length hdots
  rw [String.length_append] at hlength
  have height : (".staging" : String).length = 8 := rfl
  have htwo : (".." : String).length = 2 := rfl
  omega

theorem Placed.find_staging (h : Placed out name s) :
    (Fit [name] ∧ ∃ es, entryAt? s.disk.top [name] = some (.directory es) ∧ s.content = .directory es) ∨
      ¬ Fit [name] ∧ s.content = .directory [] := by
  obtain ⟨es, hes⟩ := look?_eq_directory.mp h.base
  have hpath : s.staging = s.staged [] := by rw [staged, append_names, append_nil]
  have hnames : s.disk.namesOf? s.staging = some [name] := hpath ▸ h.namesOf?_staged []
  by_cases hfit : Fit [name]
  · refine .inl ⟨hfit, es, hes, ?_⟩
    rw [content, find_found hnames hfit hes (by rintro _ ⟨⟩)]
  · refine .inr ⟨hfit, ?_⟩
    have hfind : s.disk.find s.staging =
        descend s.disk.top maxLinks (follow s.disk.top (maxLinks - 1)) [] [name] := by
      rw [find, hnames]
      rfl
    rw [content, hfind]
    have hdots : ".." ∉ [name] := by simpa using h.dots.symm
    rcases descend_cases maxLinks (follow s.disk.top (maxLinks - 1)) [] h.linkless hdots
      with ⟨hfit', -⟩ | ⟨hfit', -⟩ | ⟨r, hrefused⟩
    · exact absurd hfit' hfit
    · exact absurd hfit' hfit
    · rw [hrefused]

theorem Placed.file?_eq (h : Placed out name s) (hfit : Fit [name]) (names : List String) :
    s.file? names = fileAt? s.disk.top (name :: names) :=
  fileAt?_congr (h.look?_content hfit h.base names)

theorem Placed.file?_eq_none (h : Placed out name s) (hfit : ¬ Fit [name]) (names : List String) :
    s.file? names = none := by
  rcases h.find_staging with ⟨hfit', -⟩ | ⟨-, hcontent⟩
  · exact absurd hfit' hfit
  · rw [file?, hcontent, fileAt?, look?]
    cases names with
    | nil | cons first rest => rfl

/-! ### Changes at one spot -/

theorem Placed.change {top : Entry} {names : List String} {new? : Option Bytes} (h : Placed out name s)
    (hfit : Fit (name :: names)) (hnames : names ≠ []) (hout : s'.out = s.out) (hstaging : s'.staging = s.staging)
    (hdisk : s'.disk = { s.disk with top }) (htop : ∀ z, look? top z =
      if z = name :: names then new?.map Entry.file else look? s.disk.top z) :
    Placed out name s' ∧ ∀ z, s'.file? z = if z = names then new? else s.file? z := by
  have hplaced : Placed out name s' := by
    refine ⟨⟨hout.trans h.out_eq, hstaging.trans h.staging_eq, ?_⟩, h.dots, fun z t => ?_, ?_⟩
    · rw [hdisk]
      exact h.mounted
    · rw [hdisk, htop]
      split
      · cases new? with
        | none | some content => nofun
      · exact h.linkless z t
    · rw [hdisk, htop, if_neg, h.base]
      intro heq
      exact hnames (cons.inj heq).2.symm
  have hbase : Fit [name] := hfit.up ⟨names, rfl⟩
  refine ⟨hplaced, fun z => ?_⟩
  rw [hplaced.file?_eq hbase, h.file?_eq hbase, hdisk]
  by_cases hz : z = names
  · rw [if_pos hz]
    refine fileAt?_eq_of_look?_file ?_
    rw [htop, if_pos (congrArg (name :: ·) hz)]
  · rw [if_neg hz]
    refine fileAt?_congr ?_
    rw [htop, if_neg fun heq => hz (cons.inj heq).2]

theorem Placed.write {names : List String} {content : Bytes} {d : Disk} (h : Placed out name s)
    (hdots : ".." ∉ names) (hnames : names ≠ []) (hok : s.disk.write (s.staged names) content = .ok d) :
    Fit (name :: names) ∧ (∃ top, d = { s.disk with top } ∧ ∀ z, look? top z =
        if z = name :: names then (some content).map Entry.file else look? s.disk.top z) ∧
      ∃ top, d.removeFile (s.staged names) = { s.disk with top } ∧ ∀ z, look? top z =
        if z = name :: names then (none : Option Bytes).map Entry.file else look? s.disk.top z := by
  obtain ⟨above, last, rfl⟩ : ∃ above last, names = above ++ [last] :=
    ⟨_, _, (dropLast_concat_getLast hnames).symm⟩
  have hleads : s.disk.namesOf? (s.staged (above ++ [last])) = some (name :: above ++ [last]) :=
    h.namesOf?_staged (above ++ [last])
  have hall : ".." ∉ name :: above ++ [last] := by
    rw [cons_append, mem_cons, not_or]
    exact ⟨h.dots.symm, hdots⟩
  obtain ⟨hfit, top, rfl, htop⟩ := look?_of_write_eq_ok hleads h.linkless hall hok
  obtain ⟨hremoved, hlook⟩ := removeFile_of_write_eq_ok hleads h.linkless hall hok
  refine ⟨hfit, ⟨top, rfl, htop⟩, _, hremoved, fun z => ?_⟩
  rw [hremoved] at hlook
  exact hlook z

end

/-! ### Deeds -/

def Deed.fileAfter (s : Store) (names : List String) (before? : Option Bytes) : Deed → Option Bytes
  | text x kept => if names = place x.source then (if kept then some (bytesOf x.text) else none) else before?
  | part t kept =>
    if names = [t.directory, s.nextName t] then (if kept then some (s.nextPage t) else none) else before?
  | directories | row _ _ => before?

section

variable {out : Path} {name : String} {s s' : Store} {deed : Deed}

theorem dots_ne_nextName (s : Store) (t : Table) : ".." ≠ s.nextName t := by
  intro hdots
  have hlength := congrArg String.length hdots
  have hend : (".parquet" : String).length = 8 := rfl
  have htwo : (".." : String).length = 2 := rfl
  rw [nextName, partName, String.length_append] at hlength
  omega

theorem dots_notMem_nextPart (s : Store) (t : Table) : ".." ∉ [t.directory, s.nextName t] := by
  have hdirectory : ".." ≠ t.directory := by cases t <;> decide
  simp [hdirectory, dots_ne_nextName]

theorem Does.placed (h : Placed out name s) (hdoes : Does deed s s') :
    Placed out name s' ∧ ∀ names, s'.file? names = deed.fileAfter s names (s.file? names) := by
  cases hdoes with
  | directories made =>
    obtain ⟨top, rfl, hextends⟩ := makeDirectoriesTo_extends made
    have hplaced : Placed out name { s with disk := { s.disk with top } } :=
      ⟨⟨h.out_eq, h.staging_eq, h.mounted⟩, h.dots, hextends.linkless h.linkless, hextends.kept h.base⟩
    refine ⟨hplaced, fun names => ?_⟩
    by_cases hfit : Fit [name]
    · rw [hplaced.file?_eq hfit, Deed.fileAfter, h.file?_eq hfit]
      exact hextends.fileAt?_eq _
    · rw [hplaced.file?_eq_none hfit, Deed.fileAfter, h.file?_eq_none hfit]
  | text inside named written _ =>
    obtain ⟨hfit, ⟨top, hdisk, htop⟩, -⟩ :=
      h.write (dots_notMem_place inside named) (cons_ne_nil _ _) written
    exact h.change hfit (cons_ne_nil _ _) rfl rfl hdisk htop
  | refusedText inside named written =>
    obtain ⟨hfit, -, top, hdisk, htop⟩ :=
      h.write (dots_notMem_place inside named) (cons_ne_nil _ _) written
    exact h.change hfit (cons_ne_nil _ _) rfl rfl hdisk htop
  | @row _ t _ =>
    cases t <;> exact ⟨⟨⟨h.out_eq, h.staging_eq, h.mounted⟩, h.dots, h.linkless, h.base⟩, fun _ => rfl⟩
  | @part _ t d written _ =>
    obtain ⟨hfit, ⟨top, hdisk, htop⟩, -⟩ :=
      h.write (dots_notMem_nextPart s t) (cons_ne_nil _ _) written
    cases t with
    | results | anomalies => exact h.change hfit (cons_ne_nil _ _) rfl rfl hdisk htop
  | @refusedPart _ t d written =>
    obtain ⟨hfit, -, top, hdisk, htop⟩ :=
      h.write (dots_notMem_nextPart s t) (cons_ne_nil _ _) written
    exact h.change hfit (cons_ne_nil _ _) rfl rfl hdisk htop

theorem Does.config (hdoes : Does deed s s') : s'.config = s.config := by
  cases hdoes with
  | part | row => cases ‹Table› <;> rfl
  | _ => rfl

theorem Does.rows_eq (hdoes : Does deed s s') :
    s'.results.rows = s.results.rows ++ deed.rows ∧ s'.anomalies.rows = s.anomalies.rows ++ deed.notes := by
  cases hdoes with
  | @row _ t =>
    cases t with
    | results => exact ⟨Series.rows_add _ _, (append_nil _).symm⟩
    | anomalies => exact ⟨(append_nil _).symm, Series.rows_add _ _⟩
  | @part _ t =>
    rw [Deed.rows, Deed.notes, append_nil, append_nil]
    cases t with
    | results => exact ⟨Series.rows_cut _, rfl⟩
    | anomalies => exact ⟨rfl, Series.rows_cut _⟩
  | _ => exact ⟨(append_nil _).symm, (append_nil _).symm⟩

theorem Does.fit (h : Placed out name s) (hdoes : Does deed s s') :
    (∀ t ∈ deed.tries, (Path.ofText t.delivery.source).names ≠ [] ∧ Fit (name :: place t.delivery.source)) ∧
      ∀ t kept, deed = .part t kept → Fit [name, t.directory, s.nextName t] := by
  cases hdoes with
  | text inside named written | refusedText inside named written =>
    have hfit := (h.write (dots_notMem_place inside named) (cons_ne_nil _ _) written).1
    exact ⟨by simpa [Deed.tries] using ⟨named, hfit⟩, nofun⟩
  | @part _ t _ written | @refusedPart _ t _ written =>
    have hfit := (h.write (dots_notMem_nextPart s t) (cons_ne_nil _ _) written).1
    exact ⟨fun _ ht => absurd ht not_mem_nil, fun t' kept heq => by cases heq; exact hfit⟩
  | _ => exact ⟨fun _ ht => absurd ht not_mem_nil, nofun⟩

/-! ### Parts -/

def Paged (s : Store) : Prop :=
  ∀ t x content, s.file? [t.directory, x] = some content ↔
    ∃ k, x = s.partName t.directory k ∧ (s.pages t)[k]? = some content

theorem directory_injective : Function.Injective Table.directory := by
  intro t t' h
  cases t with
  | results =>
    cases t' with
    | results => rfl
    | anomalies => exact absurd h (by decide)
  | anomalies =>
    cases t' with
    | results => exact absurd h (by decide)
    | anomalies => rfl

theorem Paged.file?_next (h : Paged s) (t : Table) : s.file? [t.directory, s.nextName t] = none := by
  by_contra hsome
  obtain ⟨content, hcontent⟩ := Option.ne_none_iff_exists'.mp hsome
  obtain ⟨k, hname, hpage⟩ := (h t _ content).mp hcontent
  obtain rfl := s.partName_injective t.directory hname
  rw [getElem?_eq_none (Nat.le_refl _)] at hpage
  cases hpage

def Deed.pagesAfter (s : Store) (t : Table) : Deed → List Bytes
  | part t' kept => if kept ∧ t = t' then s.pages t ++ [s.nextPage t] else s.pages t
  | directories | text _ _ | row _ _ => s.pages t

theorem Does.pages_eq (hdoes : Does deed s s') (t : Table) : s'.pages t = deed.pagesAfter s t := by
  cases hdoes with
  | @part _ t' d _ _ =>
    cases t with
    | results =>
      cases t' with
      | results => exact map_append
      | anomalies => rfl
    | anomalies =>
      cases t' with
      | results => rfl
      | anomalies => exact map_append
  | @row _ t' => cases t <;> cases t' <;> rfl
  | _ => cases t <;> rfl

theorem Does.pages_prefix (hdoes : Does deed s s') (t : Table) : s.pages t <+: s'.pages t := by
  rw [hdoes.pages_eq]
  cases deed with
  | part t' kept =>
    rw [Deed.pagesAfter]
    split
    · exact prefix_append _ _
    · exact prefix_rfl
  | _ => exact prefix_rfl

theorem Does.paged (hplaced : Placed out name s) (h : Paged s) (hdoes : Does deed s s') : Paged s' := by
  intro t x content
  have hname (k : Nat) : s'.partName t.directory k = s.partName t.directory k := by
    rw [partName, partName, hdoes.config]
  simp only [(hdoes.placed hplaced).2, hdoes.pages_eq, hname]
  cases deed with
  | text y kept =>
    have hother : [t.directory, x] ≠ place y.source := by
      intro heq
      exact outputDirectory_ne_directory t (cons.inj heq).1.symm
    rw [Deed.fileAfter, if_neg hother, Deed.pagesAfter]
    exact h t x content
  | part t' kept =>
    rw [Deed.fileAfter]
    cases kept with
    | false =>
      -- the spot is as free as it was before
      have hsame : (if [t.directory, x] = [t'.directory, s.nextName t'] then none
          else s.file? [t.directory, x]) = s.file? [t.directory, x] := by
        split
        · next heq => rw [heq, h.file?_next t']
        · rfl
      simp only [Deed.pagesAfter, Bool.false_eq_true, false_and, if_false, hsame]
      exact h t x content
    | true =>
      simp only [Deed.pagesAfter, true_and, if_true]
      by_cases ht : t = t'
      · subst ht
        rw [if_pos rfl]
        by_cases hx : x = s.nextName t
        · rw [if_pos (by rw [hx]), hx]
          constructor
          · intro hsame
            exact ⟨(s.pages t).length, rfl, by rw [getElem?_concat_length, hsame]⟩
          · rintro ⟨k, hk, hpage⟩
            obtain rfl := s.partName_injective t.directory hk
            rw [← hpage, getElem?_concat_length]
        · rw [if_neg (by simpa using hx), h t x content]
          refine exists_congr fun k => and_congr_right fun hk => ?_
          have hne : k ≠ (s.pages t).length := by
            rintro rfl
            exact hx hk
          rw [getElem?_append]
          split
          · rfl
          · next hlength =>
            rw [getElem?_eq_none (by omega), getElem?_eq_none (by simp; omega)]
      · rw [if_neg ht, if_neg, h t x content]
        intro heq
        exact ht (directory_injective (cons.inj heq).1)
  | directories | row => exact h t x content

theorem file?_fresh (config : StoreConfig) (out : Path) (name : String) (names : List String) :
    (fresh config out name).file? names = none := by
  have hplaced := placed_fresh config out name
  by_cases hfit : Fit [name ++ ".staging"]
  · rw [hplaced.file?_eq hfit, fileAt?]
    split
    · next old hold => cases (look?_emptyTop hold).1
    · rfl
  · exact hplaced.file?_eq_none hfit _

theorem paged_fresh (config : StoreConfig) (out : Path) (name : String) : Paged (fresh config out name) := by
  intro t x content
  rw [file?_fresh]
  constructor
  · nofun
  · rintro ⟨k, -, hpage⟩
    cases t with
    | results | anomalies => cases hpage

/-! ### What is left alone -/

/-- A later store has the log and the parts of an earlier one, and its files at the spots where no text was
tried. -/
structure Spares (s : Store) (ts : List Try) (s' : Store) : Prop where
  log : s.log <+: s'.log
  pages : ∀ t, s.pages t <+: s'.pages t
  files : ∀ names content, names ≠ [receiptName] → (∀ t ∈ ts, names ≠ place t.delivery.source) →
    s.file? names = some content → s'.file? names = some content

theorem Spares.refl (s : Store) : Spares s [] s :=
  ⟨prefix_rfl, fun _ => prefix_rfl, fun _ _ _ _ h => h⟩

def Deed.lines (s : Store) : Deed → List String
  | text x kept => if kept then [textLine x.source] else []
  | part t kept => if kept then [partLine t (s.nextName t)] else []
  | directories | row _ _ => []

theorem Does.log_eq (hdoes : Does deed s s') : s'.log = s.log ++ deed.lines s := by
  cases hdoes with
  | @part _ t => cases t <;> rfl
  | @row _ t => cases t <;> exact (append_nil _).symm
  | text => rfl
  | _ => exact (append_nil _).symm

theorem Does.spares {s₀ : Store} {ts : List Try} (hplaced : Placed out name s) (hpaged : Paged s)
    (h : Spares s₀ ts s) (hdoes : Does deed s s') : Spares s₀ (ts ++ deed.tries) s' where
  log := h.log.trans (hdoes.log_eq ▸ prefix_append _ _)
  pages t := (h.pages t).trans (hdoes.pages_prefix t)
  files names content hreceipt hts hfile := by
    have hsame := h.files names content hreceipt (fun t ht => hts t (mem_append_left _ ht)) hfile
    rw [(hdoes.placed hplaced).2]
    cases deed with
    | text x kept =>
      have hother : names ≠ place x.source :=
        hts ⟨x, kept⟩ (mem_append_right _ mem_cons_self)
      rw [Deed.fileAfter, if_neg hother, hsame]
    | part t kept =>
      rw [Deed.fileAfter, if_neg, hsame]
      rintro rfl
      rw [hpaged.file?_next t] at hsame
      cases hsame
    | directories | row => exact hsame

/-! ### Finishing -/

def Receipted (content : Bytes) (s s' : Store) : Prop :=
  ∃ own, s.disk.write (s.staged [receiptName]) content = .ok own ∧ s' = { s with disk := own }

variable {now : Moment} {more : Fields} {d d' : Disk} {f : StoreFault} {content : Bytes}

theorem Receipted.placed (h : Placed out name s) (hwrites : Receipted content s s') : Placed out name s' ∧
      ∀ names, s'.file? names = if names = [receiptName] then some content else s.file? names := by
  obtain ⟨own, hwrite, rfl⟩ := hwrites
  obtain ⟨hfit, ⟨top, hdisk, htop⟩, -⟩ := h.write (by decide) (cons_ne_nil _ _) hwrite
  exact h.change hfit (cons_ne_nil _ _) rfl rfl hdisk htop

theorem Receipted.paged (hplaced : Placed out name s) (h : Paged s) (hwrites : Receipted content s s') : Paged s' := by
  intro t x page
  rw [(hwrites.placed hplaced).2, if_neg (by simp)]
  obtain ⟨own, -, rfl⟩ := hwrites
  exact h t x page

theorem Receipted.spares {s₀ : Store} {ts : List Try} (hplaced : Placed out name s) (h : Spares s₀ ts s)
    (hwrites : Receipted content s s') : Spares s₀ ts s' where
  log := by
    obtain ⟨own, -, rfl⟩ := hwrites
    exact h.log
  pages t := by
    obtain ⟨own, -, rfl⟩ := hwrites
    exact h.pages t
  files names old hreceipt hts hfile := by
    rw [(hwrites.placed hplaced).2, if_neg hreceipt]
    exact h.files names old hreceipt hts hfile

theorem leads_of_finalize_eq_error (h : s.finalize now more d = (.error f, s')) :
    ∃ s₁, Leads [] [] [] False s s₁ ∧ (s' = s₁ ∨ ∃ content, Receipted content s₁ s') := by
  have hflushed := leads_flushAll true s
  unfold finalize at h
  cases hflush : s.flushAll true with
  | mk outcome s₁ =>
    rw [hflush] at h hflushed
    have hleads : Leads [] [] [] False s s₁ := hflushed.imp nofun
    cases outcome with
    | error f' =>
      cases h
      exact ⟨_, hleads, .inl rfl⟩
    | ok _ =>
      dsimp only at h
      split at h
      · cases h
        exact ⟨_, hleads, .inl rfl⟩
      next own hwrite =>
      split at h
      · cases h
        exact ⟨s₁, hleads, .inr ⟨_, own, hwrite, rfl⟩⟩
      · cases h

theorem Placed.finalize {names : Spot}
    (h : Placed out (name ++ ".staging") s) (hd : Opened d out names name) (hnamed : out.name? = some name)
    (hok : s.finalize now more d = (.ok d', s')) :
    ∃ s₁, s.flushAll true = (.ok (), s₁) ∧ (∃ own, s' = { s₁ with disk := own }) ∧
      d' = { d with top := d'.top } ∧ ∀ z, fileAt? d'.top (names ++ [name] ++ z) =
        if z = [receiptName] then some (Encoding.Utf8.encode (s₁.receipt now more).render)
        else s₁.file? z := by
  obtain ⟨s₁, own, hflush, hwrite, hpublish, rfl⟩ := finalize_eq_ok hok
  have hleads := leads_flushAll true s
  rw [hflush] at hleads
  have hplaced : Placed out (name ++ ".staging") s₁ :=
    hleads.keeps (fun _ _ _ s => Placed out _ s) [] [] [] (fun hdoes hs => (hdoes.placed hs).1) h
  obtain ⟨hplaced', hfiles⟩ := Receipted.placed hplaced ⟨own, hwrite, rfl⟩
  obtain ⟨top, hpublish', hlook⟩ := hplaced'.publish hd hnamed hplaced'.base
  obtain rfl := Except.ok.inj (hpublish'.symm.trans hpublish)
  have hfit : Fit [name ++ ".staging"] := fun last hlast =>
    hd.fit ".staging" (by simp) last (mem_append_right _ hlast)
  refine ⟨s₁, hflush, ⟨_, rfl⟩, rfl, fun z => ?_⟩
  rw [← hfiles, hplaced'.file?_eq hfit]
  exact fileAt?_congr (hlook z)

end

end Store

end GroovySharp
