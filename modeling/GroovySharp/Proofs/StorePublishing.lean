import GroovySharp.Proofs.StoreFilling

/-!
# Opening and publishing a store

Where there is room for an output directory, a store can be opened for it, and a store without a limit
can always be finished: its receipt is written, and what it holds stands in the output directory.
-/

namespace GroovySharp.Store

open Unicode Disk List

/-! ### Room for a store -/

/-- There is room for the output directory `name` in the directory `names`: its name and the names of
its staging directory and its backup fit, and neither files nor links are in the way. -/
structure HasRoom (d : Disk) (out : Path) (names : Spot) (name : String) : Prop where
  mounted : d.mount.isAbsolute = true
  here : look? d.top d.here = some (.directory [])
  named : out.name? = some name
  leads : d.namesOf? out = some (names ++ [name])
  fit : ∀ suffix ∈ ["", ".staging", ".bak"], Fit (names ++ [name ++ suffix])
  target : ∀ t, look? d.top (names ++ [name]) ≠ some (.link t)
  staging : Clear d.top (names ++ [name ++ ".staging"])
  backup : Clear d.top (names ++ [name ++ ".bak"])

structure Opened (d : Disk) (out : Path) (names : Spot) (name : String) : Prop where
  covers : d.Covers out.parent names
  out_eq : out = out.parent.append { names := [name] }
  fit : ∀ suffix ∈ ["", ".staging", ".bak"], Fit (names ++ [name ++ suffix])
  target : ∀ t, look? d.top (names ++ [name]) ≠ some (.link t)
  staging : look? d.top (names ++ [name ++ ".staging"]) = some (.directory [])
  backup : Clear d.top (names ++ [name ++ ".bak"])

section

variable {d : Disk} {out : Path} {names : Spot} {name : String} {s : Store}

theorem eq_parent_append (h : out.name? = some name) : out = out.parent.append { names := [name] } := by
  rw [append_names, Path.parent]
  dsimp only
  rw [dropLast_append_getLast? name h]

theorem sibling_eq (h : out.name? = some name) (suffix : String) :
    sibling suffix out = .ok (out.parent.append { names := [name ++ suffix] }) := by
  rw [sibling, Path.withName?, h, append_names, Path.parent]
  rfl

/-- The output directory is below a directory that is there: the top of the disk or the working
directory. -/
theorem HasRoom.exists_base (h : HasRoom d out names name) :
    ∃ base spot rest, d.Covers base spot ∧ look? d.top spot = some (.directory []) ∧
      out.parent = base.append { names := rest } ∧ names = spot ++ rest := by
  have hleads := h.leads
  have hout := dropLast_append_getLast? name h.named
  rw [namesOf?] at hleads
  split at hleads
  · next hmount =>
    obtain ⟨rest, hrest⟩ := isPrefixOf_iff_prefix.mp hmount.2
    rw [← hrest, drop_left, Option.some.injEq] at hleads
    refine ⟨d.mount, [], names, covers_mount d, h.staging.look?_top, ?_, rfl⟩
    rw [append_names, Path.parent, hmount.1, ← hrest, hleads, ← append_assoc, dropLast_concat]
  · split at hleads
    · cases hleads
    · next hrelative =>
      have hroot : out.root = "" := by simpa [Path.isAbsolute] using hrelative
      rw [Option.some.injEq, ← hout, ← append_assoc] at hleads
      refine ⟨{}, d.here, out.names.dropLast, fun rest => ?_, h.here, ?_, (append_inj_left' hleads rfl).symm⟩
      · have hmount : ("" : String) ≠ d.mount.root := by
          intro hroot
          have hmounted := h.mounted
          rw [Path.isAbsolute, ← hroot] at hmounted
          cases hmounted
        rw [append_names, namesOf?, if_neg fun hroot => hmount hroot.1, if_neg]
        · rfl
        · exact Bool.false_ne_true
      · rw [append_names, Path.parent, hroot]
        rfl

theorem HasRoom.covers (h : HasRoom d out names name) : d.Covers out.parent names := by
  obtain ⟨base, spot, rest, hcovers, -, hparent, rfl⟩ := h.exists_base
  intro more
  have hpath : out.parent.append { names := more } = base.append { names := rest ++ more } := by
    simp only [hparent, append_names, append_assoc]
  rw [hpath, hcovers, append_assoc]

theorem concat_prefix_iff {a b : String} : names ++ [a] <+: names ++ [b] ↔ a = b := by
  rw [prefix_append_right_inj, cons_prefix_cons]
  simp

theorem not_prefix_of_concat {a b : String} {z : Spot} (hne : a ≠ b) (hz : names ++ [b] <+: z) :
    ¬ names ++ [a] <+: z := by
  intro hz'
  rcases prefix_or_prefix_of_prefix hz' hz with hup | hup
  · exact hne (concat_prefix_iff.mp hup)
  · exact hne (concat_prefix_iff.mp hup).symm

/-! ### Opening -/

theorem lookup_map_directory (tables : List String) (k : String) :
    (tables.map fun table => (table, Entry.directory [])).lookup k =
      if k ∈ tables then some (.directory []) else none := by
  induction tables with
  | nil => simp
  | cons table tables ih =>
    rw [map_cons, lookup_cons_ite, ih]
    by_cases hk : k = table
    · simp [hk]
    · simp [hk]

def emptyTop (name : String) : Entry :=
  putAt (.directory (firstDirectories.map fun table => (table, .directory []))) (.directory []) [name]

theorem look?_emptyTop {z : Spot} {e : Entry} (h : look? (emptyTop name) z = some e) :
    e = .directory [] ∧ ∃ table ∈ firstDirectories, z <+: [name, table] := by
  have hcs : outputDirectory ∈ firstDirectories := by decide
  rw [emptyTop, look?_putAt] at h
  split at h
  · next hz =>
    obtain ⟨rest, rfl⟩ := hz
    rw [drop_left] at h
    cases rest with
    | nil =>
      cases h
      exact ⟨rfl, outputDirectory, hcs, ⟨[outputDirectory], rfl⟩⟩
    | cons table rest =>
      rw [look?, entryAt?_cons, entries, lookup_map_directory] at h
      split at h
      · next htable =>
        cases rest with
        | nil =>
          cases h
          exact ⟨rfl, table, htable, prefix_rfl⟩
        | cons next rest => cases h
      · cases h
  · split at h
    · next hz =>
      cases h
      exact ⟨rfl, outputDirectory, hcs, hz.trans ⟨[outputDirectory], rfl⟩⟩
    · next hz =>
      cases z with
      | nil => exact absurd nil_prefix hz
      | cons first z => cases h

theorem holds_emptyTop (name : String) : Holds name [] (emptyTop name) where
  linkless z t h := nomatch (look?_emptyTop h).1
  standing table htable := by
    rw [emptyTop, look?_putAt, if_pos ⟨[table], rfl⟩, length_singleton, drop_one, tail_cons,
      look?, entryAt?_cons, entries, lookup_map_directory, if_pos htable]
    rfl
  written x hx := nomatch hx
  directories z h := .inl (look?_emptyTop h).2
  files z content _ h := nomatch (look?_emptyTop h).1

/-- The disk once the staging directory is made anew. -/
def stagingMade (d : Disk) (out : Path) (name : String) : Except Fault Disk :=
  (d.removeTree (out.parent.append { names := [name ++ ".staging"] })).makeDirectories
    (out.parent.append { names := [name ++ ".staging", outputDirectory] })

theorem HasRoom.opened (h : HasRoom d out names name) :
    ∃ d', stagingMade d out name = .ok d' ∧ Opened d' out names name := by
  have hcovers := h.covers
  have hfit : Fit (names ++ [name ++ ".staging"]) := h.fit ".staging" (by simp)
  obtain ⟨top₁, hremoved, htop₁⟩ := removeTree_clear (hcovers [name ++ ".staging"]) hfit h.staging
  obtain ⟨base, spot, rest, hbase, hspot, hparent, hnames⟩ := h.exists_base
  have hway : spot ++ (rest ++ [name ++ ".staging", outputDirectory]) =
      names ++ [name ++ ".staging"] ++ [outputDirectory] := by
    rw [hnames]
    simp
  have hspot₁ : look? top₁ spot = some (.directory []) := by
    rw [htop₁, if_neg, hspot]
    intro hup
    have hlength := hup.length_le
    rw [hnames] at hlength
    simp at hlength
  have hclear₁ : Clear top₁ (names ++ [name ++ ".staging"] ++ [outputDirectory]) := by
    intro y hy
    rw [htop₁]
    split
    · exact .inl rfl
    · next hnot =>
      rcases prefix_concat_iff.mp hy with rfl | hy
      · exact absurd (prefix_append _ _) hnot
      · exact h.staging y hy
  have hcs : Fit [outputDirectory] := fit_firstDirectories _ (by decide)
  obtain ⟨top₂, hmade, htop₂⟩ := makeDirectories_clear (d := { d with top := top₁ })
    hbase hspot₁ (hway ▸ hfit.append hcs) (hway ▸ hclear₁)
  have hpath : out.parent.append { names := [name ++ ".staging", outputDirectory] } =
      base.append { names := rest ++ [name ++ ".staging", outputDirectory] } := by
    rw [hparent, append_names, append_names, append_names]
    simp
  rw [hway] at htop₂
  have hstaging : names ++ [name ++ ".staging"] <+: names ++ [name ++ ".staging"] ++ [outputDirectory] :=
    prefix_append _ _
  refine ⟨{ d with top := top₂ }, by rw [stagingMade, hremoved, hpath]; exact hmade, hcovers, eq_parent_append h.named,
    h.fit, fun t => ?_, ?_, fun y hy => ?_⟩
  · -- the output directory itself is not touched
    have hne : name ≠ name ++ ".staging" := Ne.symm (by simp)
    dsimp only
    rw [htop₂, if_neg (not_prefix_of_concat hne hstaging), htop₁, if_neg fun hup => hne (concat_prefix_iff.mp hup).symm]
    exact h.target t
  · dsimp only
    rw [htop₂, if_pos hstaging]
  · dsimp only
    rw [htop₂]
    split
    · exact .inr rfl
    · rw [htop₁]
      split
      · exact .inl rfl
      · exact h.backup y hy

def fresh (config : StoreConfig) (out : Path) (name : String) : Store where
  config := config
  out := out
  staging := out.parent.append { names := [name ++ ".staging"] }
  disk := { mount := out.parent, top := emptyTop (name ++ ".staging") }

theorem start_eq (h : out.name? = some name) (config : StoreConfig) (d : Disk) : start config out d =
    (onDisk (stagingMade d out name)).map fun d' => (fresh config out name, d') := by
  have hpath : (out.parent.append { names := [name ++ ".staging"] }).append
      { names := [outputDirectory] } =
      out.parent.append { names := [name ++ ".staging", outputDirectory] } := by
    rw [append_names, append_names, append_names]
    simp
  have hname : (out.parent.append { names := [name ++ ".staging"] }).name?.getD "" =
      name ++ ".staging" := by
    rw [append_names]
    simp [Path.name?]
  rw [start, sibling_eq h, stagingMade]
  simp only [bind, Except.bind, hpath, hname]
  cases onDisk (Disk.makeDirectories _ _) <;> rfl

theorem HasRoom.start_eq_ok (h : HasRoom d out names name) (config : StoreConfig) :
    ∃ d', start config out d = .ok (fresh config out name, d') ∧ Opened d' out names name := by
  obtain ⟨d', hmade, hopened⟩ := h.opened
  refine ⟨d', ?_, hopened⟩
  rw [start_eq h.named, hmade]
  rfl

theorem start_eq_ok (h : HasRoom d out names name) (config : StoreConfig)
    (hlimit : config.maxBytes? = none) (hnamed : config.filePrefix = "groovy2cs") :
    ∃ s d', start config out d = .ok (s, d') ∧ Filled out (name ++ ".staging") [] 0 0 s ∧
      Opened d' out names name := by
  obtain ⟨d', hstart, hopened⟩ := h.start_eq_ok config
  refine ⟨fresh config out name, d', hstart, ?_, hopened⟩
  exact ⟨hlimit, hnamed, rfl, rfl, rfl, fun last hlast => h.fit ".staging" (by simp) last
    (mem_append_right _ hlast), holds_emptyTop _, fun t => by cases t <;> exact Nat.zero_le _⟩

theorem eq_fresh_of_start {config : StoreConfig} {d' : Disk} (h : start config out d = .ok (s, d')) :
    ∃ name, out.name? = some name ∧ s = fresh config out name := by
  cases hname : out.name? with
  | none =>
    rw [start, sibling, Path.withName?, hname] at h
    cases h
  | some name =>
    rw [start_eq hname] at h
    cases hmade : onDisk (stagingMade d out name) with
    | error f =>
      rw [hmade] at h
      cases h
    | ok d₁ =>
      rw [hmade] at h
      cases h
      exact ⟨name, rfl, rfl⟩

/-! ### Publishing -/

section

variable {xs : List Delivery} {n m : Nat}

theorem Opened.above (h : Opened d out names name) : look? d.top names = some (.directory []) :=
  look?_directory_up h.staging (prefix_append _ _)

theorem Opened.namesOf?_out (h : Opened d out names name) : d.namesOf? out = some (names ++ [name]) := by
  rw [h.out_eq]
  exact h.covers [name]

theorem Opened.namesOf?_below (h : Opened d out names name) (z : Spot) :
    d.namesOf? (out.append { names := z }) = some (names ++ [name] ++ z) := by
  have hnames : out.append { names := z } = out.parent.append { names := [name] ++ z } := by
    conv_lhs => rw [h.out_eq]
    simp only [append_names, append_assoc]
  rw [hnames, h.covers, append_assoc]

theorem Opened.fit_out (h : Opened d out names name) : Fit (names ++ [name]) := by simpa using h.fit "" (by simp)

theorem Opened.has_iff (h : Opened d out names name) : d.has out = true ↔ look? d.top (names ++ [name]) ≠ none := by
  cases hout : entryAt? d.top (names ++ [name]) with
  | none =>
    have hnone := look?_eq_none.mpr hout
    rw [has, find_vacant h.namesOf?_out h.fit_out h.above hnone]
    simp [hnone]
  | some e =>
    have hlink (t : String) : e ≠ .link t := by
      rintro rfl
      exact h.target t (by rw [look?, hout]; rfl)
    rw [has, find_found h.namesOf?_out h.fit_out hout hlink]
    simp [look?_eq_none, hout]

theorem Opened.setAside (h : Opened d out names name) :
    ∃ top', (d.has out = true → (d.removeTree (out.parent.append { names := [name ++ ".bak"] })).rename
        out (out.parent.append { names := [name ++ ".bak"] }) = .ok { d with top := top' }) ∧
      (d.has out = false → top' = d.top) ∧
      look? top' (names ++ [name]) = none ∧
      ∀ z, ¬ names ++ [name] <+: z → ¬ names ++ [name ++ ".bak"] <+: z →
        look? top' z = look? d.top z := by
  by_cases hhas : d.has out = true
  · have hne : name ++ ".bak" ≠ name := by simp
    have hbackup : Fit (names ++ [name ++ ".bak"]) := h.fit ".bak" (by simp)
    obtain ⟨top₁, hremoved, htop₁⟩ :=
      removeTree_clear (h.covers [name ++ ".bak"]) hbackup h.backup
    have hout₁ : look? top₁ (names ++ [name]) = look? d.top (names ++ [name]) := by
      rw [htop₁, if_neg fun hup => hne (concat_prefix_iff.mp hup)]
    have habove₁ : look? top₁ names = some (.directory []) := by
      rw [htop₁, if_neg fun hup => absurd hup.length_le (by simp), h.above]
    have hfree₁ : look? top₁ (names ++ [name ++ ".bak"]) = none := by rw [htop₁, if_pos prefix_rfl]
    obtain ⟨top₂, hmoved, htop₂⟩ := rename_eq (d := { d with top := top₁ }) h.namesOf?_out h.fit_out
      (hout₁ ▸ h.has_iff.mp hhas) (fun t => hout₁ ▸ h.target t) (h.covers [name ++ ".bak"]) hbackup
      habove₁ hfree₁ fun hup => hne (concat_prefix_iff.mp hup).symm
    refine ⟨top₂, fun _ => by rw [hremoved, hmoved], fun hno => ?_, ?_, fun z hout hbak => ?_⟩
    · rw [hhas] at hno
      cases hno
    · rw [htop₂, if_neg fun hup => hne (concat_prefix_iff.mp hup), if_pos prefix_rfl]
    · rw [htop₂, if_neg hbak, if_neg hout, htop₁, if_neg hbak]
  · refine ⟨d.top, fun h => absurd h hhas, fun _ => rfl, ?_, fun z _ _ => rfl⟩
    exact not_not.mp fun hne => hhas (h.has_iff.mpr hne)

theorem Sited.look?_content (h : Sited out name s) (hfit : Fit [name])
    (hdir : look? s.disk.top [name] = some (.directory [])) (z : Spot) :
    look? s.content z = look? s.disk.top (name :: z) := by
  obtain ⟨es, hes⟩ := look?_eq_directory.mp hdir
  have hpath : s.staging = s.staged [] := by rw [staged, append_names, append_nil]
  have hfound : s.disk.find s.staging = .found [name] (.directory es) maxLinks := by
    rw [hpath]
    exact find_found (h.namesOf?_staged []) hfit hes (by rintro _ ⟨⟩)
  rw [content, hfound]
  exact (look?_append (x := [name]) _ hes).symm

theorem Opened.fill (h : Opened d out names name) {e : Entry} (he : look? e [] = some (.directory [])) :
    Opened { d with top := putAt e d.top (names ++ [name ++ ".staging"]) } out names name := by
  refine ⟨h.covers, h.out_eq, h.fit, fun t => ?_, ?_, fun y hy => ?_⟩
  · have hne : name ≠ name ++ ".staging" := Ne.symm (by simp)
    dsimp only
    rw [look?_putAt, if_neg fun hup => hne (concat_prefix_iff.mp hup).symm,
      if_neg fun hup => hne (concat_prefix_iff.mp hup)]
    exact h.target t
  · dsimp only
    rw [look?_putAt, if_pos prefix_rfl, drop_length, he]
  · dsimp only
    rw [look?_putAt]
    split
    · next hup =>
      have hsame := concat_prefix_iff.mp (hup.trans hy)
      rw [String.append_right_inj] at hsame
      exact absurd hsame (by decide)
    · split
      · exact .inr rfl
      · exact h.backup y hy

theorem Sited.publish (h : Sited out (name ++ ".staging") s) (hd : Opened d out names name)
    (hnamed : out.name? = some name)
    (hdir : look? s.disk.top [name ++ ".staging"] = some (.directory [])) :
    ∃ top', s.publish d = .ok { d with top := top' } ∧
      ∀ z, look? top' (names ++ [name] ++ z) = look? s.disk.top ((name ++ ".staging") :: z) := by
  have hstaging : d.namesOf? s.staging = some (names ++ [name ++ ".staging"]) := by
    rw [h.staging_eq]
    exact hd.covers [name ++ ".staging"]
  have hfit : Fit (names ++ [name ++ ".staging"]) := hd.fit ".staging" (by simp)
  obtain ⟨es, hes⟩ := look?_eq_directory.mp hd.staging
  have hfound := find_found hstaging hfit hes nofun
  have hput := h.look?_content (fun last hlast => hfit last (mem_append_right _ hlast)) hdir
  have hcontent : look? s.content [] = some (.directory []) := (hput []).trans hdir
  have hfilled := hd.fill hcontent
  obtain ⟨top₂, haside, hleft, hfree, htop₂⟩ := hfilled.setAside
  dsimp only at haside hleft htop₂
  have hne : name ≠ name ++ ".staging" := Ne.symm (by simp)
  have hbak : name ++ ".bak" ≠ name ++ ".staging" := by
    rw [Ne, String.append_right_inj]
    decide
  have hkept (z : Spot) : look? top₂ (names ++ [name ++ ".staging"] ++ z) = look? s.content z := by
    rw [htop₂ _ (not_prefix_of_concat hne (prefix_append _ _))
      (not_prefix_of_concat hbak (prefix_append _ _)), look?_putAt,
      if_pos (prefix_append _ _), drop_left]
  have hkept₀ : look? top₂ (names ++ [name ++ ".staging"]) = some (.directory []) := by simpa [hcontent] using hkept []
  have habove : look? top₂ names = some (.directory []) :=
    look?_directory_up hkept₀ (prefix_append _ _)
  have hparent : d.namesOf? out.parent = some names := by simpa [append_names] using hd.covers []
  have hmade : Disk.makeDirectories { d with top := top₂ } out.parent = .ok { d with top := top₂ } :=
    makeDirectoriesTo_of_directory hparent (hfit.up (prefix_append _ _)) habove (Nat.succ_pos _)
  obtain ⟨top₃, hmoved, htop₃⟩ := rename_eq (d := { d with top := top₂ }) hstaging hfit
    (by simp [hkept₀]) (fun t => by simp [hkept₀]) hd.namesOf?_out hd.fit_out habove hfree
    fun hup => hne (concat_prefix_iff.mp hup).symm
  refine ⟨top₃, ?_, fun z => ?_⟩
  · rw [Store.publish, h.out_eq, sibling_eq hnamed]
    simp only [bind, Except.bind, hfound]
    split
    · next hhas =>
      simp only [haside hhas, hmade, onDisk]
      rw [hmoved]
    · next hhas =>
      rw [← hleft (Bool.not_eq_true _ ▸ hhas)]
      simp only [hmade, onDisk]
      rw [hmoved]
  · rw [htop₃, if_pos (prefix_append _ _), drop_left]
    dsimp only
    rw [hkept, hput]

/-! ### Finishing -/

/-- The output directory has a receipt and the C# texts; of the texts for one place it has one. -/
structure Published (d : Disk) (out : Path) (xs : List Delivery) : Prop where
  receipt : ∃ content, d.read (out.append { names := [receiptName] }) = .ok content
  texts : ∀ x ∈ xs, ∃ y ∈ xs, place y.source = place x.source ∧ ∃ content,
    Encoding.Utf8.encodePoints y.text = .ok content ∧ d.read (out.append { names := place x.source }) = .ok content

theorem fit_receiptName : Fit [receiptName] := by decide

theorem Filled.write_receipt (h : Filled out name xs n m s) (content : Bytes) :
    ∃ top', s.disk.write (s.staged [receiptName]) content = .ok { s.disk with top := top' } ∧
      Filled out name xs n m { s with disk := { s.disk with top := top' } } ∧
      look? top' [name, receiptName] = some (.file content) := by
  have hne : outputDirectory ≠ receiptName := by decide
  have habove := h.holds.base
  have hfree : look? s.disk.top ([name] ++ [receiptName]) ≠ some (.directory []) := by
    intro hdir
    rcases h.holds.directories _ hdir with ⟨table, htable, hz⟩ | ⟨x, -, hz, -⟩
    · have hsame : receiptName = table := by simpa using hz
      exact absurd (hsame ▸ htable) (by decide)
    · rw [place, singleton_append, cons_prefix_cons, cons_prefix_cons] at hz
      exact hne hz.2.1.symm
  have hfile := (h.holds.not_link _).imp_right fun h' => h'.resolve_right hfree
  refine ⟨putAt (.file content) s.disk.top ([name] ++ [receiptName]),
    write_eq content (h.namesOf?_staged [receiptName]) (h.fit.append fit_receiptName) habove hfile,
    { h with holds := h.holds.putAt_file content (fun hz => hne (by simpa using hz)) habove hfree }, ?_⟩
  exact (look?_putAt_file content habove hfile _).trans (if_pos rfl)

theorem Filled.finalize (h : Filled out (name ++ ".staging") xs n m s) (hn : n < maxRows)
    (hm : m < maxRows) (hd : Opened d out names name) (hnamed : out.name? = some name)
    (hfit : ∀ x ∈ xs, Fit (place x.source)) (now : Moment) (more : Fields) :
    ∃ d' s', s.finalize now more d = (.ok d', s') ∧ Published d' out xs := by
  obtain ⟨s₁, hflush, h₁⟩ := h.flushAll hn hm true
  obtain ⟨top₂, hwrite, h₂, hreceipt⟩ :=
    h₁.write_receipt (Encoding.Utf8.encode (s₁.receipt now more).render)
  obtain ⟨top₃, hpublish, htop₃⟩ := h₂.sited.publish hd hnamed h₂.holds.base
  -- the output directory shows what the staging directory held
  have hread {z : Spot} {content : Bytes} (hz : Fit z)
      (hlook : look? top₂ ((name ++ ".staging") :: z) = some (.file content)) :
      Disk.read { d with top := top₃ } (out.append { names := z }) = .ok content :=
    read_eq (hd.namesOf?_below z) (hd.fit_out.append hz) ((htop₃ z).trans hlook)
  have hfinal : ∃ s', s.finalize now more d = (.ok { d with top := top₃ }, s') := by
    rw [Store.finalize, hflush]
    simp only [hwrite, hpublish]
    exact ⟨_, rfl⟩
  obtain ⟨s', hfinal⟩ := hfinal
  refine ⟨_, s', hfinal, ⟨⟨_, hread fit_receiptName hreceipt⟩, fun x hx => ?_⟩⟩
  · obtain ⟨y, hy, hplace, content, hcontent, hlook⟩ := h₂.holds.written x hx
    exact ⟨y, hy, hplace, content, hcontent, hread (hfit x hx) hlook⟩

end

end

end GroovySharp.Store
