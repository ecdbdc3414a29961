import GroovySharp.Proofs.DiskPaths
import GroovySharp.Store.Receipt
import Mathlib.Data.Nat.Digits.Defs

/-!
# Filling a store

A store without a limit takes every row.
-/

namespace GroovySharp.Store

open Encoding Unicode Disk List GroovySharp.Path

/-! ### What a store is given -/

structure Delivery where
  source : String
  text : Points
  deriving DecidableEq

def Inside (source : String) : Prop :=
  (ofText source).isAbsolute = false ∧ ".." ∉ (ofText source).names

instance : DecidablePred Inside := fun source =>
  inferInstanceAs (Decidable ((ofText source).isAbsolute = false ∧ ".." ∉ (ofText source).names))

def place (source : String) : List String :=
  outputDirectory :: (((ofText source).withSuffix? ".cs").getD {}).names

/-- A text that a store can keep by itself: its place has a name, names are short, and every code point
has bytes. -/
structure Keepable (x : Delivery) : Prop where
  named : (ofText x.source).names ≠ []
  short : ∀ name ∈ place x.source, (Utf8.encode name.toList).length ≤ maxName
  scalar : ∀ p ∈ x.text, p.isScalar = true

def Apart (x y : Delivery) : Prop :=
  (place x.source <+: place y.source → place x.source = place y.source) ∧
    (place y.source <+: place x.source → place y.source = place x.source)

structure Writable (xs : List Delivery) : Prop where
  keepable : ∀ x ∈ xs, Keepable x
  apart : ∀ x ∈ xs, ∀ y ∈ xs, Apart x y

section

variable {xs ys : List Delivery} {x y : Delivery}

theorem Apart.refl (x : Delivery) : Apart x x := ⟨fun _ => rfl, fun _ => rfl⟩

theorem Apart.symm (h : Apart x y) : Apart y x := And.symm h

theorem writable_nil : Writable [] := ⟨nofun, nofun⟩

theorem Writable.of_append (h : Writable (xs ++ ys)) : Writable xs where
  keepable x hx := h.keepable x (mem_append_left ys hx)
  apart x hx y hy := h.apart x (mem_append_left ys hx) y (mem_append_left ys hy)

theorem writable_concat_iff (hxs : Writable xs) : Writable (xs ++ [x]) ↔ Keepable x ∧ ∀ y ∈ xs, Apart x y := by
  constructor
  · intro h
    have hx : x ∈ xs ++ [x] := by simp
    exact ⟨h.keepable x hx, fun y hy => h.apart x hx y (mem_append_left _ hy)⟩
  · rintro ⟨hkeep, hapart⟩
    refine ⟨fun y hy => ?_, fun y hy z hz => ?_⟩
    · rcases mem_append.mp hy with hy | hy
      · exact hxs.keepable y hy
      · exact mem_singleton.mp hy ▸ hkeep
    · rcases mem_append.mp hy with hy | hy <;> rcases mem_append.mp hz with hz | hz
      · exact hxs.apart y hy z hz
      · exact mem_singleton.mp hz ▸ (hapart y hy).symm
      · exact mem_singleton.mp hy ▸ hapart z hz
      · rw [mem_singleton.mp hy, mem_singleton.mp hz]
        exact .refl x

end

/-! ### Places -/

theorem withSuffix?_of_ne_nil {p : Path} (h : p.names ≠ []) :
    p.withSuffix? ".cs" =
      some { p with names := p.names.dropLast ++ [Path.stem (p.names.getLast h) ++ ".cs"] } := by
  rw [withSuffix?, withName?, name?, getLast?_eq_getLast_of_ne_nil h, Option.map_some]

section

variable {source : String}

theorem place_of_ne_nil (h : (ofText source).names ≠ []) :
    place source = outputDirectory :: ((ofText source).names.dropLast ++
      [Path.stem ((ofText source).names.getLast h) ++ ".cs"]) := by
  rw [place, withSuffix?_of_ne_nil h, Option.getD_some]

theorem outputNames_of_ne_nil (hin : Inside source) (h : (ofText source).names ≠ []) :
    outputNames source = .ok (place source) := by
  rw [outputNames, place_of_ne_nil h, withSuffix?_of_ne_nil h]
  simp [hin.1, hin.2]

theorem outputNames_of_eq_nil (hin : Inside source) (h : (ofText source).names = []) :
    outputNames source = .error .nameless := by
  rw [outputNames]
  simp [hin.1, withSuffix?, withName?, name?, h]

theorem dots_notMem_place (hin : Inside source) (h : (ofText source).names ≠ []) :
    ".." ∉ place source := by
  rw [place_of_ne_nil h]
  intro hmem
  rcases mem_cons.mp hmem with hcs | hmem
  · exact absurd hcs (by decide)
  rcases mem_append.mp hmem with hdir | hname
  · exact hin.2 (dropLast_subset _ hdir)
  · -- three letters are added to the stem
    have hlength := congrArg String.length (mem_singleton.mp hname)
    rw [String.length_append] at hlength
    have hthree : (".cs" : String).length = 3 := rfl
    have htwo : (".." : String).length = 2 := rfl
    omega

theorem fit_place (hin : Inside source) (h : (ofText source).names ≠ [])
    (hshort : ∀ name ∈ place source, (Utf8.encode name.toList).length ≤ maxName) : Fit (place source) :=
  fun name hname => ⟨fun hdots => dots_notMem_place hin h (hdots ▸ hname), hshort name hname⟩

end

/-! ### Encoding -/

theorem firstSurrogates?_eq_none (offset : Nat) {ps : Points} :
    Utf8.firstSurrogates? offset ps = none ↔ ∀ p ∈ ps, p.isScalar = true := by
  induction ps generalizing offset with
  | nil => simp [Utf8.firstSurrogates?]
  | cons p ps ih =>
    rw [Utf8.firstSurrogates?, forall_mem_cons]
    cases p.isScalar with
    | true => simp [ih]
    | false => simp

theorem encodePoints_isOk_iff {ps : Points} :
    (∃ content, Utf8.encodePoints ps = .ok content) ↔ ∀ p ∈ ps, p.isScalar = true := by
  rw [← firstSurrogates?_eq_none 0, Utf8.encodePoints]
  cases Utf8.firstSurrogates? 0 ps with
  | none | some found => simp

theorem length_encode_le (cs : Chars) : (Utf8.encode cs).length ≤ 4 * cs.length := by
  induction cs with
  | nil => exact Nat.le_refl 0
  | cons c cs ih =>
    have hc : (Utf8.encodeNat c.toNat).length ≤ 4 := by
      unfold Utf8.encodeNat
      repeat' split
      all_goals simp
    rw [Utf8.encode] at ih ⊢
    rw [flatMap_cons, length_append, length_cons]
    omega

/-! ### What stands in the staging directory -/

/-- The staging directory `name` of a disk holds the C# texts of `xs`, besides the directories that it
started with and files that are no C# texts. -/
structure Holds (name : String) (xs : List Delivery) (top : Entry) : Prop where
  linkless : Linkless top
  standing : ∀ table ∈ firstDirectories, look? top [name, table] = some (.directory [])
  written : ∀ x ∈ xs, ∃ y ∈ xs, place y.source = place x.source ∧ ∃ content,
    Utf8.encodePoints y.text = .ok content ∧ look? top (name :: place x.source) = some (.file content)
  directories : ∀ z, look? top z = some (.directory []) → (∃ table ∈ firstDirectories, z <+: [name, table]) ∨
      ∃ x ∈ xs, z <+: name :: place x.source ∧ z ≠ name :: place x.source
  files : ∀ z content, [name, outputDirectory] <+: z → look? top z = some (.file content) →
    ∃ x ∈ xs, z = name :: place x.source

section

variable {name : String} {xs : List Delivery} {x : Delivery} {top : Entry} {content : Bytes}

theorem Holds.not_link (h : Holds name xs top) (z : Spot) :
    look? top z = none ∨ (∃ old, look? top z = some (.file old)) ∨ look? top z = some (.directory []) :=
  h.linkless.look?_cases z

theorem Holds.base (h : Holds name xs top) : look? top [name] = some (.directory []) :=
  look?_directory_up (h.standing outputDirectory (by decide)) ⟨[outputDirectory], rfl⟩

theorem Holds.putAt_file (content : Bytes) {above : Spot} {last : String} (h : Holds name xs top)
    (hout : ¬ [name, outputDirectory] <+: above ++ [last]) (habove : look? top above = some (.directory []))
    (hfree : look? top (above ++ [last]) ≠ some (.directory [])) :
    Holds name xs (putAt (.file content) top (above ++ [last])) := by
  have hput := look?_putAt_file content habove ((h.not_link _).imp_right fun h' => h'.resolve_right hfree)
  have hplace (x : Delivery) : name :: place x.source ≠ above ++ [last] := by
    intro heq
    exact hout (heq ▸ ⟨_, rfl⟩)
  refine ⟨fun z t => ?_, fun table htable => ?_, fun x hx => ?_, fun z => ?_, fun z old hz => ?_⟩
  · rw [hput]
    split
    · nofun
    · exact h.linkless z t
  · rw [hput, if_neg, h.standing table htable]
    intro heq
    exact hfree (heq ▸ h.standing table htable)
  · rw [hput, if_neg (hplace x)]
    exact h.written x hx
  · rw [hput]
    split
    · nofun
    · exact h.directories z
  · have hne : z ≠ above ++ [last] := fun heq => hout (heq ▸ hz)
    rw [hput, if_neg hne]
    exact h.files z old hz

theorem Holds.clear (h : Holds name xs top) (hapart : ∀ y ∈ xs, Apart x y) :
    Clear top (name :: (place x.source).dropLast) := by
  intro z hz
  rcases h.not_link z with hnone | ⟨old, hold⟩ | hdir
  · exact .inl hnone
  · have hcs := h.standing outputDirectory (by decide)
    have hway : z <+: name :: place x.source :=
      hz.trans (cons_prefix_cons.mpr ⟨rfl, dropLast_prefix _⟩)
    have hsame : [name, outputDirectory] <+: name :: place x.source := ⟨_, rfl⟩
    rcases prefix_or_prefix_of_prefix hsame hway with hbelow | habove
    · obtain ⟨y, hy, rfl⟩ := h.files z old hbelow hold
      have heq := (hapart y hy).2 (cons_prefix_cons.mp hway).2
      have hlength := hz.length_le
      rw [heq, length_cons, length_cons, length_dropLast] at hlength
      have hpos : 0 < (place x.source).length := Nat.succ_pos _
      omega
    · rw [look?_directory_up hcs habove] at hold
      cases hold
  · exact .inr hdir

theorem Holds.not_directory (h : Holds name xs top) (hnamed : (ofText x.source).names ≠ [])
    (hapart : ∀ y ∈ xs, Apart x y) : look? top (name :: place x.source) ≠ some (.directory []) := by
  intro hdir
  rcases h.directories _ hdir with ⟨table, -, hz⟩ | ⟨y, hy, hz, hne⟩
  · have hlength := hz.length_le
    rw [place_of_ne_nil hnamed] at hlength
    simp at hlength
  · exact hne (congrArg (name :: ·) ((hapart y hy).1 (cons_prefix_cons.mp hz).2))

theorem Holds.concat {top' : Entry} (h : Holds name xs top)
    (hnamed : (ofText x.source).names ≠ []) (hapart : ∀ y ∈ xs, Apart x y)
    (hcontent : Utf8.encodePoints x.text = .ok content) (htop : ∀ z, look? top' z =
      if z = name :: place x.source then some (.file content)
      else if z <+: name :: place x.source then some (.directory []) else look? top z) :
    Holds name (xs ++ [x]) top' := by
  refine ⟨fun z t => ?_, fun table htable => ?_, fun y hy => ?_, fun z hz => ?_, fun z old hcs hz => ?_⟩
  · rw [htop]
    split
    · nofun
    · split
      · nofun
      · exact h.linkless z t
  · rw [htop, if_neg]
    · split
      · rfl
      · exact h.standing table htable
    · intro heq
      have hlength := congrArg List.length heq
      rw [place_of_ne_nil hnamed] at hlength
      simp at hlength
  · by_cases heq : place y.source = place x.source
    · exact ⟨x, by simp, heq.symm, content, hcontent, by rw [htop, if_pos (heq ▸ rfl)]⟩
    · have hmem : y ∈ xs := (mem_append.mp hy).resolve_right fun hyx =>
        heq (mem_singleton.mp hyx ▸ rfl)
      obtain ⟨w, hw, hplace, old, hold, hfile⟩ := h.written y hmem
      refine ⟨w, mem_append_left _ hw, hplace, old, hold, ?_⟩
      rw [htop, if_neg, if_neg, hfile]
      · exact fun hup => heq ((hapart y hmem).2 (cons_prefix_cons.mp hup).2)
      · exact fun h => heq (cons.inj h).2
  · rw [htop] at hz
    split at hz
    · cases hz
    · next hne =>
      split at hz
      · next hup => exact .inr ⟨x, by simp, hup, hne⟩
      · exact (h.directories z hz).imp_right fun ⟨y, hy, hyz⟩ => ⟨y, mem_append_left _ hy, hyz⟩
  · rw [htop] at hz
    split at hz
    · next heq => exact ⟨x, by simp, heq⟩
    · split at hz
      · cases hz
      · obtain ⟨y, hy, heq⟩ := h.files z old hcs hz
        exact ⟨y, mem_append_left _ hy, heq⟩

end

/-! ### Stores in use -/

/-- A store for an output directory, whose staging directory is `name` in a disk of its own. -/
structure Sited (out : Path) (name : String) (s : Store) : Prop where
  out_eq : s.out = out
  staging_eq : s.staging = out.parent.append { names := [name] }
  mounted : s.disk.mount = out.parent

def load {α : Type} (t : Series α) : Nat := t.parts.length + t.waiting.size

def bound (n m : Nat) : Table → Nat
  | .results => n
  | .anomalies => m

/-- A store without a limit for an output directory, whose staging directory holds the texts of `xs`
and whose tables are made of at most `n` and `m` rows. -/
structure Filled (out : Path) (name : String) (xs : List Delivery) (n m : Nat) (s : Store) : Prop where
  unlimited : s.config.maxBytes? = none
  named : s.config.filePrefix = "groovy2cs"
  out_eq : s.out = out
  staging_eq : s.staging = out.parent.append { names := [name] }
  mounted : s.disk.mount = out.parent
  fit : Fit [name]
  holds : Holds name xs s.disk.top
  /-- An empty table is one part in the end. -/
  loads : ∀ t, load (s.series t) ≤ bound n m t + 1

def maxRows : Nat := 10 ^ 30

section

variable {out : Path} {name : String} {xs : List Delivery} {x : Delivery} {n m : Nat} {s s' : Store}

theorem covers_mount (d : Disk) : d.Covers d.mount [] := by
  intro names
  rw [append_names, namesOf?, if_pos ⟨rfl, by simp⟩]
  simp

theorem Sited.namesOf?_staged (h : Sited out name s) (names : List String) :
    s.disk.namesOf? (s.staged names) = some (name :: names) := by
  have hpath : s.staged names = s.disk.mount.append { names := name :: names } := by
    simp [staged, h.staging_eq, h.mounted, append_names]
  rw [hpath, covers_mount, nil_append]

theorem Filled.sited (h : Filled out name xs n m s) : Sited out name s :=
  ⟨h.out_eq, h.staging_eq, h.mounted⟩

theorem Filled.namesOf?_staged (h : Filled out name xs n m s) (names : List String) :
    s.disk.namesOf? (s.staged names) = some (name :: names) :=
  h.sited.namesOf?_staged names

theorem fit_firstDirectories : ∀ table ∈ firstDirectories, Fit [table] := by decide

theorem fit_partName (h : s.config.filePrefix = "groovy2cs") {table : String}
    (htable : table ∈ firstDirectories) {number : Nat} (hnumber : number ≤ maxRows) :
    Fit [s.partName table number] := by
  intro last hlast
  obtain rfl := mem_singleton.mp hlast
  have hlengths : ∀ table ∈ firstDirectories, table.length ≤ 12 := by decide
  have htable := hlengths table htable
  have hdigits : (Nat.toDigits 10 number).length ≤ 31 :=
    Nat.toDigits_length 10 number 31 (by decide)
      (Nat.lt_of_le_of_lt hnumber (Nat.pow_lt_pow_right (by decide) (by decide)))
  have hlength : 19 ≤ (s.partName table number).length ∧ (s.partName table number).length ≤ 62 := by
    have hstart : ("groovy2cs" : String).length = 9 := rfl
    have hline : ("_" : String).length = 1 := rfl
    have hend : (".parquet" : String).length = 8 := rfl
    rw [partName, h, Moment.padded]
    simp only [String.length_append, String.length_ofList, length_append, length_replicate, hstart, hline, hend]
    omega
  constructor
  · intro hdots
    rw [hdots] at hlength
    exact absurd hlength.1 (by decide)
  · refine Nat.le_trans (length_encode_le _) ?_
    rw [String.length_toList, maxName]
    omega

theorem outputDirectory_ne_directory (t : Table) : outputDirectory ≠ t.directory := by cases t <;> decide

theorem directory_mem (t : Table) : t.directory ∈ firstDirectories := by cases t <;> decide

theorem Filled.writePart (h : Filled out name xs n m s) (t : Table) {number : Nat} (hnumber : number ≤ maxRows)
    (rows : Rows) : ∃ s', s.writePart t.directory number rows = (.ok (), s') ∧ Filled out name xs n m s' ∧
      s'.series t = s.series t := by
  have hcs := outputDirectory_ne_directory t
  have hfit : Fit ([name, t.directory] ++ [s.partName t.directory number]) :=
    (h.fit.append (fit_firstDirectories _ (directory_mem t))).append
      (fit_partName h.named (directory_mem t) hnumber)
  have habove := h.holds.standing _ (directory_mem t)
  have hfree : look? s.disk.top ([name, t.directory] ++ [s.partName t.directory number]) ≠
      some (.directory []) := by
    intro hdir
    rcases h.holds.directories _ hdir with ⟨other, -, hz⟩ | ⟨x, -, hz, -⟩
    · exact absurd hz.length_le (by simp)
    · rw [place, cons_append, cons_append, cons_prefix_cons, cons_prefix_cons] at hz
      exact hcs hz.2.1.symm
  have hwrite := write_eq (s.config.encode rows) (h.namesOf?_staged [t.directory, s.partName t.directory number])
    hfit habove
    ((h.holds.not_link _).imp_right fun h' => h'.resolve_right hfree)
  have hholds := h.holds.putAt_file (s.config.encode rows) (fun hz => hcs (by simpa using hz)) habove hfree
  rw [Store.writePart, writeFile, hwrite]
  simp only [account, h.unlimited]
  exact ⟨_, rfl, ⟨h.unlimited, h.named, h.out_eq, h.staging_eq, h.mounted, h.fit, hholds, h.loads⟩, rfl⟩

/-! ### Rows -/

theorem load_add {α : Type} (row : α) (t : Series α) : load (t.add row) = load t + 1 := by
  simp [load, Series.add, Nat.add_assoc]

theorem load_cut {α : Type} {t : Series α} {force : Bool} (hneeds : t.needsPart force = true)
    (h : load t ≤ n + 1) : load t.cut ≤ n + 1 := by
  have hcut : load t.cut = t.parts.length + 1 := by simp [load, Series.cut]
  rw [hcut]
  rw [load] at h
  rw [Series.needsPart, Bool.or_eq_true, Bool.and_eq_true] at hneeds
  rcases hneeds with hwaiting | ⟨-, hparts⟩
  · have hsize : t.waiting.size ≠ 0 := by
      intro hzero
      simp [Array.eq_empty_of_size_eq_zero hzero] at hwaiting
    omega
  · have hcount := t.count_eq
    rw [beq_iff_eq.mp hparts] at hcount
    omega

theorem Filled.withSeries {n' m' : Nat} (h : Filled out name xs n m s) {t : Table} {rows : Series t.Row} (hn : n ≤ n')
    (hm : m ≤ m') (hrows : load rows ≤ bound n' m' t + 1) : Filled out name xs n' m' (s.withSeries t rows) := by
  have hresults : load s.results ≤ n' + 1 := Nat.le_trans (h.loads .results) (Nat.succ_le_succ hn)
  have hanomalies : load s.anomalies ≤ m' + 1 := Nat.le_trans (h.loads .anomalies) (Nat.succ_le_succ hm)
  cases t with
  | results => exact { h with loads := fun t => by cases t; exacts [hrows, hanomalies] }
  | anomalies => exact { h with loads := fun t => by cases t; exacts [hresults, hrows] }

theorem Filled.flushTable (h : Filled out name xs n m s) {t : Table} (ht : bound n m t < maxRows) (force : Bool) :
    ∃ s', s.flushTable t force = (.ok (), s') ∧ Filled out name xs n m s' := by
  rw [Store.flushTable]
  split
  · next hneeds =>
    have hnumber : (s.series t).count ≤ maxRows := by
      rw [Series.count_eq]
      exact Nat.le_trans (Nat.le_add_right _ _) (Nat.le_trans (h.loads t) ht)
    obtain ⟨s', hwrite, hs', hseries⟩ := h.writePart t hnumber (t.collect (s.series t).waiting.toList)
    rw [hwrite]
    refine ⟨_, rfl, hs'.withSeries (Nat.le_refl n) (Nat.le_refl m) ?_⟩
    rw [hseries]
    exact load_cut hneeds (h.loads t)
  · exact ⟨s, rfl, h⟩

theorem Filled.flushAll (h : Filled out name xs n m s) (hn : n < maxRows) (hm : m < maxRows)
    (force : Bool) : ∃ s', s.flushAll force = (.ok (), s') ∧ Filled out name xs n m s' := by
  obtain ⟨s₁, hresults, h₁⟩ := h.flushTable (t := .results) hn force
  obtain ⟨s₂, hanomalies, h₂⟩ := h₁.flushTable (t := .anomalies) hm force
  exact ⟨s₂, by rw [Store.flushAll, hresults, ← hanomalies], h₂⟩

theorem Filled.add {n' m' : Nat} (h : Filled out name xs n m s) {t : Table} (row : t.Row) (hn : n ≤ n') (hm : m ≤ m')
    (ht : bound n m t < bound n' m' t) (hmax : bound n' m' t < maxRows) :
    ∃ s', s.add t row = (.ok (), s') ∧ Filled out name xs n' m' s' := by
  have hadded : Filled out name xs n' m' (s.withSeries t ((s.series t).add row)) := by
    refine h.withSeries hn hm ?_
    rw [load_add]
    exact Nat.succ_le_succ (Nat.le_trans (h.loads t) ht)
  rw [Store.add]
  split
  · exact hadded.flushTable hmax false
  · exact ⟨_, rfl, hadded⟩

theorem Filled.appendAnomalies (h : Filled out name xs n m s) (as : List Anomaly) (hm : m + as.length < maxRows) :
    ∃ s', Store.appendAnomalies as s = (.ok (), s') ∧ Filled out name xs n (m + as.length) s' := by
  induction as generalizing m s with
  | nil => exact ⟨s, rfl, h⟩
  | cons a as ih =>
    rw [length_cons] at hm
    obtain ⟨s₁, hadd, h₁⟩ := h.add (t := .anomalies) a (Nat.le_refl n) (Nat.le_succ m) (Nat.lt_succ_self m)
      (show m + 1 < maxRows by omega)
    obtain ⟨s₂, hrest, h₂⟩ := ih h₁ (by omega)
    refine ⟨s₂, ?_, ?_⟩
    · rw [Store.appendAnomalies, hadd, ← hrest]
    · rw [length_cons, Nat.add_comm as.length, ← Nat.add_assoc]
      exact h₂

/-! ### Texts -/

theorem exists_place_eq (source : String) : ∃ above last, place source = above ++ [last] :=
  ⟨_, _, (dropLast_concat_getLast (cons_ne_nil _ _)).symm⟩

theorem Filled.makeDirectories_above {above : Spot} {last : String} (h : Filled out name xs n m s)
    (hplace : place x.source = above ++ [last]) (hfit : Fit (name :: above ++ [last]))
    (hapart : ∀ y ∈ xs, Apart x y) : ∃ top', s.disk.makeDirectories (s.staged (place x.source)).parent =
        .ok { s.disk with top := top' } ∧
      ∀ z, look? top' z = if z <+: name :: above then some (.directory []) else look? s.disk.top z := by
  have hparent : (s.staged (place x.source)).parent = s.disk.mount.append { names := name :: above } := by
    simp only [staged, h.staging_eq, h.mounted, append_names, parent, hplace, ← append_assoc, dropLast_concat]
    rw [append_assoc, singleton_append]
  have hclear := h.holds.clear hapart
  rw [hplace, dropLast_concat] at hclear
  rw [hparent]
  exact makeDirectories_clear (covers_mount s.disk) hclear.look?_top (hfit.up (prefix_append _ _)) hclear

theorem Filled.writeOutput (h : Filled out name xs n m s) (hin : Inside x.source) (hkeep : Keepable x)
    (hapart : ∀ y ∈ xs, Apart x y) : ∃ output s', s.writeOutput x.source x.text = (.ok output, s') ∧
      Filled out name (xs ++ [x]) n m s' := by
  obtain ⟨content, hcontent⟩ := encodePoints_isOk_iff.mpr hkeep.scalar
  obtain ⟨above, last, hplace⟩ := exists_place_eq x.source
  have hspot : name :: place x.source = name :: above ++ [last] := congrArg (name :: ·) hplace
  have hfit : Fit (name :: above ++ [last]) :=
    hspot ▸ h.fit.append (fit_place hin hkeep.named hkeep.short)
  obtain ⟨top₁, hmade, htop₁⟩ := h.makeDirectories_above hplace hfit hapart
  have habove : look? top₁ (name :: above) = some (.directory []) := by rw [htop₁, if_pos prefix_rfl]
  have hfree : look? top₁ (name :: above ++ [last]) = none ∨
      ∃ old, look? top₁ (name :: above ++ [last]) = some (.file old) := by
    have hbelow : ¬ name :: above ++ [last] <+: name :: above :=
      fun hz => absurd hz.length_le (by simp)
    rw [htop₁, if_neg hbelow, ← hspot]
    exact (h.holds.not_link _).imp_right fun h' =>
      h'.resolve_right (h.holds.not_directory hkeep.named hapart)
  have hwrite : Disk.write { s.disk with top := top₁ } (s.staged (place x.source)) content =
      .ok { s.disk with top := putAt (.file content) top₁ (name :: above ++ [last]) } :=
    write_eq content (hspot ▸ h.namesOf?_staged (place x.source)) hfit habove hfree
  have hholds : Holds name (xs ++ [x]) (putAt (.file content) top₁ (name :: above ++ [last])) := by
    refine h.holds.concat hkeep.named hapart hcontent fun z => ?_
    rw [look?_putAt_file content habove hfree, htop₁, hspot]
    split
    · rfl
    · next hne => simp only [prefix_concat_iff, hne, false_or]
  rw [Store.writeOutput, outputNames_of_ne_nil hin hkeep.named]
  simp only [hmade, hcontent, hwrite, account, h.unlimited]
  exact ⟨_, _, rfl, ⟨h.unlimited, h.named, h.out_eq, h.staging_eq, h.mounted, h.fit, hholds, h.loads⟩⟩

theorem account_eq_ok {size : Nat} {path : Path} (hok : s.account size path = (.ok (), s')) :
    s' = { s with bytesWritten := s.bytesWritten + size } := by
  unfold account at hok
  dsimp only at hok
  split at hok
  · split at hok
    · cases hok
    · cases hok
      rfl
  · cases hok
    rfl

theorem writeOutput_eq_ok {source : String} {text : Points} {output : String × Bytes}
    (hok : s.writeOutput source text = (.ok output, s')) : ∃ content d₁ d₂, (ofText source).names ≠ [] ∧ Inside source ∧
      s.disk.makeDirectories (s.staged (place source)).parent = .ok d₁ ∧
      Utf8.encodePoints text = .ok content ∧ d₁.write (s.staged (place source)) content = .ok d₂ ∧
      output = ("/".intercalate (place source), content) ∧
      s' = { s with
        disk := d₂
        outputs := s.outputs + 1
        bytesWritten := s.bytesWritten + content.length
        log := s.log ++ ["wrote_cs:" ++ "/".intercalate (place source)] } := by
  have hin : Inside source := by
    by_contra hout
    have hrefused : outputNames source = .error (.outside source) := by
      rw [outputNames, if_pos]
      rw [Inside, not_and_or, Bool.not_eq_false, not_not] at hout
      simpa using hout
    rw [writeOutput, hrefused] at hok
    cases hok
  have hnamed : (ofText source).names ≠ [] := by
    intro hnil
    rw [writeOutput, outputNames_of_eq_nil hin hnil] at hok
    cases hok
  rw [writeOutput, outputNames_of_ne_nil hin hnamed] at hok
  dsimp only at hok
  split at hok
  · cases hok
  next d₁ hmade =>
  split at hok
  · cases hok
  next content hcontent =>
  split at hok
  · cases hok
  next d₂ hwrite =>
  split at hok
  · cases hok
  next s₁ haccount =>
  obtain rfl := account_eq_ok haccount
  cases hok
  exact ⟨content, d₁, d₂, hnamed, hin, hmade, hcontent, hwrite, rfl, rfl⟩

theorem Filled.of_writeOutput_eq_ok {output : String × Bytes} (h : Filled out name xs n m s)
    (hin : Inside x.source) (hok : s.writeOutput x.source x.text = (.ok output, s')) :
    Keepable x ∧ ∀ y ∈ xs, Apart x y := by
  obtain ⟨content, d₁, d₂, hnamed, -, hmade, hcontent, hwrite, -, -⟩ := writeOutput_eq_ok hok
  obtain ⟨top₁, rfl, hextends⟩ := makeDirectoriesTo_extends hmade
  have hdots : ".." ∉ name :: place x.source := by
    rw [mem_cons, not_or]
    exact ⟨(h.fit name (mem_singleton_self name)).1.symm, dots_notMem_place hin hnamed⟩
  obtain ⟨hfit, hfree, habove⟩ := of_write_eq_ok (d := { s.disk with top := top₁ })
    (h.namesOf?_staged (place x.source)) (hextends.linkless h.holds.linkless) hdots hwrite
  refine ⟨⟨hnamed, fun last hlast => (hfit last (mem_cons_of_mem _ hlast)).2,
    encodePoints_isOk_iff.mp ⟨content, hcontent⟩⟩, fun y hy => ?_⟩
  obtain ⟨-, -, -, old, -, hold⟩ := h.holds.written y hy
  -- what stood before the directories were made stands in the way
  constructor
  · intro hup
    by_contra hne
    have hdir := look?_above hold (cons_prefix_cons.mpr ⟨rfl, hup⟩) fun heq => hne (cons.inj heq).2
    exact hfree (hextends.kept hdir)
  · intro hup
    by_contra hne
    have hdir := habove _ (cons_prefix_cons.mpr ⟨rfl, hup⟩) fun heq => hne (cons.inj heq).2
    rw [hextends.kept hold] at hdir
    cases hdir

/-! ### Results -/

def deliveries (r : Result) : List Delivery :=
  match r.ok, r.output? with
  | true, some text => [⟨r.file.path, text⟩]
  | _, _ => []

theorem source_of_mem_deliveries {r : Result} (h : x ∈ deliveries r) : x.source = r.file.path := by
  rw [deliveries] at h
  split at h
  · rw [mem_singleton.mp h]
  · cases h

theorem appendResult_cases (r : Result) (s : Store) :
    (deliveries r = [] ∧ s.appendResult r = s.add .results (.ofResult r none)) ∨
    ∃ text, deliveries r = [⟨r.file.path, text⟩] ∧ s.appendResult r =
      match s.writeOutput r.file.path text with
      | (.error f, s) => (.error f, s)
      | (.ok output, s) => s.add .results (.ofResult r (some output)) := by
  rw [deliveries, appendResult]
  cases r.ok with
  | false => exact .inl ⟨rfl, rfl⟩
  | true =>
    cases r.output? with
    | none => exact .inl ⟨rfl, rfl⟩
    | some text => exact .inr ⟨text, rfl, rfl⟩

theorem Filled.appendResult {r : Result} (h : Filled out name xs n m s) (hn : n + 1 < maxRows)
    (hin : Inside r.file.path) (hxs : Writable (xs ++ deliveries r)) :
    ∃ s', s.appendResult r = (.ok (), s') ∧ Filled out name (xs ++ deliveries r) (n + 1) m s' := by
  rcases appendResult_cases r s with ⟨hnone, heq⟩ | ⟨text, hone, heq⟩
  · rw [heq, hnone, append_nil]
    exact h.add (t := .results) _ (Nat.le_succ n) (Nat.le_refl m) (Nat.lt_succ_self n) hn
  · rw [hone] at hxs ⊢
    obtain ⟨hkeep, hapart⟩ := (writable_concat_iff hxs.of_append).mp hxs
    obtain ⟨output, s₁, hwrite, h₁⟩ := h.writeOutput (x := ⟨r.file.path, text⟩) hin hkeep hapart
    rw [heq, hwrite]
    exact h₁.add (t := .results) _ (Nat.le_succ n) (Nat.le_refl m) (Nat.lt_succ_self n) hn

theorem Filled.of_appendResult_eq_ok {r : Result} (h : Filled out name xs n m s)
    (hin : Inside r.file.path) (hxs : Writable xs) (hok : s.appendResult r = (.ok (), s')) :
    Writable (xs ++ deliveries r) := by
  rcases appendResult_cases r s with ⟨hnone, -⟩ | ⟨text, hone, heq⟩
  · rwa [hnone, append_nil]
  · rw [hone, writable_concat_iff hxs]
    rw [heq] at hok
    cases hwrite : s.writeOutput r.file.path text with
    | mk outcome s₁ =>
      rw [hwrite] at hok
      cases outcome with
      | error f => cases hok
      | ok output => exact h.of_writeOutput_eq_ok (x := ⟨r.file.path, text⟩) hin hwrite

end

end GroovySharp.Store
