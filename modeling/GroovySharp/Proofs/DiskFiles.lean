import GroovySharp.Proofs.DiskPaths

/-!
# Files on a disk

A file that is written and then removed leaves a disk as it was, but for a file that stood at its spot
before.
-/

namespace GroovySharp.Disk

open List

/-! ### Writing and removing -/

section

variable {d d' : Disk} {p : Path} {x : Spot} {name : String} {content : Bytes}

theorem eq_putAt_of_write_eq_ok (hp : d.namesOf? p = some (x ++ [name])) (hlinks : Linkless d.top)
    (hdots : ".." ∉ x ++ [name]) (h : d.write p content = .ok d') :
    d' = { d with top := putAt (.file content) d.top (x ++ [name]) } := by
  obtain ⟨hfit, hdir, habove⟩ := of_write_eq_ok hp hlinks hdots h
  have hfree := (hlinks.look?_cases (x ++ [name])).imp_right fun h' => h'.resolve_right hdir
  rw [write_eq content hp hfit (habove x (prefix_append _ _) (by simp)) hfree] at h
  exact (Except.ok.inj h).symm

theorem removeFile_of_write_eq_ok (hp : d.namesOf? p = some (x ++ [name])) (hlinks : Linkless d.top)
    (hdots : ".." ∉ x ++ [name]) (h : d.write p content = .ok d') :
    d'.removeFile p = { d with top := removeAt (putAt (.file content) d.top (x ++ [name])) (x ++ [name]) } ∧
      ∀ y, look? (d'.removeFile p).top y = if y = x ++ [name] then none else look? d.top y := by
  obtain ⟨hfit, top', rfl, htop⟩ := look?_of_write_eq_ok hp hlinks hdots h
  have hput : top' = putAt (.file content) d.top (x ++ [name]) :=
    congrArg Disk.top (eq_putAt_of_write_eq_ok hp hlinks hdots h)
  have hfile : look? top' (x ++ [name]) = some (.file content) := by rw [htop, if_pos rfl]
  have hremoved : Disk.removeFile { d with top := top' } p = { d with top := removeAt top' (x ++ [name]) } := by
    rw [removeFile, find_found (d := { d with top := top' }) hp hfit (look?_eq_file.mp hfile) nofun]
  refine ⟨hput ▸ hremoved, fun y => ?_⟩
  rw [hremoved, look?_removeAt _ (by simp)]
  by_cases heq : y = x ++ [name]
  · rw [if_pos heq, if_pos (heq ▸ prefix_rfl)]
  · rw [if_neg heq]
    split
    · next hbelow =>
      -- nothing stands below a file
      have hnone : look? top' y = none := by
        by_contra hsome
        obtain ⟨e, he⟩ := Option.ne_none_iff_exists'.mp hsome
        rw [look?_above he hbelow (Ne.symm heq)] at hfile
        cases hfile
      rw [← hnone, htop, if_neg heq]
    · rw [htop, if_neg heq]

end

/-! ### Bytes -/

mutual

def bytesIn : Entry → Nat
  | .file content => content.length
  | .link _ => 0
  | .directory es => bytesInAll es

def bytesInAll : Entries → Nat
  | [] => 0
  | (_, e) :: rest => bytesIn e + bytesInAll rest

end

section

variable {e new : Entry} {es : Entries} {name : String} {x : Spot}

theorem bytesInAll_entries_le (e : Entry) : bytesInAll (entries e) ≤ bytesIn e := by
  cases e with
  | directory es => rw [entries, bytesIn]
  | file content | link target => exact Nat.zero_le _

theorem bytesInAll_assign_le (more : Nat) (h : bytesIn new ≤ bytesIn ((es.lookup name).getD (.directory [])) + more) :
    bytesInAll (assign name new es) ≤ bytesInAll es + more := by
  induction es with
  | nil =>
    simp only [lookup_nil, Option.getD_none, bytesIn, bytesInAll] at h
    simp only [assign, bytesInAll]
    omega
  | cons p es ih =>
    obtain ⟨k, old⟩ := p
    rw [lookup_cons_ite] at h
    rw [assign]
    by_cases hk : k = name
    · rw [if_pos hk.symm, Option.getD_some] at h
      rw [if_pos hk, bytesInAll, bytesInAll]
      omega
    · rw [if_neg (Ne.symm hk)] at h
      rw [if_neg hk, bytesInAll, bytesInAll]
      have hrest := ih h
      omega

theorem bytesIn_putAt_le (new e : Entry) (x : Spot) : bytesIn (putAt new e x) ≤ bytesIn e + bytesIn new := by
  induction x generalizing e with
  | nil =>
    rw [putAt_nil]
    exact Nat.le_add_left _ _
  | cons name x ih =>
    rw [putAt_cons, bytesIn]
    exact Nat.le_trans (bytesInAll_assign_le _ (ih _)) (Nat.add_le_add_right (bytesInAll_entries_le e) _)

theorem assign_assign (first second : Entry) : assign name second (assign name first es) = assign name second es := by
  induction es with
  | nil => simp only [assign, if_true]
  | cons p es ih =>
    obtain ⟨k, old⟩ := p
    rw [assign, assign]
    by_cases hk : k = name
    · rw [if_pos hk, if_pos hk, assign, if_pos hk]
    · rw [if_neg hk, if_neg hk, assign, if_neg hk, ih]

theorem filter_assign : ((assign name new es).filter fun p => p.1 != name) = es.filter fun p => p.1 != name := by
  induction es with
  | nil => simp [assign]
  | cons p es ih =>
    obtain ⟨k, old⟩ := p
    rw [assign]
    by_cases hk : k = name
    · simp [hk]
    · simp [hk, ih]

theorem bytesInAll_filter_le (keep : String × Entry → Bool) : bytesInAll (es.filter keep) ≤ bytesInAll es := by
  induction es with
  | nil => exact Nat.le_refl _
  | cons p es ih =>
    rw [filter_cons]
    split
    · rw [bytesInAll, bytesInAll]
      exact Nat.add_le_add_left ih _
    · rw [bytesInAll]
      exact Nat.le_trans ih (Nat.le_add_left _ _)

theorem bytesIn_removeAt_putAt_le (new e : Entry) (hx : x ≠ []) : bytesIn (removeAt (putAt new e x) x) ≤ bytesIn e := by
  induction x generalizing e with
  | nil => exact absurd rfl hx
  | cons name x ih =>
    refine Nat.le_trans ?_ (bytesInAll_entries_le e)
    rw [putAt_cons]
    cases x with
    | nil =>
      rw [removeAt, bytesIn, filter_assign]
      exact bytesInAll_filter_le _
    | cons next rest =>
      rw [removeAt, lookup_assign, if_pos rfl]
      · rw [bytesIn, assign_assign]
        exact bytesInAll_assign_le 0 (ih _ (cons_ne_nil _ _))
      · rintro ⟨⟩

theorem bytesIn_lookup_le (h : es.lookup name = some e) : bytesIn e ≤ bytesInAll es := by
  induction es with
  | nil => cases h
  | cons p es ih =>
    obtain ⟨k, old⟩ := p
    rw [lookup_cons_ite] at h
    rw [bytesInAll]
    split at h
    · rw [Option.some.inj h]
      exact Nat.le_add_right _ _
    · exact Nat.le_trans (ih h) (Nat.le_add_left _ _)

theorem bytesIn_entryAt?_le {top : Entry} (h : entryAt? top x = some e) : bytesIn e ≤ bytesIn top := by
  induction x generalizing top with
  | nil =>
    rw [entryAt?_nil] at h
    rw [Option.some.inj h]
  | cons name x ih =>
    rw [entryAt?_cons] at h
    obtain ⟨below, hbelow, hx⟩ := Option.bind_eq_some_iff.mp h
    exact Nat.le_trans (ih hx) (Nat.le_trans (bytesIn_lookup_le hbelow) (bytesInAll_entries_le top))

end

section

variable {d d' : Disk} {p : Path}

theorem bytesIn_makeDirectory_le (h : d.makeDirectory p = .ok d') : bytesIn d'.top ≤ bytesIn d.top := by
  rw [makeDirectory] at h
  split at h
  · cases h
  · cases h
    exact bytesIn_putAt_le (.directory []) d.top _
  · cases h

theorem bytesIn_makeDirectoriesTo_le {depth : Nat} (h : d.makeDirectoriesTo p depth = .ok d') :
    bytesIn d'.top ≤ bytesIn d.top := by
  induction depth generalizing p d' with
  | zero => cases h
  | succ depth ih =>
    rw [makeDirectoriesTo] at h
    split at h
    · next made hmade =>
      cases h
      exact bytesIn_makeDirectory_le hmade
    · split at h
      · cases habove : d.makeDirectoriesTo p.parent depth with
        | error f =>
          rw [habove] at h
          cases h
        | ok above =>
          rw [habove] at h
          exact Nat.le_trans (bytesIn_makeDirectory_le h) (ih habove)
      · split at h
        · cases h
          exact Nat.le_refl _
        · cases h

end

end GroovySharp.Disk
