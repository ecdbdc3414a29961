import GroovySharp.Proofs.DiskEntries

/-!
# Where paths lead

A path whose names fit and on whose way no link stands leads to the spot of its names.
-/

namespace GroovySharp.Disk

open List

/-! ### Following names -/

def Fit (names : List String) : Prop :=
  ∀ name ∈ names, name ≠ ".." ∧ (Encoding.Utf8.encode name.toList).length ≤ maxName

instance : DecidablePred Fit := fun names =>
  inferInstanceAs (Decidable (∀ name ∈ names,
    name ≠ ".." ∧ (Encoding.Utf8.encode name.toList).length ≤ maxName))

theorem Fit.append {x y : List String} (hx : Fit x) (hy : Fit y) : Fit (x ++ y) := by
  intro name h
  rcases mem_append.mp h with h | h
  · exact hx name h
  · exact hy name h

theorem Fit.up {x y : List String} (hy : Fit y) (h : x <+: y) : Fit x :=
  fun name hname => hy name (h.subset hname)

section

variable {top : Entry} {left : Nat} {jump : Spot → List String → Target} {x y spot : Spot} {name : String} {e : Entry}

variable {es : Entries}

theorem descend_free (hname : Fit [name]) (h : entryAt? top spot = some (.directory es))
    (hfree : es.lookup name = none) : descend top left jump spot (name :: y) =
      if y.isEmpty then .vacant spot name else .refused .notFound := by
  obtain ⟨hdots, hlong⟩ := hname name (mem_singleton_self name)
  rw [descend, h]
  simp only [if_neg hdots, if_neg (Nat.not_lt.mpr hlong), hfree]

theorem descend_cons (hname : Fit [name]) (h : entryAt? top spot = some (.directory es))
    (hsome : es.lookup name = some e) (he : ∀ t, e ≠ .link t) :
    descend top left jump spot (name :: y) = descend top left jump (spot ++ [name]) y := by
  obtain ⟨hdots, hlong⟩ := hname name (mem_singleton_self name)
  rw [descend, h]
  cases e with
  | link t => exact absurd rfl (he t)
  | file content | directory below => simp only [if_neg hdots, if_neg (Nat.not_lt.mpr hlong), hsome]

theorem entryAt?_concat (h : entryAt? top spot = some (.directory es)) :
    entryAt? top (spot ++ [name]) = es.lookup name := by
  rw [entryAt?_append, h, Option.bind_some, entryAt?_cons, entries]
  cases es.lookup name with
  | none => rfl
  | some e => exact entryAt?_nil e

theorem look?_concat (h : entryAt? top spot = some (.directory es)) :
    look? top (spot ++ [name]) = (es.lookup name).map bare := by
  rw [look?, entryAt?_concat h]

theorem descend_append (hx : Fit x) (h : look? top (spot ++ x) = some (.directory [])) :
    descend top left jump spot (x ++ y) = descend top left jump (spot ++ x) y := by
  induction x generalizing spot with
  | nil => rw [append_nil, nil_append]
  | cons name x ih =>
    rw [append_cons] at h
    have hx' := hx.up (x := [name]) (by simp)
    have hnext : look? top (spot ++ [name]) = some (.directory []) := by
      cases x with
      | nil => rwa [append_nil] at h
      | cons next x => exact look?_above h (prefix_append _ _) (by simp)
    obtain ⟨es, hes⟩ := look?_eq_directory.mp (look?_above hnext (prefix_append spot [name]) (by simp))
    obtain ⟨below, hbelow⟩ := look?_eq_directory.mp hnext
    rw [entryAt?_concat hes] at hbelow
    rw [cons_append, descend_cons hx' hes hbelow nofun, ih (fun n hn => hx n (mem_cons_of_mem _ hn)) h,
      append_assoc, singleton_append]

theorem descend_found (hx : Fit x) (h : entryAt? top (spot ++ x) = some e) (he : ∀ t, e ≠ .link t) :
    descend top left jump spot x = .found (spot ++ x) e left := by
  rcases eq_nil_or_concat x with rfl | ⟨x, name, rfl⟩
  · rw [append_nil] at h ⊢
    rw [descend, h]
  · rw [concat_eq_append] at *
    have habove : look? top (spot ++ x) = some (.directory []) :=
      look?_above (congrArg (Option.map bare) h) (by simp) (by simp)
    obtain ⟨es, hes⟩ := look?_eq_directory.mp habove
    rw [← append_assoc] at h
    have hlookup := entryAt?_concat hes ▸ h
    rw [descend_append (hx.up (prefix_append _ _)) habove,
      descend_cons (fun n hn => hx n (mem_append_right _ hn)) hes hlookup he, descend, h,
      append_assoc]

theorem descend_vacant (spot : Spot) (hx : Fit (x ++ [name]))
    (habove : look? top (spot ++ x) = some (.directory [])) (h : look? top (spot ++ x ++ [name]) = none) :
    descend top left jump spot (x ++ [name]) = .vacant (spot ++ x) name := by
  obtain ⟨es, hes⟩ := look?_eq_directory.mp habove
  rw [look?_eq_none, entryAt?_concat hes] at h
  rw [descend_append (hx.up (prefix_append _ _)) habove, descend_free (fun n hn => hx n (mem_append_right _ hn)) hes h]
  rfl

end

/-! ### Ways without files and links -/

def Clear (top : Entry) (x : Spot) : Prop :=
  ∀ y, y <+: x → look? top y = none ∨ look? top y = some (.directory [])

section

variable {top : Entry} {left : Nat} {jump : Spot → List String → Target} {x y : Spot} {name : String}

theorem Clear.up (h : Clear top x) (hy : y <+: x) : Clear top y :=
  fun z hz => h z (hz.trans hy)

theorem Clear.look?_top (h : Clear top x) : look? top [] = some (.directory []) :=
  (h [] nil_prefix).resolve_left (by rw [look?, entryAt?_nil]; rintro ⟨⟩)

theorem descend_missing (hx : Fit x) (hclear : Clear top x) (hmissing : look? top x = none) :
    descend top left jump [] (x ++ [name]) = .refused .notFound := by
  -- the longest part of the way that is there
  obtain ⟨y, first, z, rfl, hy, hfirst⟩ : ∃ y first z, x = y ++ first :: z ∧
      look? top y = some (.directory []) ∧ look? top (y ++ [first]) = none := by
    induction x using reverseRecOn with
    | nil => rw [hclear.look?_top] at hmissing; cases hmissing
    | append_singleton x last ih =>
      have hsub : x <+: x ++ [last] := prefix_append _ _
      rcases hclear x hsub with hnone | hdir
      · obtain ⟨y, first, z, rfl, hy, hfirst⟩ := ih (hx.up hsub) (hclear.up hsub) hnone
        exact ⟨y, first, z ++ [last], by simp, hy, hfirst⟩
      · exact ⟨x, last, [], rfl, hdir, hmissing⟩
  obtain ⟨es, hes⟩ := look?_eq_directory.mp hy
  rw [look?_eq_none, entryAt?_concat hes] at hfirst
  rw [append_assoc, descend_append (hx.up (prefix_append _ _)) hy, cons_append,
    nil_append, descend_free ?_ hes hfirst]
  · simp
  · intro n hn
    rw [mem_singleton.mp hn]
    exact hx first (by simp)

end

/-! ### Paths -/

section

variable {d : Disk} {p : Path} {x : Spot} {name : String} {e : Entry}

theorem find_found (hp : d.namesOf? p = some x) (hx : Fit x) (h : entryAt? d.top x = some e)
    (he : ∀ t, e ≠ .link t) : d.find p = .found x e maxLinks := by
  rw [find, hp]
  exact descend_found hx h he

theorem find_vacant (hp : d.namesOf? p = some (x ++ [name])) (hx : Fit (x ++ [name]))
    (habove : look? d.top x = some (.directory [])) (h : look? d.top (x ++ [name]) = none) :
    d.find p = .vacant x name := by
  rw [find, hp]
  exact descend_vacant [] hx habove h

theorem find_missing (hp : d.namesOf? p = some (x ++ [name])) (hx : Fit x)
    (hclear : Clear d.top x) (h : look? d.top x = none) : d.find p = .refused .notFound := by
  rw [find, hp]
  exact descend_missing hx hclear h

end

/-! ### What a target says about the disk -/

section

variable {top : Entry} {left : Nat} {jump : Spot → List String → Target} {x spot free : Spot} {name : String}

theorem descend_eq_vacant (hjump : ∀ s names, jump s names = .vacant free name →
      look? top free = some (.directory []) ∧ look? top (free ++ [name]) = none)
    (h : descend top left jump spot x = .vacant free name) :
    look? top free = some (.directory []) ∧ look? top (free ++ [name]) = none := by
  induction x generalizing spot with
  | nil =>
    rw [descend] at h
    split at h <;> cases h
  | cons first x ih =>
    rw [descend] at h
    split at h
    · next es hes =>
      split at h
      · split at h
        · cases h
        · exact ih h
      · split at h
        · cases h
        · split at h
          · next hnone =>
            split at h
            · cases h
              exact ⟨look?_eq_directory.mpr ⟨es, hes⟩, look?_eq_none.mpr (entryAt?_concat hes ▸ hnone)⟩
            · cases h
          · split at h
            · exact hjump _ _ h
            · cases h
          · exact ih h
    · cases h
    · cases h

theorem follow_eq_vacant {n : Nat} (h : follow top n spot x = .vacant free name) :
    look? top free = some (.directory []) ∧ look? top (free ++ [name]) = none := by
  induction n generalizing spot x with
  | zero =>
    refine descend_eq_vacant ?_ h
    nofun
  | succ n ih => exact descend_eq_vacant (fun _ _ => ih) h

def Linkless (top : Entry) : Prop := ∀ x t, look? top x ≠ some (.link t)

theorem Linkless.look?_cases (h : Linkless top) (z : Spot) :
    look? top z = none ∨ (∃ old, look? top z = some (.file old)) ∨ look? top z = some (.directory []) := by
  cases hz : entryAt? top z with
  | none => exact .inl (look?_eq_none.mpr hz)
  | some e =>
    cases e with
    | file old => exact .inr (.inl ⟨old, look?_eq_file.mpr hz⟩)
    | directory es => exact .inr (.inr (look?_eq_directory.mpr ⟨es, hz⟩))
    | link t => exact absurd (by rw [look?, hz]; rfl) (h z t)

theorem descend_cases (left : Nat) (jump : Spot → List String → Target) (spot : Spot)
    (hlinks : Linkless top) (hdots : ".." ∉ x) :
    (Fit x ∧ ∃ e, entryAt? top (spot ++ x) = some e ∧ descend top left jump spot x = .found (spot ++ x) e left) ∨
    (Fit x ∧ ∃ y last, x = y ++ [last] ∧ look? top (spot ++ y) = some (.directory []) ∧
      descend top left jump spot x = .vacant (spot ++ y) last) ∨ ∃ r, descend top left jump spot x = .refused r := by
  induction x generalizing spot with
  | nil =>
    rw [descend, append_nil]
    cases entryAt? top spot with
    | none => exact .inr (.inr ⟨_, rfl⟩)
    | some e => exact .inl ⟨nofun, e, rfl, rfl⟩
  | cons first x ih =>
    rw [mem_cons, not_or] at hdots
    by_cases hlong : maxName < (Encoding.Utf8.encode first.toList).length
    · refine .inr (.inr ?_)
      rw [descend]
      split
      · exact ⟨_, by rw [if_neg (Ne.symm hdots.1), if_pos hlong]⟩
      · exact ⟨_, rfl⟩
      · exact ⟨_, rfl⟩
    have hfirst : Fit [first] := by
      intro n hn
      rw [mem_singleton.mp hn]
      exact ⟨Ne.symm hdots.1, Nat.not_lt.mp hlong⟩
    cases hspot : entryAt? top spot with
    | none => exact .inr (.inr ⟨_, by rw [descend, hspot]⟩)
    | some e =>
      cases e with
      | file content | link t => exact .inr (.inr ⟨_, by rw [descend, hspot]⟩)
      | directory es =>
        cases hlookup : es.lookup first with
        | none =>
          rw [descend_free hfirst hspot hlookup]
          cases x with
          | nil =>
            have hdir := look?_eq_directory.mpr ⟨es, hspot⟩
            exact .inr (.inl ⟨hfirst, [], first, rfl, by rwa [append_nil], by simp⟩)
          | cons next x => exact .inr (.inr ⟨_, rfl⟩)
        | some below =>
          have hnotlink (t : String) : below ≠ .link t := by
            rintro rfl
            exact hlinks (spot ++ [first]) t (by rw [look?_concat hspot, hlookup]; rfl)
          rw [descend_cons hfirst hspot hlookup hnotlink, append_cons spot]
          rcases ih (spot ++ [first]) hdots.2 with ⟨hx, e, he, h⟩ | ⟨hx, y, last, rfl, hy, h⟩ | h
          · exact .inl ⟨hfirst.append hx, e, he, h⟩
          · refine .inr (.inl ⟨hfirst.append hx, first :: y, last, rfl, ?_, ?_⟩)
            · rwa [append_cons]
            · rwa [append_cons spot first y]
          · exact .inr (.inr h)

end

/-! ### Writing files -/

section

variable {d d' : Disk} {p : Path} {x : Spot} {name : String} {content : Bytes}

theorem write_eq (content : Bytes) (hp : d.namesOf? p = some (x ++ [name])) (hx : Fit (x ++ [name]))
    (habove : look? d.top x = some (.directory []))
    (hfree : look? d.top (x ++ [name]) = none ∨ ∃ old, look? d.top (x ++ [name]) = some (.file old)) :
    d.write p content = .ok { d with top := putAt (.file content) d.top (x ++ [name]) } := by
  rcases hfree with hnone | ⟨old, hold⟩
  · rw [write, find_vacant hp hx habove hnone]
  · rw [write, find_found hp hx (look?_eq_file.mp hold) nofun]

theorem look?_putAt_file (content : Bytes) {top : Entry} (habove : look? top x = some (.directory []))
    (hfree : look? top (x ++ [name]) = none ∨ ∃ old, look? top (x ++ [name]) = some (.file old)) (y : Spot) :
    look? (putAt (.file content) top (x ++ [name])) y =
      if y = x ++ [name] then some (.file content) else look? top y := by
  rw [look?_putAt]
  by_cases heq : y = x ++ [name]
  · rw [if_pos heq, heq, if_pos prefix_rfl, drop_length]
    rfl
  rw [if_neg heq]
  split
  · next hbelow =>
    obtain ⟨z, rfl⟩ := hbelow
    -- nothing stands below a file or a free name
    have hnone : look? top (x ++ [name] ++ z) = none := by
      by_contra hsome
      obtain ⟨e, he⟩ := Option.ne_none_iff_exists'.mp hsome
      have hdir := look?_above he (prefix_append _ _) (Ne.symm heq)
      rcases hfree with h | ⟨old, h⟩ <;> rw [hdir] at h <;> cases h
    rw [hnone, drop_left]
    cases z with
    | nil => exact absurd (append_nil _) heq
    | cons first z => rfl
  · split
    · next hup =>
      rcases prefix_concat_iff.mp hup with h | h
      · exact absurd h heq
      · exact (look?_directory_up habove h).symm
    · rfl

theorem of_write_eq_ok (hp : d.namesOf? p = some x) (hlinks : Linkless d.top) (hdots : ".." ∉ x)
    (h : d.write p content = .ok d') : Fit x ∧ look? d.top x ≠ some (.directory []) ∧
      ∀ y, y <+: x → y ≠ x → look? d.top y = some (.directory []) := by
  have hfind : d.find p = descend d.top maxLinks (follow d.top (maxLinks - 1)) [] x := by
    rw [find, hp]
    rfl
  rw [write, hfind] at h
  rcases descend_cases maxLinks (follow d.top (maxLinks - 1)) [] hlinks hdots
    with ⟨hx, e, he, htarget⟩ | ⟨hx, y, last, rfl, hy, htarget⟩ | ⟨r, htarget⟩
  · rw [htarget] at h
    rw [nil_append] at he
    refine ⟨hx, ?_, fun y hyx hne => look?_above (congrArg (Option.map bare) he) hyx hne⟩
    intro hdir
    obtain ⟨es, hes⟩ := look?_eq_directory.mp hdir
    rw [he] at hes
    cases hes
    cases h
  · rw [nil_append] at hy
    have hfree := (descend_eq_vacant (fun _ _ => follow_eq_vacant) htarget).2
    rw [nil_append] at hfree
    refine ⟨hx, hfree ▸ nofun, fun z hz hne => ?_⟩
    rcases prefix_concat_iff.mp hz with h | h
    · exact absurd h hne
    · exact look?_directory_up hy h
  · rw [htarget] at h
    cases h

theorem look?_of_write_eq_ok (hp : d.namesOf? p = some (x ++ [name])) (hlinks : Linkless d.top)
    (hdots : ".." ∉ x ++ [name]) (h : d.write p content = .ok d') :
    Fit (x ++ [name]) ∧ ∃ top', d' = { d with top := top' } ∧
      ∀ y, look? top' y = if y = x ++ [name] then some (.file content) else look? d.top y := by
  obtain ⟨hfit, hdir, habove⟩ := of_write_eq_ok hp hlinks hdots h
  have hx := habove x (prefix_append _ _) (by simp)
  have hfree := (hlinks.look?_cases (x ++ [name])).imp_right fun h' => h'.resolve_right hdir
  rw [write_eq content hp hfit hx hfree, Except.ok.injEq] at h
  exact ⟨hfit, _, h.symm, look?_putAt_file content hx hfree⟩

end

/-! ### Making directories -/

def Extends (top top' : Entry) : Prop :=
  ∀ x, look? top' x = look? top x ∨ look? top x = none ∧ look? top' x = some (.directory [])

section

variable {top top' top'' : Entry}

theorem Extends.refl (top : Entry) : Extends top top := fun _ => .inl rfl

theorem Extends.trans (h : Extends top top') (h' : Extends top' top'') : Extends top top'' := by
  intro x
  rcases h' x with heq | ⟨hnone, hdir⟩
  · rw [heq]
    exact h x
  · rcases h x with heq | ⟨hfree, hmade⟩
    · exact .inr ⟨heq ▸ hnone, hdir⟩
    · rw [hmade] at hnone
      cases hnone

theorem Extends.kept (h : Extends top top') {x : Spot} {e : Entry} (hx : look? top x = some e) :
    look? top' x = some e := by
  rcases h x with heq | ⟨hnone, -⟩
  · exact heq.trans hx
  · rw [hx] at hnone
    cases hnone

theorem Extends.linkless (h : Extends top top') (hlinks : Linkless top) : Linkless top' := by
  intro x t hx
  rcases h x with heq | ⟨-, hdir⟩
  · exact hlinks x t (heq ▸ hx)
  · rw [hx] at hdir
    cases hdir

theorem look?_putAt_directory {free : Spot} (hfree : look? top free = none) (x : Spot) :
    look? (putAt (.directory []) top free) x = if x <+: free then some (.directory []) else look? top x := by
  rw [look?_putAt]
  by_cases hxf : x <+: free
  · by_cases hfx : free <+: x
    · obtain rfl := hfx.eq_of_length_le hxf.length_le
      simp only [prefix_rfl, if_true, drop_length]
      rfl
    · rw [if_neg hfx, if_pos hxf]
  · rw [if_neg hxf]
    by_cases hfx : free <+: x
    · obtain ⟨z, rfl⟩ := hfx
      cases z with
      | nil => exact absurd (by simp) hxf
      | cons name z =>
        have hbelow : look? top (free ++ name :: z) = none := by
          rw [look?_eq_none, entryAt?_append, look?_eq_none.mp hfree]
          rfl
        rw [if_pos (prefix_append _ _), hbelow, drop_left]
        rfl
    · rw [if_neg hfx]

theorem extends_putAt_directory {spot : Spot} {name : String}
    (hspot : look? top spot = some (.directory [])) (hfree : look? top (spot ++ [name]) = none) :
    Extends top (putAt (.directory []) top (spot ++ [name])) := by
  intro x
  rw [look?_putAt_directory hfree]
  by_cases hx : x <+: spot ++ [name]
  · rw [if_pos hx]
    rcases prefix_concat_iff.mp hx with rfl | hx
    · exact .inr ⟨hfree, rfl⟩
    · exact .inl (look?_directory_up hspot hx).symm
  · exact .inl (if_neg hx)

end

section

variable {d d' : Disk} {p : Path}

theorem makeDirectory_extends (h : d.makeDirectory p = .ok d') :
    ∃ top', d' = { d with top := top' } ∧ Extends d.top top' := by
  rw [makeDirectory] at h
  split at h
  · cases h
  · next spot name htarget =>
    cases h
    rw [find] at htarget
    split at htarget
    · obtain ⟨hspot, hfree⟩ := follow_eq_vacant htarget
      exact ⟨_, rfl, extends_putAt_directory hspot hfree⟩
    · cases htarget
  · cases h

theorem makeDirectoriesTo_extends {depth : Nat} (h : d.makeDirectoriesTo p depth = .ok d') :
    ∃ top', d' = { d with top := top' } ∧ Extends d.top top' := by
  induction depth generalizing p d' with
  | zero => cases h
  | succ depth ih =>
    rw [makeDirectoriesTo] at h
    split at h
    · next made hmade =>
      cases h
      exact makeDirectory_extends hmade
    · split at h
      · cases habove : d.makeDirectoriesTo p.parent depth with
        | error f =>
          rw [habove] at h
          cases h
        | ok above =>
          rw [habove] at h
          obtain ⟨top', rfl, hup⟩ := ih habove
          obtain ⟨top'', rfl, hlast⟩ := makeDirectory_extends h
          exact ⟨top'', rfl, hup.trans hlast⟩
      · split at h
        · cases h
          exact ⟨d.top, rfl, .refl _⟩
        · cases h

end

/-! ### Directories along a clear way -/

def Covers (d : Disk) (base : Path) (spot : Spot) : Prop :=
  ∀ names, d.namesOf? (base.append { names }) = some (spot ++ names)

theorem append_names (base : Path) (names : List String) :
    base.append { names } = { base with names := base.names ++ names } := by
  simp [Path.append, Path.isAbsolute]

section

variable {d : Disk} {base : Path} {spot : Spot}

theorem isDirectory_of_look? {p : Path} {x : Spot} (hp : d.namesOf? p = some x) (hx : Fit x)
    (h : look? d.top x = some (.directory [])) : d.isDirectory p = true := by
  obtain ⟨es, hes⟩ := look?_eq_directory.mp h
  rw [isDirectory, find_found hp hx hes nofun]

theorem makeDirectory_eq {p : Path} {x : Spot} {name : String} (hp : d.namesOf? p = some (x ++ [name]))
    (hx : Fit (x ++ [name])) (habove : look? d.top x = some (.directory []))
    (hfree : look? d.top (x ++ [name]) = none) :
    d.makeDirectory p = .ok { d with top := putAt (.directory []) d.top (x ++ [name]) } := by
  rw [makeDirectory, find_vacant hp hx habove hfree]

theorem makeDirectoriesTo_of_directory {p : Path} {x : Spot} {depth : Nat} (hp : d.namesOf? p = some x)
    (hx : Fit x) (h : look? d.top x = some (.directory [])) (hdepth : 0 < depth) :
    d.makeDirectoriesTo p depth = .ok d := by
  obtain ⟨depth, rfl⟩ := Nat.exists_eq_succ_of_ne_zero (Nat.ne_of_gt hdepth)
  obtain ⟨es, hes⟩ := look?_eq_directory.mp h
  rw [makeDirectoriesTo, makeDirectory, find_found hp hx hes nofun]
  simp [isDirectory_of_look? hp hx h]

theorem makeDirectoriesTo_clear {names : List String} {depth : Nat} (hcovers : d.Covers base spot)
    (hspot : look? d.top spot = some (.directory [])) (hfit : Fit (spot ++ names))
    (hclear : Clear d.top (spot ++ names)) (hdepth : names.length < depth) :
    ∃ top', d.makeDirectoriesTo (base.append { names }) depth = .ok { d with top := top' } ∧ ∀ x, look? top' x =
        if x <+: spot ++ names then some (.directory []) else look? d.top x := by
  induction names using reverseRecOn generalizing depth with
  | nil =>
    refine ⟨d.top, makeDirectoriesTo_of_directory (hcovers []) hfit (by rwa [append_nil])
      (Nat.zero_lt_of_lt hdepth), fun x => ?_⟩
    rw [append_nil]
    split
    · next hx => exact look?_directory_up hspot hx
    · rfl
  | append_singleton names name ih =>
    have hp := hcovers (names ++ [name])
    rw [← append_assoc] at hfit hclear hp ⊢
    have hsub : spot ++ names <+: spot ++ names ++ [name] := prefix_append _ _
    have hfit' := hfit.up hsub
    have hclear' := hclear.up hsub
    obtain ⟨depth, rfl⟩ := Nat.exists_eq_succ_of_ne_zero (Nat.ne_zero_of_lt hdepth)
    rcases hclear _ prefix_rfl with hfree | hdir
    · rcases hclear' _ prefix_rfl with hmissing | habove
      · -- the directories above are made first
        have hrefused : d.makeDirectory (base.append { names := names ++ [name] }) =
            .error ⟨.notFound, (base.append { names := names ++ [name] }).text⟩ := by
          rw [makeDirectory, find_missing hp hfit' hclear' hmissing]
        have hnames : (base.append { names := names ++ [name] }).names ≠ [] := by simp [append_names]
        have hparent : (base.append { names := names ++ [name] }).parent = base.append { names } := by
          simp only [append_names, Path.parent, ← append_assoc, dropLast_concat]
        obtain ⟨top', hmade, hlook⟩ := @ih depth hfit' hclear' (by simpa using hdepth)
        have habove' : look? top' (spot ++ names) = some (.directory []) := by rw [hlook, if_pos prefix_rfl]
        have hfree' : look? top' (spot ++ names ++ [name]) = none := by
          rw [hlook, if_neg, hfree]
          intro h
          exact absurd h.length_le (by simp)
        have hlast := makeDirectory_eq (d := { d with top := top' }) hp hfit habove' hfree'
        refine ⟨putAt (.directory []) top' (spot ++ names ++ [name]), ?_, ?_⟩
        · rw [makeDirectoriesTo, hrefused]
          simp only [hnames, ne_eq, not_false_eq_true, and_self, if_true, hparent, hmade]
          exact hlast
        · intro x
          rw [look?_putAt_directory hfree', hlook]
          by_cases hx : x <+: spot ++ names ++ [name]
          · rw [if_pos hx, if_pos hx]
          · rw [if_neg hx, if_neg hx, if_neg fun h => hx (h.trans hsub)]
      · refine ⟨_, ?_, look?_putAt_directory hfree⟩
        rw [makeDirectoriesTo, makeDirectory_eq hp hfit habove hfree]
    · refine ⟨d.top, makeDirectoriesTo_of_directory hp hfit hdir (Nat.succ_pos _), fun x => ?_⟩
      split
      · next hx => exact look?_directory_up hdir hx
      · rfl

theorem makeDirectories_clear {names : List String} (hcovers : d.Covers base spot)
    (hspot : look? d.top spot = some (.directory [])) (hfit : Fit (spot ++ names))
    (hclear : Clear d.top (spot ++ names)) :
    ∃ top', d.makeDirectories (base.append { names }) = .ok { d with top := top' } ∧ ∀ x, look? top' x =
        if x <+: spot ++ names then some (.directory []) else look? d.top x := by
  refine makeDirectoriesTo_clear hcovers hspot hfit hclear ?_
  simp only [append_names, length_append]
  omega

end

/-! ### Reading, removing and moving -/

section

variable {d : Disk} {p q : Path} {x y : Spot} {name : String}

theorem read_eq {content : Bytes} (hp : d.namesOf? p = some x) (hx : Fit x)
    (h : look? d.top x = some (.file content)) : d.read p = .ok content := by
  rw [read, find_found hp hx (look?_eq_file.mp h) nofun]

theorem look?_below {top : Entry} (h : look? top x = none) (hxy : x <+: y) : look? top y = none := by
  obtain ⟨z, rfl⟩ := hxy
  rw [look?_eq_none, entryAt?_append, look?_eq_none.mp h, Option.bind_none]

theorem removeTree_clear (hp : d.namesOf? p = some (x ++ [name])) (hx : Fit (x ++ [name]))
    (hclear : Clear d.top (x ++ [name])) : ∃ top', d.removeTree p = { d with top := top' } ∧
      ∀ z, look? top' z = if x ++ [name] <+: z then none else look? d.top z := by
  have hsub : x <+: x ++ [name] := prefix_append _ _
  rcases hclear _ prefix_rfl with hnone | hdir
  · have hsame : d.removeTree p = d := by
      rcases hclear x hsub with hmissing | habove
      · rw [removeTree, find_missing hp (hx.up hsub) (hclear.up hsub) hmissing]
      · rw [removeTree, find_vacant hp hx habove hnone]
    refine ⟨d.top, hsame, fun z => ?_⟩
    split
    · next hz => exact look?_below hnone hz
    · rfl
  · obtain ⟨es, hes⟩ := look?_eq_directory.mp hdir
    refine ⟨removeAt d.top (x ++ [name]), ?_, look?_removeAt d.top (by simp)⟩
    rw [removeTree, find_found hp hx hes nofun]

theorem rename_eq (hp : d.namesOf? p = some x) (hx : Fit x) (hsome : look? d.top x ≠ none)
    (hlink : ∀ t, look? d.top x ≠ some (.link t)) (hq : d.namesOf? q = some (y ++ [name]))
    (hy : Fit (y ++ [name])) (habove : look? d.top y = some (.directory []))
    (hfree : look? d.top (y ++ [name]) = none) (hup : ¬ x <+: y ++ [name]) :
    ∃ top', d.rename p q = .ok { d with top := top' } ∧ ∀ z, look? top' z =
      if y ++ [name] <+: z then look? d.top (x ++ z.drop (y ++ [name]).length)
      else if x <+: z then none else look? d.top z := by
  obtain ⟨e, he⟩ := Option.ne_none_iff_exists'.mp fun h => hsome (look?_eq_none.mpr h)
  have hnotlink (t : String) : e ≠ .link t := by
    rintro rfl
    exact hlink t (by rw [look?, he]; rfl)
  have hne : x ≠ [] := by
    rintro rfl
    exact hup nil_prefix
  refine ⟨putAt e (removeAt d.top x) (y ++ [name]), ?_, fun z => ?_⟩
  · rw [rename, find_found hp hx he hnotlink, find_vacant hq hy habove hfree]
  · rw [look?_putAt, look?_removeAt _ hne, look?_append e he]
    split
    · rfl
    · next hz =>
      split
      · next hzy =>
        rw [if_neg fun h => hup (h.trans hzy)]
        rcases prefix_concat_iff.mp hzy with h | h
        · exact absurd (h ▸ prefix_rfl) hz
        · exact (look?_directory_up habove h).symm
      · rfl

end

end GroovySharp.Disk
