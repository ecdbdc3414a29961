import GroovySharp.Disk.Basic
import Mathlib.Data.List.Basic
import Mathlib.Data.List.Infix

/-!
# What stands where on a disk

Putting an entry at a spot or taking one away changes what stands at this spot, below it and, as far as
directories are made, above it.
-/

namespace GroovySharp

theorem lookup_cons_ite {α β : Type} [BEq α] [LawfulBEq α] [DecidableEq α] (k name : α) (e : β) (es : List (α × β)) :
    ((name, e) :: es).lookup k = if k = name then some e else es.lookup k := by
  rw [List.lookup_cons]
  by_cases h : k = name
  · rw [if_pos h, beq_iff_eq.mpr h]
  · rw [if_neg h, beq_eq_false_iff_ne.mpr h]

namespace Disk

open List Option

/-! ### Entries -/

theorem lookup_assign (name k : String) (new : Entry) (es : Entries) :
    (assign name new es).lookup k = if k = name then some new else es.lookup k := by
  induction es with
  | nil => rw [assign, lookup_cons_ite]
  | cons p es ih =>
    obtain ⟨k', e⟩ := p
    rw [assign]
    by_cases hk : k' = name
    · rw [if_pos hk, lookup_cons_ite, lookup_cons_ite, hk]
      split <;> rfl
    · rw [if_neg hk, lookup_cons_ite, lookup_cons_ite, ih]
      by_cases h : k = k'
      · rw [if_pos h, if_pos h, if_neg (h ▸ hk)]
      · rw [if_neg h, if_neg h]

theorem lookup_filter_ne (name k : String) (es : Entries) :
    (es.filter fun e => e.1 != name).lookup k = if k = name then none else es.lookup k := by
  induction es with
  | nil => simp
  | cons p es ih =>
    obtain ⟨k', e⟩ := p
    by_cases hk : k' = name
    · rw [filter_cons_of_neg (by simp [hk]), ih, lookup_cons_ite, hk]
      split <;> rfl
    · rw [filter_cons_of_pos (by simpa using hk), lookup_cons_ite, lookup_cons_ite, ih]
      by_cases h : k = k'
      · rw [if_pos h, if_pos h, if_neg (h ▸ hk)]
      · rw [if_neg h, if_neg h]

def entries : Entry → Entries
  | .directory es => es
  | _ => []

theorem entryAt?_nil (e : Entry) : entryAt? e [] = some e := by
  cases e <;> rfl

theorem entryAt?_cons (e : Entry) (name : String) (rest : Spot) :
    entryAt? e (name :: rest) = ((entries e).lookup name).bind (entryAt? · rest) := by
  cases e with
  | directory es =>
    rw [entryAt?, entries]
    cases es.lookup name <;> rfl
  | file content | link target => rfl

theorem entryAt?_append (e : Entry) (x y : Spot) : entryAt? e (x ++ y) = (entryAt? e x).bind (entryAt? · y) := by
  induction x generalizing e with
  | nil => rw [nil_append, entryAt?_nil, bind_some]
  | cons name x ih =>
    rw [cons_append, entryAt?_cons, entryAt?_cons]
    cases (entries e).lookup name with
    | none => rfl
    | some e => exact ih e

/-! ### Putting entries -/

theorem putAt_nil (new e : Entry) : putAt new e [] = new := by
  cases e <;> rfl

theorem putAt_cons (new e : Entry) (name : String) (rest : Spot) : putAt new e (name :: rest) = .directory (assign name
      (putAt new (((entries e).lookup name).getD (.directory [])) rest) (entries e)) := by
  cases e <;> rfl

theorem entryAt?_putAt_append (new e : Entry) (x y : Spot) : entryAt? (putAt new e x) (x ++ y) = entryAt? new y := by
  induction x generalizing e with
  | nil => rw [putAt_nil, nil_append]
  | cons name x ih =>
    rw [putAt_cons, cons_append, entryAt?_cons, entries, lookup_assign, if_pos rfl]
    exact ih _

theorem entryAt?_putAt_of_apart (new e : Entry) {x y : Spot} (hxy : ¬ x <+: y) (hyx : ¬ y <+: x) :
    entryAt? (putAt new e x) y = entryAt? e y := by
  induction x generalizing e y with
  | nil => exact absurd nil_prefix hxy
  | cons name x ih =>
    cases y with
    | nil => exact absurd nil_prefix hyx
    | cons k y =>
      rw [putAt_cons, entryAt?_cons, entryAt?_cons, entries, lookup_assign]
      split
      · next hk =>
        subst hk
        simp only [cons_prefix_cons, true_and] at hxy hyx
        rw [bind_some, ih _ hxy hyx]
        cases (entries e).lookup k with
        | none =>
          cases y with
          | nil => exact absurd nil_prefix hyx
          | cons next y => rfl
        | some below => rfl
      · rfl

theorem entryAt?_putAt_above (new e : Entry) {x y : Spot} (hyx : y <+: x) (hne : y ≠ x) :
    ∃ es, entryAt? (putAt new e x) y = some (.directory es) := by
  induction x generalizing e y with
  | nil => exact absurd (prefix_nil.mp hyx) hne
  | cons name x ih =>
    rw [putAt_cons]
    cases y with
    | nil => exact ⟨_, rfl⟩
    | cons k y =>
      rw [cons_prefix_cons] at hyx
      obtain ⟨rfl, hyx⟩ := hyx
      rw [entryAt?_cons, entries, lookup_assign, if_pos rfl]
      exact ih _ hyx fun h => hne (h ▸ rfl)

/-! ### Taking entries away -/

theorem entries_removeAt_one (e : Entry) (name : String) :
    entries (removeAt e [name]) = (entries e).filter fun p => p.1 != name := by
  cases e <;> rfl

theorem entries_removeAt_cons (e : Entry) (name next : String) (rest : Spot) :
    entries (removeAt e (name :: next :: rest)) = match (entries e).lookup name with
      | some below => assign name (removeAt below (next :: rest)) (entries e)
      | none => entries e := by
  cases e with
  | directory es =>
    rw [removeAt, entries]
    · cases es.lookup name <;> rfl
    · nofun
  | file content | link target => rfl

theorem entryAt?_removeAt_append (e : Entry) {x : Spot} (hx : x ≠ []) (y : Spot) :
    entryAt? (removeAt e x) (x ++ y) = none := by
  induction x generalizing e with
  | nil => exact absurd rfl hx
  | cons name x ih =>
    rw [cons_append, entryAt?_cons]
    cases x with
    | nil => rw [entries_removeAt_one, lookup_filter_ne, if_pos rfl, bind_none]
    | cons next rest =>
      rw [entries_removeAt_cons]
      cases h : (entries e).lookup name with
      | none =>
        dsimp only
        rw [h, bind_none]
      | some below =>
        dsimp only
        rw [lookup_assign, if_pos rfl]
        exact ih below (cons_ne_nil _ _)

theorem entryAt?_removeAt_of_apart (e : Entry) {x y : Spot} (hxy : ¬ x <+: y) (hyx : ¬ y <+: x) :
    entryAt? (removeAt e x) y = entryAt? e y := by
  induction x generalizing e y with
  | nil => exact absurd nil_prefix hxy
  | cons name x ih =>
    cases y with
    | nil => exact absurd nil_prefix hyx
    | cons k y =>
      rw [entryAt?_cons, entryAt?_cons]
      cases x with
      | nil =>
        rw [entries_removeAt_one, lookup_filter_ne, if_neg]
        rintro rfl
        exact hxy (cons_prefix_cons.mpr ⟨rfl, nil_prefix⟩)
      | cons next rest =>
        rw [entries_removeAt_cons]
        cases h : (entries e).lookup name with
        | none => rfl
        | some below =>
          dsimp only
          rw [lookup_assign]
          split
          · next hk =>
            subst hk
            simp only [cons_prefix_cons, true_and] at hxy hyx
            rw [h, bind_some, bind_some]
            exact ih below (by simpa [cons_prefix_cons] using hxy) (by simpa [cons_prefix_cons] using hyx)
          · rfl

/-! ### Looking without opening -/

def bare : Entry → Entry
  | .directory _ => .directory []
  | e => e

def look? (e : Entry) (x : Spot) : Option Entry := (entryAt? e x).map bare

section

variable {e : Entry} {x y : Spot}

theorem look?_eq_none : look? e x = none ↔ entryAt? e x = none := map_eq_none_iff

theorem look?_eq_directory : look? e x = some (.directory []) ↔ ∃ es, entryAt? e x = some (.directory es) := by
  rw [look?, map_eq_some_iff]
  constructor
  · rintro ⟨a, ha, hbare⟩
    cases a with
    | directory es => exact ⟨es, ha⟩
    | file content | link target => cases hbare
  · rintro ⟨es, h⟩
    exact ⟨_, h, rfl⟩

theorem look?_eq_file {content : Bytes} : look? e x = some (.file content) ↔ entryAt? e x = some (.file content) := by
  rw [look?, map_eq_some_iff]
  constructor
  · rintro ⟨a, ha, hbare⟩
    cases a with
    | directory es | link target => cases hbare
    | file content => rw [ha, ← hbare]; rfl
  · intro h
    exact ⟨_, h, rfl⟩

theorem look?_append (es : Entry) (h : entryAt? e x = some es) : look? e (x ++ y) = look? es y := by
  rw [look?, look?, entryAt?_append, h, bind_some]

theorem look?_above {a : Entry} (h : look? e x = some a) (hyx : y <+: x) (hne : y ≠ x) :
    look? e y = some (.directory []) := by
  obtain ⟨z, rfl⟩ := hyx
  cases z with
  | nil => exact absurd (append_nil y).symm hne
  | cons name z =>
    rw [look?, entryAt?_append] at h
    cases hy : entryAt? e y with
    | none =>
      rw [hy] at h
      cases h
    | some above =>
      rw [hy, bind_some, entryAt?_cons] at h
      cases above with
      | directory es => exact look?_eq_directory.mpr ⟨es, hy⟩
      | file content | link target => cases h

theorem look?_directory_up (h : look? e x = some (.directory [])) (hyx : y <+: x) :
    look? e y = some (.directory []) := by
  by_cases heq : y = x
  · exact heq ▸ h
  · exact look?_above h hyx heq

theorem look?_putAt (new e : Entry) (x y : Spot) : look? (putAt new e x) y =
      if x <+: y then look? new (y.drop x.length)
      else if y <+: x then some (.directory []) else look? e y := by
  split
  · next hxy =>
    obtain ⟨z, rfl⟩ := hxy
    rw [look?, look?, entryAt?_putAt_append, drop_left]
  · next hxy =>
    split
    · next hyx =>
      rw [look?_eq_directory]
      exact entryAt?_putAt_above new e hyx fun h => hxy (h ▸ prefix_rfl)
    · next hyx => rw [look?, look?, entryAt?_putAt_of_apart new e hxy hyx]

theorem bare_removeAt (e : Entry) (x : Spot) : bare (removeAt e x) = bare e := by
  fun_cases removeAt e x <;> rfl

theorem look?_removeAt_above (e : Entry) (hyx : y <+: x) (hne : y ≠ x) : look? (removeAt e x) y = look? e y := by
  induction y generalizing e x with
  | nil => rw [look?, look?, entryAt?_nil, entryAt?_nil, map_some, map_some, bare_removeAt]
  | cons k y ih =>
    obtain ⟨z, rfl⟩ := hyx
    have hz : y ++ z ≠ [] := by
      intro h
      obtain ⟨rfl, rfl⟩ := append_eq_nil_iff.mp h
      exact hne rfl
    obtain ⟨next, rest, hrest⟩ := exists_cons_of_ne_nil hz
    have hbelow (a : Entry) := ih a (prefix_append y z) fun h => hne (congrArg (k :: ·) h)
    rw [cons_append]
    rw [look?, look?, entryAt?_cons, entryAt?_cons]
    rw [hrest] at hbelow ⊢
    rw [entries_removeAt_cons]
    cases h : (entries e).lookup k with
    | none =>
      dsimp only
      rw [h]
    | some a =>
      dsimp only
      rw [lookup_assign, if_pos rfl]
      exact hbelow a

theorem look?_removeAt (e : Entry) (hx : x ≠ []) (y : Spot) :
    look? (removeAt e x) y = if x <+: y then none else look? e y := by
  split
  · next hxy =>
    obtain ⟨z, rfl⟩ := hxy
    exact look?_eq_none.mpr (entryAt?_removeAt_append e hx z)
  · next hxy =>
    by_cases hyx : y <+: x
    · exact look?_removeAt_above e hyx fun h => hxy (h ▸ prefix_rfl)
    · rw [look?, look?, entryAt?_removeAt_of_apart e hxy hyx]

end

end GroovySharp.Disk
