import GroovySharp.Proofs.BatchOutcome
import GroovySharp.Proofs.StoreFiles

/-!
# The limit of a store

Files are written before they are counted, they may replace others, and they are removed when they pass
the limit; so what stands on the disk and what is counted move apart.
-/

namespace GroovySharp.Store

open Unicode Disk List

/-- The files on the disk of a store have at most the bytes that were counted, and a limit that can be kept
at all is kept. -/
structure Bounded (s : Store) : Prop where
  stored : bytesIn s.disk.top ≤ s.bytesWritten
  counted : ∀ limit, s.config.maxBytes? = some limit → 0 ≤ limit → (s.bytesWritten : Int) ≤ limit

section

variable {out : Path} {name : String} {s s' : Store} {deed : Deed}

theorem Placed.bytesIn_write {names : List String} {content : Bytes} {d : Disk} (h : Placed out name s)
    (hdots : ".." ∉ names) (hnames : names ≠ []) (hok : s.disk.write (s.staged names) content = .ok d) :
    bytesIn d.top ≤ bytesIn s.disk.top + content.length ∧
      bytesIn (d.removeFile (s.staged names)).top ≤ bytesIn s.disk.top := by
  obtain ⟨above, last, rfl⟩ : ∃ above last, names = above ++ [last] :=
    ⟨_, _, (dropLast_concat_getLast hnames).symm⟩
  have hleads : s.disk.namesOf? (s.staged (above ++ [last])) = some (name :: above ++ [last]) :=
    h.namesOf?_staged (above ++ [last])
  have hall : ".." ∉ name :: above ++ [last] := by
    rw [cons_append, mem_cons, not_or]
    exact ⟨h.dots.symm, hdots⟩
  rw [(removeFile_of_write_eq_ok hleads h.linkless hall hok).1, eq_putAt_of_write_eq_ok hleads h.linkless hall hok]
  exact ⟨bytesIn_putAt_le (.file content) s.disk.top _, bytesIn_removeAt_putAt_le (.file content) s.disk.top (by simp)⟩

theorem Bounded.add {size : Nat} {top : Entry} (h : Bounded s) (haffords : s.Affords size)
    (htop : bytesIn top ≤ bytesIn s.disk.top + size) (hdisk : s'.disk.top = top)
    (hconfig : s'.config = s.config) (hbytes : s'.bytesWritten = s.bytesWritten + size) : Bounded s' where
  stored := by
    have hstored := h.stored
    rw [hdisk, hbytes]
    omega
  counted limit hlimit _ := by
    have hwithin := haffords limit (hconfig ▸ hlimit)
    rw [hbytes]
    omega

theorem Bounded.of_le (h : Bounded s) (htop : bytesIn s'.disk.top ≤ bytesIn s.disk.top)
    (hconfig : s'.config = s.config) (hbytes : s'.bytesWritten = s.bytesWritten) : Bounded s' where
  stored := hbytes ▸ Nat.le_trans htop h.stored
  counted limit hlimit hpos := hbytes ▸ h.counted limit (hconfig ▸ hlimit) hpos

theorem Does.bounded (hplaced : Placed out name s) (h : Bounded s) (hdoes : Does deed s s') : Bounded s' := by
  cases hdoes with
  | directories made => exact h.of_le (bytesIn_makeDirectoriesTo_le made) rfl rfl
  | text inside named written affords =>
    have hwrite := hplaced.bytesIn_write (dots_notMem_place inside named) (cons_ne_nil _ _) written
    exact h.add affords hwrite.1 rfl rfl rfl
  | refusedText inside named written =>
    have hwrite := hplaced.bytesIn_write (dots_notMem_place inside named) (cons_ne_nil _ _) written
    exact h.of_le hwrite.2 rfl rfl
  | @row _ t => cases t <;> exact h.of_le (Nat.le_refl _) rfl rfl
  | @part _ t d written affords =>
    have hwrite := hplaced.bytesIn_write (dots_notMem_nextPart s t) (cons_ne_nil _ _) written
    cases t with
    | results | anomalies => exact h.add affords hwrite.1 rfl rfl rfl
  | @refusedPart _ t d written =>
    have hwrite := hplaced.bytesIn_write (dots_notMem_nextPart s t) (cons_ne_nil _ _) written
    exact h.of_le hwrite.2 rfl rfl

theorem bounded_fresh (config : StoreConfig) (out : Path) (name : String) : Bounded (fresh config out name) where
  stored := by
    rw [fresh, emptyTop, putAt_cons]
    exact Nat.le_refl 0
  counted limit _ hpos := hpos

theorem Placed.bytesIn_content_le (h : Placed out name s) : bytesIn s.content ≤ bytesIn s.disk.top := by
  rcases h.find_staging with ⟨-, es, hes, hcontent⟩ | ⟨-, hcontent⟩
  · rw [hcontent]
    exact bytesIn_entryAt?_le hes
  · rw [hcontent]
    exact Nat.zero_le _

end

/-- After any calls, whether they were refused or not, the files in the staging directory have at most the
bytes that were counted, and these are within the limit. -/
theorem bytesIn_content_le_bytesWritten (config : StoreConfig) (out : Path) (d d₁ : Disk) (s : Store)
    (limit : Int) (cs : List Call) (hstart : start config out d = .ok (s, d₁))
    (hlimit : config.maxBytes? = some limit) (hpos : 0 ≤ limit) :
    bytesIn (s.after cs).content ≤ (s.after cs).bytesWritten ∧ ((s.after cs).bytesWritten : Int) ≤ limit := by
  obtain ⟨name, -, rfl⟩ := eq_fresh_of_start hstart
  have hkept := (leads_after cs (fresh config out name)).keeps
    (fun _ _ _ s => s.config = config ∧ Placed out (name ++ ".staging") s ∧ Bounded s) [] [] []
    (fun hdoes h => ⟨hdoes.config.trans h.1, (hdoes.placed h.2.1).1, hdoes.bounded h.2.1 h.2.2⟩)
    ⟨rfl, placed_fresh config out name, bounded_fresh config out name⟩
  obtain ⟨hconfig, hplaced, hbounded⟩ := hkept
  have hsame : (after cs (fresh config out name)).config.maxBytes? = some limit := by rw [hconfig, hlimit]
  exact ⟨Nat.le_trans hplaced.bytesIn_content_le hbounded.stored, hbounded.counted limit hsame hpos⟩

def narrow : StoreConfig := { maxBytes? := some 10, encode := fun _ => [1, 2, 3, 4] }

def narrowCalls : List Call :=
  [.write "a.groovy" (points "12345"), .write "a.gvy" (points "678"), .write "a.groovy" (points "901"),
    .anomalies [{ path := "a.groovy", digest := "", kind := .skipped, severity := .info }], .flush,
    .write "b.groovy" (points "23")]

theorem bytesIn_content_le_ten :
    ∃ s d₁, start narrow { names := ["out"] } (Batch.diskOf []) = .ok (s, d₁) ∧
      bytesIn (s.after narrowCalls).content = 2 ∧ (s.after narrowCalls).bytesWritten = 10 ∧
      bytesIn (s.after narrowCalls).content ≤ (s.after narrowCalls).bytesWritten ∧
      ((s.after narrowCalls).bytesWritten : Int) ≤ 10 := by
  have hends : (start narrow { names := ["out"] } (Batch.diskOf [])).toOption.map (fun x =>
      (bytesIn (x.1.after narrowCalls).content, (x.1.after narrowCalls).bytesWritten)) = some (2, 10) := by
    decide +kernel
  cases hstart : start narrow { names := ["out"] } (Batch.diskOf []) with
  | error f =>
    rw [hstart] at hends
    cases hends
  | ok x =>
    rw [hstart] at hends
    obtain ⟨hstored, hcounted⟩ := Prod.mk.inj (Option.some.inj hends)
    exact ⟨x.1, x.2, rfl, hstored, hcounted, bytesIn_content_le_bytesWritten narrow { names := ["out"] }
      (Batch.diskOf []) x.2 x.1 10 narrowCalls hstart rfl (by decide)⟩

end GroovySharp.Store
