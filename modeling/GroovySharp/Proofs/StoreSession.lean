import GroovySharp.Proofs.StorePublishing

/-!
# Using a store

A store is used by calls, one after another, with or without a limit.
-/

namespace GroovySharp

open List

/-! ### Names of parts -/

theorem Moment.ofDigitChars_padded (width n : Nat) : Nat.ofDigitChars 10 (padded width n).toList 0 = n := by
  have hzeros (k : Nat) : Nat.ofDigitChars 10 (List.replicate k '0') 0 = 0 := by
    induction k with
    | zero => rfl
    | succ k ih => exact ih
  calc Nat.ofDigitChars 10 (padded width n).toList 0 = Nat.ofDigitChars 10 (Nat.toDigits 10 n)
          (Nat.ofDigitChars 10 (List.replicate (width - (Nat.toDigits 10 n).length) '0') 0) := by
        rw [padded, String.toList_ofList]
        exact foldl_append
    _ = n := by rw [hzeros, Nat.ofDigitChars_toDigits (by decide) (by decide)]

theorem Store.partName_injective (s : Store) (table : String) : Function.Injective (s.partName table) := by
  intro k n h
  rw [partName, partName, String.append_left_inj, String.append_right_inj] at h
  rw [← Moment.ofDigitChars_padded 5 k, h, Moment.ofDigitChars_padded]

namespace Store

open Unicode Disk

/-! ### Texts -/

def bytesOf (text : Points) : Bytes :=
  match Encoding.Utf8.encodePoints text with
  | .ok content => content
  | .error _ => []

def lastAt (xs : List Delivery) (names : List String) : Option Delivery :=
  xs.reverse.find? fun x => place x.source == names

theorem lastAt_concat (xs : List Delivery) (x : Delivery) (names : List String) :
    lastAt (xs ++ [x]) names = if place x.source = names then some x else lastAt xs names := by
  by_cases h : place x.source = names <;> simp [lastAt, h]

def outputPath (source : String) : String := "/".intercalate (place source)

def rowOf (r : Result) : ResultRow :=
  .ofResult r ((deliveries r).head?.map fun x => (outputPath x.source, bytesOf x.text))

/-! ### Parts -/

def pages (s : Store) (t : Table) : List Bytes :=
  (s.series t).parts.map fun rows => s.config.encode (t.collect rows)

/-! ### Finishing -/

section

variable {now : Moment} {more : Fields} {d d' : Disk} {s s' : Store}

theorem finalize_eq_ok (h : s.finalize now more d = (.ok d', s')) : ∃ s₁ own, s.flushAll true = (.ok (), s₁) ∧
      s₁.disk.write (s₁.staged [receiptName]) (Encoding.Utf8.encode (s₁.receipt now more).render) = .ok own ∧
      Store.publish { s₁ with disk := own } d = .ok d' ∧
      s' = { s₁ with disk := own.removeTree s₁.staging } := by
  unfold finalize at h
  split at h
  · cases h
  next s₁ hflush =>
  split at h
  · cases h
  next own hwrite =>
  dsimp only at h
  split at h
  · cases h
  next d₁ hpublish =>
  cases h
  exact ⟨s₁, own, hflush, hwrite, hpublish, rfl⟩

end

/-! ### Calls -/

inductive Call
  | write (source : String) (text : Points)
  | result (r : Result)
  | anomalies (as : List Anomaly)
  | flush

namespace Call

def deliveries : Call → List Delivery
  | write source text => [⟨source, text⟩]
  | result r => Store.deliveries r
  | anomalies _ => []
  | flush => []

def rows : Call → List ResultRow
  | result r => [rowOf r]
  | _ => []

def notes : Call → List Anomaly
  | anomalies as => as
  | _ => []

end Call

def call (c : Call) (s : Store) : Except StoreFault Unit × Store :=
  match c with
  | .write source text =>
    match s.writeOutput source text with
    | (.error f, s) => (.error f, s)
    | (.ok _, s) => (.ok (), s)
  | .result r => s.appendResult r
  | .anomalies as => s.appendAnomalies as
  | .flush => s.flush

/-- Makes calls one after another; none if one of them is refused. -/
def calls : List Call → Store → Option Store
  | [], s => some s
  | c :: cs, s =>
    match s.call c with
    | (.error _, _) => none
    | (.ok (), s) => calls cs s

end Store

end GroovySharp
