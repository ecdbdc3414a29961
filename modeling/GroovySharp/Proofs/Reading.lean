import GroovySharp.Proofs.Feeding
import GroovySharp.Proofs.Lexeme

/-!
# Reading as a relation

`Reads` has one step for each lexeme of a text: white space and comments are skipped, tokens are taken,
and at the end of the text the last productions are put together.
-/

namespace GroovySharp.Grammar

open Text

def Config.taken (c : Config) (t : Terminal) (n : Nat) (stack : List Frame) : Config :=
  { c.skip n with stack, last := some (c.token t n) }

inductive Reads (T : Table) (source : Chars) : Config → Piece → Prop
  | done {c : Config} {top f : Frame} {below : List Frame} (hrest : c.rest = [])
    (hf : Feeds T source c.endToken c.stack (top :: f :: below)) : Reads T source c f.piece
  | skip {c : Config} {t : Terminal} {n : Nat} {piece : Piece}
    (hlex : lexeme? (T.accepts (topState c.stack)) c.rest = some (t, n)) (hi : t.isIgnored = true)
    (h : Reads T source (c.skip n) piece) : Reads T source c piece
  | take {c : Config} {t : Terminal} {n : Nat} {stack : List Frame} {piece : Piece}
    (hlex : lexeme? (T.accepts (topState c.stack)) c.rest = some (t, n)) (hi : t.isIgnored = false)
    (hf : Feeds T source (c.token t n) c.stack stack)
    (h : Reads T source (c.taken t n stack) piece) : Reads T source c piece

section

variable {T : Table} {source : Chars} {c : Config} {piece : Piece}

theorem length_skip {t : Terminal} {n allowed : Nat} (h : lexeme? allowed c.rest = some (t, n)) :
    (c.skip n).rest.length < c.rest.length := by
  obtain ⟨hpos, hle⟩ := lexeme?_bounds h
  change (c.rest.drop n).length < _
  rw [List.length_drop]
  omega

theorem reads_of_run {fuel : Nat} (h : run T source fuel c = .ok piece) : Reads T source c piece := by
  induction fuel generalizing c with
  | zero => cases h
  | succ fuel ih =>
    rw [run] at h
    split at h
    · next hrest =>
      split at h
      · next hf =>
        cases h
        exact .done hrest (feeds_of_feed? hf)
      · cases h
    · split at h
      · cases h
      · next hlex =>
        split at h
        · next hi => exact .skip hlex hi (ih h)
        · next hi =>
          split at h
          · next hf => exact .take hlex (by simpa using hi) (feeds_of_feed? hf) (ih h)
          · cases h

theorem Reads.run_eq (hT : T.TakesAfterEmpty) (h : Reads T source c piece) {fuel : Nat}
    (hfuel : c.rest.length < fuel) : run T source fuel c = .ok piece := by
  induction h generalizing fuel with
  | done hrest hf =>
    obtain ⟨fuel, rfl⟩ : ∃ n, fuel = n + 1 := ⟨fuel - 1, by omega⟩
    rw [run, hrest]
    simp only [(feed?_eq_some_iff hT).mpr hf]
  | @skip c t n piece hlex hi _ ih =>
    obtain ⟨fuel, rfl⟩ : ∃ n, fuel = n + 1 := ⟨fuel - 1, by omega⟩
    have hlt := length_skip hlex
    rw [run]
    split
    · next hnil =>
      rw [hnil] at hlt
      cases hlt
    · simp only [hlex, hi, if_true]
      exact ih (by omega)
  | @take c t n stack piece hlex hi hf _ ih =>
    obtain ⟨fuel, rfl⟩ : ∃ n, fuel = n + 1 := ⟨fuel - 1, by omega⟩
    have hlt := length_skip hlex
    rw [run]
    split
    · next hnil =>
      rw [hnil] at hlt
      cases hlt
    · simp only [hlex, hi, Bool.false_eq_true, if_false, (feed?_eq_some_iff hT).mpr hf]
      refine ih ?_
      change (c.skip n).rest.length < fuel
      omega

theorem parse_eq_ok_iff (hT : T.TakesAfterEmpty) :
    parse T source = .ok piece ↔ Reads T source { rest := source } piece :=
  ⟨reads_of_run, fun h => h.run_eq hT (Nat.lt_succ_self _)⟩

end

end GroovySharp.Grammar
