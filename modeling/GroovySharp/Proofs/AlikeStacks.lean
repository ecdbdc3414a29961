import Mathlib.Data.List.Forall2
import GroovySharp.Proofs.Erasure
import GroovySharp.Proofs.Feeding

/-!
# Stacks of one shape

Two stacks are alike if they hold the same states and symbols and their trees differ at most in
positions and in empty statements.
-/

namespace GroovySharp.Grammar

open Text GroovySharp.Tree List

/-! ### Linked stacks -/

def Table.Enters (T : Table) (state : Nat) (s : Symbol) (next : Nat) : Prop :=
  match s with
  | .terminal t => T.action? state t = some (.shift next)
  | .phrase n => T.goto? state n = some next

def Linked (T : Table) : List Frame → Prop
  | [] => True
  | f :: rest => T.Enters (topState rest) f.symbol f.state ∧ Linked T rest

section

variable {T : Table} {source : Chars} {t : Terminal} {token : Token} {stack stack' : List Frame}

theorem Linked.append {a b : List Frame} (h : Linked T (a ++ b)) : Linked T b := by
  induction a with
  | nil => exact h
  | cons f a ih => exact ih h.2

theorem Linked.reduce? {index : Nat} (h : Linked T stack)
    (hr : reduce? T source index stack = some stack') : Linked T stack' := by
  obtain ⟨p, frames, rest, state, -, rfl, -, hgoto, rfl⟩ := reduce?_eq_some_iff.mp hr
  exact ⟨hgoto, h.append⟩

theorem Linked.reduces (h : Linked T stack) (hr : Reduces T source t stack stack') : Linked T stack' := by
  induction hr with
  | refl => exact h
  | step _ hstep _ ih => exact ih (h.reduce? hstep)

theorem Linked.feeds (h : Linked T stack) (hf : Feeds T source token stack stack') : Linked T stack' := by
  obtain ⟨hr, ha⟩ := hf
  exact ⟨ha, h.reduces hr⟩

end

/-! ### Alike stacks -/

def Symbol.listsStatements : Symbol → Bool
  | .phrase .unitItems | .phrase .statements | .phrase .blockItems => true
  | _ => false

def Symbol.trace (s : Symbol) (ts : List Tree) : List Tree :=
  if s.listsStatements then withoutEmpty (allErased ts) else allErased ts

theorem Symbol.trace_congr (s : Symbol) {a b : List Tree} (h : allErased a = allErased b) : s.trace a = s.trace b := by
  rw [trace, trace, h]

/-- Frames that differ at most in positions and in empty statements. -/
structure Frame.Alike (f f' : Frame) : Prop where
  state : f.state = f'.state
  symbol : f.symbol = f'.symbol
  trees : f.symbol.trace f.piece.trees = f.symbol.trace f'.piece.trees

def Alike (stack stack' : List Frame) : Prop := List.Forall₂ Frame.Alike stack stack'

theorem Frame.Alike.refl (f : Frame) : f.Alike f := ⟨rfl, rfl, rfl⟩

theorem Frame.Alike.trans {f g h : Frame} (hfg : f.Alike g) (hgh : g.Alike h) : f.Alike h := by
  refine ⟨hfg.state.trans hgh.state, hfg.symbol.trans hgh.symbol, hfg.trees.trans ?_⟩
  rw [hfg.symbol]
  exact hgh.trees

theorem Alike.refl (stack : List Frame) : Alike stack stack := by
  induction stack with
  | nil => exact .nil
  | cons f rest ih => exact .cons (.refl f) ih

theorem Alike.trans {a b c : List Frame} (hab : Alike a b) (hbc : Alike b c) : Alike a c := by
  induction hab generalizing c with
  | nil => exact hbc
  | cons hf _ ih =>
    cases hbc with
    | cons hg hrest => exact .cons (hf.trans hg) (ih hrest)

theorem Alike.topState_eq {a b : List Frame} (h : Alike a b) : topState a = topState b := by
  cases h with
  | nil => rfl
  | cons hf _ => exact hf.state

theorem Alike.map_symbol {a b : List Frame} (h : Alike a b) : a.map (·.symbol) = b.map (·.symbol) := by
  induction h with
  | nil => rfl
  | cons hf _ ih => rw [map_cons, map_cons, hf.symbol, ih]

/-! ### Trees put together -/

theorem Frame.Alike.withoutEmpty_eq {f f' : Frame} (h : f.Alike f') :
    withoutEmpty (allErased f.piece.trees) = withoutEmpty (allErased f'.piece.trees) := by
  have ht := h.trees
  unfold Symbol.trace at ht
  split at ht
  · exact ht
  · rw [ht]

theorem Frame.Alike.allErased_eq {f f' : Frame} (h : f.Alike f') (hs : f.symbol.listsStatements = false) :
    allErased f.piece.trees = allErased f'.piece.trees := by
  have ht := h.trees
  simpa [Symbol.trace, hs] using ht

theorem keptTrees_cons (part : Part) (parts : List Part) (piece : Piece) (pieces : List Piece) :
    keptTrees (part :: parts) (piece :: pieces) =
      (if part.kept then piece.trees else []) ++ keptTrees parts pieces := by
  simp [keptTrees]

variable {frames frames' : List Frame}

/-- The trees kept of alike frames differ at most in empty statements, and not even in these where no
part is a list of statements. -/
theorem keptTrees_alike {parts : List Part}
    (h : Alike frames frames') (hs : frames.map (·.symbol) = parts.map (·.symbol)) :
    withoutEmpty (allErased (keptTrees parts (frames.map (·.piece)))) =
        withoutEmpty (allErased (keptTrees parts (frames'.map (·.piece)))) ∧
      ((∀ part ∈ parts, part.symbol.listsStatements = false) → allErased (keptTrees parts (frames.map (·.piece))) =
          allErased (keptTrees parts (frames'.map (·.piece)))) := by
  induction h generalizing parts with
  | nil => exact ⟨rfl, fun _ => rfl⟩
  | @cons f f' rest rest' hf _ ih =>
    cases parts with
    | nil => cases hs
    | cons part parts =>
      have hsymbol : f.symbol = part.symbol := (cons.inj hs).1
      replace hs := (cons.inj hs).2
      obtain ⟨hempty, hall⟩ := ih hs
      simp only [map_cons, keptTrees_cons]
      cases part.kept with
      | false =>
        refine ⟨hempty, fun hparts => ?_⟩
        exact hall fun p hp => hparts p (mem_cons_of_mem _ hp)
      | true =>
        simp only [if_true, allErased_append, withoutEmpty_append]
        refine ⟨by rw [hf.withoutEmpty_eq, hempty], fun hparts => ?_⟩
        have hpart := hparts part mem_cons_self
        rw [hf.allErased_eq (by rw [hsymbol]; exact hpart), hall fun p hp => hparts p (mem_cons_of_mem _ hp)]

theorem lists_of_part {p : Production} (hp : p ∈ productions) {part : Part} (hpart : part ∈ p.parts)
    (hs : part.symbol.listsStatements = true) : match p.builds with
    | none => (Symbol.phrase p.head).listsStatements = true
    | some kind => kind.holdsStatements = true := by
  have hall : productions.all (fun p => !p.parts.any (fun part => part.symbol.listsStatements) ||
      match p.builds with
      | none => (Symbol.phrase p.head).listsStatements
      | some kind => kind.holdsStatements) = true := by decide +kernel
  have hone := all_eq_true.mp hall p hp
  have hany : p.parts.any (fun part => part.symbol.listsStatements) = true :=
    any_eq_true.mpr ⟨part, hpart, hs⟩
  rw [hany, Bool.not_true, Bool.false_or] at hone
  split at hone <;> exact hone

theorem assemble_alike {p : Production} (hp : p ∈ productions) (source source' : Chars)
    (h : Alike frames frames') (hs : frames.map (·.symbol) = p.parts.map (·.symbol)) :
    (Symbol.phrase p.head).trace (p.assemble source (frames.map (·.piece))).trees =
      (Symbol.phrase p.head).trace (p.assemble source' (frames'.map (·.piece))).trees := by
  obtain ⟨hempty, hall⟩ := keptTrees_alike h hs
  have hlists := fun part (hpart : part ∈ p.parts) => lists_of_part hp hpart
  unfold Production.assemble
  cases hb : p.builds with
  | none =>
    simp only [hb] at hlists
    cases hhead : (Symbol.phrase p.head).listsStatements with
    | true => simpa [Symbol.trace, hhead] using hempty
    | false =>
      refine Symbol.trace_congr _ (hall fun part hpart => ?_)
      cases hpl : part.symbol.listsStatements with
      | false => rfl
      | true => exact absurd (hlists part hpart hpl) (by simp [hhead])
  | some kind =>
    simp only [hb] at hlists
    refine Symbol.trace_congr _ ?_
    simp only [allErased, erased]
    rw [counted_congr hempty]
    intro hkind
    refine hall fun part hpart => ?_
    cases hpl : part.symbol.listsStatements with
    | false => rfl
    | true => exact absurd (hlists part hpart hpl) (by simp [hkind])

/-! ### Alike runs -/

section

variable {T : Table} {source source' : Chars}

theorem Alike.reduce? {index : Nat} {a b next : List Frame} (h : Alike a b)
    (hr : reduce? T source index a = some next) :
    ∃ next', Grammar.reduce? T source' index b = some next' ∧ Alike next next' := by
  obtain ⟨p, frames, rest, state, hp, rfl, hsymbols, hgoto, rfl⟩ := reduce?_eq_some_iff.mp hr
  have hrest : Alike rest (b.drop frames.length) := by
    have hdrop := forall₂_drop frames.reverse.length h
    rwa [drop_left, length_reverse] at hdrop
  have hframes : Alike frames (b.take frames.length).reverse := by
    have htake := forall₂_take frames.reverse.length h
    rw [take_left, length_reverse] at htake
    rwa [Alike, ← forall₂_reverse_iff, reverse_reverse]
  refine ⟨_, reduce?_eq_some_iff.mpr ⟨p, (b.take frames.length).reverse, b.drop frames.length, state,
    hp, ?_, ?_, ?_, rfl⟩, .cons ⟨rfl, rfl, ?_⟩ hrest⟩
  · rw [reverse_reverse, take_append_drop]
  · rw [← hframes.map_symbol, hsymbols]
  · rw [← hrest.topState_eq, hgoto]
  · exact assemble_alike (mem_of_getElem? hp) source source' hframes hsymbols

theorem Alike.reduces {t : Terminal} {a b last : List Frame} (h : Alike a b)
    (hr : Reduces T source t a last) : ∃ last', Reduces T source' t b last' ∧ Alike last last' := by
  induction hr generalizing b with
  | refl => exact ⟨b, .refl, h⟩
  | step ha hstep _ ih =>
    obtain ⟨next', hstep', hnext⟩ := h.reduce? hstep
    obtain ⟨last', hlast', hlast⟩ := ih hnext
    exact ⟨last', .step (h.topState_eq ▸ ha) hstep' hlast', hlast⟩

theorem Alike.feeds {token token' : Token} {a b final : List Frame} (h : Alike a b)
    (ht : token.terminal = token'.terminal) (hx : token.text = token'.text)
    (hf : Feeds T source token a final) : ∃ final', Feeds T source' token' b final' ∧ Alike final final' := by
  obtain ⟨hr, ha⟩ := hf
  obtain ⟨last', hr', hlast⟩ := h.reduces hr
  rw [ht] at hr' ha
  refine ⟨_, .mk hr' (hlast.topState_eq ▸ ha), .cons ⟨rfl, by rw [ht], ?_⟩ hlast⟩
  simp only [Token.piece, ht, hx]
  exact Symbol.trace_congr _ rfl

end

end GroovySharp.Grammar
