import GroovySharp.Proofs.AddedSemicolons
import GroovySharp.Proofs.Padding

/-!
# Normalizing keeps the tree

The offsets right behind tokens at which a statement or a list of statements ends are computed from the
text as given.
-/

namespace GroovySharp.Grammar

open Text GroovySharp.Tree Source List

/-! ### Where items end -/

/-- The terminal of the next token; `fuel` bounds the number of blanks and comments before it. -/
def Config.ahead? (T : Table) : Nat → Config → Option Terminal
  | 0, _ => none
  | fuel + 1, c =>
    match c.rest with
    | [] => some .endOfInput
    | _ :: _ =>
      match lexeme? (T.accepts (topState c.stack)) c.rest with
      | none => none
      | some (t, n) => if t.isIgnored then (c.skip n).ahead? T fuel else some t

def Config.endsItem (T : Table) (source : Chars) (c : Config) : Bool :=
  match c.ahead? T (c.rest.length + 1) with
  | none => false
  | some t => Grammar.endsItem T source t (feedFuel c.stack) c.stack

def itemEnd (T : Table) (source : Chars) (t : Terminal) (c : Config) : List Nat :=
  if t ≠ .semicolon ∧ c.endsItem T source = true then [c.position.offset] else []

/-- The offsets right behind tokens, semicolons apart, at which an item of a list of statements ends, or
the list. -/
def itemEnds (T : Table) (source : Chars) : Nat → Config → List Nat
  | 0, _ => []
  | fuel + 1, c =>
    match lexeme? (T.accepts (topState c.stack)) c.rest with
    | none => []
    | some (t, n) =>
      if t.isIgnored then itemEnds T source fuel (c.skip n)
      else
        match feed? T source (c.token t n) (feedFuel c.stack) c.stack with
        | none => []
        | some stack => itemEnd T source t (c.taken t n stack) ++ itemEnds T source fuel (c.taken t n stack)

section

variable {T : Table} {source : Chars} {c : Config} {t : Terminal} {n fuel : Nat}

theorem offset_skip (hn : n ≤ c.rest.length) : (c.skip n).position.offset = c.position.offset + n := by
  change (c.position.advance (c.rest.take n)).offset = _
  rw [Position.offset_advance, length_take, Nat.min_eq_left hn]

theorem itemEnds_skip (hlex : lexeme? (T.accepts (topState c.stack)) c.rest = some (t, n))
    (hi : t.isIgnored = true) : itemEnds T source (fuel + 1) c = itemEnds T source fuel (c.skip n) := by
  simp only [itemEnds, hlex, hi, if_true]

theorem itemEnds_take {stack : List Frame}
    (hlex : lexeme? (T.accepts (topState c.stack)) c.rest = some (t, n)) (hi : t.isIgnored = false)
    (hf : feed? T source (c.token t n) (feedFuel c.stack) c.stack = some stack) : itemEnds T source (fuel + 1) c =
      itemEnd T source t (c.taken t n stack) ++ itemEnds T source fuel (c.taken t n stack) := by
  simp only [itemEnds, hlex, hi, Bool.false_eq_true, if_false, hf]

theorem mem_itemEnd {k : Nat} (h : k ∈ itemEnd T source t c) :
    k = c.position.offset ∧ t ≠ .semicolon ∧ c.endsItem T source = true := by
  unfold itemEnd at h
  split at h
  · next hends => exact ⟨mem_singleton.mp h, hends⟩
  · cases h

theorem lt_of_mem_itemEnds {k : Nat} (h : k ∈ itemEnds T source fuel c) : c.position.offset < k := by
  induction fuel generalizing c with
  | zero => cases h
  | succ fuel ih =>
    unfold itemEnds at h
    split at h
    · cases h
    · next t n hlex =>
      obtain ⟨hpos, hle⟩ := lexeme?_bounds hlex
      have hskip := offset_skip hle
      split at h
      · have hlt := ih h
        omega
      · split at h
        · cases h
        · next stack hf =>
          have hnext : (c.taken t n stack).position.offset = c.position.offset + n := hskip
          rcases mem_append.mp h with h | h
          · have hk := (mem_itemEnd h).1
            omega
          · have hlt := ih h
            omega

end

namespace ProgramTable

variable {source : Chars} {c : Config}

theorem ahead_of_ahead? {fuel : Nat} {t : Terminal} (h : c.ahead? table fuel = some t) : Ahead c t := by
  induction fuel generalizing c with
  | zero => cases h
  | succ fuel ih =>
    unfold Config.ahead? at h
    split at h
    · next hrest =>
      cases h
      exact .finish hrest
    · split at h
      · cases h
      · next s n hlex =>
        split at h
        · next hi => exact .skip hlex hi (ih h)
        · next hi =>
          cases h
          exact .token hlex (by simpa using hi)

theorem endsItem_of_config (h : c.endsItem table source = true) : ∃ t, Ahead c t ∧ EndsItem table source t c.stack := by
  unfold Config.endsItem at h
  split at h
  · cases h
  · next t ht => exact ⟨t, ahead_of_ahead? ht, endsItem_of_check h⟩

theorem split_lexeme {t : Terminal} {n allowed : Nat} {x : Chars}
    (hlex : lexeme? allowed c.rest = some (t, n)) (hx : Pads c.rest x)
    (h : ∀ k ∈ added c.position.offset c.rest x, (c.skip n).position.offset ≤ k) :
    ∃ x', Pads (c.skip n).rest x' ∧ (x = c.rest.take n ++ x' ∧ added c.position.offset c.rest x =
          added (c.skip n).position.offset (c.skip n).rest x' ∨
        x = c.rest.take n ++ ';' :: x' ∧ Cut (c.skip n).rest ∧ added c.position.offset c.rest x =
            (c.skip n).position.offset :: added (c.skip n).position.offset (c.skip n).rest x') := by
  obtain ⟨hpos, hle⟩ := lexeme?_bounds hlex
  have hlen : (c.rest.take n).length = n := by rw [length_take, Nat.min_eq_left hle]
  have hoffset : c.position.offset + (c.rest.take n).length = (c.skip n).position.offset := by
    rw [offset_skip hle, hlen]
  have hne : c.rest.take n ≠ [] := by
    rw [← length_pos_iff, hlen]
    exact hpos
  have hrest : c.rest = c.rest.take n ++ (c.skip n).rest := (take_append_drop n c.rest).symm
  rw [hrest] at hx h
  rw [← hoffset] at h
  have hsplit := hx.split hne h
  rwa [← hrest, hoffset] at hsplit

theorem padded_of_reads {piece : Piece} {fuel : Nat} {x : Chars} (h : Reads table source c piece)
    (hfuel : c.rest.length < fuel) (hx : Pads c.rest x)
    (hends : ∀ k ∈ added c.position.offset c.rest x, k ∈ itemEnds table source fuel c)
    (after : Bool) : Padded source after c x piece := by
  induction h generalizing fuel x after with
  | done hrest hf =>
    rw [hrest] at hx
    cases hx
    exact .done hrest hf
  | @skip c t n piece hlex hi h ih =>
    obtain ⟨fuel, rfl⟩ : ∃ m, fuel = m + 1 := ⟨fuel - 1, by omega⟩
    have hlen := length_skip hlex
    rw [itemEnds_skip hlex hi] at hends
    obtain ⟨x', hx', hsplit⟩ := split_lexeme hlex hx fun k hk => (lt_of_mem_itemEnds (hends k hk)).le
    rcases hsplit with ⟨rfl, hadded⟩ | ⟨rfl, -, hadded⟩
    · rw [hadded] at hends
      exact .skip hlex hi (ih (by omega) hx' hends false)
    · -- no item ends behind white space or a comment
      have hmem := hends (c.skip n).position.offset (by rw [hadded]; exact mem_cons_self)
      exact absurd (lt_of_mem_itemEnds hmem) (Nat.lt_irrefl _)
  | @take c t n stack piece hlex hi hf h ih =>
    obtain ⟨fuel, rfl⟩ : ∃ m, fuel = m + 1 := ⟨fuel - 1, by omega⟩
    have hlen : (c.taken t n stack).rest.length < c.rest.length := length_skip hlex
    rw [itemEnds_take hlex hi ((feed?_eq_some_iff takesAfterEmpty).mpr hf)] at hends
    have hlater {k : Nat} (hk : k ∈ itemEnd table source t (c.taken t n stack) ++
        itemEnds table source fuel (c.taken t n stack)) (hlt : (c.taken t n stack).position.offset < k) :
        k ∈ itemEnds table source fuel (c.taken t n stack) := by
      refine (mem_append.mp hk).resolve_left fun hend => ?_
      exact absurd (mem_itemEnd hend).1 (Nat.ne_of_gt hlt)
    obtain ⟨x', hx', hsplit⟩ := split_lexeme hlex hx fun k hk => by
      rcases mem_append.mp (hends k hk) with hend | hend
      · exact (mem_itemEnd hend).1.ge
      · exact (lt_of_mem_itemEnds hend).le
    rcases hsplit with ⟨rfl, hadded⟩ | ⟨rfl, hcut, hadded⟩
    · rw [hadded] at hends
      have hnext := ih (by omega) hx' (fun k hk => hlater (hends k hk) (hx'.lt_of_mem_added hk)) true
      exact .take hlex hi hf hnext
    · rw [hadded] at hends
      have hnext := ih (by omega) hx'
        (fun k hk => hlater (hends k (mem_cons_of_mem _ hk)) (hx'.lt_of_mem_added hk)) false
      have hend := (mem_append.mp (hends _ mem_cons_self)).resolve_right
        fun hmem => Nat.lt_irrefl _ (lt_of_mem_itemEnds hmem)
      obtain ⟨-, hsemicolon, hends⟩ := mem_itemEnd hend
      obtain ⟨t', ha, he⟩ := endsItem_of_config hends
      have htop : EndsWithToken stack := by
        obtain ⟨hr, hshift⟩ := hf
        exact ⟨_, _, t, rfl, rfl, hi, hsemicolon⟩
      exact .take hlex hi hf (.put hcut htop ha he hnext)

end ProgramTable

end GroovySharp.Grammar

namespace GroovySharp.Program

open Grammar

def itemEnds (t : Chars) : List Nat :=
  Grammar.itemEnds ProgramTable.table t (t.length + 1) { rest := t }

theorem erased_theTree {piece piece' : Piece} (h : Tree.allErased piece.trees = Tree.allErased piece'.trees) :
    (theTree piece).erased = (theTree piece').erased := by
  unfold theTree
  cases hp : piece.trees with
  | nil =>
    cases hp' : piece'.trees with
    | nil => rfl
    | cons t' ts' => simp [hp, hp', Tree.allErased] at h
  | cons t ts =>
    cases hp' : piece'.trees with
    | nil => simp [hp, hp', Tree.allErased] at h
    | cons t' ts' =>
      simp only [hp, hp', Tree.allErased, List.cons.injEq] at h
      exact h.1

/-- If normalization adds its semicolons where items end, it keeps the tree of a program, positions and
empty statements apart. -/
theorem read_normalize {t u : Chars} {tree : Tree} (hread : read t = .ok tree)
    (hnormal : Source.normalize t = .ok u) (hends : ∀ n ∈ Source.added 0 t u, n ∈ itemEnds t) :
    ∃ tree', read u = .ok tree' ∧ tree'.erased = tree.erased := by
  unfold read at hread ⊢
  cases hparse : parse ProgramTable.table t with
  | error stop => simp [hparse] at hread
  | ok piece =>
    rw [hparse] at hread
    have hreads := (parse_eq_ok_iff ProgramTable.takesAfterEmpty).mp hparse
    have hpadded := ProgramTable.padded_of_reads hreads (Nat.lt_succ_self _)
      (Source.pads_of_normalize hnormal) hends false
    obtain ⟨piece', hreads', hpiece⟩ : ∃ piece', Reads ProgramTable.table u { rest := u } piece' ∧
          Tree.allErased piece.trees = Tree.allErased piece'.trees :=
      hpadded.reads trivial rfl (.inl (Alike.refl []))
    rw [(parse_eq_ok_iff ProgramTable.takesAfterEmpty).mpr hreads']
    exact exists_expand (erased_theTree hpiece) hread

def twoBlocks : Chars := "if (a) \x7b b \x7d // c\nwhile (d) \x7b if (e) \x7b f(); \x7d\n\x7d\n".toList

def twoBlocksEnded : Chars := "if (a) \x7b b; \x7d; // c\nwhile (d) \x7b if (e) \x7b f(); \x7d;\n\x7d\n".toList

/-- A block before a comment, and one at the end of a line inside another. -/
theorem read_normalize_blocks :
    Source.normalize twoBlocks = .ok twoBlocksEnded ∧
      ∃ tree tree',
        read twoBlocks = .ok tree ∧
        read twoBlocksEnded = .ok tree' ∧
        tree'.erased = tree.erased := by
  have hnormal : Source.normalize twoBlocks = .ok twoBlocksEnded :=
    Source.normalize_eq_ok_of_toOption (by decide +kernel)
  have hsome : (read twoBlocks).toOption.any
      (fun _ => true) = true := by decide +kernel
  obtain ⟨tree, hread, -⟩ := Source.exists_of_toOption_any hsome
  obtain ⟨tree', hread', herased⟩ := read_normalize hread hnormal (by decide +kernel)
  exact ⟨hnormal, tree, tree', hread, hread', herased⟩

def twoBranches : Chars := "if (a) \x7b b; \x7d\nelse \x7b c; \x7d\n".toList

def twoBranchesCut : Chars := "if (a) \x7b b; \x7d;\nelse \x7b c; \x7d;\n".toList

/-- The closing brace of the first branch stands at the end of a line, and its statement goes on. -/
theorem else_cut_off :
    (∃ tree, read twoBranches = .ok tree) ∧
      Source.normalize twoBranches = .ok twoBranchesCut ∧
      ∀ tree, read twoBranchesCut ≠ .ok tree := by
  refine ⟨?_, Source.normalize_eq_ok_of_toOption (by decide +kernel), ?_⟩
  · have hsome : (read twoBranches).toOption.any
        (fun _ => true) = true := by decide +kernel
    obtain ⟨tree, hread, -⟩ := Source.exists_of_toOption_any hsome
    exact ⟨tree, hread⟩
  · intro tree h
    have hnone : (read twoBranchesCut).toOption.isNone = true := by decide +kernel
    rw [h] at hnone
    cases hnone

end GroovySharp.Program
