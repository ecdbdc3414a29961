import GroovySharp.Proofs.StatementTable

/-!
# A semicolon that leaves no trace

Where an item of a list of statements ends, or the list itself, one more semicolon changes nothing that
counts: after the next token the stack is alike.
-/

namespace GroovySharp.Grammar

open Text GroovySharp.Tree List

/-! ### The end of an item -/

/-- Before the token, an item is added to a list of statements, or the list is finished. -/
inductive EndsItem (T : Table) (source : Chars) (t : Terminal) : List Frame → Prop
  | here {stack next : List Frame} {i : Nat} {p : Production}
    (ha : T.action? (topState stack) t = some (.reduce i)) (hp : productions[i]? = some p)
    (hr : reduce? T source i stack = some next) (hl : p.head.level = .list) :
    EndsItem T source t stack
  | later {stack next : List Frame} {i : Nat}
    (ha : T.action? (topState stack) t = some (.reduce i))
    (hr : reduce? T source i stack = some next) (h : EndsItem T source t next) :
    EndsItem T source t stack

/-- The same as a check; `fuel` bounds the number of productions. -/
def endsItem (T : Table) (source : Chars) (t : Terminal) : Nat → List Frame → Bool
  | 0, _ => false
  | fuel + 1, stack =>
    match T.action? (topState stack) t with
    | some (.reduce i) =>
      match productions[i]?, reduce? T source i stack with
      | some p, some next => p.head.level == .list || endsItem T source t fuel next
      | _, _ => false
    | _ => false

variable {T : Table} {source : Chars} {stack : List Frame}

theorem endsItem_of_check {t : Terminal} {fuel : Nat} (h : endsItem T source t fuel stack = true) :
    EndsItem T source t stack := by
  induction fuel generalizing stack with
  | zero => cases h
  | succ fuel ih =>
    rw [endsItem] at h
    split at h
    · rename_i i ha
      split at h
      · rename_i p next hp hr
        rcases Bool.or_eq_true_iff.mp h with hl | h
        · exact .here ha hp hr (by simpa using hl)
        · exact .later ha hr (ih h)
      · cases h
    · cases h

theorem EndsItem.exists_step {t : Terminal} (h : EndsItem T source t stack) :
    ∃ i next, T.action? (topState stack) t = some (.reduce i) ∧ reduce? T source i stack = some next := by
  cases h with
  | here ha _ hr _ | later ha hr _ => exact ⟨_, _, ha, hr⟩

theorem Feeds.isSome_action? {token : Token} {final : List Frame} (h : Feeds T source token stack final) :
    (T.action? (topState stack) token.terminal).isSome := by
  obtain ⟨hr, ha⟩ := h
  cases hr with
  | refl => rw [ha]; rfl
  | step ha' _ _ => rw [ha']; rfl

/-! ### Short productions -/

section

variable {T : Table} {source : Chars} {t : Terminal}

variable {i : Nat} {p : Production} {part : Part} {stack : List Frame}

theorem reduce?_one_iff {next : List Frame} (hp : productions[i]? = some p) (hparts : p.parts = [part]) :
    reduce? T source i stack = some next ↔
      ∃ (f : Frame) (rest : List Frame) (q : Nat), stack = f :: rest ∧ f.symbol = part.symbol ∧
        T.goto? (topState rest) p.head = some q ∧ next = ⟨q, .phrase p.head, p.assemble source [f.piece]⟩ :: rest := by
  constructor
  · intro hr
    obtain ⟨p', frames, rest, q, hp', rfl, hsymbols, hgoto, rfl⟩ := reduce?_eq_some_iff.mp hr
    obtain rfl : p = p' := Option.some.inj (hp.symm.trans hp')
    rw [hparts] at hsymbols
    obtain ⟨f, rfl, hf⟩ := map_eq_singleton_iff.mp hsymbols
    exact ⟨f, rest, q, rfl, hf, hgoto, rfl⟩
  · rintro ⟨f, rest, q, rfl, hf, hgoto, rfl⟩
    refine reduce?_eq_some_iff.mpr ⟨p, [f], rest, q, hp, rfl, ?_, hgoto, rfl⟩
    rw [hparts, map_singleton, map_singleton, hf]

theorem reduce?_two_iff {part' : Part} {next : List Frame} (hp : productions[i]? = some p)
    (hparts : p.parts = [part, part']) : reduce? T source i stack = some next ↔
      ∃ (f f' : Frame) (rest : List Frame) (q : Nat), stack = f' :: f :: rest ∧
        f.symbol = part.symbol ∧ f'.symbol = part'.symbol ∧ T.goto? (topState rest) p.head = some q ∧
        next = ⟨q, .phrase p.head, p.assemble source [f.piece, f'.piece]⟩ :: rest := by
  constructor
  · intro hr
    obtain ⟨p', frames, rest, q, hp', rfl, hsymbols, hgoto, rfl⟩ := reduce?_eq_some_iff.mp hr
    obtain rfl : p = p' := Option.some.inj (hp.symm.trans hp')
    rw [hparts] at hsymbols
    obtain ⟨f, more, rfl, hf, hmore⟩ := map_eq_cons_iff.mp hsymbols
    obtain ⟨f', rfl, hf'⟩ := map_eq_singleton_iff.mp hmore
    exact ⟨f, f', rest, q, rfl, hf, hf', hgoto, rfl⟩
  · rintro ⟨f, f', rest, q, rfl, hf, hf', hgoto, rfl⟩
    refine reduce?_eq_some_iff.mpr ⟨p, [f, f'], rest, q, hp, rfl, ?_, hgoto, rfl⟩
    simp [hparts, hf, hf']

theorem Reduces.one {q : Nat} {f : Frame} {rest : List Frame}
    (h : Reduces T source t stack (f :: rest)) (ha : T.action? f.state t = some (.reduce i))
    (hp : productions[i]? = some p) (hparts : p.parts = [part]) (hf : f.symbol = part.symbol)
    (hg : T.goto? (topState rest) p.head = some q) :
    Reduces T source t stack (⟨q, .phrase p.head, p.assemble source [f.piece]⟩ :: rest) :=
  h.trans (.single ha ((reduce?_one_iff hp hparts).mpr ⟨f, rest, q, rfl, hf, hg, rfl⟩))

theorem Reduces.two {q : Nat} {part' : Part} {f f' : Frame} {rest : List Frame}
    (h : Reduces T source t stack (f' :: f :: rest)) (ha : T.action? f'.state t = some (.reduce i))
    (hp : productions[i]? = some p) (hparts : p.parts = [part, part']) (hf : f.symbol = part.symbol)
    (hf' : f'.symbol = part'.symbol) (hg : T.goto? (topState rest) p.head = some q) : Reduces T source t stack
      (⟨q, .phrase p.head, p.assemble source [f.piece, f'.piece]⟩ :: rest) :=
  h.trans (.single ha ((reduce?_two_iff hp hparts).mpr ⟨f, f', rest, q, rfl, hf, hf', hg, rfl⟩))

end

namespace ProgramTable

variable {source : Chars} {t : Terminal} {token semicolon : Token}

/-! ### Semicolons that are absorbed -/

/-- The semicolon can be taken, and on account of the next terminal the stacks with and without it
become alike. -/
inductive Absorbs (source : Chars) (t : Terminal) (semicolon : Token) (stack : List Frame) : Prop
  | mk {taken last last' : List Frame} (hf : Feeds table source semicolon stack taken)
    (hr : Reduces table source t stack last) (hr' : Reduces table source t taken last')
    (ha : Alike last last') (htop : topState taken = 37 ∨ t = .closeBrace) :
    Absorbs source t semicolon stack

variable {stack next below : List Frame} {f : Frame} {n : Nonterminal} {i : Nat} {p : Production}

theorem Absorbs.before (hs : semicolon.terminal = .semicolon)
    (hr : Reduces table source t stack next) (hr' : Reduces table source .semicolon stack next)
    (h : Absorbs source t semicolon next) : Absorbs source t semicolon stack := by
  obtain ⟨hf, hlast, hlast', ha, htop⟩ := h
  exact .mk (Reduces.feeds (hs ▸ hr') hf) (hr.trans hlast) hlast' ha htop

theorem feeds_semicolon {e : Nat} (hs : semicolon.terminal = .semicolon)
    (ha : table.action? (topState stack) .semicolon = some (.shift e)) :
    Feeds table source semicolon stack (⟨e, .terminal .semicolon, semicolon.piece⟩ :: stack) := by
  have hf : Feeds table source semicolon stack _ := .mk .refl (hs ▸ ha)
  rwa [hs] at hf

theorem reduces_empty {s : Nat} (source : Chars) (stack : List Frame) (piece : Piece)
    (hempty : table.goto? (topState stack) .emptyStatement = some 23)
    (hstatement : table.goto? (topState stack) .statement = some s)
    (h37 : table.action? 37 t = some (.reduce 82)) (h23 : table.action? 23 t = some (.reduce 28)) :
    ∃ made : Piece, withoutEmpty (allErased made.trees) = [] ∧
      Reduces table source t (⟨37, .terminal .semicolon, piece⟩ :: stack) (⟨s, .phrase .statement, made⟩ :: stack) := by
  have h82 : Reduces table source t (⟨37, .terminal .semicolon, piece⟩ :: stack) _ :=
    Reduces.refl.one h37 rfl rfl rfl hempty
  exact ⟨_, rfl, h82.one h23 rfl rfl rfl hstatement⟩

theorem absorbs_list (hs : semicolon.terminal = .semicolon) (hl : Linked table (f :: below))
    (hf : f.symbol = .phrase n) (hn : n.grows = true) (ht : (table.action? f.state t).isSome) :
    Absorbs source t semicolon (f :: below) := by
  have hgoto : table.goto? (topState below) n = some f.state := by
    have henters := hl.1
    rwa [hf] at henters
  obtain ⟨s, i, htakes⟩ := takesEmpty hn hgoto
  obtain ⟨h37, h23, hlist⟩ := htakes.actions t t.mem_all ht
  obtain ⟨made, hmade, hempty⟩ := reduces_empty source (f :: below) semicolon.piece
    htakes.empty htakes.statement h37 h23
  refine .mk (feeds_semicolon hs htakes.semicolon) .refl (hempty.two hlist htakes.production rfl hf rfl hgoto)
    (.cons ⟨rfl, hf, ?_⟩ (Alike.refl below)) (.inl rfl)
  have hlists : f.symbol.listsStatements = true := by
    rw [hf]
    rcases (by simpa [Nonterminal.grows] using hn : n = .statements ∨ n = .unitItems) with rfl | rfl
    · rfl
    · rfl
  simp [Symbol.trace, hlists, Production.assemble, keptTrees, rule, allErased_append, withoutEmpty_append, hmade]

theorem absorbs_open (hs : semicolon.terminal = .semicolon) (hopen : topState stack ∈ openStates)
    (ha : table.action? (topState stack) .closeBrace = some (.reduce 38))
    (hr : reduce? table source 38 stack = some next) : Absorbs source .closeBrace semicolon stack := by
  obtain ⟨p, frames, rest, z, hp, hstack, hsymbols, hgoto, rfl⟩ := reduce?_eq_some_iff.mp hr
  obtain rfl : ⟨.blockItems, [], none⟩ = p := Option.some.inj hp
  obtain rfl : frames = [] := map_eq_nil_iff.mp hsymbols
  obtain rfl : stack = rest := hstack
  obtain ⟨hsemicolon, hempty, -, hstatement, hstatements, -⟩ := open_state hopen
  obtain ⟨h37, h23, -, h99, -, h97, -⟩ := before_close
  obtain ⟨made, hmade, hone⟩ :=
    reduces_empty source stack semicolon.piece hempty hstatement h37 h23
  have hlist := hone.one h99 rfl rfl rfl hstatements
  refine .mk (feeds_semicolon hs hsemicolon) (.single ha hr) (hlist.one h97 rfl rfl rfl hgoto)
    (.cons ⟨rfl, rfl, ?_⟩ (Alike.refl stack)) (.inl rfl)
  simpa [Symbol.trace, Symbol.listsStatements, Production.assemble, keptTrees, rule, allErased,
    withoutEmpty] using hmade.symm

theorem absorbs_case (hs : semicolon.terminal = .semicolon) (ha : table.action? (topState stack) t = some (.reduce 69))
    (hr : reduce? table source 69 stack = some next) : Absorbs source t semicolon stack := by
  obtain ⟨p, frames, rest, z, hp, hstack, hsymbols, hgoto, rfl⟩ := reduce?_eq_some_iff.mp hr
  obtain ⟨hsemicolon, hempty, hstatement, hstatements, h37, h23, h99, h385⟩ := case_production ha
  obtain ⟨made, hmade, hone⟩ :=
    reduces_empty source stack semicolon.piece hempty hstatement h37 h23
  have hlist := hone.one h99 rfl rfl rfl hstatements
  obtain rfl : ⟨.switchCase, [drop .caseWord, rule .expression, drop .colon], some .switchCase⟩ = p :=
    Option.some.inj hp
  obtain ⟨a, b, c, rfl⟩ := length_eq_three.mp (by simpa using congrArg List.length hsymbols)
  obtain rfl : stack = c :: b :: a :: rest := hstack
  have h68 := hlist.trans (.single h385 (reduce?_eq_some_iff.mpr
    ⟨_, [a, b, c, _], rest, z, rfl, rfl, ?_, hgoto, rfl⟩))
  · refine .mk (feeds_semicolon hs hsemicolon) (.single ha hr) h68 (.cons ⟨rfl, rfl, ?_⟩ (Alike.refl rest)) (.inl rfl)
    simp [Symbol.trace, Symbol.listsStatements, Production.assemble, keptTrees, rule, drop,
      allErased_append, allErased, erased, counted, Kind.holdsStatements, withoutEmpty_append, hmade]
  · simpa [rule, drop] using hsymbols

theorem absorbs_final (hs : semicolon.terminal = .semicolon) (hl : Linked table stack)
    (ha : table.action? (topState stack) t = some (.reduce i)) (hp : productions[i]? = some p)
    (hf : p.head.level = .final) (hr : reduce? table source i stack = some next)
    (h : EndsItem table source t next) : Absorbs source t semicolon stack := by
  obtain ⟨rfl, n, e, j, hends⟩ := final_production ha hp hf
  obtain ⟨f, below, q, rfl, hfn, hfinal, rfl⟩ := (reduce?_one_iff hends.final rfl).mp hr
  have hgoto : table.goto? (topState below) n = some f.state := by
    have henters := hl.1
    rwa [hfn] at henters
  obtain ⟨k, last, hk, hlast⟩ := h.exists_step
  obtain ⟨-, -, h10, h99, h175, h97, h98, h174, hgoto10, hgoto175, hgoto174⟩ := before_close
  have htaken : Reduces table source .closeBrace (⟨e, .terminal .semicolon, semicolon.piece⟩ :: f :: below) _ := .refl
  rcases hends.entered _ hgoto with hopen | hb
  · -- the only item of the block
    obtain ⟨-, -, hexpr, hstatement, hstatements, hfinal'⟩ := open_state hopen
    obtain rfl : 98 = q := Option.some.inj (hfinal'.symm.trans hfinal)
    obtain rfl : 37 = k := Action.reduce.inj (Option.some.inj (h98.symm.trans hk))
    obtain ⟨f', rest, z, hstack, hf', hitems, rfl⟩ := (reduce?_one_iff rfl rfl).mp hlast
    obtain ⟨rfl, rfl⟩ := cons.inj hstack
    have h15 := (htaken.two hends.close hends.statement rfl hfn rfl hexpr).one h10 rfl rfl rfl hstatement
    have h36 := (h15.one h99 rfl rfl rfl hstatements).one h97 rfl rfl rfl hitems
    refine .mk (feeds_semicolon hs hends.semicolon) (.step ha hr (.single hk hlast)) h36
      (.cons ⟨rfl, rfl, ?_⟩ (Alike.refl below)) (.inr rfl)
    simp [Symbol.trace, Symbol.listsStatements, Production.assemble, keptTrees, rule, drop, allErased, erased]
  · -- the last of several items
    rw [hb] at hfinal
    obtain rfl : 174 = q := Option.some.inj (hgoto174.symm.trans hfinal)
    obtain rfl : 35 = k := Action.reduce.inj (Option.some.inj (h174.symm.trans hk))
    obtain ⟨g, f', rest, z, hstack, hg, hf', hitems, rfl⟩ := (reduce?_two_iff rfl rfl).mp hlast
    obtain ⟨rfl, rfl⟩ := cons.inj hstack
    have hlist : table.goto? (topState rest) .statements = some g.state := by
      have henters := hl.2.1
      rwa [hg] at henters
    rw [← hb] at h97 hgoto10 hgoto175
    have h15 := (htaken.two hends.close hends.statement rfl hfn rfl hgoto10).one h10 rfl rfl rfl hgoto175
    have h36 := (h15.two h175 rfl rfl hg rfl hlist).one h97 rfl rfl rfl hitems
    refine .mk (feeds_semicolon hs hends.semicolon) (.step ha hr (.single hk hlast)) h36
      (.cons ⟨rfl, rfl, ?_⟩ (Alike.refl rest)) (.inr rfl)
    simp [Symbol.trace, Symbol.listsStatements, Production.assemble, keptTrees, rule, drop,
      allErased_append, allErased, erased]

/-! ### Where items end -/

def MidItem (stack : List Frame) : Prop :=
  ∀ f ∈ stack.head?, ∀ n, f.symbol = .phrase n → n.level = .statement ∨ n.level = .below

theorem lastSymbol?_eq (hp : productions[i]? = some p) (hparts : p.parts ≠ [])
    (hr : reduce? table source i stack = some next) :
    ∃ f below, stack = f :: below ∧ p.lastSymbol? = some f.symbol := by
  obtain ⟨p', frames, rest, q, hp', rfl, hsymbols, -, -⟩ := reduce?_eq_some_iff.mp hr
  obtain rfl : p = p' := Option.some.inj (hp.symm.trans hp')
  have hframes : frames ≠ [] := by
    rintro rfl
    exact hparts (map_eq_nil_iff.mp hsymbols.symm)
  refine ⟨frames.getLast hframes, frames.dropLast.reverse ++ rest, ?_, ?_⟩
  · conv_lhs => rw [← dropLast_append_getLast hframes]
    rw [reverse_append, reverse_singleton, append_assoc, singleton_append]
  · rw [Production.lastSymbol?, ← getLast?_map, ← hsymbols, getLast?_map,
      getLast?_eq_getLast_of_ne_nil hframes, Option.map_some]

theorem final_of_expression (hl : Linked table (f :: below)) (hf : f.symbol = .phrase n)
    (hn : n.level = .below) (ha : table.action? f.state t = some (.reduce i))
    (hp : productions[i]? = some p) (hr : reduce? table source i (f :: below) = some next) :
    p.head.level = .below ∨ p.head.level = .final := by
  have hgoto : table.goto? (topState below) n = some f.state := by
    have henters := hl.1
    rwa [hf] at henters
  obtain ⟨f', below', hstack, hlast⟩ := lastSymbol?_eq hp (parts_ne_nil hgoto ha hp) hr
  obtain ⟨rfl, rfl⟩ := cons.inj hstack
  exact final_of_below (mem_of_getElem? hp) (hf ▸ hlast) hn

theorem close_of_endsItem (h : EndsItem table source t stack) (hl : Linked table stack)
    (hstack : stack = f :: below) (hf : f.symbol = .phrase n) (hn : n.level = .below) : t = .closeBrace := by
  induction h generalizing f below n with
  | here ha hp hr hlist =>
    subst hstack
    rcases final_of_expression hl hf hn ha hp hr with hhead | hhead
    · rw [hlist] at hhead
      cases hhead
    · exact (final_production ha hp hhead).1
  | later ha hr h ih =>
    subst hstack
    have hnext := hl.reduce? hr
    obtain ⟨p, frames, rest, q, hp, -, -, -, rfl⟩ := reduce?_eq_some_iff.mp hr
    rcases final_of_expression hl hf hn ha hp hr with hhead | hhead
    · exact ih hnext rfl rfl hhead
    · exact (final_production ha hp hhead).1

theorem absorbs_step {final : List Frame} (hs : semicolon.terminal = .semicolon)
    (hl : Linked table stack) (hm : MidItem stack) (h0 : topState stack ≠ 0) (hf : Feeds table source token stack final)
    (ha : table.action? (topState stack) token.terminal = some (.reduce i))
    (hp : productions[i]? = some p) (hr : reduce? table source i stack = some next)
    (hnext : p.head.level ≠ .list → EndsItem table source token.terminal next ∧
      (MidItem next → topState next ≠ 0 → Absorbs source token.terminal semicolon next)) :
    Absorbs source token.terminal semicolon stack := by
  by_cases hparts : p.parts = []
  · rcases empty_production ha hp hparts with ⟨-, -, hq⟩ | ⟨rfl, ht, hopen⟩
    · exact absurd hq h0
    · rw [ht] at ha ⊢
      exact absorbs_open hs hopen ha hr
  obtain ⟨f, below, rfl, hlast⟩ := lastSymbol?_eq hp hparts hr
  have hlinked := hl.reduce? hr
  have hfeeds := hf.after (.single ha hr)
  obtain ⟨p', frames, rest, q, hp', -, -, hgoto, rfl⟩ := reduce?_eq_some_iff.mp hr
  obtain rfl : p = p' := Option.some.inj (hp.symm.trans hp')
  cases hlevel : p.head.level with
  | list =>
    cases hsymbol : f.symbol with
    | terminal t =>
      obtain rfl := case_of_terminal hp (hsymbol ▸ hlast) hlevel
      exact absorbs_case hs ha hr
    | phrase n =>
      rw [hsymbol] at hlast
      rcases hm f rfl n hsymbol with hn | hn
      · -- the phrase is an item, and what it is added to can grow
        rcases grows_of_statement (mem_of_getElem? hp) hlast hn with hhead | hgrows
        · rw [hlevel] at hhead
          cases hhead
        · have hsemicolon := semicolon_after_statement ha hp (.inr hgrows)
          exact (absorbs_list hs hlinked rfl hgrows hfeeds.isSome_action?).before hs (.single ha hr)
            (.single hsemicolon hr)
      · rcases final_of_below (mem_of_getElem? hp) hlast hn with hhead | hhead
        · rw [hlevel] at hhead
          cases hhead
        · rw [hlevel] at hhead
          cases hhead
  | statement =>
    have hsemicolon := semicolon_after_statement ha hp (.inl hlevel)
    obtain ⟨-, habsorbs⟩ := hnext (by rw [hlevel]; decide)
    refine (habsorbs ?_ ?_).before hs (.single ha hr) (.single hsemicolon hr)
    · rintro f ⟨⟩ n ⟨⟩
      exact .inl hlevel
    · exact ne_zero_of_enters hlinked.1 (fun t ht => by cases ht)
  | final =>
    obtain ⟨hends, -⟩ := hnext (by rw [hlevel]; decide)
    exact absorbs_final hs hl ha hp hlevel hr hends
  | below =>
    obtain ⟨hends, habsorbs⟩ := hnext (by rw [hlevel]; decide)
    have hclose := close_of_endsItem hends hlinked rfl rfl hlevel
    have hsemicolon := semicolon_after_expression (hclose ▸ ha) hp hlevel
    refine (habsorbs ?_ ?_).before hs (.single ha hr) (.single hsemicolon hr)
    · rintro f ⟨⟩ n ⟨⟩
      exact .inr hlevel
    · exact ne_zero_of_enters hlinked.1 (fun t ht => by cases ht)

theorem absorbs_of_endsItem {final : List Frame} (h : EndsItem table source token.terminal stack)
    (hs : semicolon.terminal = .semicolon) (hl : Linked table stack) (hm : MidItem stack)
    (h0 : topState stack ≠ 0) (hf : Feeds table source token stack final) :
    Absorbs source token.terminal semicolon stack := by
  induction h with
  | here ha hp hr hlist => exact absorbs_step hs hl hm h0 hf ha hp hr (fun h => absurd hlist h)
  | later ha hr h ih =>
    obtain ⟨p, frames, rest, q, hp, -⟩ := reduce?_eq_some_iff.mp hr
    refine absorbs_step hs hl hm h0 hf ha hp hr (fun _ => ⟨h, fun hm' h0' => ?_⟩)
    exact ih (hl.reduce? hr) hm' h0' (hf.after (.single ha hr))

end ProgramTable

end GroovySharp.Grammar
