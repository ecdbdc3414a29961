import GroovySharp.Proofs.ExtraSemicolon
import GroovySharp.Proofs.Reading
import GroovySharp.Proofs.SpacedText

/-!
# Texts padded with semicolons

A text is padded if semicolons have been put in after tokens, each where an item or a list of statements
ends.
-/

namespace GroovySharp.Grammar

open Text GroovySharp.Tree List

namespace ProgramTable

/-! ### What comes next -/

inductive Ahead : Config → Terminal → Prop
  | finish {c : Config} (hrest : c.rest = []) : Ahead c .endOfInput
  | token {c : Config} {t : Terminal} {n : Nat}
    (hlex : lexeme? (table.accepts (topState c.stack)) c.rest = some (t, n))
    (hi : t.isIgnored = false) : Ahead c t
  | skip {c : Config} {t s : Terminal} {n : Nat}
    (hlex : lexeme? (table.accepts (topState c.stack)) c.rest = some (s, n))
    (hi : s.isIgnored = true) (h : Ahead (c.skip n) t) : Ahead c t

theorem lexeme?_ne_nil {allowed : Nat} {cs : Chars} {t : Terminal} {n : Nat}
    (h : lexeme? allowed cs = some (t, n)) : cs ≠ [] := by
  rintro rfl
  obtain ⟨hpos, hle⟩ := lexeme?_bounds h
  exact absurd hle (Nat.not_le.mpr hpos)

theorem Ahead.unique {c : Config} {t t' : Terminal} (h : Ahead c t) (h' : Ahead c t') : t = t' := by
  induction h with
  | finish hrest =>
    cases h' with
    | finish => rfl
    | token hlex | skip hlex => exact absurd hrest (lexeme?_ne_nil hlex)
  | token hlex hi =>
    cases h' with
    | finish hrest => exact absurd hrest (lexeme?_ne_nil hlex)
    | token hlex' => exact (Prod.mk.inj (Option.some.inj (hlex.symm.trans hlex'))).1
    | skip hlex' hi' =>
      obtain ⟨rfl, -⟩ := Prod.mk.inj (Option.some.inj (hlex.symm.trans hlex'))
      rw [hi] at hi'
      cases hi'
  | skip hlex hi _ ih =>
    cases h' with
    | finish hrest => exact absurd hrest (lexeme?_ne_nil hlex)
    | token hlex' hi' =>
      obtain ⟨rfl, -⟩ := Prod.mk.inj (Option.some.inj (hlex.symm.trans hlex'))
      rw [hi] at hi'
      cases hi'
    | skip hlex' _ hnext =>
      obtain ⟨-, rfl⟩ := Prod.mk.inj (Option.some.inj (hlex.symm.trans hlex'))
      exact ih hnext

/-! ### Padded texts -/

def EndsWithToken (stack : List Frame) : Prop :=
  ∃ f below k, stack = f :: below ∧ f.symbol = .terminal k ∧ k.isIgnored = false ∧ k ≠ .semicolon

/-- A text that differs from the rest of the text by semicolons that mean nothing, and the piece that
the rest is read as. Only right after a token, where `after` holds, it can start with one. -/
inductive Padded (source : Chars) : Bool → Config → Chars → Piece → Prop
  | done {after : Bool} {c : Config} {top f : Frame} {below : List Frame} (hrest : c.rest = [])
    (hf : Feeds table source c.endToken c.stack (top :: f :: below)) :
    Padded source after c [] f.piece
  | skip {after : Bool} {c : Config} {t : Terminal} {n : Nat} {r : Chars} {piece : Piece}
    (hlex : lexeme? (table.accepts (topState c.stack)) c.rest = some (t, n))
    (hi : t.isIgnored = true) (h : Padded source false (c.skip n) r piece) :
    Padded source after c (c.rest.take n ++ r) piece
  | take {after : Bool} {c : Config} {t : Terminal} {n : Nat} {stack : List Frame} {r : Chars}
    {piece : Piece} (hlex : lexeme? (table.accepts (topState c.stack)) c.rest = some (t, n))
    (hi : t.isIgnored = false) (hf : Feeds table source (c.token t n) c.stack stack)
    (h : Padded source true (c.taken t n stack) r piece) :
    Padded source after c (c.rest.take n ++ r) piece
  | put {c : Config} {t : Terminal} {r : Chars} {piece : Piece} (hcut : Cut c.rest)
    (htop : EndsWithToken c.stack) (ha : Ahead c t) (he : EndsItem table source t c.stack)
    (h : Padded source false c r piece) : Padded source true c (';' :: r) piece

section

variable {source source' : Chars}

variable {after : Bool} {c : Config} {r : Chars} {piece : Piece} {stack stack' : List Frame}
  {token : Token} {t : Terminal} {n : Nat}

theorem Padded.spaced (h : Padded source after c r piece) :
    Spaced c.rest r ∧ (after = false → r.head? = c.rest.head?) := by
  have hlexeme {c : Config} {t : Terminal} {n : Nat} {r : Chars}
      (hlex : lexeme? (table.accepts (topState c.stack)) c.rest = some (t, n))
      (h : Spaced (c.rest.drop n) r) :
      Spaced c.rest (c.rest.take n ++ r) ∧ (c.rest.take n ++ r).head? = c.rest.head? := by
    obtain ⟨hpos, hle⟩ := lexeme?_bounds hlex
    have hspaced := h.append (c.rest.take n)
    rw [take_append_drop] at hspaced
    refine ⟨hspaced, ?_⟩
    cases hc : c.rest with
    | nil => exact absurd hc (lexeme?_ne_nil hlex)
    | cons d cs =>
      obtain ⟨m, rfl⟩ : ∃ m, n = m + 1 := ⟨n - 1, by omega⟩
      rfl
  induction h with
  | done hrest _ =>
    rw [hrest]
    exact ⟨.nil, fun _ => rfl⟩
  | skip hlex _ _ ih | take hlex _ _ _ ih =>
    obtain ⟨hspaced, hhead⟩ := hlexeme hlex ih.1
    exact ⟨hspaced, fun _ => hhead⟩
  | put hcut _ _ _ _ ih => exact ⟨.put hcut ih.1, fun h => by cases h⟩

theorem Padded.exists_feeds (h : Padded source after c r piece) :
    ∃ (token : Token) (final : List Frame), Ahead c token.terminal ∧ Feeds table source token c.stack final := by
  induction h with
  | done hrest hf => exact ⟨_, _, .finish hrest, hf⟩
  | skip hlex hi _ ih =>
    obtain ⟨token, final, ha, hf⟩ := ih
    exact ⟨token, final, .skip hlex hi ha, hf⟩
  | take hlex hi hf _ _ => exact ⟨_, _, .token hlex hi, hf⟩
  | put _ _ _ _ _ ih => exact ih

/-! ### Stacks that are ready for the same token -/

/-- With the terminal next, the second stack does what the first does. -/
structure Ready (source source' : Chars) (t : Terminal) (stack stack' : List Frame) : Prop where
  feeds : ∀ {token token' : Token} {final : List Frame}, token.terminal = t → token'.terminal = t →
    token.text = token'.text → Feeds table source token stack final →
      ∃ final', Feeds table source' token' stack' final' ∧ Alike final final'
  lexeme : ∀ {cs : Chars} {n : Nat}, t.mem (table.accepts (topState stack')) = true →
    lexeme? (table.accepts (topState stack)) cs = some (t, n) →
      lexeme? (table.accepts (topState stack')) cs = some (t, n)

theorem ready_of_alike (h : Alike stack stack') (t : Terminal) : Ready source source' t stack stack' where
  feeds ht ht' hx hf := h.feeds (ht.trans ht'.symm) hx hf
  lexeme _ hlex := h.topState_eq ▸ hlex

theorem mem_accepts_of_feeds {final : List Frame} (h : Feeds table source token stack final) :
    token.terminal.mem (table.accepts (topState stack)) = true :=
  mem_accepts_of_action? h.isSome_action?

/-- The production that ends an item with a token makes a statement or a list, unless a closing brace
comes next. -/
theorem exists_production_of_endsItem (hl : Linked table stack) (htop : EndsWithToken stack)
    (he : EndsItem table source t stack) (ht : t ≠ .closeBrace) :
    ∃ i p s, table.action? (topState stack) t = some (.reduce i) ∧ productions[i]? = some p ∧
      p.lastSymbol? = some (.terminal s) ∧ s ≠ .semicolon ∧ (p.head.level = .statement ∨ p.head.level = .list) := by
  obtain ⟨f, below, s, rfl, hf, hi, hs⟩ := htop
  have hlast {i : Nat} {p : Production} {next : List Frame}
      (ha : table.action? f.state t = some (.reduce i)) (hp : productions[i]? = some p)
      (hr : reduce? table source i (f :: below) = some next) :
      p.lastSymbol? = some (.terminal s) := by
    have hparts : p.parts ≠ [] := by
      intro hparts
      rcases empty_production ha hp hparts with ⟨-, -, hzero⟩ | ⟨-, hclose, -⟩
      · refine ne_zero_of_enters hl.1 (fun k hk => ?_) hzero
        obtain rfl := Symbol.terminal.inj (hf.symm.trans hk)
        exact hi
      · exact ht hclose
    obtain ⟨f', below', hstack, hlast⟩ := lastSymbol?_eq hp hparts hr
    obtain ⟨rfl, rfl⟩ := cons.inj hstack
    rwa [hf] at hlast
  cases he with
  | here ha hp hr hlist => exact ⟨_, _, s, ha, hp, hlast ha hp hr, hs, .inr hlist⟩
  | later ha hr h =>
    have hnext := hl.reduce? hr
    obtain ⟨p, frames, rest, q, hp, -, -, -, rfl⟩ := reduce?_eq_some_iff.mp hr
    refine ⟨_, p, s, ha, hp, hlast ha hp hr, hs, ?_⟩
    cases hlevel : p.head.level with
    | list => exact .inr rfl
    | statement => exact .inl rfl
    | final => exact absurd (final_production ha hp hlevel).1 ht
    | below => exact absurd (close_of_endsItem h hnext rfl rfl hlevel) ht

theorem lexeme?_after_empty (hl : Linked table stack) (htop : EndsWithToken stack)
    (he : EndsItem table source t stack) (ht : t ≠ .closeBrace) {cs : Chars}
    (hmem : t.mem (table.accepts 37) = true) (hlex : lexeme? (table.accepts (topState stack)) cs = some (t, n)) :
    lexeme? (table.accepts 37) cs = some (t, n) := by
  obtain ⟨i, p, s, ha, hp, hlast, hs, hlevel⟩ := exists_production_of_endsItem hl htop he ht
  obtain ⟨hsub, hwords⟩ := mem_accepts_of_empty ha hp hlast hs hlevel ht
  exact lexeme?_of_subset hsub hwords name_mem_accepts hlex hmem

theorem exists_ready {final : List Frame} {semicolon : Token} (hl : Linked table stack)
    (htop : EndsWithToken stack) (ha : Alike stack stack')
    (he : EndsItem table source token.terminal stack) (hs : semicolon.terminal = .semicolon)
    (hf : Feeds table source token stack final) : ∃ taken', Feeds table source' semicolon stack' taken' ∧
      Ready source source' token.terminal stack taken' := by
  have hmid : MidItem stack := by
    obtain ⟨f, below, k, rfl, hk, -⟩ := htop
    rintro f ⟨⟩ n hn
    cases hk.symm.trans hn
  have hzero : topState stack ≠ 0 := by
    obtain ⟨f, below, k, rfl, hk, hi, -⟩ := htop
    refine ne_zero_of_enters hl.1 fun k' hk' => ?_
    obtain rfl := Symbol.terminal.inj (hk.symm.trans hk')
    exact hi
  obtain ⟨htaken, hlast, hlast', halike, hstate⟩ := absorbs_of_endsItem he hs hl hmid hzero hf
  obtain ⟨taken', htaken', htake⟩ : ∃ taken', Feeds table source' semicolon stack' taken' ∧ Alike _ taken' :=
    ha.feeds rfl rfl htaken
  obtain ⟨last', hlast', hred⟩ : ∃ last', Reduces table source' token.terminal taken' last' ∧ Alike _ last' :=
    htake.reduces hlast'
  refine ⟨taken', htaken', ?_, ?_⟩
  · intro token₁ token₁' final₁ ht ht' hx hf₁
    rw [← ht] at hlast
    rw [← ht'] at hlast'
    obtain ⟨final', hfinal', hfinal⟩ := (halike.trans hred).feeds (ht.trans ht'.symm) hx (hf₁.after hlast)
    exact ⟨final', hlast'.feeds hfinal', hfinal⟩
  · intro cs n hmem hlex
    by_cases hclose : token.terminal = .closeBrace
    · rw [hclose] at hmem hlex ⊢
      obtain ⟨rfl, rest, rfl⟩ := eq_append_of_lexeme? (by decide) rfl hlex
      exact lexeme?_closeBrace hmem rest
    · rw [← htake.topState_eq, hstate.resolve_right hclose] at hmem ⊢
      exact lexeme?_after_empty hl htop he hclose hmem hlex

/-! ### Reading a padded text -/

/-- The second stack does what the first does with the rest of the text: the stacks are alike, or one
more semicolon has been read before the next token. -/
def Follows (source source' : Chars) (after : Bool) (c : Config) (stack' : List Frame) : Prop :=
  Alike c.stack stack' ∨ after = false ∧ ∃ t, Ahead c t ∧ Ready source source' t c.stack stack'

theorem Follows.ready (h : Follows source source' after c stack') (ha : Ahead c t) :
    Ready source source' t c.stack stack' := by
  rcases h with halike | ⟨-, t', ha', hready⟩
  · exact ready_of_alike halike t
  · rwa [ha.unique ha']

theorem Follows.skip (h : Follows source source' after c stack')
    (hlex : lexeme? (table.accepts (topState c.stack)) c.rest = some (t, n))
    (hi : t.isIgnored = true) : Follows source source' false (c.skip n) stack' := by
  rcases h with halike | ⟨-, t', ha, hready⟩
  · exact .inl halike
  · refine .inr ⟨rfl, t', ?_, hready⟩
    cases ha with
    | finish hrest => exact absurd hrest (lexeme?_ne_nil hlex)
    | token hlex' hi' =>
      obtain ⟨rfl, -⟩ := Prod.mk.inj (Option.some.inj (hlex.symm.trans hlex'))
      rw [hi] at hi'
      cases hi'
    | skip hlex' _ ha =>
      obtain ⟨-, rfl⟩ := Prod.mk.inj (Option.some.inj (hlex.symm.trans hlex'))
      exact ha

theorem unit_of_end {below : List Frame} {top f : Frame} (hl : Linked table stack)
    (ht : token.terminal = .endOfInput) (hf : Feeds table source token stack (top :: f :: below)) :
    f.symbol = .phrase .compilationUnit := by
  have hlinked := hl.feeds hf
  obtain ⟨hr, ha⟩ := hf
  rw [ht] at ha
  have hstate : f.state = 1 := end_state ha
  have henters := hlinked.2.1
  rw [hstate] at henters
  exact unit_of_enters henters

theorem lexeme?_padded {allowed : Nat} {cs : Chars} (hlex : lexeme? allowed cs = some (t, n))
    (h : Spaced (cs.drop n) r) (hi : t.isIgnored = true → r.head? = (cs.drop n).head?) :
    lexeme? allowed (cs.take n ++ r) = some (t, n) ∧ (cs.take n ++ r).take n = cs.take n ∧
      (cs.take n ++ r).drop n = r := by
  have hlen : (cs.take n).length = n := by rw [length_take, Nat.min_eq_left (lexeme?_bounds hlex).2]
  have hsplit : lexeme? allowed (cs.take n ++ cs.drop n) = some (t, (cs.take n).length) := by
    rw [hlen, take_append_drop, hlex]
  have hpadded := h.lexeme?_append hsplit hi
  rw [hlen] at hpadded
  exact ⟨hpadded, take_left' hlen, drop_left' hlen⟩

theorem Padded.reads {c' : Config} (h : Padded source after c r piece) (hl : Linked table c.stack)
    (hr : c'.rest = r) (hs : Follows source source' after c c'.stack) :
    ∃ piece', Reads table source' c' piece' ∧ allErased piece.trees = allErased piece'.trees := by
  induction h generalizing c' with
  | @done after c top f below hrest hf =>
    have hready := hs.ready (.finish hrest)
    have htext : c.endToken.text = c'.endToken.text := rfl
    obtain ⟨final', hfinal', halike⟩ :
        ∃ final', Feeds table source' c'.endToken c'.stack final' ∧ Alike (top :: f :: below) final' :=
      hready.feeds rfl rfl htext hf
    cases halike with
    | cons htop hbelow =>
      cases hbelow with
      | cons hunit _ =>
        refine ⟨_, .done hr hfinal', hunit.allErased_eq ?_⟩
        rw [unit_of_end hl rfl hf]
        rfl
  | @skip after c t n r piece hlex hi h ih =>
    obtain ⟨hspaced, hhead⟩ := h.spaced
    obtain ⟨hlex', -, hdrop⟩ := lexeme?_padded hlex hspaced fun _ => hhead rfl
    have hignored := (lexeme?_eq_ignored_iff hi).mp hlex'
    rw [← hr] at hignored hdrop
    have hrest : (c'.skip n).rest = r := hdrop
    obtain ⟨piece', hreads, heq⟩ := ih hl hrest (hs.skip hlex hi)
    exact ⟨piece', .skip ((lexeme?_eq_ignored_iff hi).mpr hignored) hi hreads, heq⟩
  | @take after c t n stack r piece hlex hi hf h ih =>
    have hready := hs.ready (.token hlex hi)
    obtain ⟨hlex', htake, hdrop⟩ := lexeme?_padded hlex h.spaced.1 fun ht => absurd (hi.symm.trans ht) (by decide)
    rw [← hr] at hlex' htake hdrop
    obtain ⟨stack', hf', halike⟩ :
        ∃ stack', Feeds table source' (c'.token t n) c'.stack stack' ∧ Alike stack stack' :=
      hready.feeds rfl rfl htake.symm hf
    have hrest : (c'.taken t n stack').rest = r := hdrop
    obtain ⟨piece', hreads, heq⟩ := ih (hl.feeds hf) hrest (.inl halike)
    exact ⟨piece', .take (hready.lexeme (mem_accepts_of_feeds hf') hlex') hi hf' hreads, heq⟩
  | @put c t r piece hcut htop ha he h ih =>
    obtain ⟨token, final, hahead, hfeeds⟩ := h.exists_feeds
    obtain rfl := ha.unique hahead
    have halike : Alike c.stack c'.stack := hs.resolve_right fun hs => by cases hs.1
    obtain ⟨taken', htaken', hready⟩ : ∃ taken', Feeds table source' (c'.token .semicolon 1) c'.stack taken' ∧
          Ready source source' token.terminal c.stack taken' :=
      exists_ready hl htop halike he rfl hfeeds
    have hmem := mem_accepts_of_feeds htaken'
    have hdrop : (c'.taken .semicolon 1 taken').rest = r := by
      change c'.rest.drop 1 = r
      rw [hr]
      rfl
    obtain ⟨piece', hreads, heq⟩ := ih hl hdrop (.inr ⟨rfl, _, ha, hready⟩)
    refine ⟨piece', .take ?_ rfl htaken' hreads, heq⟩
    rw [hr]
    exact lexeme?_semicolon hmem r

end

end ProgramTable

end GroovySharp.Grammar
