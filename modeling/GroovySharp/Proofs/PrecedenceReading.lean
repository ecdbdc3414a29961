import GroovySharp.Proofs.ExpressionReader
import Mathlib.Data.List.Forall2

/-!
# Tokens that are read as an expression

`ReadsAs w x s` says that the tokens `w` are read as the expression `x` wherever an operand of strength
`s` may stand, whatever follows that does not bind as tightly.
-/

namespace GroovySharp.CSharp

open Unicode List Option

/-! ### What follows an expression -/

/-- How tightly a mark takes what stands before it. -/
def Mark.pull : Mark → Nat
  | binary op => op.rank + 3
  | increment | decrement | dot | safeDot | openParen | openBracket => 10
  | question => 2
  | assign _ | arrow => 1
  | _ => 0

def pull : List Lexeme → Nat
  | .mark m :: _ => m.pull
  | _ => 0

theorem BinaryOp.rank_lt (op : BinaryOp) : op.rank < 6 := by
  cases op <;> decide

theorem extendPostfix_of_pull {x : Expr} {rest : List Lexeme} (h : pull rest ≤ 8) :
    extendPostfix x rest = some (x, rest) := by
  unfold extendPostfix
  split
  case h_7 => rfl
  all_goals exact absurd h (Nat.not_le.mpr (by decide : 8 < 10))

theorem extendBinary_of_pull {level : Nat} {x : Expr} {rest : List Lexeme}
    (h : pull rest ≤ level + 2) : extendBinary level x rest = some (x, rest) := by
  unfold extendBinary
  split
  · next op rest =>
    have hrank : op.rank + 3 ≤ level + 2 := h
    rw [if_neg (by omega)]
  · rfl

/-! ### How an expression starts -/

def Lexeme.starts : Lexeme → Bool
  | .mark .openParen | .mark .bang | .mark (.binary .subtract) => true
  | .mark _ => false
  | _ => true

theorem name?_nameLexeme (s : String) (rest : List Lexeme) : name? (nameLexeme s :: rest) = some (s, rest) := by
  unfold nameLexeme
  split
  · rfl
  · next h => rw [name?, if_neg h]

theorem starts_nameLexeme (s : String) : (nameLexeme s).starts = true := by
  unfold nameLexeme
  split <;> rfl

theorem nameLexeme_ne_mark (s : String) (m : Mark) : nameLexeme s ≠ .mark m := by
  unfold nameLexeme
  split <;> simp

def Mark.isInner : Mark → Bool
  | comma | closeParen | colon | arrow => false
  | _ => true

/-- The tokens start neither a list of names nor an argument with a name. -/
structure Compound (w : List Lexeme) : Prop where
  starts : ∃ t more, w = t :: more ∧ t.starts = true
  names : ∀ r, names? (w ++ r) = none
  label : ∀ r, label? (w ++ r) = none

inductive Lead : List Lexeme → Prop
  | lone (s : String) : Lead [nameLexeme s]
  | name (s : String) {m : Mark} (more : List Lexeme) (hm : m.isInner = true) :
    Lead (nameLexeme s :: .mark m :: more)
  | other {t : Lexeme} (more : List Lexeme) (hname : ∀ r, name? (t :: r) = none)
    (hparen : t ≠ .mark .openParen) (hstarts : t.starts = true) : Lead (t :: more)
  | group {v : List Lexeme} (more : List Lexeme) (hv : Compound v) :
    Lead (.mark .openParen :: (v ++ .mark .closeParen :: more))

section

variable {w v more rest : List Lexeme} {m : Mark}

theorem Lead.starts (h : Lead w) : ∃ t more, w = t :: more ∧ t.starts = true := by
  cases h with
  | lone s | name s more _ => exact ⟨_, _, rfl, starts_nameLexeme s⟩
  | other more _ _ hstarts => exact ⟨_, _, rfl, hstarts⟩
  | group more _ => exact ⟨_, _, rfl, rfl⟩

theorem Lead.extend (h : Lead w) (hm : m.isInner = true) (more : List Lexeme) : Lead (w ++ .mark m :: more) := by
  cases h with
  | lone s => exact .name s more hm
  | name s _ hm' => exact .name s _ hm'
  | other _ hname hparen hstarts => exact .other _ hname hparen hstarts
  | group more' hv =>
    rw [cons_append, append_assoc, cons_append]
    exact .group _ hv

theorem compound_name {s : String} (hm : m = .arrow ∨ m.isInner = true) :
    Compound (nameLexeme s :: .mark m :: more) where
  starts := ⟨_, _, rfl, starts_nameLexeme s⟩
  names r := by
    rw [cons_append, cons_append, names?, name?_nameLexeme]
    cases m <;> simp_all [Mark.isInner]
  label r := by
    rw [cons_append, cons_append, label?, name?_nameLexeme]
    cases m <;> simp_all [Mark.isInner]

theorem compound_other {t : Lexeme} (hname : ∀ r, name? (t :: r) = none) (hstarts : t.starts = true) :
    Compound (t :: more) where
  starts := ⟨_, _, rfl, hstarts⟩
  names r := by
    rw [cons_append, names?, hname]
    rfl
  label r := by rw [cons_append, label?, hname]

theorem Lead.compound (h : Lead w) (hm : m.isInner = true) (more : List Lexeme) : Compound (w ++ .mark m :: more) := by
  cases h with
  | lone s => exact compound_name (.inr hm)
  | name s _ hm' => exact compound_name (.inr hm')
  | other _ hname _ hstarts => exact compound_other hname hstarts
  | group _ _ => exact compound_other (fun _ => rfl) rfl

theorem parameters?_of_ne {t : Lexeme} (h : t ≠ .mark .openParen) (rest : List Lexeme) :
    parameters? (t :: rest) = none := by
  unfold parameters?
  split
  · next heq => exact absurd (cons.inj heq).1 h
  · next heq => exact absurd (cons.inj heq).1 h
  · rfl

theorem parameters?_of_compound (h : Compound v) (rest : List Lexeme) :
    parameters? (.mark .openParen :: (v ++ rest)) = none := by
  obtain ⟨t, more, rfl, hstarts⟩ := h.starts
  have hnames := h.names rest
  rw [cons_append] at hnames ⊢
  rw [parameters?, hnames]
  rintro _ heq
  rw [(cons.inj heq).1] at hstarts
  cases hstarts

theorem lambdaHead?_of_not_name {t : Lexeme} (h : ∀ r, name? (t :: r) = none) (rest : List Lexeme) :
    lambdaHead? (t :: rest) = parameters? (t :: rest) := by
  rw [lambdaHead?, h]

theorem Lead.lambdaHead?_eq (h : Lead w) (hrest : pull rest = 0) : lambdaHead? (w ++ rest) = none := by
  cases h with
  | lone s =>
    rw [singleton_append, lambdaHead?, name?_nameLexeme]
    split
    · next heq =>
      obtain ⟨-, rfl⟩ := Prod.mk.inj (Option.some.inj heq)
      cases hrest
    · exact parameters?_of_ne (nameLexeme_ne_mark s _) rest
  | @name s m more hm =>
    rw [cons_append, lambdaHead?, name?_nameLexeme]
    split
    · next heq =>
      obtain ⟨-, heq⟩ := Prod.mk.inj (Option.some.inj heq)
      obtain ⟨rfl⟩ := Lexeme.mark.inj (cons.inj heq).1
      cases hm
    · exact parameters?_of_ne (nameLexeme_ne_mark s _) _
  | other more hname hparen _ => rw [cons_append, lambdaHead?_of_not_name hname, parameters?_of_ne hparen]
  | group more hv =>
    rw [cons_append, lambdaHead?_of_not_name (fun _ => rfl), append_assoc]
    exact parameters?_of_compound hv _

theorem Lead.label?_eq (h : Lead w) (hrest : ∀ r, rest ≠ .mark .colon :: r) : label? (w ++ rest) = none := by
  cases h with
  | lone s =>
    rw [singleton_append, label?, name?_nameLexeme]
    split
    · next heq =>
      obtain ⟨-, rfl⟩ := Prod.mk.inj (Option.some.inj heq)
      exact absurd rfl (hrest _)
    · rfl
  | name s more hm => exact (compound_name (.inr hm)).label rest
  | other more hname _ hstarts => exact (compound_other hname hstarts).label rest
  | group more _ => exact (compound_other (t := .mark .openParen) (fun _ => rfl) rfl).label rest

end

/-! ### Tokens that are read as an expression -/

/-- The tokens are read as the expression where an operand of the strength may stand: 0 is for
assignments and lambdas, 1 for conditionals, 2 and more for the levels of binary operators, 8 for signs
before an operand and 9 for what follows one. -/
structure ReadsAs (w : List Lexeme) (x : Expr) (s : Nat) : Prop where
  lead : 1 ≤ s → Lead w
  compound : s < 9 → Compound w
  unsigned : 9 ≤ s → ∀ m more, w = .mark m :: more → m = .openParen
  expression : ∀ rest, pull rest = 0 → readExpression (w ++ rest) = some (x, rest)
  conditional : 1 ≤ s → ∀ rest, pull rest ≤ 1 → readConditional (w ++ rest) = some (x, rest)
  binary : ∀ k, k + 2 ≤ s → ∀ rest, pull rest ≤ 8 → pull rest ≤ s + 1 →
    readBinary k (w ++ rest) = extendBinary k x rest
  unary : 8 ≤ s → ∀ rest, pull rest ≤ 8 → readUnary (w ++ rest) = some (x, rest)
  operand : 9 ≤ s → ∀ rest, readPostfix (w ++ rest) = extendPostfix x rest

section

variable {w v u : List Lexeme} {x y z : Expr} {s t : Nat}

variable {rest : List Lexeme} {ws : List (List Lexeme)} {as : List Argument} {op : BinaryOp}

theorem readExpression_of_conditional (hlead : Lead w)
    (h : ∀ rest, pull rest ≤ 1 → readConditional (w ++ rest) = some (x, rest))
    (hrest : pull rest = 0) : readExpression (w ++ rest) = some (x, rest) := by
  rw [readExpression, hlead.lambdaHead?_eq hrest]
  dsimp only
  rw [h rest (by omega)]
  dsimp only [bind_eq_bind, bind_some]
  split
  · cases hrest
  · rfl

theorem readConditional_of_binary (h : ∀ rest, pull rest ≤ 2 → readBinary 0 (w ++ rest) = extendBinary 0 x rest)
    (hrest : pull rest ≤ 1) : readConditional (w ++ rest) = some (x, rest) := by
  rw [readConditional, h rest (by omega), extendBinary_of_pull (by omega)]
  dsimp only [bind_eq_bind, bind_some]
  split
  · exact absurd hrest (Nat.not_le.mpr (by decide : 1 < 2))
  · rfl

theorem readBinary_of_unary (h : ∀ rest, pull rest ≤ 8 → readUnary (w ++ rest) = some (x, rest))
    (k : Nat) (hrest : pull rest ≤ 8) : readBinary k (w ++ rest) = extendBinary k x rest := by
  rw [readBinary, h rest hrest]
  rfl

theorem readUnary_of_operand (hunsigned : ∀ m more, w = .mark m :: more → m = .openParen)
    (hne : w ≠ []) (h : ∀ rest, readPostfix (w ++ rest) = extendPostfix x rest)
    (hrest : pull rest ≤ 8) : readUnary (w ++ rest) = some (x, rest) := by
  obtain ⟨t, more, rfl⟩ := exists_cons_of_ne_nil hne
  have hsign (m : Mark) (r : List Lexeme) (heq : t :: more ++ rest = .mark m :: r) : m = .openParen := by
    obtain rfl := (cons.inj heq).1
    exact hunsigned m more rfl
  rw [readUnary]
  · rw [h, extendPostfix_of_pull hrest]
  · intro r heq
    cases hsign _ _ heq
  · intro r heq
    cases hsign _ _ heq

theorem readsAs_of_conditional (hlead : Lead w) (hcompound : Compound w)
    (h : ∀ rest, pull rest ≤ 1 → readConditional (w ++ rest) = some (x, rest)) : ReadsAs w x 1 where
  lead _ := hlead
  compound _ := hcompound
  unsigned hs := by omega
  expression rest hrest := readExpression_of_conditional hlead h hrest
  conditional _ := h
  binary k hk := by omega
  unary hs := by omega
  operand hs := by omega

theorem readsAs_of_binary (hlead : Lead w) (hcompound : Compound w) (hs : 2 ≤ s) (hs' : s ≤ 7)
    (h : ∀ k, k + 2 ≤ s → ∀ rest, pull rest ≤ s + 1 → readBinary k (w ++ rest) = extendBinary k x rest) :
    ReadsAs w x s := by
  have hconditional {rest : List Lexeme} (hrest : pull rest ≤ 1) : readConditional (w ++ rest) = some (x, rest) :=
    readConditional_of_binary (fun rest hrest => h 0 hs rest (by omega)) hrest
  exact
    { lead := fun _ => hlead
      compound := fun _ => hcompound
      unsigned := fun hs => by omega
      expression := fun rest hrest => readExpression_of_conditional hlead (fun _ => hconditional) hrest
      conditional := fun _ _ => hconditional
      binary := fun k hk rest _ hrest => h k hk rest hrest
      unary := fun hs => by omega
      operand := fun hs => by omega }

theorem readsAs_of_unary (hlead : Lead w) (hcompound : s < 9 → Compound w)
    (hunsigned : 9 ≤ s → ∀ m more, w = .mark m :: more → m = .openParen)
    (h : ∀ rest, pull rest ≤ 8 → readUnary (w ++ rest) = some (x, rest))
    (hoperand : 9 ≤ s → ∀ rest, readPostfix (w ++ rest) = extendPostfix x rest) : ReadsAs w x s := by
  have hbinary (k : Nat) {rest : List Lexeme} (hrest : pull rest ≤ 8) :
      readBinary k (w ++ rest) = extendBinary k x rest := readBinary_of_unary h k hrest
  have hconditional {rest : List Lexeme} (hrest : pull rest ≤ 1) : readConditional (w ++ rest) = some (x, rest) :=
    readConditional_of_binary (fun rest hrest => hbinary 0 (by omega)) hrest
  exact
    { lead := fun _ => hlead
      compound := hcompound
      unsigned := hunsigned
      expression := fun rest hrest => readExpression_of_conditional hlead (fun _ => hconditional) hrest
      conditional := fun _ _ => hconditional
      binary := fun k _ rest hrest _ => hbinary k hrest
      unary := fun _ => h
      operand := hoperand }

theorem readsAs_of_operand (hlead : Lead w) (hunsigned : ∀ m more, w = .mark m :: more → m = .openParen)
    (h : ∀ rest, readPostfix (w ++ rest) = extendPostfix x rest) : ReadsAs w x 9 := by
  obtain ⟨t, more, hw, -⟩ := hlead.starts
  have hne : w ≠ [] := by simp [hw]
  exact readsAs_of_unary hlead (fun hs => absurd hs (by decide)) (fun _ => hunsigned)
    (fun rest hrest => readUnary_of_operand hunsigned hne h hrest) fun _ => h

/-! ### Operands -/

theorem ReadsAs.paren (h : ReadsAs v x s) (hv : Compound v) :
    ReadsAs (.mark .openParen :: (v ++ [Lexeme.mark .closeParen])) x 9 := by
  refine readsAs_of_operand (.group [] hv) ?_ fun rest => ?_
  · rintro m more heq
    exact (Lexeme.mark.inj (cons.inj heq).1).symm
  · have hinner := h.expression (.mark .closeParen :: rest) rfl
    rw [readPostfix, cons_append, append_assoc, singleton_append, readPrimary, hinner]
    rfl

theorem readsAs_word {t : Lexeme} (hlead : Lead [t]) (hmark : ∀ m, t ≠ .mark m)
    (h : ∀ rest, readPrimary (t :: rest) = some (x, rest)) : ReadsAs [t] x 9 := by
  refine readsAs_of_operand hlead ?_ fun rest => ?_
  · rintro m more heq
    exact absurd (cons.inj heq).1 (hmark m)
  · rw [readPostfix, singleton_append, h]
    rfl

theorem readsAs_identifier (n : String) : ReadsAs [nameLexeme n] (.identifier n) 9 := by
  refine readsAs_word (.lone n) (nameLexeme_ne_mark n) fun rest => ?_
  unfold nameLexeme
  split
  · rw [readPrimary]
  · next h =>
    have hne (k : String) (hk : keywords.contains k = true) : n ≠ k := by
      rintro rfl
      exact h hk
    rw [readPrimary, if_neg (hne "new" (by decide)), wordExpr?, if_neg (hne "true" (by decide)),
      if_neg (hne "false" (by decide)), if_neg (hne "null" (by decide)), if_neg h]
    rfl

def Literal.lexeme : Literal → Lexeme
  | string value => .string value
  | integer n => .integer n.toNat
  | decimal text => .decimal text
  | true => .word "true"
  | false => .word "false"
  | null => .word "null"

theorem name?_lexeme (value : Literal) (rest : List Lexeme) : name? (value.lexeme :: rest) = none := by
  have hword (k : String) (hk : keywords.contains k = true) : name? (.word k :: rest) = none := by rw [name?, if_pos hk]
  cases value with
  | true => exact hword "true" (by decide)
  | false => exact hword "false" (by decide)
  | null => exact hword "null" (by decide)
  | _ => rfl

theorem readsAs_literal {value : Literal} (h : ∀ n, value = .integer n → 0 ≤ n) :
    ReadsAs [value.lexeme] (.literal value) 9 := by
  refine readsAs_word (.other _ (name?_lexeme value) ?_ ?_) ?_ fun rest => ?_
  · cases value <;> simp [Literal.lexeme]
  · cases value <;> rfl
  · cases value <;> simp [Literal.lexeme]
  · cases value with
    | integer n => rw [Literal.lexeme, readPrimary, Int.toNat_of_nonneg (h n rfl)]
    | true | false | null =>
      rw [Literal.lexeme, readPrimary, if_neg (by decide)]
      rfl
    | _ => rw [Literal.lexeme, readPrimary]

theorem readsAs_interpolated (text : Points) : ReadsAs [.interpolated text] (.interpolated [.text text]) 9 := by
  refine readsAs_word (.other _ (fun _ => rfl) (by simp) rfl) (by simp) fun rest => ?_
  rw [readPrimary]

/-! ### What follows an operand -/

theorem ReadsAs.extend (h : ReadsAs w x s) (hs : 9 ≤ s) {m : Mark} (hm : m.isInner = true)
    (hnext : ∀ rest, extendPostfix x (.mark m :: (v ++ rest)) = extendPostfix y rest) :
    ReadsAs (w ++ .mark m :: v) y 9 := by
  have hlead := h.lead (by omega)
  refine readsAs_of_operand (hlead.extend hm v) ?_ fun rest => ?_
  · intro m' more heq
    obtain ⟨t, w', rfl, -⟩ := hlead.starts
    obtain rfl := (cons.inj heq).1
    exact h.unsigned hs m' w' rfl
  · rw [append_assoc, cons_append, h.operand hs, hnext]

theorem ReadsAs.member (h : ReadsAs w x s) (hs : 9 ≤ s) {n : String} (hn : keywords.contains n = false)
    (nullable : Bool) : ReadsAs (w ++ [Lexeme.mark (if nullable then .safeDot else .dot), Lexeme.word n])
      (.memberAccess x n nullable) 9 := by
  have hname (rest : List Lexeme) : name? (.word n :: rest) = some (n, rest) := by
    rw [name?, hn, if_neg Bool.false_ne_true]
  cases nullable with
  | true =>
    refine h.extend hs rfl fun rest => ?_
    rw [if_pos rfl, extendPostfix, singleton_append, hname]
    rfl
  | false =>
    refine h.extend hs rfl fun rest => ?_
    rw [if_neg Bool.false_ne_true, extendPostfix, singleton_append, hname]
    rfl

theorem ReadsAs.increment (h : ReadsAs w x s) (hs : 9 ≤ s) :
    ReadsAs (w ++ [Lexeme.mark .increment]) (.postfixed .increment x) 9 := by
  refine h.extend hs rfl fun rest => ?_
  rw [nil_append, extendPostfix]

theorem ReadsAs.decrement (h : ReadsAs w x s) (hs : 9 ≤ s) :
    ReadsAs (w ++ [Lexeme.mark .decrement]) (.postfixed .decrement x) 9 := by
  refine h.extend hs rfl fun rest => ?_
  rw [nil_append, extendPostfix]

theorem ReadsAs.index (h : ReadsAs w x s) (hs : 9 ≤ s) (hv : ReadsAs v y t) :
    ReadsAs (w ++ Lexeme.mark .openBracket :: (v ++ [Lexeme.mark .closeBracket])) (.elementAccess x y) 9 := by
  refine h.extend hs rfl fun rest => ?_
  have hindex := hv.expression (.mark .closeBracket :: rest) rfl
  rw [extendPostfix, append_assoc, singleton_append, hindex]
  rfl

/-! ### Arguments -/

/-- The tokens are read as the argument, before a comma or the mark that ends the list. -/
structure ReadsArgument (w : List Lexeme) (a : Argument) : Prop where
  starts : ∃ t more, w = t :: more ∧ t.starts = true
  argument : ∀ rest, pull rest = 0 → (∀ r, rest ≠ .mark .colon :: r) → readArgument (w ++ rest) = some (a, rest)

theorem ReadsAs.starts (h : ReadsAs w x s) : ∃ t more, w = t :: more ∧ t.starts = true := by
  by_cases hs : s < 9
  · exact (h.compound hs).starts
  · exact (h.lead (by omega)).starts

theorem ReadsAs.argument (h : ReadsAs w x s) : ReadsArgument w (.mk x none) where
  starts := h.starts
  argument rest hrest hcolon := by
    have hlabel : label? (w ++ rest) = none := by
      by_cases hs : s < 9
      · exact (h.compound hs).label rest
      · exact (h.lead (by omega)).label?_eq hcolon
    rw [readArgument, hlabel]
    dsimp only
    rw [h.expression rest hrest]
    rfl

theorem ReadsAs.labelled (h : ReadsAs w x s) (n : String) :
    ReadsArgument (nameLexeme n :: .mark .colon :: w) (.mk x (some n)) where
  starts := ⟨_, _, rfl, starts_nameLexeme n⟩
  argument rest hrest _ := by
    have hlabel : label? (nameLexeme n :: .mark .colon :: w ++ rest) = some (n, w ++ rest) := by
      rw [cons_append, cons_append, label?, name?_nameLexeme]
    rw [readArgument, hlabel]
    dsimp only
    rw [h.expression rest hrest]
    rfl

def commaTokens (ws : List (List Lexeme)) : List Lexeme := intercalate [.mark .comma] ws

theorem readMoreArguments_commaTokens {close : Mark} (hclose : close.pull = 0)
    (hcolon : close ≠ .colon) (hcomma : close ≠ .comma) {w : List Lexeme} {a : Argument}
    (h : ReadsArgument w a) (hs : List.Forall₂ ReadsArgument ws as) (rest : List Lexeme) :
    readMoreArguments close (commaTokens (w :: ws) ++ .mark close :: rest) = some (a :: as, rest) := by
  induction hs generalizing w a with
  | nil =>
    have harg := h.argument (.mark close :: rest) hclose (by simpa using hcolon)
    rw [commaTokens, intercalate_singleton, readMoreArguments, harg]
    simp
  | @cons w' a' ws as h' _ ih =>
    have harg := h.argument (.mark .comma :: (commaTokens (w' :: ws) ++ .mark close :: rest)) rfl (by simp)
    have hsplit : commaTokens (w :: w' :: ws) ++ .mark close :: rest =
        w ++ .mark .comma :: (commaTokens (w' :: ws) ++ .mark close :: rest) := by
      simp [commaTokens, intercalate_cons_cons]
    rw [hsplit, readMoreArguments, harg]
    simp [hcomma.symm, ih h']

theorem readArguments_commaTokens (close : Mark) (hclose : close.pull = 0) (hcolon : close ≠ .colon)
    (hcomma : close ≠ .comma) (hstarts : (Lexeme.mark close).starts = false)
    (hs : List.Forall₂ ReadsArgument ws as) (rest : List Lexeme) :
    readArguments close (commaTokens ws ++ .mark close :: rest) = some (as, rest) := by
  cases hs with
  | nil =>
    change readArguments close (.mark close :: rest) = _
    rw [readArguments, if_pos rfl]
  | @cons w a ws as h hs =>
    have hmore := readMoreArguments_commaTokens hclose hcolon hcomma h hs rest
    obtain ⟨t, more, rfl, ht⟩ := h.starts
    obtain ⟨rest', heq⟩ : ∃ r, commaTokens ((t :: more) :: ws) ++ .mark close :: rest = t :: r := by
      cases ws with
      | nil | cons w' ws => exact ⟨_, rfl⟩
    rw [heq] at hmore ⊢
    unfold readArguments
    split
    · next m _ heq' =>
      obtain rfl := (cons.inj heq').1
      rw [if_neg, hmore]
      rintro rfl
      rw [hstarts] at ht
      cases ht
    · exact hmore

theorem ReadsAs.call (h : ReadsAs w x s) (hs : 9 ≤ s) (has : List.Forall₂ ReadsArgument ws as) :
    ReadsAs (w ++ Lexeme.mark .openParen :: (commaTokens ws ++ [Lexeme.mark .closeParen])) (.invocation x as) 9 := by
  refine h.extend hs rfl fun rest => ?_
  have hargs := readArguments_commaTokens .closeParen rfl (by simp) (by simp) rfl has rest
  rw [extendPostfix, append_assoc, singleton_append, hargs]
  rfl

theorem readsAs_creation {n : String} (h : ∀ rest, readCreation (.word n :: (v ++ rest)) = some (x, rest)) :
    ReadsAs (.word "new" :: .word n :: v) x 9 := by
  have hname (r : List Lexeme) : name? (.word "new" :: r) = none := by rw [name?, if_pos (by decide)]
  refine readsAs_of_operand (.other _ hname (by simp) rfl) ?_ fun rest => ?_
  · rintro m more heq
    cases (cons.inj heq).1
  · rw [readPostfix, cons_append, readPrimary, if_pos rfl, cons_append, h]
    rfl

theorem readsAs_object (n : String) (hs : List.Forall₂ ReadsArgument ws as) :
    ReadsAs (.word "new" :: .word n :: .mark .openParen :: (commaTokens ws ++ [Lexeme.mark .closeParen]))
      (.objectCreation (.type n) as) 9 := by
  refine readsAs_creation fun rest => ?_
  have hargs := readArguments_commaTokens .closeParen rfl (by simp) (by simp) rfl hs rest
  rw [cons_append, append_assoc, singleton_append, readCreation, hargs]
  rfl

theorem values?_map (xs : List Expr) : values? (xs.map fun x => .mk x none) = some xs := by
  induction xs with
  | nil => rfl
  | cons x xs ih => rw [map_cons, values?, ih, map_some]

theorem readsAs_array (n : String) {xs : List Expr} (hs : List.Forall₂ ReadsArgument ws (xs.map fun x => .mk x none)) :
    ReadsAs (.word "new" :: .word n :: .mark .openBracket :: .mark .closeBracket :: .mark .openBrace ::
      (commaTokens ws ++ [Lexeme.mark .closeBrace])) (.arrayCreation n xs) 9 := by
  refine readsAs_creation fun rest => ?_
  have hargs := readArguments_commaTokens .closeBrace rfl (by simp) (by simp) rfl hs rest
  rw [cons_append, cons_append, cons_append, append_assoc, singleton_append, readCreation, hargs]
  simp [values?_map]

/-! ### Signs and binary operators -/

def UnaryOp.mark : UnaryOp → Mark
  | negate => .binary .subtract
  | not => .bang
  | increment => .increment
  | decrement => .decrement

def UnaryOp.isSign : UnaryOp → Bool
  | negate | not => true
  | _ => false

theorem ReadsAs.signed (h : ReadsAs v x s) (hs : 8 ≤ s) {op : UnaryOp} (hop : op.isSign = true) :
    ReadsAs (.mark op.mark :: v) (.prefixed op x) 8 := by
  have hstarts : (Lexeme.mark op.mark).starts = true := by
    cases op with
    | negate | not => rfl
    | _ => cases hop
  have hparen : Lexeme.mark op.mark ≠ .mark .openParen := by
    cases op with
    | negate | not => simp [UnaryOp.mark]
    | _ => cases hop
  refine readsAs_of_unary (.other v (fun _ => rfl) hparen hstarts)
    (fun _ => compound_other (fun _ => rfl) hstarts) (fun hs => absurd hs (by decide)) ?_
    (fun hs => absurd hs (by decide))
  intro rest hrest
  have hoperand := h.unary hs rest hrest
  cases op with
  | negate | not =>
    rw [UnaryOp.mark, cons_append, readUnary, hoperand]
    rfl
  | _ => cases hop

/-- An operand put to the right of an operator. A chain of one and the same operator that needs no
parentheses takes the operand at its left end. -/
def graft (op : BinaryOp) (x : Expr) : Expr → Expr
  | .binary op' y z =>
    if op.isAssociative && op' == op then .binary op (graft op x y) z
    else .binary op x (.binary op' y z)
  | y => .binary op x y

theorem graft_of_not_chain (h : (op.isAssociative && y.isBinary op) = false) (x : Expr) :
    graft op x y = .binary op x y := by
  cases y with
  | binary op' y z =>
    have hop : (op.isAssociative && op' == op) = false := h
    rw [graft, hop, if_neg Bool.false_ne_true]
  | _ => rfl

theorem isBinary_graft (op op' : BinaryOp) (x y : Expr) : (graft op x y).isBinary op' = (op == op') := by
  cases y with
  | binary =>
    rw [graft]
    split <;> rfl
  | _ => rfl

theorem graft_chain (h : op.isAssociative = true) (x y z : Expr) :
    graft op x (.binary op y z) = .binary op (graft op x y) z := by
  rw [graft, h, beq_self_eq_true, Bool.and_self, if_pos rfl]

theorem graft_assoc {op : BinaryOp} (h : op.isAssociative = true) (x y : Expr) :
    (z : Expr) → graft op (graft op x y) z = graft op x (graft op y z)
  | .binary op' z z' => by
    by_cases hop : op' = op
    · subst hop
      rw [graft_chain h, graft_chain h, graft_chain h, graft_assoc h x y z]
    · have hchain : (op.isAssociative && (Expr.binary op' z z').isBinary op) = false := by simp [Expr.isBinary, hop]
      rw [graft_of_not_chain hchain, graft_of_not_chain hchain, graft_chain h]
  | .identifier _ | .literal _ | .interpolated _ | .prefixed _ _ | .postfixed _ _ | .assignment _ _ _
  | .conditional _ _ _ | .memberAccess _ _ _ | .invocation _ _ | .elementAccess _ _
  | .objectCreation _ _ | .arrayCreation _ _ | .lambda _ _ | .foreign _ => (graft_chain h x y _).symm

def Extends (op : BinaryOp) (v : List Lexeme) (y : Expr) : Prop :=
  ∀ k ≤ op.rank, ∀ x rest, pull rest ≤ op.rank + 3 →
    extendBinary k x (.mark (.binary op) :: (v ++ rest)) = extendBinary k (graft op x y) rest

theorem ReadsAs.extends (h : ReadsAs v y t) (ht : op.rank + 3 ≤ t)
    (hchain : (op.isAssociative && y.isBinary op) = false) : Extends op v y := by
  intro k hk x rest hrest
  have hrank := op.rank_lt
  have hright : readBinary (op.rank + 1) (v ++ rest) = some (y, rest) := by
    rw [h.binary _ (by omega) rest (by omega) (by omega), extendBinary_of_pull (by omega)]
  rw [extendBinary, if_pos hk, hright, graft_of_not_chain hchain]
  rfl

theorem Extends.chain (hop : op.isAssociative = true) (hy : Extends op v y) (hz : Extends op u z) :
    Extends op (v ++ .mark (.binary op) :: u) (graft op y z) := by
  intro k hk x rest hrest
  have hfirst := hy k hk x (.mark (.binary op) :: (u ++ rest)) (Nat.le_refl _)
  rw [append_assoc, cons_append, hfirst, hz k hk _ rest hrest, graft_assoc hop]

theorem ReadsAs.joined (h : ReadsAs w x s) (hs : op.rank + 2 ≤ s) (hy : Extends op v y) :
    ReadsAs (w ++ .mark (.binary op) :: v) (graft op x y) (op.rank + 2) := by
  have hrank := op.rank_lt
  have hlead := h.lead (by omega)
  refine readsAs_of_binary (hlead.extend rfl v) (hlead.compound rfl v) (by omega) (by omega) ?_
  intro k hk rest hrest
  have hpull : pull (.mark (.binary op) :: (v ++ rest)) = op.rank + 3 := rfl
  rw [append_assoc, cons_append, h.binary k (by omega) _ (by omega) (by omega), hy k (by omega) x rest hrest]

/-! ### Conditionals, assignments and lambdas -/

theorem ReadsAs.conditionally (h : ReadsAs w x s) (hs : 2 ≤ s) (hv : ReadsAs v y t)
    {r : Nat} (hu : ReadsAs u z r) (hr : 1 ≤ r) :
    ReadsAs (w ++ .mark .question :: (v ++ .mark .colon :: u)) (.conditional x y z) 1 := by
  have hlead := h.lead (by omega)
  refine readsAs_of_conditional (hlead.extend rfl _) (hlead.compound rfl _) fun rest hrest => ?_
  have hcondition : readBinary 0 (w ++ .mark .question :: (v ++ .mark .colon :: (u ++ rest))) =
      some (x, .mark .question :: (v ++ .mark .colon :: (u ++ rest))) := by
    have hpull : pull (.mark .question :: (v ++ .mark .colon :: (u ++ rest))) = 2 := rfl
    rw [h.binary 0 hs _ (by omega) (by omega), extendBinary_of_pull (by omega)]
  have htrue := hv.expression (.mark .colon :: (u ++ rest)) rfl
  have hfalse := hu.conditional hr rest hrest
  have hsplit : w ++ .mark .question :: (v ++ .mark .colon :: u) ++ rest =
      w ++ .mark .question :: (v ++ .mark .colon :: (u ++ rest)) := by simp
  rw [hsplit, readConditional, hcondition]
  dsimp only [bind_eq_bind, bind_some]
  rw [htrue]
  dsimp only [bind_some]
  rw [hfalse]
  rfl

theorem ReadsAs.assigned (h : ReadsAs w x s) (hs : 1 ≤ s) (op : AssignOp) (hv : ReadsAs v y t) :
    ReadsAs (w ++ .mark (.assign op) :: v) (.assignment op x y) 0 where
  lead hs := by omega
  compound _ := (h.lead hs).compound rfl v
  unsigned hs := by omega
  conditional hs := by omega
  binary k hk := by omega
  unary hs := by omega
  operand hs := by omega
  expression rest hrest := by
    have hhead := ((h.lead hs).extend (m := .assign op) rfl v).lambdaHead?_eq hrest
    have htarget := h.conditional hs (.mark (.assign op) :: (v ++ rest)) (Nat.le_refl _)
    have hvalue := hv.expression rest hrest
    rw [readExpression, hhead]
    dsimp only
    rw [append_assoc, cons_append, htarget]
    dsimp only [bind_eq_bind, bind_some]
    rw [hvalue]
    rfl

def parameterTokens : List String → List Lexeme
  | [p] => [nameLexeme p]
  | ps => .mark .openParen :: (commaTokens (ps.map fun p => [nameLexeme p]) ++ [.mark .closeParen])

theorem names?_commaTokens (p : String) (ps : List String) (rest : List Lexeme) :
    names? (commaTokens ((p :: ps).map fun p => [nameLexeme p]) ++ .mark .closeParen :: rest) =
      some (p :: ps, rest) := by
  induction ps generalizing p with
  | nil =>
    rw [map_singleton, commaTokens, intercalate_singleton, singleton_append, names?, name?_nameLexeme]
    rfl
  | cons q ps ih =>
    have hsplit : commaTokens ((p :: q :: ps).map fun p => [nameLexeme p]) ++
        .mark .closeParen :: rest = nameLexeme p :: .mark .comma ::
          (commaTokens ((q :: ps).map fun p => [nameLexeme p]) ++ .mark .closeParen :: rest) := by
      simp [commaTokens, intercalate_cons_cons]
    rw [hsplit, names?, name?_nameLexeme]
    dsimp only [bind_eq_bind, bind_some]
    rw [ih]
    rfl

theorem lambdaHead?_parameterTokens (ps : List String) (rest : List Lexeme) :
    lambdaHead? (parameterTokens ps ++ .mark .arrow :: rest) = some (ps, rest) := by
  match ps with
  | [] => rfl
  | [p] => rw [parameterTokens, singleton_append, lambdaHead?, name?_nameLexeme]
  | p :: q :: ps =>
    have hnames := names?_commaTokens p (q :: ps) (.mark .arrow :: rest)
    have hsplit : parameterTokens (p :: q :: ps) ++ .mark .arrow :: rest = .mark .openParen ::
        (commaTokens ((p :: q :: ps).map fun p => [nameLexeme p]) ++ .mark .closeParen :: .mark .arrow :: rest) := by
      simp [parameterTokens]
    rw [hsplit, lambdaHead?_of_not_name (fun _ => rfl), parameters?, hnames]
    intro _ heq
    rw [map_cons, map_cons, commaTokens, intercalate_cons_cons] at heq
    exact absurd (cons.inj heq).1 (nameLexeme_ne_mark p _)

theorem ReadsAs.lambda (h : ReadsAs v y t) (ps : List String) :
    ReadsAs (parameterTokens ps ++ .mark .arrow :: v) (.lambda ps (.expression y)) 0 where
  lead hs := by omega
  compound _ := by
    match ps with
    | [] => exact compound_other (fun _ => rfl) rfl
    | [p] => exact compound_name (.inl rfl)
    | p :: q :: ps => exact compound_other (fun _ => rfl) rfl
  unsigned hs := by omega
  conditional hs := by omega
  binary k hk := by omega
  unary hs := by omega
  operand hs := by omega
  expression rest hrest := by
    rw [append_assoc, cons_append, readExpression, lambdaHead?_parameterTokens]
    dsimp only
    rw [h.expression rest hrest]
    rfl

end

end GroovySharp.CSharp
