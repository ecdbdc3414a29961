import GroovySharp.Proofs.HoleScopes
import GroovySharp.Proofs.PrecedenceReading

/-!
# Rendered expressions are read back

The text of an expression, read by the precedence of C#, is the expression again.
-/

namespace GroovySharp.CSharp

open Unicode Bool CSharp.Expr

/-! ### Expressions with plain names -/

def Literal.isPlain : Literal → Bool
  | integer n => decide (0 ≤ n)
  | decimal text => isDecimal text
  | _ => Bool.true

def Created.isPlain : Created → Bool
  | .type n => isName n
  | _ => false

mutual

/-- All names are ASCII identifiers, the names of members are no keywords, signs stand before their
operands and steps after them, and the bodies of lambdas are expressions. -/
def Expr.isPlain : Expr → Bool
  | .identifier n => isName n
  | .literal value => value.isPlain
  | .interpolated contents => contentsPlain contents
  | .binary _ left right => left.isPlain && right.isPlain
  | .prefixed op operand => op.isSign && operand.isPlain
  | .postfixed op operand => !op.isSign && operand.isPlain
  | .assignment _ target value => target.isPlain && value.isPlain
  | .conditional condition whenTrue whenFalse => condition.isPlain && (whenTrue.isPlain && whenFalse.isPlain)
  | .memberAccess target n _ => target.isPlain && (isName n && !keywords.contains n)
  | .invocation callee arguments => callee.isPlain && argumentsPlain arguments
  | .elementAccess target index => target.isPlain && index.isPlain
  | .objectCreation created arguments => created.isPlain && argumentsPlain arguments
  | .arrayCreation n elements => isName n && exprsPlain elements
  | .lambda parameters body => parameters.all isName && body.isPlain
  | .foreign _ => false

def exprsPlain : List Expr → Bool
  | [] => true
  | e :: es => e.isPlain && exprsPlain es

def contentsPlain : List Content → Bool
  | [] => true
  | c :: cs => c.isPlain && contentsPlain cs

def Content.isPlain : Content → Bool
  | .text _ => true
  | .hole value => value.isPlain

def argumentsPlain : List Argument → Bool
  | [] => true
  | a :: as => a.isPlain && argumentsPlain as

def Argument.isPlain : Argument → Bool
  | .mk value n => value.isPlain && n.all isName

def LambdaBody.isPlain : LambdaBody → Bool
  | .expression value => value.isPlain
  | .block _ => false

end

/-! ### What is read back -/

def writtenText (indent : Points) (level : Nat) (e : Expr) : Points :=
  (exprText indent level e).toOption.getD []

mutual

/-- The expression with every chain of one and the same `&&` or `||` leaning to the left, and the
contents of an interpolated string as it is written. -/
def Expr.reread (indent : Points) (level : Nat) : Expr → Expr
  | .identifier n => .identifier n
  | .literal value => .literal value
  | .interpolated contents =>
    .interpolated [.text (writtenText indent level (.interpolated contents))]
  | .binary op left right => graft op (left.reread indent level) (right.reread indent level)
  | .prefixed op operand => .prefixed op (operand.reread indent level)
  | .postfixed op operand => .postfixed op (operand.reread indent level)
  | .assignment op target value =>
    .assignment op (target.reread indent level) (value.reread indent level)
  | .conditional condition whenTrue whenFalse =>
    .conditional (condition.reread indent level) (whenTrue.reread indent level) (whenFalse.reread indent level)
  | .memberAccess target n nullable => .memberAccess (target.reread indent level) n nullable
  | .invocation callee arguments =>
    .invocation (callee.reread indent level) (argumentsReread indent level arguments)
  | .elementAccess target index =>
    .elementAccess (target.reread indent level) (index.reread indent level)
  | .objectCreation created arguments =>
    .objectCreation created (argumentsReread indent level arguments)
  | .arrayCreation n elements => .arrayCreation n (exprsReread indent level elements)
  | .lambda parameters body => .lambda parameters (body.reread indent level)
  | .foreign category => .foreign category

def exprsReread (indent : Points) (level : Nat) : List Expr → List Expr
  | [] => []
  | e :: es => e.reread indent level :: exprsReread indent level es

def argumentsReread (indent : Points) (level : Nat) : List Argument → List Argument
  | [] => []
  | a :: as => a.reread indent level :: argumentsReread indent level as

def Argument.reread (indent : Points) (level : Nat) : Argument → Argument
  | .mk value n => .mk (value.reread indent level) n

def LambdaBody.reread (indent : Points) (level : Nat) : LambdaBody → LambdaBody
  | .expression value => .expression (value.reread indent level)
  | .block statements => .block statements

end

theorem isBinary_reread (indent : Points) (level : Nat) (e : Expr) (op : BinaryOp) :
    (e.reread indent level).isBinary op = e.isBinary op := by
  cases e with
  | binary op' left right => rw [reread, isBinary_graft, isBinary]
  | _ => simp only [reread, isBinary]

/-! ### The tokens of an expression -/

def Created.name : Created → String
  | .type n => n
  | _ => ""

def wrapTokens (e : Expr) (least : Nat) (ts : List Lexeme) : List Lexeme :=
  if e.precedence < least then .mark .openParen :: (ts ++ [.mark .closeParen]) else ts

def Expr.isPrefixed (op : UnaryOp) : Expr → Bool
  | prefixed op' _ => op' == op
  | _ => false

mutual

def exprTokens (indent : Points) (level : Nat) : Expr → List Lexeme
  | .identifier n => [nameLexeme n]
  | .literal value => [value.lexeme]
  | .interpolated contents => [.interpolated (writtenText indent level (.interpolated contents))]
  | .binary op left right =>
    let least := if op.isAssociative && right.isBinary op then op.precedence else op.precedence + 1
    wrapTokens left op.precedence (exprTokens indent level left) ++ .mark (.binary op) ::
      wrapTokens right least (exprTokens indent level right)
  | .prefixed op operand =>
    let ts := wrapTokens operand 12 (exprTokens indent level operand)
    .mark op.mark :: (if operand.isPrefixed op then .mark .openParen :: (ts ++ [.mark .closeParen]) else ts)
  | .postfixed op operand => wrapTokens operand 13 (exprTokens indent level operand) ++ [.mark op.mark]
  | .assignment op target value =>
    wrapTokens target 12 (exprTokens indent level target) ++ .mark (.assign op) :: exprTokens indent level value
  | .conditional condition whenTrue whenFalse =>
    wrapTokens condition 3 (exprTokens indent level condition) ++ .mark .question ::
      (wrapTokens whenTrue 2 (exprTokens indent level whenTrue) ++ .mark .colon ::
        wrapTokens whenFalse 2 (exprTokens indent level whenFalse))
  | .memberAccess target n nullable =>
    wrapTokens target 13 (exprTokens indent level target) ++ [.mark (if nullable then .safeDot else .dot), .word n]
  | .invocation callee arguments =>
    wrapTokens callee 13 (exprTokens indent level callee) ++ .mark .openParen ::
      (commaTokens (argumentsTokens indent level arguments) ++ [.mark .closeParen])
  | .elementAccess target index =>
    wrapTokens target 13 (exprTokens indent level target) ++ .mark .openBracket ::
      (exprTokens indent level index ++ [.mark .closeBracket])
  | .objectCreation created arguments =>
    .word "new" :: .word created.name :: .mark .openParen ::
      (commaTokens (argumentsTokens indent level arguments) ++ [.mark .closeParen])
  | .arrayCreation n elements =>
    .word "new" :: .word n :: .mark .openBracket :: .mark .closeBracket :: .mark .openBrace ::
      (commaTokens (exprsTokens indent level elements) ++ [.mark .closeBrace])
  | .lambda parameters body => parameterTokens parameters ++ .mark .arrow :: body.tokens indent level
  | .foreign _ => []

def exprsTokens (indent : Points) (level : Nat) : List Expr → List (List Lexeme)
  | [] => []
  | e :: es => exprTokens indent level e :: exprsTokens indent level es

def argumentsTokens (indent : Points) (level : Nat) : List Argument → List (List Lexeme)
  | [] => []
  | a :: as => a.tokens indent level :: argumentsTokens indent level as

def Argument.tokens (indent : Points) (level : Nat) : Argument → List Lexeme
  | .mk value none => exprTokens indent level value
  | .mk value (some n) => nameLexeme n :: .mark .colon :: exprTokens indent level value

def LambdaBody.tokens (indent : Points) (level : Nat) : LambdaBody → List Lexeme
  | .expression value => exprTokens indent level value
  | .block _ => []

end

/-! ### Reading the tokens -/

/-- The strength of a precedence: there are no gaps between the levels of the reader. -/
def strengthOf (precedence : Nat) : Nat :=
  if precedence ≤ 4 then precedence - 1
  else if precedence ≤ 7 then 4
  else if precedence ≤ 8 then 5
  else if precedence ≤ 10 then 6
  else precedence - 4

def Expr.strength (e : Expr) : Nat := strengthOf e.precedence

theorem strengthOf_mono {p q : Nat} (h : p ≤ q) : strengthOf p ≤ strengthOf q := by
  unfold strengthOf
  repeat' split
  all_goals omega

theorem BinaryOp.strengthOf_precedence (op : BinaryOp) : strengthOf op.precedence = op.rank + 2 := by
  cases op <;> decide

theorem BinaryOp.strengthOf_succ (op : BinaryOp) : strengthOf (op.precedence + 1) = op.rank + 3 := by
  cases op <;> decide

theorem lt_precedence_of_chain {op : BinaryOp} {e : Expr} (hop : op.isAssociative = true)
    (h : op.precedence ≤ e.precedence) (hne : e.isBinary op = false) : op.precedence + 1 ≤ e.precedence := by
  refine Nat.lt_of_le_of_ne h fun heq => ?_
  cases e with
  | binary op' l r =>
    have hop' : op.precedence = op'.precedence := heq
    have hsame : ∀ op op' : BinaryOp, op.isAssociative = true → op.precedence = op'.precedence →
        (op' == op) = true := by
      intro op op'
      cases op <;> cases op' <;> decide
    rw [isBinary, hsame op op' hop hop'] at hne
    cases hne
  | _ => cases op <;> cases heq

section

variable {indent : Points} {level : Nat}

theorem ReadsAs.wrapped {e x : Expr} {w : List Lexeme} (h : ReadsAs w x e.strength) (least : Nat)
    (hleast : least ≤ 13) : ∃ s, strengthOf least ≤ s ∧ ReadsAs (wrapTokens e least w) x s := by
  unfold wrapTokens
  split
  · next hlt =>
    have hweak : e.strength < 9 := by
      have hmono := strengthOf_mono (Nat.le_of_lt_succ (Nat.lt_of_lt_of_le hlt hleast))
      have htop : strengthOf 12 = 8 := rfl
      unfold Expr.strength
      omega
    exact ⟨9, strengthOf_mono hleast, h.paren (h.compound hweak)⟩
  · next hge => exact ⟨e.strength, strengthOf_mono (Nat.le_of_not_lt hge), h⟩

/-- The tokens of the expression are read as the expression. A chain of one operator also extends the
operands before it link by link. -/
structure ReadsBack (indent : Points) (level : Nat) (e : Expr) : Prop where
  reads : ReadsAs (exprTokens indent level e) (e.reread indent level) e.strength
  chain : ∀ op : BinaryOp, op.isAssociative = true → e.isBinary op = true →
    Extends op (exprTokens indent level e) (e.reread indent level) := by rintro _ _ ⟨⟩

variable {op : BinaryOp}

theorem ReadsBack.extends_tighter {e : Expr} (h : ReadsBack indent level e)
    (hchain : (op.isAssociative && e.isBinary op) = false) :
    Extends op (wrapTokens e (op.precedence + 1) (exprTokens indent level e)) (e.reread indent level) := by
  have hleast : op.precedence + 1 ≤ 13 := by cases op <;> decide
  obtain ⟨s, hs, hreads⟩ := h.reads.wrapped (op.precedence + 1) hleast
  rw [op.strengthOf_succ] at hs
  refine hreads.extends hs ?_
  rw [isBinary_reread]
  exact hchain

theorem ReadsBack.extends_chain {e : Expr} (h : ReadsBack indent level e) (hop : op.isAssociative = true) :
    Extends op (wrapTokens e op.precedence (exprTokens indent level e)) (e.reread indent level) := by
  cases hbinary : e.isBinary op with
  | true =>
    have hnot : ¬ e.precedence < op.precedence := by
      cases e with
      | binary op' l r =>
        obtain rfl : op' = op := eq_of_beq hbinary
        exact Nat.lt_irrefl _
      | _ => cases hbinary
    rw [wrapTokens, if_neg hnot]
    exact h.chain op hop hbinary
  | false =>
    have hsame : wrapTokens e op.precedence (exprTokens indent level e) =
        wrapTokens e (op.precedence + 1) (exprTokens indent level e) := by
      have hiff : e.precedence < op.precedence ↔ e.precedence < op.precedence + 1 := by
        have hgap := lt_precedence_of_chain (e := e) hop
        constructor
        · omega
        · intro hlt
          by_contra hge
          have := hgap (Nat.le_of_not_lt hge) hbinary
          omega
      unfold wrapTokens
      simp only [hiff]
    rw [hsame]
    exact h.extends_tighter (by rw [hbinary, Bool.and_false])

theorem readsBack_binary {left right : Expr} (hl : ReadsBack indent level left)
    (hr : ReadsBack indent level right) : ReadsBack indent level (.binary op left right) := by
  have hright : Extends op (wrapTokens right
        (if op.isAssociative && right.isBinary op then op.precedence else op.precedence + 1)
        (exprTokens indent level right)) (right.reread indent level) := by
    cases hchain : op.isAssociative && right.isBinary op with
    | true => exact hr.extends_chain (and_eq_true_iff.mp hchain).1
    | false => exact hr.extends_tighter hchain
  have hleast : op.precedence ≤ 13 := by cases op <;> decide
  have hstrength : (Expr.binary op left right).strength = op.rank + 2 := op.strengthOf_precedence
  obtain ⟨s, hs, hleft⟩ := hl.reads.wrapped op.precedence hleast
  rw [op.strengthOf_precedence] at hs
  refine ⟨?_, fun op' hop hop' => ?_⟩
  · rw [hstrength, exprTokens, reread]
    exact hleft.joined hs hright
  · obtain rfl : op = op' := eq_of_beq hop'
    rw [exprTokens, reread]
    exact (hl.extends_chain hop).chain hop hright

theorem readsBack_prefixed {op : UnaryOp} {operand : Expr} (hop : op.isSign = true)
    (h : ReadsBack indent level operand) : ReadsBack indent level (.prefixed op operand) := by
  refine { reads := ?_ }
  obtain ⟨s, hs, hreads⟩ := h.reads.wrapped 12 (by decide)
  rw [exprTokens, reread]
  split
  · next hsame =>
    -- The operand has a sign of its own, so it is not in parentheses yet.
    cases operand with
    | prefixed op' e =>
      have hcompound := h.reads.compound (Nat.lt_succ_self 8)
      exact (h.reads.paren hcompound).signed (by decide) hop
    | _ => cases hsame
  · exact hreads.signed hs hop

theorem readsBack_postfixed {op : UnaryOp} {operand : Expr} (hop : op.isSign = false)
    (h : ReadsBack indent level operand) : ReadsBack indent level (.postfixed op operand) := by
  refine { reads := ?_ }
  obtain ⟨s, hs, hreads⟩ := h.reads.wrapped 13 (by decide)
  rw [exprTokens, reread]
  cases op with
  | increment => exact hreads.increment hs
  | decrement => exact hreads.decrement hs
  | _ => cases hop

mutual

theorem readsBack : (e : Expr) → e.isPlain = true → ReadsBack indent level e
  | .identifier n, _ => { reads := by rw [exprTokens, reread]; exact readsAs_identifier n }
  | .literal value, h => by
    refine { reads := ?_ }
    rw [exprTokens, reread]
    refine readsAs_literal ?_
    rintro n rfl
    exact of_decide_eq_true h
  | .interpolated contents, _ => ⟨by rw [exprTokens, reread]; exact readsAs_interpolated _, fun _ _ h => by cases h⟩
  | .binary op left right, h => by
    rw [Expr.isPlain, and_eq_true] at h
    exact readsBack_binary (readsBack left h.1) (readsBack right h.2)
  | .prefixed op operand, h => by
    rw [Expr.isPlain, and_eq_true] at h
    exact readsBack_prefixed h.1 (readsBack operand h.2)
  | .postfixed op operand, h => by
    rw [Expr.isPlain, and_eq_true, not_eq_true'] at h
    exact readsBack_postfixed h.1 (readsBack operand h.2)
  | .assignment op target value, h => by
    rw [Expr.isPlain, and_eq_true] at h
    obtain ⟨s, hs, htarget⟩ := (readsBack target h.1).reads.wrapped 12 (by decide)
    have hs : 8 ≤ s := hs
    refine { reads := ?_ }
    rw [exprTokens, reread]
    exact htarget.assigned (by omega) op (readsBack value h.2).reads
  | .conditional condition whenTrue whenFalse, h => by
    rw [Expr.isPlain, and_eq_true, and_eq_true] at h
    obtain ⟨s, hs, hcondition⟩ := (readsBack condition h.1).reads.wrapped 3 (by decide)
    obtain ⟨s', hs', htrue⟩ := (readsBack whenTrue h.2.1).reads.wrapped 2 (by decide)
    obtain ⟨s'', hs'', hfalse⟩ := (readsBack whenFalse h.2.2).reads.wrapped 2 (by decide)
    refine { reads := ?_ }
    rw [exprTokens, reread]
    exact hcondition.conditionally hs htrue hfalse hs''
  | .memberAccess target n nullable, h => by
    rw [Expr.isPlain, and_eq_true, and_eq_true, not_eq_true'] at h
    obtain ⟨s, hs, htarget⟩ := (readsBack target h.1).reads.wrapped 13 (by decide)
    refine { reads := ?_ }
    rw [exprTokens, reread]
    exact htarget.member hs h.2.2 nullable
  | .invocation callee arguments, h => by
    rw [Expr.isPlain, and_eq_true] at h
    obtain ⟨s, hs, hcallee⟩ := (readsBack callee h.1).reads.wrapped 13 (by decide)
    refine { reads := ?_ }
    rw [exprTokens, reread]
    exact hcallee.call hs (readsBack_arguments arguments h.2)
  | .elementAccess target index, h => by
    rw [Expr.isPlain, and_eq_true] at h
    obtain ⟨s, hs, htarget⟩ := (readsBack target h.1).reads.wrapped 13 (by decide)
    refine { reads := ?_ }
    rw [exprTokens, reread]
    exact htarget.index hs (readsBack index h.2).reads
  | .objectCreation created arguments, h => by
    rw [Expr.isPlain, and_eq_true] at h
    refine { reads := ?_ }
    rw [exprTokens, reread]
    cases created with
    | type n => exact readsAs_object n (readsBack_arguments arguments h.2)
    | _ => cases h.1
  | .arrayCreation n elements, h => by
    rw [Expr.isPlain, and_eq_true] at h
    refine { reads := ?_ }
    rw [exprTokens, reread]
    exact readsAs_array n (readsBack_exprs elements h.2)
  | .lambda parameters (.expression value), h => by
    rw [Expr.isPlain, and_eq_true] at h
    have hvalue : value.isPlain = true := by
      rw [← LambdaBody.isPlain]
      exact h.2
    refine { reads := ?_ }
    rw [exprTokens, reread, LambdaBody.tokens, LambdaBody.reread]
    exact (readsBack value hvalue).reads.lambda parameters
  | .lambda parameters (.block statements), h => by
    rw [Expr.isPlain, LambdaBody.isPlain, Bool.and_false] at h
    cases h
  | .foreign _, h => by
    rw [Expr.isPlain] at h
    cases h

theorem readsBack_exprs : (es : List Expr) → exprsPlain es = true →
    List.Forall₂ ReadsArgument (exprsTokens indent level es) ((exprsReread indent level es).map fun x => .mk x none)
  | [], _ => by
    rw [exprsTokens, exprsReread]
    exact .nil
  | e :: es, h => by
    rw [exprsPlain, and_eq_true] at h
    rw [exprsTokens, exprsReread]
    exact .cons (readsBack e h.1).reads.argument (readsBack_exprs es h.2)

theorem readsBack_arguments : (as : List Argument) → argumentsPlain as = true →
    List.Forall₂ ReadsArgument (argumentsTokens indent level as) (argumentsReread indent level as)
  | [], _ => by
    rw [argumentsTokens, argumentsReread]
    exact .nil
  | .mk value n :: as, h => by
    rw [argumentsPlain, Argument.isPlain, and_eq_true, and_eq_true] at h
    have hvalue := (readsBack value h.1.1).reads
    rw [argumentsTokens, argumentsReread, Argument.reread]
    refine .cons ?_ (readsBack_arguments as h.2)
    cases n with
    | none =>
      rw [Argument.tokens]
      exact hvalue.argument
    | some n =>
      rw [Argument.tokens]
      exact hvalue.labelled n

end

end

end GroovySharp.CSharp
