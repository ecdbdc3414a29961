import GroovySharp.Proofs.RenderedExpressions
import GroovySharp.Proofs.Run

/-!
# The text of an expression has its tokens

The text that is written for a plain expression is cut into the tokens of the expression.
-/

namespace GroovySharp.CSharp

open Unicode List Bool

/-! ### How a text starts -/

def isLead (p : CodePoint) : Bool :=
  isNameStart p || isDigitPoint p || (points "\"$@(").contains p

def isSignPoint (p : CodePoint) : Bool := (points "-!").contains p

variable {p : CodePoint}

theorem isSecond_of_isLead (h : isLead p = true) : Mark.isSecond p = false := by
  refine eq_false_iff.mpr fun hsecond => ?_
  have hmem : p ∈ points ">.+-=&|" := contains_iff_mem.mp hsecond
  have hall : ∀ q ∈ points ">.+-=&|", isLead q = false := by decide
  rw [hall p hmem] at h
  cases h

theorem isHolePoint_of {f : CodePoint → Bool} (hall : ∀ q ∈ points "\"$\x7b\x7d", f q = false) (h : f p = true) :
    isHolePoint p = true := by
  refine not_eq_true' _ ▸ eq_false_iff.mpr fun hmem => ?_
  rw [hall p (contains_iff_mem.mp hmem)] at h
  cases h

theorem isHolePoint_of_isNamePoint : isNamePoint p = true → isHolePoint p = true := isHolePoint_of (by decide)

theorem isHolePoint_of_isDigitPoint : isDigitPoint p = true → isHolePoint p = true := isHolePoint_of (by decide)

/-! ### Written texts -/

structure WrittenItem (text : Points) (ts : List Lexeme) : Prop where
  spells : Spells text ts
  crosses : Crosses text

/-- The text of an expression: it starts with a sign only if it is not as strong as an operand. -/
structure Written (text : Points) (ts : List Lexeme) (s : Nat) : Prop extends WrittenItem text ts where
  head : ∃ p w, text = p :: w ∧ (isLead p = true ∨ s < 9 ∧ isSignPoint p = true)

section

variable {a b : Points} {ts us : List Lexeme} {s t k : Nat}

theorem Written.append (h : Written a ts s) (hk : k ≤ s) (hb : Spells b us) (hcross : Crosses b)
    (hclear : ∀ r, Clear (b ++ r)) : Written (a ++ b) (ts ++ us) k where
  spells := h.spells.then hb hclear
  crosses := h.crosses.append hcross
  head := by
    obtain ⟨p, w, rfl, hp⟩ := h.head
    refine ⟨p, w ++ b, rfl, hp.imp_right fun hsign => ⟨?_, hsign.2⟩⟩
    omega

theorem clear_blank (r : Points) : Clear (.scalar ' ' :: r) :=
  clear_cons r (by decide) (by decide) (by decide)

theorem crosses_blank : Crosses (points " ") := crosses_of_all (by decide)

theorem Mark.crosses_between {m : Mark} (hopen : m ≠ .openBrace) (hclose : m ≠ .closeBrace) :
    Crosses (points " " ++ points m.text ++ points " ") := by
  refine (crosses_blank.append (crosses_of_all ?_)).append crosses_blank
  cases m with
  | binary op | assign op => cases op <;> decide
  | openBrace => exact absurd rfl hopen
  | closeBrace => exact absurd rfl hclose
  | _ => decide

theorem Written.between (h : Written a ts s) (hk : k ≤ s) {m : Mark} (hopen : m ≠ .openBrace)
    (hclose : m ≠ .closeBrace) (hb : Written b us t) :
    Written (a ++ points " " ++ points m.text ++ points " " ++ b) (ts ++ .mark m :: us) k := by
  have hspells : Spells (points " " ++ points m.text ++ points " " ++ b) (.mark m :: us) :=
    (seals_between m).then hb.spells
  have hwritten := h.append hk hspells ((Mark.crosses_between hopen hclose).append hb.crosses) fun r => clear_blank _
  simpa only [append_assoc] using hwritten

theorem seals_enclosed (m m' : Mark) (hm : m.isWhole = true) (hm' : m'.isWhole = true)
    (hclear : ∀ r, Clear (points m'.text ++ r)) (hb : Spells b us) :
    Seals (points m.text ++ b ++ points m'.text) (.mark m :: (us ++ [Lexeme.mark m'])) := by
  have hclose := hb.seal (seals_mark hm') hclear
  have hseals := (seals_mark hm).append hclose
  rw [← append_assoc] at hseals
  exact hseals

theorem clear_close (r : Points) : Clear (points Mark.closeParen.text ++ r) :=
  clear_cons r (by decide) (by decide) (by decide)

theorem WrittenItem.paren (hb : WrittenItem b us) :
    Written (points "(" ++ b ++ points ")") (.mark .openParen :: (us ++ [Lexeme.mark .closeParen])) 9 where
  spells :=
    (seals_enclosed .openParen .closeParen rfl rfl clear_close hb.spells).spells
  crosses :=
    ((crosses_of_all (by decide)).append hb.crosses).append (crosses_of_all (by decide))
  head := ⟨.scalar '(', b ++ points ")", rfl, .inl (by decide)⟩

theorem Written.wrapped {e : Expr} (h : Written a ts e.strength) (least : Nat) (hleast : least ≤ 13) :
    ∃ s, strengthOf least ≤ s ∧ Written (wrapped e least a) (wrapTokens e least ts) s := by
  unfold CSharp.wrapped parenthesized wrapTokens
  by_cases hlt : e.precedence < least
  · rw [decide_eq_true hlt, if_pos rfl, if_pos hlt]
    exact ⟨9, strengthOf_mono hleast, h.toWrittenItem.paren⟩
  · rw [decide_eq_false hlt, if_neg Bool.false_ne_true, if_neg hlt]
    exact ⟨e.strength, strengthOf_mono (Nat.le_of_not_lt hlt), h⟩

/-! ### Names and literals -/

variable {n : String}

theorem crosses_name (h : isName n = true) : Crosses (points n) := by
  obtain ⟨p, w, hn, -, hall⟩ := isName_cons h
  rw [hn]
  exact crosses_of_all fun q hq => isHolePoint_of_isNamePoint (hall q hq)

theorem written_identifier (h : isName n = true) : Written (identifierText n) [nameLexeme n] 9 := by
  obtain ⟨p, w, hn, hstart, -⟩ := isName_cons h
  have hat : points ("@" ++ n) = points "@" ++ points n := by simp [points, ofChars, String.toList_append]
  refine ⟨⟨spells_identifier h, ?_⟩, ?_⟩
  · unfold identifierText escapeIdentifier
    split
    · rw [hat]
      exact (crosses_of_all (by decide)).append (crosses_name h)
    · exact crosses_name h
  · unfold identifierText escapeIdentifier
    split
    · rw [hat]
      exact ⟨.scalar '@', points n, rfl, .inl (by decide)⟩
    · exact ⟨p, w, hn, .inl (by rw [isLead, hstart, Bool.true_or, Bool.true_or])⟩

theorem written_word (h : isName n = true) : Written (points n) [.word n] 9 := by
  obtain ⟨p, w, hn, hstart, -⟩ := isName_cons h
  exact ⟨⟨spells_word h, crosses_name h⟩, p, w, hn, .inl (by rw [isLead, hstart, Bool.true_or, Bool.true_or])⟩

theorem written_number {t : Lexeme} (h : Spells a [t]) {p : CodePoint} {w : Points} (ha : a = p :: w)
    (hp : isDigitPoint p = true) (hall : ∀ q ∈ a, isHolePoint q = true) : Written a [t] 9 where
  spells := h
  crosses := crosses_of_all hall
  head := ⟨p, w, ha, .inl (by rw [isLead, hp, Bool.or_true, Bool.true_or])⟩

theorem written_literal {value : Literal} (h : value.isPlain = true) : Written value.text [value.lexeme] 9 := by
  cases value with
  | string value => exact ⟨⟨(seals_string value).spells, crosses_string value⟩, .scalar '"', _, rfl, .inl (by decide)⟩
  | integer n =>
    obtain ⟨k, rfl⟩ := Int.eq_ofNat_of_zero_le (of_decide_eq_true h)
    obtain ⟨p, w, hw, hall⟩ := repr_digits k
    have htext : (Literal.integer k).text = points k.repr := rfl
    rw [htext]
    refine written_number (spells_integer k) hw (hall p mem_cons_self) fun q hq => ?_
    exact isHolePoint_of_isDigitPoint (hall q (hw ▸ hq))
  | decimal text =>
    obtain ⟨d, ds, fs, rfl, -, hds, hfs⟩ := isDecimal_parts h
    refine written_number (spells_decimal h) rfl (hds d mem_cons_self) fun q hq => ?_
    obtain hq | hq := mem_append.mp hq
    · exact isHolePoint_of_isDigitPoint (hds q hq)
    · obtain rfl | hq := mem_cons.mp hq
      · decide
      · exact isHolePoint_of_isDigitPoint (hfs q hq)
  | true | false | null => exact written_word (by decide)

/-! ### What follows an operand -/

theorem clear_dot {p : CodePoint} (hp : isNameStart p = true) (r : Points) : Clear (.scalar '.' :: p :: r) := by
  rintro _ _ ⟨⟩
  refine ⟨by decide, by decide, fun _ d q hdq => ?_⟩
  obtain ⟨rfl, -⟩ := cons.inj hdq
  refine eq_false_iff.mpr fun hdigit => ?_
  rw [not_isNameStart_of_isDigitPoint hdigit] at hp
  cases hp

theorem Written.member (h : Written a ts s) (hs : 9 ≤ s) (hn : isName n = true) (nullable : Bool) :
    Written (a ++ points (if nullable then "?." else ".") ++ points n)
      (ts ++ [Lexeme.mark (if nullable then .safeDot else .dot), Lexeme.word n]) 9 := by
  obtain ⟨p, w, hp, hstart, -⟩ := isName_cons hn
  rw [append_assoc]
  cases nullable with
  | true =>
    have hspells : Spells (points "?." ++ points n) [.mark .safeDot, .word n] :=
      (seals_mark (m := .safeDot) rfl).then (spells_word hn)
    have hcross := (crosses_of_all (w := points "?.") (by decide)).append (crosses_name hn)
    exact h.append hs hspells hcross fun r => clear_cons _ (by decide) (by decide) (by decide)
  | false =>
    have hspells : Spells (points "." ++ points n) [.mark .dot, .word n] :=
      (seals_mark (m := .dot) rfl).then (spells_word hn)
    have hcross := (crosses_of_all (w := points ".") (by decide)).append (crosses_name hn)
    rw [hp] at hspells hcross ⊢
    exact h.append hs hspells hcross fun r => clear_dot hstart (w ++ r)

theorem Written.step (h : Written a ts s) (hs : 9 ≤ s) {op : UnaryOp} (hop : op.isSign = false) :
    Written (a ++ points op.text) (ts ++ [Lexeme.mark op.mark]) 9 := by
  cases op with
  | increment =>
    exact h.append hs (seals_mark (m := .increment) rfl).spells (crosses_of_all (by decide)) fun r =>
      clear_cons _ (by decide) (by decide) (by decide)
  | decrement =>
    exact h.append hs (seals_mark (m := .decrement) rfl).spells (crosses_of_all (by decide)) fun r =>
      clear_cons _ (by decide) (by decide) (by decide)
  | _ => cases hop

theorem Written.call (h : Written a ts s) (hs : 9 ≤ s) (hb : WrittenItem b us) :
    Written (a ++ points "(" ++ b ++ points ")")
      (ts ++ Lexeme.mark .openParen :: (us ++ [Lexeme.mark .closeParen])) 9 := by
  have hwritten := h.append hs hb.paren.spells hb.paren.crosses
    fun r => clear_cons _ (by decide) (by decide) (by decide)
  simpa only [append_assoc] using hwritten

theorem Written.index (h : Written a ts s) (hs : 9 ≤ s) (hb : Written b us t) :
    Written (a ++ points "[" ++ b ++ points "]")
      (ts ++ Lexeme.mark .openBracket :: (us ++ [Lexeme.mark .closeBracket])) 9 := by
  have hseals : Seals (points "[" ++ b ++ points "]")
      (.mark .openBracket :: (us ++ [Lexeme.mark .closeBracket])) :=
    seals_enclosed .openBracket .closeBracket rfl rfl
      (fun r => clear_cons _ (by decide) (by decide) (by decide)) hb.spells
  have hcross : Crosses (points "[" ++ b ++ points "]") :=
    ((crosses_of_all (by decide)).append hb.crosses).append (crosses_of_all (by decide))
  have hwritten := h.append hs hseals.spells hcross fun r => clear_cons _ (by decide) (by decide) (by decide)
  simpa only [append_assoc] using hwritten

/-! ### Lists -/

theorem seals_comma : Seals (points ", ") [.mark .comma] :=
  (seals_mark (m := .comma) rfl).append seals_blank

theorem written_joined {texts : List Points} {tss : List (List Lexeme)}
    (h : List.Forall₂ WrittenItem texts tss) : WrittenItem (joined ", " texts) (commaTokens tss) := by
  induction h with
  | nil => exact ⟨seals_nil.spells, crosses_nil⟩
  | @cons a ts texts tss ha hs ih =>
    cases hs with
    | nil =>
      rw [joined, commaTokens, intercalate_singleton, intercalate_singleton]
      exact ha
    | @cons b us texts tss hb hs =>
      have hseals := ha.spells.seal seals_comma fun r => clear_cons _ (by decide) (by decide) (by decide)
      have hspells := hseals.then ih.spells
      have hcross := (ha.crosses.append (crosses_of_all (w := points ", ") (by decide))).append ih.crosses
      rw [joined, commaTokens, intercalate_cons_cons, intercalate_cons_cons]
      exact ⟨hspells, hcross⟩

/-! ### Creations and lambdas -/

theorem seals_new : Seals (points "new ") [.word "new"] :=
  (spells_word (s := "new") (by decide)).seal seals_blank fun r => clear_blank r

theorem written_object (hn : isName n = true) (hb : WrittenItem b us) :
    Written (points "new " ++ points n ++ points "(" ++ b ++ points ")")
      (.word "new" :: .word n :: .mark .openParen :: (us ++ [Lexeme.mark .closeParen])) 9 := by
  have hcall := (written_word hn).call (Nat.le_refl 9) hb
  have hspells := seals_new.then hcall.spells
  have hcross := (crosses_of_all (w := points "new ") (by decide)).append hcall.crosses
  have hassoc : points "new " ++ points n ++ points "(" ++ b ++ points ")" =
      points "new " ++ (points n ++ points "(" ++ b ++ points ")") := by simp only [append_assoc]
  rw [hassoc]
  exact ⟨⟨hspells, hcross⟩, .scalar 'n', _, rfl, .inl (by decide)⟩

theorem seals_elements {items : Points} (hb : Seals items us) :
    Seals (points "[] \x7b " ++ items ++ points "\x7d")
      (.mark .openBracket :: .mark .closeBracket :: .mark .openBrace :: (us ++ [Lexeme.mark .closeBrace])) := by
  have hbrackets := (seals_mark (m := .openBracket) rfl).append (seals_mark (m := .closeBracket) rfl)
  have hopen := (hbrackets.append seals_blank).append (seals_mark (m := .openBrace) rfl)
  have hseals := ((hopen.append seals_blank).append hb).append (seals_mark (m := .closeBrace) rfl)
  exact hseals

theorem crosses_elements {items : Points} (hb : Crosses items) :
    Crosses (points "[] \x7b " ++ items ++ points "\x7d") := by
  have hbraces := (crosses_blank.append hb).braces
  have hcross := (crosses_of_all (w := points "[] ") (by decide)).append hbraces
  exact hcross

theorem written_array (hn : isName n = true) {texts : List Points} {tss : List (List Lexeme)}
    (h : List.Forall₂ WrittenItem texts tss) :
    Written (points "new " ++ points n ++ points "[] \x7b " ++
        (if texts.isEmpty then [] else joined ", " texts ++ points " ") ++ points "\x7d")
      (.word "new" :: .word n :: .mark .openBracket :: .mark .closeBracket :: .mark .openBrace ::
        (commaTokens tss ++ [Lexeme.mark .closeBrace])) 9 := by
  have hitems : Seals (if texts.isEmpty then [] else joined ", " texts ++ points " ") (commaTokens tss) ∧
      Crosses (if texts.isEmpty then [] else joined ", " texts ++ points " ") := by
    have hjoined := written_joined h
    cases h with
    | nil => exact ⟨seals_nil, crosses_nil⟩
    | cons =>
      have hseals := hjoined.spells.seal seals_blank fun r => clear_blank r
      rw [append_nil] at hseals
      exact ⟨hseals, hjoined.crosses.append crosses_blank⟩
  have hspells := (spells_word hn).then (seals_elements hitems.1).spells
    fun r => clear_cons _ (by decide) (by decide) (by decide)
  have hcross := (crosses_name hn).append (crosses_elements hitems.2)
  refine ⟨⟨?_, ?_⟩, .scalar 'n', _, rfl, .inl (by decide)⟩
  · have hall := seals_new.then hspells
    simp only [append_assoc] at hall ⊢
    exact hall
  · have hall := (crosses_of_all (w := points "new ") (by decide)).append hcross
    simp only [append_assoc] at hall ⊢
    exact hall

theorem written_names {ps : List String} (h : ps.all isName = true) :
    List.Forall₂ WrittenItem (ps.map identifierText) (ps.map fun p => [nameLexeme p]) := by
  induction ps with
  | nil => exact .nil
  | cons p ps ih =>
    rw [all_cons, and_eq_true] at h
    exact .cons (written_identifier h.1).toWrittenItem (ih h.2)

theorem written_parameters {ps : List String} (h : ps.all isName = true) :
    Written (lambdaParameters ps) (parameterTokens ps) 9 := by
  have hlist := (written_joined (written_names h)).paren
  match ps with
  | [] => exact hlist
  | [p] =>
    rw [all_cons, and_eq_true] at h
    exact written_identifier h.1
  | p :: q :: ps => exact hlist

/-! ### Signs -/

theorem Written.signed (h : Written a ts s) {op : UnaryOp} (hop : op.isSign = true)
    (hhead : a.head? ≠ (points op.text).head?) : Written (points op.text ++ a) (.mark op.mark :: ts) 8 := by
  obtain ⟨q, hq, hsign, hmark⟩ : ∃ q, points op.text = [q] ∧ isSignPoint q = true ∧ points op.mark.text = [q] := by
    cases op with
    | negate => exact ⟨.scalar '-', rfl, rfl, rfl⟩
    | not => exact ⟨.scalar '!', rfl, rfl, rfl⟩
    | _ => cases hop
  obtain ⟨p, w, rfl, hp⟩ := h.head
  have hpair : Mark.ofPoints? [q, p] = none := by
    obtain hlead | ⟨-, hp⟩ := hp
    · exact Mark.ofPoints?_pair (.inr (isSecond_of_isLead hlead))
    · -- Two different signs make no mark together.
      have hne : p ≠ q := by
        rintro rfl
        rw [hq] at hhead
        exact hhead rfl
      have hall : ∀ q ∈ points "-!", ∀ p ∈ points "-!", p ≠ q → Mark.ofPoints? [q, p] = none := by decide
      exact hall q (contains_iff_mem.mp hsign) p (contains_iff_mem.mp hp) hne
  refine ⟨⟨?_, ?_⟩, q, p :: w, by rw [hq]; rfl, .inr ⟨by decide, hsign⟩⟩
  · rw [hq, ← hmark]
    refine h.spells.prefixed fun a ha => ?_
    obtain rfl : q = a := by
      rw [hmark] at ha
      exact (cons.inj ha).1
    exact hpair
  · refine (crosses_of_all ?_).append h.crosses
    cases op <;> decide

end

/-! ### Expressions -/

section

variable {indent : Points} {level : Nat}

variable {op : UnaryOp} {e : Expr} {text : Points} {ts : List Lexeme}

theorem head?_prefixed (hop : op.isSign = true) (h : exprText indent level (.prefixed op e) = .ok text) :
    text.head? = (points op.text).head? := by
  rw [exprText] at h
  obtain ⟨inner, -, h⟩ := Source.bind_eq_ok.mp h
  cases h
  cases op with
  | negate | not => rfl
  | _ => cases hop

theorem head?_wrapped (hop : op.isSign = true) (he : e.isPlain = true)
    (htext : exprText indent level e = .ok text) (h : Written text ts e.strength) :
    ((wrapped e 12 text).head? == (points op.text).head?) = e.isPrefixed op := by
  by_cases hprefixed : ∃ op' x, e = .prefixed op' x
  · obtain ⟨op', x, rfl⟩ := hprefixed
    rw [Expr.isPlain, and_eq_true] at he
    have hhead : (wrapped (.prefixed op' x) 12 text).head? = (points op'.text).head? :=
      head?_prefixed he.1 htext
    have hsigns : ∀ op op' : UnaryOp, op.isSign = true → op'.isSign = true →
        ((points op'.text).head? == (points op.text).head?) = (op' == op) := by
      intro op op'
      cases op <;> cases op' <;> decide
    rw [hhead, hsigns op op' hop he.1, Expr.isPrefixed]
  · have hother : e.isPrefixed op = false ∧ e.precedence ≠ 12 := by
      cases e with
      | prefixed op' x => exact absurd ⟨op', x, rfl⟩ hprefixed
      | binary op' l r => exact ⟨rfl, by cases op' <;> simp [Expr.precedence, BinaryOp.precedence]⟩
      | _ => exact ⟨rfl, by simp [Expr.precedence]⟩
    have hwrapped : wrapped e 12 text = wrapped e 13 text := by
      have hiff : e.precedence < 12 ↔ e.precedence < 13 := by omega
      unfold wrapped
      simp only [hiff]
    obtain ⟨s, hs, hwritten⟩ := h.wrapped 13 (by decide)
    have hs : 9 ≤ s := hs
    obtain ⟨p, w, hp, hhead⟩ := hwritten.head
    have hlead : isLead p = true := hhead.elim id fun h => absurd h.1 (by omega)
    have hsign : ∀ q ∈ (points op.text).head?, isLead q = false := by
      cases op <;> decide
    rw [hwrapped, hp, hother.1, beq_eq_false_iff_ne]
    intro heq
    rw [hsign p heq.symm] at hlead
    cases hlead

theorem written_prefixed (hop : op.isSign = true) (he : e.isPlain = true)
    (htext : exprText indent level e = .ok text) (h : Written text (exprTokens indent level e) e.strength) :
    Written (points op.text ++ parenthesized ((wrapped e 12 text).head? == (points op.text).head?)
      (wrapped e 12 text)) (exprTokens indent level (.prefixed op e)) 8 := by
  obtain ⟨s, -, hwritten⟩ := h.wrapped 12 (by decide)
  have hcollides := head?_wrapped hop he htext h
  rw [hcollides, exprTokens]
  cases hprefixed : e.isPrefixed op with
  | true =>
    refine hwritten.paren.signed hop ?_
    cases op <;> simp [points, ofChars, UnaryOp.text]
  | false =>
    refine hwritten.signed hop ?_
    rw [hprefixed] at hcollides
    exact beq_eq_false_iff_ne.mp hcollides

theorem given?_name {n : String} (h : isName n = true) : given? (some n) = some n := by
  have hne : n.isEmpty = false := by
    refine eq_false_iff.mpr fun hempty => ?_
    rw [String.isEmpty_iff.mp hempty] at h
    cases h
  rw [given?, Option.filter_some, hne]
  rfl

theorem WrittenItem.labelled {a : Points} (h : WrittenItem a ts) {n : String} (hn : isName n = true) :
    WrittenItem (identifierText n ++ points ": " ++ a) (nameLexeme n :: .mark .colon :: ts) := by
  have hcolon : Seals (points ": ") [.mark .colon] := (seals_mark (m := .colon) rfl).append seals_blank
  have hname := written_identifier hn
  have hlabel := hname.spells.seal hcolon fun r => clear_cons _ (by decide) (by decide) (by decide)
  exact ⟨hlabel.then h.spells, (hname.crosses.append (crosses_of_all (by decide))).append h.crosses⟩

theorem Written.hole {a : Points} {s : Nat} (h : Written a ts s) :
    Passes .text (points "\x7b" ++ a ++ points "\x7d") := by
  obtain ⟨p, w, rfl, hp⟩ := h.head
  refine h.crosses.hole ?_
  rintro rfl
  obtain hp | ⟨-, hp⟩ := hp <;> cases hp

mutual

/-- A plain expression has a text, and the text has the tokens of the expression. -/
theorem exprText_written : (e : Expr) → e.isPlain = true →
    ∃ text, exprText indent level e = .ok text ∧ Written text (exprTokens indent level e) e.strength
  | .identifier n, h => by
    rw [Expr.isPlain] at h
    exact ⟨_, by rw [exprText]; rfl, by rw [exprTokens]; exact written_identifier h⟩
  | .literal value, h => by
    rw [Expr.isPlain] at h
    exact ⟨_, by rw [exprText]; rfl, by rw [exprTokens]; exact written_literal h⟩
  | .interpolated contents, h => by
    rw [Expr.isPlain] at h
    obtain ⟨w, hw, hpasses⟩ := contentsText_passes contents h
    have htext : exprText indent level (.interpolated contents) =
        .ok (points "$\"" ++ w ++ points "\"") := by
      rw [exprText, hw]
      rfl
    refine ⟨_, htext, ?_⟩
    rw [exprTokens, writtenText, htext]
    exact ⟨⟨(seals_interpolated hpasses).spells, hpasses.interpolated⟩, .scalar '$', _, rfl, .inl (by decide)⟩
  | .binary op left right, h => by
    rw [Expr.isPlain, and_eq_true] at h
    obtain ⟨l, hl, hleft⟩ := exprText_written left h.1
    obtain ⟨r, hr, hright⟩ := exprText_written right h.2
    have hleast : op.precedence ≤ 13 ∧
        (if op.isAssociative && right.isBinary op then op.precedence else op.precedence + 1) ≤ 13 := by
      split <;> cases op <;> decide
    obtain ⟨s, hs, hleft⟩ := hleft.wrapped op.precedence hleast.1
    obtain ⟨s', hs', hright⟩ := hright.wrapped _ hleast.2
    refine ⟨_, by rw [exprText, hl, hr]; rfl, ?_⟩
    rw [exprTokens]
    exact hleft.between hs (m := .binary op) (by simp) (by simp) hright
  | .prefixed op operand, h => by
    rw [Expr.isPlain, and_eq_true] at h
    obtain ⟨text, htext, hwritten⟩ := exprText_written operand h.2
    exact ⟨_, by rw [exprText, htext]; rfl, written_prefixed h.1 h.2 htext hwritten⟩
  | .postfixed op operand, h => by
    rw [Expr.isPlain, and_eq_true, not_eq_true'] at h
    obtain ⟨text, htext, hwritten⟩ := exprText_written operand h.2
    obtain ⟨s, hs, hoperand⟩ := hwritten.wrapped 13 (by decide)
    refine ⟨_, by rw [exprText, htext]; rfl, ?_⟩
    rw [exprTokens]
    exact hoperand.step hs h.1
  | .assignment op target value, h => by
    rw [Expr.isPlain, and_eq_true] at h
    obtain ⟨l, hl, hleft⟩ := exprText_written target h.1
    obtain ⟨r, hr, hright⟩ := exprText_written value h.2
    obtain ⟨s, hs, htarget⟩ := hleft.wrapped 12 (by decide)
    refine ⟨_, by rw [exprText, hl, hr]; rfl, ?_⟩
    rw [exprTokens]
    exact htarget.between (Nat.zero_le s) (m := .assign op) (by simp) (by simp) hright
  | .conditional condition whenTrue whenFalse, h => by
    rw [Expr.isPlain, and_eq_true, and_eq_true] at h
    obtain ⟨c, hc, hcondition⟩ := exprText_written condition h.1
    obtain ⟨t, ht, htrue⟩ := exprText_written whenTrue h.2.1
    obtain ⟨f, hf, hfalse⟩ := exprText_written whenFalse h.2.2
    obtain ⟨s, hs, hcondition⟩ := hcondition.wrapped 3 (by decide)
    obtain ⟨s', hs', htrue⟩ := htrue.wrapped 2 (by decide)
    obtain ⟨s'', hs'', hfalse⟩ := hfalse.wrapped 2 (by decide)
    refine ⟨_, by rw [exprText, hc, ht, hf]; rfl, ?_⟩
    have hs : 2 ≤ s := hs
    have hbranches := htrue.between (Nat.zero_le _) (m := .colon) (by simp) (by simp) hfalse
    have hwhole := hcondition.between (k := 1) (by omega) (m := .question) (by simp) (by simp) hbranches
    rw [exprTokens]
    simp only [append_assoc] at hwhole ⊢
    exact hwhole
  | .memberAccess target n nullable, h => by
    rw [Expr.isPlain, and_eq_true, and_eq_true] at h
    obtain ⟨text, htext, hwritten⟩ := exprText_written target h.1
    obtain ⟨s, hs, htarget⟩ := hwritten.wrapped 13 (by decide)
    refine ⟨_, by rw [exprText, htext]; rfl, ?_⟩
    rw [exprTokens]
    exact htarget.member hs h.2.1 nullable
  | .invocation callee arguments, h => by
    rw [Expr.isPlain, and_eq_true] at h
    obtain ⟨text, htext, hwritten⟩ := exprText_written callee h.1
    obtain ⟨texts, htexts, hitems⟩ := argumentTexts_written arguments h.2
    obtain ⟨s, hs, hcallee⟩ := hwritten.wrapped 13 (by decide)
    refine ⟨_, by rw [exprText, htext, htexts]; rfl, ?_⟩
    rw [exprTokens]
    exact hcallee.call hs (written_joined hitems)
  | .elementAccess target index, h => by
    rw [Expr.isPlain, and_eq_true] at h
    obtain ⟨text, htext, hwritten⟩ := exprText_written target h.1
    obtain ⟨i, hi, hindex⟩ := exprText_written index h.2
    obtain ⟨s, hs, htarget⟩ := hwritten.wrapped 13 (by decide)
    refine ⟨_, by rw [exprText, htext, hi]; rfl, ?_⟩
    rw [exprTokens]
    exact htarget.index hs hindex
  | .objectCreation created arguments, h => by
    rw [Expr.isPlain, and_eq_true] at h
    obtain ⟨texts, htexts, hitems⟩ := argumentTexts_written arguments h.2
    refine ⟨_, by rw [exprText, htexts]; rfl, ?_⟩
    rw [exprTokens]
    cases created with
    | type n => exact written_object h.1 (written_joined hitems)
    | _ => cases h.1
  | .arrayCreation n elements, h => by
    rw [Expr.isPlain, and_eq_true] at h
    obtain ⟨texts, htexts, hitems⟩ := exprTexts_written elements h.2
    refine ⟨_, by rw [exprText, htexts]; rfl, ?_⟩
    rw [exprTokens]
    exact written_array h.1 hitems
  | .lambda parameters (.expression value), h => by
    rw [Expr.isPlain, LambdaBody.isPlain, and_eq_true] at h
    obtain ⟨text, htext, hwritten⟩ := exprText_written value h.2
    refine ⟨_, by rw [exprText, lambdaText, htext]; rfl, ?_⟩
    have hwhole := (written_parameters h.1).between (Nat.zero_le _) (m := .arrow) (by simp) (by simp) hwritten
    rw [exprTokens, LambdaBody.tokens]
    simp only [append_assoc] at hwhole ⊢
    exact hwhole
  | .lambda parameters (.block statements), h => by
    rw [Expr.isPlain, LambdaBody.isPlain, Bool.and_false] at h
    cases h
  | .foreign _, h => by
    rw [Expr.isPlain] at h
    cases h

theorem exprTexts_written : (es : List Expr) → exprsPlain es = true → ∃ texts, exprTexts indent level es = .ok texts ∧
      List.Forall₂ WrittenItem texts (exprsTokens indent level es)
  | [], _ => ⟨[], by rw [exprTexts]; rfl, by rw [exprsTokens]; exact .nil⟩
  | e :: es, h => by
    rw [exprsPlain, and_eq_true] at h
    obtain ⟨text, htext, hwritten⟩ := exprText_written e h.1
    obtain ⟨texts, htexts, hitems⟩ := exprTexts_written es h.2
    refine ⟨text :: texts, by rw [exprTexts, htext, htexts]; rfl, ?_⟩
    rw [exprsTokens]
    exact .cons hwritten.toWrittenItem hitems

theorem argumentTexts_written : (as : List Argument) → argumentsPlain as = true →
    ∃ texts, argumentTexts indent level as = .ok texts ∧
      List.Forall₂ WrittenItem texts (argumentsTokens indent level as)
  | [], _ => ⟨[], by rw [argumentTexts]; rfl, by rw [argumentsTokens]; exact .nil⟩
  | .mk value n :: as, h => by
    rw [argumentsPlain, Argument.isPlain, and_eq_true, and_eq_true] at h
    obtain ⟨text, htext, hwritten⟩ := exprText_written value h.1.1
    obtain ⟨texts, htexts, hitems⟩ := argumentTexts_written as h.2
    rw [argumentsTokens]
    cases n with
    | none =>
      refine ⟨text :: texts, by rw [argumentTexts, argumentText, htext, htexts]; rfl, ?_⟩
      rw [Argument.tokens]
      exact .cons hwritten.toWrittenItem hitems
    | some n =>
      refine ⟨(identifierText n ++ points ": " ++ text) :: texts, ?_, ?_⟩
      · rw [argumentTexts, argumentText, htext, htexts, given?_name h.1.2]
        rfl
      · rw [Argument.tokens]
        exact .cons (hwritten.toWrittenItem.labelled h.1.2) hitems

theorem contentsText_passes : (cs : List Content) → contentsPlain cs = true →
    ∃ text, contentsText indent level cs = .ok text ∧ Passes .text text
  | [], _ => ⟨[], by rw [contentsText]; rfl, passes_nil _⟩
  | .text value :: cs, h => by
    rw [contentsPlain, Content.isPlain, Bool.true_and] at h
    obtain ⟨rest, hrest, hpasses⟩ := contentsText_passes cs h
    refine ⟨_, by rw [contentsText, contentText, hrest]; rfl, ?_⟩
    exact (passes_text value).append hpasses
  | .hole value :: cs, h => by
    rw [contentsPlain, Content.isPlain, and_eq_true] at h
    obtain ⟨text, htext, hwritten⟩ := exprText_written value h.1
    obtain ⟨rest, hrest, hpasses⟩ := contentsText_passes cs h.2
    refine ⟨_, by rw [contentsText, contentText, htext, hrest]; rfl, ?_⟩
    refine Passes.append ?_ hpasses
    unfold parenthesized
    split
    · exact hwritten.paren.hole
    · exact hwritten.hole

end

/-! ### Reading a text back -/

/-- The text of a plain expression is read as the expression, up to how chains of one and the same `&&`
or `||` lean, with interpolated strings as they are written. -/
theorem readText_exprText (indent : Points) (level : Nat) {e : Expr} (h : e.isPlain = true) :
    ∃ text, exprText indent level e = .ok text ∧ readText text = some (e.reread indent level) := by
  obtain ⟨text, htext, hwritten⟩ := @exprText_written indent level e h
  have hclear : Clear [] := by
    rintro _ _ ⟨⟩
  have hlex : lex (text ++ []) = some (exprTokens indent level e ++ []) :=
    hwritten.spells hclear (by rw [lex])
  have hread := (@readsBack indent level e h).reads.expression [] rfl
  rw [append_nil, append_nil] at hlex
  rw [append_nil] at hread
  refine ⟨text, htext, ?_⟩
  rw [readText, hlex]
  dsimp only [Option.bind_eq_bind, Option.bind_some]
  rw [hread]
  rfl

/-- A chain to the right comes out leaning to the left; all else is as it was. -/
theorem readText_exprText_chain : (Expr.conditional
      (.binary .logicalAnd (.identifier "a") (.binary .logicalAnd (.identifier "class")
        (.prefixed .not (.prefixed .not (.identifier "b")))))
      (.lambda ["x"] (.expression (.assignment .simple (.memberAccess (.identifier "x") "y" true)
        (.binary .subtract (.literal (.integer 1)) (.prefixed .negate (.prefixed .negate
          (.elementAccess (.arrayCreation "int" [.literal (.integer 2)]) (.identifier "i"))))))))
      (.interpolated [.text (points "\x7b"), .hole (.literal (.string (points "\x7d\"")))])).isPlain =
        true ∧ readText (points
      "a && @class && !(!b) ? (x => x?.y = 1 - -(-new int[] \x7b 2 \x7d[i])) : $\"\x7b\x7b\x7b\"\x7d\\\"\"\x7d\"") =
      some (.conditional
        (.binary .logicalAnd (.binary .logicalAnd (.identifier "a") (.identifier "class"))
          (.prefixed .not (.prefixed .not (.identifier "b"))))
        (.lambda ["x"] (.expression (.assignment .simple (.memberAccess (.identifier "x") "y" true)
          (.binary .subtract (.literal (.integer 1)) (.prefixed .negate (.prefixed .negate
            (.elementAccess (.arrayCreation "int" [.literal (.integer 2)]) (.identifier "i"))))))))
        (.interpolated [.text (points "$\"\x7b\x7b\x7b\"\x7d\\\"\"\x7d\"")])) := by
  refine (fun hplain => ⟨hplain, ?_⟩) (by decide +kernel)
  obtain ⟨text, htext, hread⟩ := readText_exprText [] 0 hplain
  obtain rfl := Except.ok.inj (htext.symm.trans rfl)
  exact hread

end

end GroovySharp.CSharp
