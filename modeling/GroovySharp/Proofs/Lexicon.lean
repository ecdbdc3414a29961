import GroovySharp.CSharp.Render

/-!
# The tokens of C# expressions

The text of an expression is cut into names, literals and marks, the longest mark first and blanks
apart.
-/

namespace GroovySharp.CSharp

open Unicode List

/-! ### Marks -/

/-- Operators and punctuation. The sign `-` is one mark, with one operand or two. -/
inductive Mark
  | binary (op : BinaryOp)
  | assign (op : AssignOp)
  | bang
  | increment
  | decrement
  | openParen
  | closeParen
  | openBracket
  | closeBracket
  | openBrace
  | closeBrace
  | comma
  | dot
  | safeDot
  | question
  | colon
  | arrow
  deriving Repr, DecidableEq

namespace Mark

def all : List Mark :=
  BinaryOp.all.map binary ++ AssignOp.all.map assign ++
    [bang, increment, decrement, openParen, closeParen, openBracket, closeBracket, openBrace,
      closeBrace, comma, dot, safeDot, question, colon, arrow]

def text : Mark → String
  | binary op => op.text
  | assign op => op.text
  | bang => "!"
  | increment => "++"
  | decrement => "--"
  | openParen => "("
  | closeParen => ")"
  | openBracket => "["
  | closeBracket => "]"
  | openBrace => "\x7b"
  | closeBrace => "\x7d"
  | comma => ","
  | dot => "."
  | safeDot => "?."
  | question => "?"
  | colon => ":"
  | arrow => "=>"

def ofPoints? (cs : Points) : Option Mark := all.find? fun m => points m.text == cs

def leading? : Points → Option (Mark × Points)
  | a :: b :: rest =>
    match ofPoints? [a, b] with
    | some m => some (m, rest)
    | none => (ofPoints? [a]).map fun m => (m, b :: rest)
  | [a] => (ofPoints? [a]).map fun m => (m, [])
  | [] => none

theorem ofPoints?_text (m : Mark) : ofPoints? (points m.text) = some m := by
  cases m with
  | binary op | assign op => cases op <;> decide
  | _ => decide

def isSecond (p : CodePoint) : Bool :=
  (points ">.+-=&|").contains p

def isFirst (p : CodePoint) : Bool :=
  (points "=?+-!<>&|*/%").contains p

theorem ofPoints?_pair {a b : CodePoint} (h : isFirst a = false ∨ isSecond b = false) : ofPoints? [a, b] = none := by
  rw [ofPoints?, find?_eq_none]
  intro m hm heq
  have htext : points m.text = [a, b] := eq_of_beq heq
  have hall : ∀ m ∈ all, ∀ a b, points m.text = [a, b] → isFirst a = true ∧ isSecond b = true := by
    intro m _ a b hab
    cases m with
    | binary op | assign op => cases op <;> cases hab <;> decide
    | _ => cases hab <;> decide
  obtain ⟨ha, hb⟩ := hall m hm a b htext
  simp [ha, hb] at h

theorem leading?_pair {a b : CodePoint} (h : points m.text = [a, b]) (r : Points) :
    leading? (a :: b :: r) = some (m, r) := by
  have hm := ofPoints?_text m
  rw [h] at hm
  rw [leading?, hm]

theorem leading?_single {a : CodePoint} (h : points m.text = [a]) {r : Points}
    (hr : ∀ b q, r = b :: q → ofPoints? [a, b] = none) : leading? (a :: r) = some (m, r) := by
  have hm := ofPoints?_text m
  rw [h] at hm
  cases r with
  | nil => simp [leading?, hm]
  | cons b q => simp [leading?, hr b q rfl, hm]

end Mark

/-! ### Names, numbers and strings -/

def isNameStart : CodePoint → Bool
  | .scalar c => c.isAlpha || c == '_'
  | .surrogate _ => false

def isNamePoint : CodePoint → Bool
  | .scalar c => c.isAlphanum || c == '_'
  | .surrogate _ => false

def isDigitPoint : CodePoint → Bool
  | .scalar c => isDigit c
  | .surrogate _ => false

def chars (cs : Points) : Chars :=
  cs.filterMap fun p =>
    match p with
    | .scalar c => some c
    | .surrogate _ => none

def unescaped? : CodePoint → Option CodePoint
  | .scalar '\\' => some (.scalar '\\')
  | .scalar '"' => some (.scalar '"')
  | .scalar 'n' => some (.scalar '\n')
  | .scalar 'r' => some (.scalar '\r')
  | .scalar 't' => some (.scalar '\t')
  | .scalar '0' => some (.scalar '\x00')
  | _ => none

/-- The value of a string literal up to its closing quote, and the text after it. -/
def stringValue? : Points → Option (Points × Points)
  | [] => none
  | .scalar '"' :: rest => some ([], rest)
  | .scalar '\\' :: p :: rest => do
    let q ← unescaped? p
    let (value, rest) ← stringValue? rest
    return (q :: value, rest)
  | p :: rest => do
    let (value, rest) ← stringValue? rest
    return (p :: value, rest)

/-- Where a scan through an interpolated string stands. A hole counts the braces open in it. -/
inductive Scope
  | text
  | hole (depth : Nat)
  | string
  deriving Repr, DecidableEq

def prepend (w : Points) (split : Option (Points × Points)) : Option (Points × Points) :=
  split.map fun (before, after) => (w ++ before, after)

def closing : List Scope → Points → Option (Points × Points)
  | [], cs => some ([], cs)
  | .text :: s, .scalar '\\' :: p :: cs => prepend [.scalar '\\', p] (closing (.text :: s) cs)
  | .text :: s, .scalar '\x7b' :: .scalar '\x7b' :: cs => prepend (points "\x7b\x7b") (closing (.text :: s) cs)
  | .text :: s, .scalar '\x7d' :: .scalar '\x7d' :: cs => prepend (points "\x7d\x7d") (closing (.text :: s) cs)
  | .text :: s, .scalar '\x7b' :: cs => prepend (points "\x7b") (closing (.hole 0 :: .text :: s) cs)
  | .text :: s, .scalar '"' :: cs => prepend (points "\"") (closing s cs)
  | .hole d :: s, .scalar '$' :: .scalar '"' :: cs => prepend (points "$\"") (closing (.text :: .hole d :: s) cs)
  | .hole d :: s, .scalar '"' :: cs => prepend (points "\"") (closing (.string :: .hole d :: s) cs)
  | .hole d :: s, .scalar '\x7b' :: cs => prepend (points "\x7b") (closing (.hole (d + 1) :: s) cs)
  | .hole (d + 1) :: s, .scalar '\x7d' :: cs => prepend (points "\x7d") (closing (.hole d :: s) cs)
  | .hole 0 :: s, .scalar '\x7d' :: cs => prepend (points "\x7d") (closing s cs)
  | .string :: s, .scalar '\\' :: p :: cs => prepend [.scalar '\\', p] (closing (.string :: s) cs)
  | .string :: s, .scalar '"' :: cs => prepend (points "\"") (closing s cs)
  | scope :: s, p :: cs => prepend [p] (closing (scope :: s) cs)
  | _ :: _, [] => none

theorem closing_text_escape (s : List Scope) (p : CodePoint) (cs : Points) :
    closing (.text :: s) (.scalar '\\' :: p :: cs) = prepend [.scalar '\\', p] (closing (.text :: s) cs) := by
  rw [closing]

theorem closing_string_escape (s : List Scope) (p : CodePoint) (cs : Points) :
    closing (.string :: s) (.scalar '\\' :: p :: cs) = prepend [.scalar '\\', p] (closing (.string :: s) cs) := by
  rw [closing]

/-! ### Tokens -/

inductive Lexeme
  | word (s : String)
  /-- A name with a leading `@`. -/
  | verbatim (s : String)
  | integer (n : Nat)
  | decimal (text : Points)
  | string (value : Points)
  | interpolated (text : Points)
  | mark (m : Mark)
  deriving Repr, DecidableEq

def leadingNumber (cs : Points) : Lexeme × Points :=
  let digits := cs.takeWhile isDigitPoint
  let whole := (Lexeme.integer (Nat.ofDigitChars 10 (chars digits) 0), cs.dropWhile isDigitPoint)
  match cs.dropWhile isDigitPoint with
  | .scalar '.' :: d :: rest =>
    if isDigitPoint d then
      (.decimal (digits ++ .scalar '.' :: (d :: rest).takeWhile isDigitPoint), (d :: rest).dropWhile isDigitPoint)
    else whole
  | _ => whole

def leadingInterpolated? : Points → Option (Lexeme × Points)
  | .scalar '"' :: rest => (closing [.text] rest).map fun (w, rest) => (.interpolated (points "$\"" ++ w), rest)
  | _ => none

def lexeme? (cs : Points) : Option (Lexeme × Points) :=
  match cs with
  | [] => none
  | p :: rest =>
    if isNameStart p then
      some (.word (.ofList (chars (cs.takeWhile isNamePoint))), cs.dropWhile isNamePoint)
    else if isDigitPoint p then some (leadingNumber cs)
    else if p = .scalar '@' then
      some (.verbatim (.ofList (chars (rest.takeWhile isNamePoint))), rest.dropWhile isNamePoint)
    else if p = .scalar '"' then (stringValue? rest).map fun (value, rest) => (.string value, rest)
    else if p = .scalar '$' then leadingInterpolated? rest
    else (Mark.leading? cs).map fun (m, rest) => (.mark m, rest)

def lex (cs : Points) : Option (List Lexeme) :=
  match cs with
  | [] => some []
  | p :: rest =>
    if p = .scalar ' ' then (by apply lex : Points → Option (List Lexeme)) rest
    else do
      let (t, rest) ← lexeme? cs
      let ts ← (by apply lex : Points → Option (List Lexeme)) rest
      return t :: ts
partial_fixpoint

/-! ### Texts with known tokens -/

variable {p : CodePoint} {cs r : Points} {rs : List Lexeme} {m : Mark} {s : String}

theorem lex_of_lexeme? {t : Lexeme} (hp : p ≠ .scalar ' ') (h : lexeme? (p :: cs) = some (t, r))
    (hr : lex r = some rs) : lex (p :: cs) = some (t :: rs) := by
  rw [lex, if_neg hp, h]
  simp [hr]

theorem lex_blank (r : Points) : lex (.scalar ' ' :: r) = lex r := by rw [lex, if_pos rfl]

def Clear (r : Points) : Prop :=
  ∀ p q, r = p :: q → isNamePoint p = false ∧ isDigitPoint p = false ∧
    (p = .scalar '.' → ∀ d q', q = d :: q' → isDigitPoint d = false)

theorem clear_cons (r : Points) (hname : isNamePoint p = false) (hdigit : isDigitPoint p = false)
    (hdot : p ≠ .scalar '.') : Clear (p :: r) := by
  rintro _ _ ⟨⟩
  exact ⟨hname, hdigit, fun h => absurd h hdot⟩

def Seals (text : Points) (ts : List Lexeme) : Prop :=
  ∀ ⦃r : Points⦄ ⦃rs : List Lexeme⦄, lex r = some rs → lex (text ++ r) = some (ts ++ rs)

def Spells (text : Points) (ts : List Lexeme) : Prop :=
  ∀ ⦃r : Points⦄ ⦃rs : List Lexeme⦄, Clear r → lex r = some rs → lex (text ++ r) = some (ts ++ rs)

section

variable {a b : Points} {ts us : List Lexeme}

theorem seals_nil : Seals [] [] := fun _ _ h => h

theorem Seals.spells (h : Seals a ts) : Spells a ts := fun _ _ _ hr => h hr

theorem Seals.append (ha : Seals a ts) (hb : Seals b us) : Seals (a ++ b) (ts ++ us) := by
  intro r rs hr
  rw [append_assoc, append_assoc]
  exact ha (hb hr)

theorem Seals.then (ha : Seals a ts) (hb : Spells b us) : Spells (a ++ b) (ts ++ us) := by
  intro r rs hclear hr
  rw [append_assoc, append_assoc]
  exact ha (hb hclear hr)

theorem Spells.seal (ha : Spells a ts) (hb : Seals b us) (hclear : ∀ r, Clear (b ++ r)) :
    Seals (a ++ b) (ts ++ us) := by
  intro r rs hr
  rw [append_assoc, append_assoc]
  exact ha (hclear r) (hb hr)

theorem Spells.then (ha : Spells a ts) (hb : Spells b us) (hclear : ∀ r, Clear (b ++ r)) :
    Spells (a ++ b) (ts ++ us) := by
  intro r rs hr hlex
  rw [append_assoc, append_assoc]
  exact ha (hclear r) (hb hr hlex)

end

/-! ### The tokens of marks -/

theorem seals_blank : Seals (points " ") [] := fun r _ hr => (lex_blank r).trans hr

theorem Mark.start {q : Points} (h : points m.text = p :: q) :
    p ≠ .scalar ' ' ∧ isNameStart p = false ∧ isDigitPoint p = false ∧ p ≠ .scalar '@' ∧
      p ≠ .scalar '"' ∧ p ≠ .scalar '$' := by
  cases m with
  | binary op | assign op => cases op <;> cases h <;> decide
  | _ =>
    cases h
    decide

theorem Mark.points_text (m : Mark) : (∃ a, points m.text = [a]) ∨ ∃ a b, points m.text = [a, b] := by
  cases m with
  | binary op => cases op <;> simp [Mark.text, BinaryOp.text, points, ofChars]
  | assign op => cases op <;> simp [Mark.text, AssignOp.text, points, ofChars]
  | _ => simp [Mark.text, points, ofChars]

theorem lexeme?_mark {q : Points} (hm : points m.text = p :: q)
    (h : Mark.leading? (p :: cs) = some (m, r)) : lexeme? (p :: cs) = some (.mark m, r) := by
  obtain ⟨-, hname, hdigit, hat, hquote, hdollar⟩ := Mark.start hm
  rw [lexeme?]
  simp only [hname, hdigit, hat, hquote, hdollar, Bool.false_eq_true, if_false]
  rw [h, Option.map_some]

theorem lex_mark (hnext : ∀ a b q, points m.text = [a] → r = b :: q → Mark.ofPoints? [a, b] = none)
    (hr : lex r = some rs) : lex (points m.text ++ r) = some (.mark m :: rs) := by
  obtain ⟨a, ha⟩ | ⟨a, b, hab⟩ := m.points_text
  · have hlead := Mark.leading?_single ha fun b q hbq => hnext a b q ha hbq
    rw [ha]
    exact lex_of_lexeme? (Mark.start ha).1 (lexeme?_mark ha hlead) hr
  · have hlead := Mark.leading?_pair hab r
    rw [hab]
    exact lex_of_lexeme? (Mark.start hab).1 (lexeme?_mark hab hlead) hr

theorem seals_between (m : Mark) : Seals (points " " ++ points m.text ++ points " ") [.mark m] := by
  intro r rs hr
  have hblank : lex (.scalar ' ' :: r) = some rs := (lex_blank r).trans hr
  have hmark : lex (points m.text ++ .scalar ' ' :: r) = some (.mark m :: rs) := by
    refine lex_mark (fun a b q _ hbq => Mark.ofPoints?_pair (.inr ?_)) hblank
    obtain ⟨rfl, -⟩ := cons.inj hbq
    decide
  rw [append_assoc, append_assoc]
  exact (lex_blank _).trans hmark

def Mark.isWhole (m : Mark) : Bool :=
  match points m.text with
  | [a] => !isFirst a
  | _ => true

theorem seals_mark (h : m.isWhole = true) : Seals (points m.text) [.mark m] := by
  intro r rs hr
  refine lex_mark (fun a b q ha _ => Mark.ofPoints?_pair (.inl ?_)) hr
  simpa [Mark.isWhole, ha] using h

theorem Spells.prefixed {w : Points} {ts : List Lexeme} (h : Spells (p :: w) ts)
    (hp : ∀ a, points m.text = [a] → Mark.ofPoints? [a, p] = none) :
    Spells (points m.text ++ p :: w) (.mark m :: ts) := by
  intro r rs hclear hr
  have hrest := h hclear hr
  rw [append_assoc]
  refine lex_mark (fun a b q ha hbq => ?_) hrest
  obtain ⟨rfl, -⟩ := cons.inj hbq
  exact hp a ha

/-! ### The tokens of names -/

def isName (s : String) : Bool :=
  match s.toList with
  | [] => false
  | c :: cs => isNameStart (.scalar c) && cs.all fun c => isNamePoint (.scalar c)

theorem isNamePoint_of_start (h : isNameStart p = true) : isNamePoint p = true := by
  cases p with
  | scalar c =>
    simp only [isNameStart, isNamePoint, Char.isAlphanum, Bool.or_eq_true] at h ⊢
    exact h.elim (fun h => .inl (.inl h)) .inr
  | surrogate _ => cases h

theorem isName_cons (h : isName s = true) :
    ∃ p w, points s = p :: w ∧ isNameStart p = true ∧ ∀ q ∈ p :: w, isNamePoint q = true := by
  unfold isName at h
  split at h
  · cases h
  · next c cs hs =>
    rw [Bool.and_eq_true, all_eq_true] at h
    refine ⟨.scalar c, ofChars cs, by rw [points, hs]; rfl, h.1, ?_⟩
    intro q hq
    obtain rfl | hq := mem_cons.mp hq
    · exact isNamePoint_of_start h.1
    · obtain ⟨d, hd, rfl⟩ := mem_map.mp hq
      exact h.2 d hd

theorem takeWhile_append_of_clear {f : CodePoint → Bool} {w : Points} (hw : ∀ p ∈ w, f p = true)
    (hr : ∀ p q, r = p :: q → f p = false) : (w ++ r).takeWhile f = w ∧ (w ++ r).dropWhile f = r := by
  rw [takeWhile_append_of_pos hw, dropWhile_append_of_pos hw]
  cases r with
  | nil => exact ⟨append_nil w, rfl⟩
  | cons p q =>
    have hp : ¬ f p = true := by simp [hr p q rfl]
    rw [takeWhile_cons_of_neg hp, dropWhile_cons_of_neg hp]
    exact ⟨append_nil w, rfl⟩

theorem chars_ofChars (cs : Chars) : chars (ofChars cs) = cs := by
  induction cs with
  | nil => rfl
  | cons c cs ih => exact congrArg (c :: ·) ih

theorem ofList_chars_points (s : String) : String.ofList (chars (points s)) = s := by
  rw [points, chars_ofChars, String.ofList_toList]

theorem spells_word (h : isName s = true) : Spells (points s) [.word s] := by
  intro r rs hclear hr
  obtain ⟨p, w, hs, hstart, hall⟩ := isName_cons h
  obtain ⟨htake, hdrop⟩ := takeWhile_append_of_clear hall fun p q hpq => (hclear p q hpq).1
  have hblank : p ≠ .scalar ' ' := by
    rintro rfl
    cases hstart
  have hword : String.ofList (chars (p :: w)) = s := by rw [← hs, ofList_chars_points]
  rw [hs, cons_append]
  rw [cons_append] at htake hdrop
  refine lex_of_lexeme? hblank ?_ hr
  rw [lexeme?, if_pos hstart, htake, hdrop, hword]

theorem spells_verbatim (h : isName s = true) : Spells (points ("@" ++ s)) [.verbatim s] := by
  intro r rs hclear hr
  obtain ⟨p, w, hs, -, hall⟩ := isName_cons h
  rw [← hs] at hall
  obtain ⟨htake, hdrop⟩ := takeWhile_append_of_clear hall fun p q hpq => (hclear p q hpq).1
  have hpoints : points ("@" ++ s) = .scalar '@' :: points s := by simp [points, ofChars, String.toList_append]
  rw [hpoints, cons_append]
  refine lex_of_lexeme? (by decide) ?_ hr
  rw [lexeme?, if_neg (by decide), if_neg (by decide), if_pos rfl, htake, hdrop, ofList_chars_points]

def nameLexeme (s : String) : Lexeme :=
  if keywords.contains s then .verbatim s else .word s

theorem spells_identifier (h : isName s = true) : Spells (identifierText s) [nameLexeme s] := by
  unfold identifierText escapeIdentifier nameLexeme
  split
  · exact spells_verbatim h
  · exact spells_word h

/-! ### The tokens of literals -/

theorem stringValue?_escapePoint (p : CodePoint) (r : Points) :
    stringValue? (escapePoint p ++ r) = (stringValue? r).map fun (v, r) => (p :: v, r) := by
  unfold escapePoint
  split
  case h_7 hbackslash hquote _ _ _ _ =>
    rw [singleton_append, stringValue?]
    · cases stringValue? r <;> rfl
    · exact fun h => hquote h
    · exact fun _ _ h _ => hbackslash h
  all_goals
    change stringValue? (.scalar '\\' :: _ :: r) = _
    rw [stringValue?]
    cases stringValue? r <;> rfl

theorem stringValue?_escapeString (value r : Points) :
    stringValue? (escapeString value ++ .scalar '"' :: r) = some (value, r) := by
  induction value with
  | nil => rfl
  | cons p value ih =>
    have hcons : escapeString (p :: value) = escapePoint p ++ escapeString value := rfl
    rw [hcons, append_assoc, stringValue?_escapePoint, ih]
    rfl

theorem seals_string (value : Points) :
    Seals (points "\"" ++ escapeString value ++ points "\"") [.string value] := by
  intro r rs hr
  have hvalue := stringValue?_escapeString value r
  have htext : points "\"" ++ escapeString value ++ points "\"" ++ r =
      .scalar '"' :: (escapeString value ++ .scalar '"' :: r) := by
    simp [points, ofChars]
  rw [htext]
  refine lex_of_lexeme? (by decide) ?_ hr
  rw [lexeme?, if_neg (by decide), if_neg (by decide), if_neg (by decide), if_pos rfl, hvalue]
  rfl

theorem isDigitPoint_of_isDigit {c : Char} (h : c.isDigit = true) : isDigitPoint (.scalar c) = true := by
  have hle : c.toNat < 0x80 := by
    simp only [Char.isDigit, Bool.and_eq_true, decide_eq_true_eq, UInt32.le_iff_toNat_le] at h
    have hle : c.toNat ≤ 57 := h.2
    omega
  simp only [isDigitPoint, isDigit, digitValue?, hle, h, if_true, Option.isSome_some]

theorem not_isNameStart_of_isDigitPoint (h : isDigitPoint p = true) : isNameStart p = false := by
  cases p with
  | scalar c =>
    refine Bool.eq_false_iff.mpr fun hstart => ?_
    have hsmall : c.toNat < 0x80 ∧ c.isDigit = false := by
      simp only [isNameStart, Bool.or_eq_true, beq_iff_eq] at hstart
      obtain hstart | rfl := hstart
      · delta Char.isAlpha Char.isUpper Char.isLower at hstart
        simp only [Char.isDigit, Bool.or_eq_true,
          Bool.and_eq_true, Bool.and_eq_false_iff, decide_eq_true_eq, decide_eq_false_iff_not,
          UInt32.le_iff_toNat_le, ge_iff_le] at hstart ⊢
        have : c.toNat = c.val.toNat := rfl
        have : 'A'.val.toNat = 65 := rfl
        have : 'Z'.val.toNat = 90 := rfl
        have : 'a'.val.toNat = 97 := rfl
        have : 'z'.val.toNat = 122 := rfl
        have : '9'.val.toNat = 57 := rfl
        omega
      · decide
    simp [isDigitPoint, isDigit, digitValue?, hsmall] at h
  | surrogate _ => rfl

theorem leadingNumber_integer {ds : Points} (hds : ∀ p ∈ ds, isDigitPoint p = true) (hclear : Clear r) :
    leadingNumber (ds ++ r) = (.integer (Nat.ofDigitChars 10 (chars ds) 0), r) := by
  obtain ⟨htake, hdrop⟩ := takeWhile_append_of_clear hds fun p q hpq => (hclear p q hpq).2.1
  unfold leadingNumber
  rw [htake, hdrop]
  dsimp only
  split
  · next d rest =>
    have hd := (hclear _ _ rfl).2.2 rfl d rest rfl
    rw [hd, if_neg Bool.false_ne_true]
  · rfl

theorem leadingNumber_decimal {ds fs : Points} (hds : ∀ p ∈ ds, isDigitPoint p = true)
    (hfs : ∀ p ∈ fs, isDigitPoint p = true) (hne : fs ≠ []) (hclear : Clear r) :
    leadingNumber (ds ++ .scalar '.' :: fs ++ r) = (.decimal (ds ++ .scalar '.' :: fs), r) := by
  obtain ⟨htake, hdrop⟩ := takeWhile_append_of_clear (f := isDigitPoint) hds (r := .scalar '.' :: (fs ++ r))
    (by rintro _ _ ⟨⟩; decide)
  obtain ⟨htake', hdrop'⟩ := takeWhile_append_of_clear hfs fun p q hpq => (hclear p q hpq).2.1
  cases fs with
  | nil => exact absurd rfl hne
  | cons d fs =>
    have hd := hfs d mem_cons_self
    have hnumber : leadingNumber (ds ++ .scalar '.' :: (d :: fs ++ r)) =
        if isDigitPoint d then
          (.decimal (ds ++ .scalar '.' :: (d :: fs ++ r).takeWhile isDigitPoint), (d :: fs ++ r).dropWhile isDigitPoint)
        else (.integer (Nat.ofDigitChars 10 (chars ds) 0), .scalar '.' :: (d :: fs ++ r)) := by
      unfold leadingNumber
      rw [htake, hdrop]
      rfl
    rw [append_assoc, cons_append, hnumber, if_pos hd, htake', hdrop']

theorem lex_number {t : Lexeme} (hp : isDigitPoint p = true) (h : leadingNumber (p :: cs) = (t, r))
    (hr : lex r = some rs) : lex (p :: cs) = some (t :: rs) := by
  have hblank : p ≠ .scalar ' ' := by
    rintro rfl
    cases hp
  refine lex_of_lexeme? hblank ?_ hr
  rw [lexeme?, not_isNameStart_of_isDigitPoint hp, if_neg Bool.false_ne_true, if_pos hp, h]

theorem points_repr (n : Nat) : points n.repr = ofChars (Nat.toDigits 10 n) := by
  rw [points, Nat.repr_eq_ofList_toDigits, String.toList_ofList]

theorem repr_digits (n : Nat) : ∃ p w, points n.repr = p :: w ∧ ∀ q ∈ p :: w, isDigitPoint q = true := by
  obtain ⟨c, cs, hcs⟩ := exists_cons_of_ne_nil (Nat.toDigits_ne_nil (n := n) (b := 10))
  refine ⟨.scalar c, ofChars cs, by rw [points_repr, hcs]; rfl, fun q hq => ?_⟩
  have hmem : q ∈ ofChars (Nat.toDigits 10 n) := by
    rw [hcs]
    exact hq
  obtain ⟨d, hd, rfl⟩ := mem_map.mp hmem
  exact isDigitPoint_of_isDigit (Nat.isDigit_of_mem_toDigits (by decide) (by decide) hd)

theorem spells_integer (n : Nat) : Spells (points n.repr) [.integer n] := by
  intro r rs hclear hr
  obtain ⟨p, w, hw, hall⟩ := repr_digits n
  have hnumber := leadingNumber_integer hall hclear
  have hvalue : Nat.ofDigitChars 10 (chars (p :: w)) 0 = n := by
    rw [← hw, points_repr, chars_ofChars, Nat.ofDigitChars_toDigits (by decide) (by decide)]
  rw [hvalue] at hnumber
  rw [hw]
  exact lex_number (hall p mem_cons_self) hnumber hr

def isDecimal (text : Points) : Bool :=
  let whole := text.takeWhile isDigitPoint
  match text.dropWhile isDigitPoint with
  | .scalar '.' :: fraction => !whole.isEmpty && !fraction.isEmpty && fraction.all isDigitPoint
  | _ => false

theorem isDecimal_parts {text : Points} (h : isDecimal text = true) :
    ∃ d ds fs, text = d :: ds ++ .scalar '.' :: fs ∧ fs ≠ [] ∧
      (∀ p ∈ d :: ds, isDigitPoint p = true) ∧ ∀ p ∈ fs, isDigitPoint p = true := by
  unfold isDecimal at h
  dsimp only at h
  split at h
  · next fs hdrop =>
    simp only [Bool.and_eq_true, Bool.not_eq_true', isEmpty_eq_false_iff, all_eq_true] at h
    obtain ⟨⟨hwhole, hfs⟩, hall⟩ := h
    obtain ⟨d, ds, hds⟩ := exists_cons_of_ne_nil hwhole
    refine ⟨d, ds, fs, ?_, hfs, ?_, hall⟩
    · rw [← hds, ← hdrop, takeWhile_append_dropWhile]
    · rw [← hds]
      exact all_eq_true.mp all_takeWhile
  · cases h

theorem spells_decimal {text : Points} (h : isDecimal text = true) : Spells text [.decimal text] := by
  intro r rs hclear hr
  obtain ⟨d, ds, fs, rfl, hne, hds, hfs⟩ := isDecimal_parts h
  exact lex_number (hds d mem_cons_self) (leadingNumber_decimal hds hfs hne hclear) hr

end GroovySharp.CSharp
