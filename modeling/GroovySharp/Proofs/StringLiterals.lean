import GroovySharp.Proofs.ExpressionConversion

/-!
# String literals

A regular string literal of C# is read by the rules of its escapes.
-/

namespace GroovySharp

open Unicode Text List

namespace CSharp

/-! ### Regular string literals -/

/-- The line ends that are written as escapes, and those that are written as they are. -/
def escapedEnds : Points := [.scalar '\r', .scalar '\n']

def rawEnds : Points := [.scalar '\x85', .scalar '\u2028', .scalar '\u2029']

def simpleEscape? : CodePoint → Option Char
  | .scalar '\'' => some '\''
  | .scalar '"' => some '"'
  | .scalar '\\' => some '\\'
  | .scalar '0' => some '\x00'
  | .scalar 'a' => some '\x07'
  | .scalar 'b' => some '\x08'
  | .scalar 'f' => some '\x0c'
  | .scalar 'n' => some '\n'
  | .scalar 'r' => some '\r'
  | .scalar 't' => some '\t'
  | .scalar 'v' => some '\x0b'
  | _ => none

def hexDigit? : CodePoint → Option Nat
  | .scalar c => hexValue? c
  | .surrogate _ => none

/-- A code point by its number: as many hexadecimal digits as there are, from `least` to `most`. -/
def numericEscape? (least most : Nat) (cs : Points) : Option (CodePoint × Nat) :=
  let digits := ((cs.take most).takeWhile fun p => (hexDigit? p).isSome).filterMap hexDigit?
  let number := digits.foldl (fun n d => 16 * n + d) 0
  if least ≤ digits.length ∧ number < 0x110000 then some (.ofNat number, digits.length + 1) else none

/-- What the text behind a backslash stands for, and how many code points of it belong to the escape. -/
def escape? : Points → Option (CodePoint × Nat)
  | .scalar 'u' :: cs => numericEscape? 4 4 cs
  | .scalar 'U' :: cs => numericEscape? 8 8 cs
  | .scalar 'x' :: cs => numericEscape? 1 4 cs
  | p :: _ => (simpleEscape? p).map fun c => (.scalar c, 1)
  | [] => none

/-- The value of the text between the quotes of a literal in which the given line ends cannot stand. -/
def decode? (ends : Points) : Points → Option Points
  | [] => some []
  | p :: rest =>
    if p = .scalar '\\' then do
      let (q, n) ← escape? rest
      let value ← decode? ends (rest.drop n)
      return q :: value
    else if p = .scalar '"' ∨ p ∈ ends then none
    else do
      let value ← decode? ends rest
      return p :: value
termination_by cs => cs.length
decreasing_by
  · rw [length_drop, length_cons]
    omega
  · exact Nat.lt_succ_self _

def literalValue? (ends : Points) : Points → Option Points
  | .scalar '"' :: rest => if rest.getLast? = some (.scalar '"') then decode? ends rest.dropLast else none
  | _ => none

/-! ### Written literals -/

theorem escapePoint_cases (p : CodePoint) :
    (∃ q, escapePoint p = [.scalar '\\', q] ∧ ∀ r, escape? (q :: r) = some (p, 1)) ∨
      escapePoint p = [p] ∧ p ≠ .scalar '\\' ∧ p ≠ .scalar '"' ∧ p ∉ escapedEnds := by
  unfold escapePoint
  split
  case h_7 hbackslash hquote hfeed hreturn _ _ =>
    refine .inr ⟨rfl, hbackslash, hquote, ?_⟩
    simp only [escapedEnds, mem_cons, not_mem_nil, or_false, not_or]
    exact ⟨hreturn, hfeed⟩
  all_goals exact .inl ⟨_, rfl, fun _ => rfl⟩

variable {ends : Points}

theorem decode?_escapePoint {p : CodePoint} (hp : p ∈ ends → p ∈ escapedEnds)
    (cs : Points) : decode? ends (escapePoint p ++ cs) = (decode? ends cs).map (p :: ·) := by
  rcases escapePoint_cases p with ⟨q, htext, hescape⟩ | ⟨htext, hbackslash, hquote, hend⟩
  · rw [htext, cons_append, cons_append, nil_append, decode?, if_pos rfl, hescape]
    change (decode? ends cs).bind (fun value => some (p :: value)) = _
    cases decode? ends cs <;> rfl
  · rw [htext, singleton_append, decode?, if_neg hbackslash, if_neg (not_or.mpr ⟨hquote, fun h => hend (hp h)⟩)]
    cases decode? ends cs <;> rfl

theorem decode?_rawEnd {p : CodePoint} (hp : p ∈ ends) (hraw : p ∈ rawEnds) (cs : Points) :
    decode? ends (escapePoint p ++ cs) = none := by
  have htext : escapePoint p = [p] ∧ p ≠ .scalar '\\' := by
    simp only [rawEnds, mem_cons, not_mem_nil, or_false] at hraw
    rcases hraw with rfl | rfl | rfl <;> decide
  rw [htext.1, singleton_append, decode?, if_neg htext.2, if_pos (.inr hp)]

theorem decode?_escapeString {value : Points}
    (h : ∀ p ∈ value, p ∈ ends → p ∈ escapedEnds) : decode? ends (escapeString value) = some value := by
  induction value with
  | nil => rw [escapeString, flatMap_nil, decode?]
  | cons p value ih =>
    rw [forall_mem_cons] at h
    rw [escapeString, flatMap_cons, decode?_escapePoint h.1, ← escapeString, ih h.2]
    rfl

theorem decode?_of_rawEnd {value : Points} (h : ∃ p ∈ value, p ∈ rawEnds) :
    decode? (escapedEnds ++ rawEnds) (escapeString value) = none := by
  induction value with
  | nil => simp at h
  | cons p value ih =>
    rw [escapeString, flatMap_cons]
    by_cases hp : p ∈ rawEnds
    · exact decode?_rawEnd (mem_append_right _ hp) hp _
    · have hrest : ∃ q ∈ value, q ∈ rawEnds := by simpa [hp] using h
      rw [decode?_escapePoint fun hmem => (mem_append.mp hmem).resolve_right hp, ← escapeString, ih hrest]
      rfl

theorem literalValue?_text (ends value : Points) :
    literalValue? ends (Literal.string value).text = decode? ends (escapeString value) := by
  have htext : (Literal.string value).text = .scalar '"' :: (escapeString value ++ [.scalar '"']) := by
    simp [Literal.text, points, ofChars]
  rw [htext, literalValue?, getLast?_append, dropLast_concat]
  rfl

end CSharp

/-! ### Strings of the source -/

namespace Conversion

open CSharp Grammar

def stringTokens : List LeafKind :=
  [.terminal .singleString, .terminal .doubleString, .terminal .tripleString]

/-- The value of a string token: its text without the quotes, with its escapes taken for what they are. -/
def tokenValue (l : Leaf) : Points :=
  if l.kind = .terminal .tripleString then unescape (between 3 3 l.text) else unescape (between 1 1 l.text)

theorem product_string (options : Options) {l : Leaf} (hl : l.kind ∈ stringTokens) (span : Span)
    (text : Chars) : product options (.node .stringLiteral [.leaf l] span text) =
      pure (.expression (.literal (.string (tokenValue l)))) := by
  have hfirst : firstLeaf? [.singleString, .doubleString, .tripleString] [.leaf l] = some l := by
    simp only [stringTokens, mem_cons, not_mem_nil, or_false] at hl
    rcases hl with h | h | h <;> simp [firstLeaf?, h]
  rw [product_node, map_cons, childOf_leaf, map_nil]
  simp only [assemble, stringLiteral, required, hfirst, Build.pure_bind, Build.map_pure, tokenValue]
  split <;> rfl

/-- A string of the source is written as a literal in which only the line ends U+0085, U+2028 and U+2029
can stand unescaped and which is read as the value of the string. It is a literal of C#, where these
three cannot stand either, exactly if the value has none of them. -/
theorem string_survives_iff (options : Options) {l : Leaf} (hl : l.kind ∈ stringTokens) (span : Span)
    (text : Chars) (indent : Points) (level : Nat) :
    ∃ e output, product options (.node .stringLiteral [.leaf l] span text) = .ok (.expression e, {}) ∧
      exprText indent level e = .ok output ∧ literalValue? escapedEnds output = some (tokenValue l) ∧
      (literalValue? (escapedEnds ++ rawEnds) output =
        if ∃ p ∈ tokenValue l, p ∈ rawEnds then none else some (tokenValue l)) := by
  refine ⟨_, _, product_string options hl span text, rfl, ?_, ?_⟩
  · rw [literalValue?_text]
    exact decode?_escapeString fun _ _ h => h
  · rw [literalValue?_text]
    split
    · next h => exact decode?_of_rawEnd h
    · next h =>
      refine decode?_escapeString fun p hp hmem => (List.mem_append.mp hmem).resolve_right ?_
      exact fun hraw => h ⟨p, hp, hraw⟩

def quotedToken : Leaf := ⟨.terminal .singleString, "'\\'\"\\\\\\u00410\\0\\n'".toList, .empty⟩

theorem string_survives_escapes :
    quotedToken.kind ∈ stringTokens ∧ tokenValue quotedToken = points "'\"\\A00\n" ∧
      ∃ e output, product {} (.node .stringLiteral [.leaf quotedToken] .empty []) = .ok (.expression e, {}) ∧
        exprText fourSpaces 0 e = .ok output ∧
        literalValue? (escapedEnds ++ rawEnds) output = some (points "'\"\\A00\n") := by
  have hvalue : tokenValue quotedToken = points "'\"\\A00\n" := by decide
  obtain ⟨e, output, he, hout, -, hread⟩ :=
    string_survives_iff {} (l := quotedToken) (by decide) .empty [] fourSpaces 0
  refine ⟨by decide, hvalue, e, output, he, hout, ?_⟩
  rw [hread, if_neg (by rw [hvalue]; decide), hvalue]

/-- A line separator that is written as an escape in the source stands unescaped in the literal. -/
theorem line_separator_breaks_literal :
    product {} (.node .stringLiteral [.leaf ⟨.terminal .singleString, "'a\\u2028b'".toList, .empty⟩] .empty []) =
        .ok (.expression (.literal (.string (points "a\u2028b"))), {}) ∧
      exprText fourSpaces 0 (.literal (.string (points "a\u2028b"))) = .ok (points "\"a\u2028b\"") ∧
      literalValue? (escapedEnds ++ rawEnds) (points "\"a\u2028b\"") = none := by
  have htext : (Literal.string (points "a\u2028b")).text = points "\"a\u2028b\"" := by decide
  refine ⟨product_string {} (by decide) .empty [], congrArg Except.ok htext, ?_⟩
  rw [← htext, literalValue?_text]
  exact decode?_of_rawEnd (by decide)

end Conversion

end GroovySharp
