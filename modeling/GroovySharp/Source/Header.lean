import GroovySharp.Text.Trim

/-!
# Statement headers

Recognisers on the masked code of a line: control headers such as `if (`, declarations such as
`String f(a)`, and the lines that open a closure rather than a block.
-/

namespace GroovySharp.Source

open Text Unicode

/-! ### Control headers -/

def pastBrace : Chars → Chars
  | '\x7d' :: rest => trimStart rest
  | cs => cs

def conditionKeywords : List Chars :=
  ["if".toList, "for".toList, "while".toList, "switch".toList, "catch".toList]

def afterElseIf? (cs : Chars) : Option Chars :=
  match after? "else".toList cs with
  | some rest =>
    if rest.head?.any isSpace then after? "if".toList (trimStart rest) else none
  | none => none

/-- The line from the opening parenthesis of a control header on, if it starts with such a header. -/
def controlHeader? (core : Chars) : Option Chars :=
  let cs := pastBrace core
  let bodies := afterElseIf? cs :: conditionKeywords.map fun k => after? k cs
  bodies.findSome? fun body =>
    match body.map trimStart with
    | some ('(' :: rest) => some ('(' :: rest)
    | _ => none

def isBareHeader (core : Chars) : Bool :=
  ["else".toList, "try".toList, "finally".toList].contains (pastBrace core)

def startsWithKeyword (word cs : Chars) : Bool :=
  match after? word cs with
  | some rest => !rest.head?.any isWord
  | none => false

def blockKeywords : List Chars :=
  ["if".toList, "else".toList, "for".toList, "while".toList, "switch".toList, "try".toList,
    "catch".toList, "finally".toList, "do".toList, "synchronized".toList, "static".toList]

def startsWithControl (core : Chars) : Bool :=
  blockKeywords.any fun k => startsWithKeyword k (pastBrace core)

/-! ### Declarations -/

def typeKeywords : List Chars :=
  ["class".toList, "interface".toList, "enum".toList, "trait".toList, "new".toList]

/-- One of the words occurs in the text as a whole word; `inWord` says that the character before the
text is part of a word. -/
def hasKeyword (words : List Chars) (inWord : Bool) : Chars → Bool
  | [] => false
  | c :: cs => (!inWord && words.any fun w => startsWithKeyword w (c :: cs)) || hasKeyword words (isWord c) cs

def isTypeChar (c : Char) : Bool :=
  isWord c || c == '.' || c == '<' || c == '>' || c == '[' || c == ']' || c == ','

def words (cs : Chars) : List Chars :=
  (cs.splitBy fun a b => isSpace a == isSpace b).filter fun w => !w.head?.any isSpace

def isTypedName (cs : Chars) : Bool :=
  !cs.head?.any isSpace &&
    match (words cs).reverse with
    | name :: first :: more => name.all isWord && first.all isTypeChar && more.all fun w => w.all isTypeChar
    | _ => false

def declarationOpen? (core : Chars) : Option Chars :=
  match core.dropWhile (· != '(') with
  | '(' :: rest => if isTypedName (core.takeWhile (· != '(')) then some rest else none
  | _ => none

/-- The text is empty or a `throws` clause. -/
def isThrowsClause (cs : Chars) : Bool :=
  match trimStart cs with
  | [] => true
  | tail =>
    match after? "throws".toList tail with
    | some names =>
      names.head?.any isSpace && decide (2 ≤ names.length) &&
        names.all fun c => isWord c || c == '.' || c == ',' || isSpace c
    | none => false

/-- The text is the head of a declaration with a closed parameter list. -/
def isDeclarationHead (head : Chars) : Bool :=
  match declarationOpen? head with
  | none => false
  | some rest =>
    match rest.reverse.dropWhile (· != ')') with
    | ')' :: parameters => !parameters.contains '\n' && isThrowsClause (rest.drop (parameters.length + 1))
    | _ => false

/-! ### Closures -/

/-- The line ends with the brace of a closure: not of a block, a type body or a declaration. -/
def opensBareClosure (core : Chars) : Bool :=
  match core.reverse with
  | '\x7b' :: front =>
    let head := trimEnd front.reverse
    match head.getLast? with
    | none => false
    | some last =>
      !startsWithControl head && !hasKeyword typeKeywords false head && !isDeclarationHead head &&
        (last == ')' || last == '=' || last == '(' || last == ',' || isAlphanumeric last ||
          last == '_')
  | _ => false

def startsChain (core : Chars) : Bool :=
  ['.'].isPrefixOf core || ['?', '.'].isPrefixOf core

end GroovySharp.Source
