import GroovySharp.Proofs.Lexicon

/-!
# Reading C# expressions

Expressions are read from their tokens by precedence: assignments and lambdas bind loosest and to the
right, then conditionals, then the binary operators level by level and to the left, then signs before
an operand, and what follows an operand binds tightest.
-/

namespace GroovySharp.CSharp

open Unicode

/-! ### The table of binary operators -/

def levels : List (List BinaryOp) :=
  [[.logicalOr], [.logicalAnd], [.equal, .notEqual], [.less, .greater, .lessEqual, .greaterEqual],
    [.add, .subtract], [.multiply, .divide, .modulo]]

def BinaryOp.rank (op : BinaryOp) : Nat := levels.findIdx fun ops => ops.contains op

/-! ### Names -/

-- A recursive call is put in by `apply`, which leaves the place of the call in the file out of the term.
abbrev Reader (α : Type) := List Lexeme → Option (α × List Lexeme)

def name? : List Lexeme → Option (String × List Lexeme)
  | .word s :: rest => if keywords.contains s then none else some (s, rest)
  | .verbatim s :: rest => some (s, rest)
  | _ => none

def names? (ts : List Lexeme) : Option (List String × List Lexeme) := do
  let (n, rest) ← name? ts
  match rest with
  | .mark .comma :: rest => do
    let (ns, rest) ← (by apply names? : Reader (List String)) rest
    return (n :: ns, rest)
  | .mark .closeParen :: rest => return ([n], rest)
  | _ => none
partial_fixpoint

def parameters? : List Lexeme → Option (List String × List Lexeme)
  | .mark .openParen :: .mark .closeParen :: .mark .arrow :: rest => some ([], rest)
  | .mark .openParen :: rest =>
    match names? rest with
    | some (ns, .mark .arrow :: rest) => some (ns, rest)
    | _ => none
  | _ => none

def lambdaHead? (ts : List Lexeme) : Option (List String × List Lexeme) :=
  match name? ts with
  | some (n, .mark .arrow :: rest) => some ([n], rest)
  | _ => parameters? ts

def label? (ts : List Lexeme) : Option (String × List Lexeme) :=
  match name? ts with
  | some (n, .mark .colon :: rest) => some (n, rest)
  | _ => none

def values? : List Argument → Option (List Expr)
  | [] => some []
  | .mk e none :: rest => (values? rest).map (e :: ·)
  | .mk _ (some _) :: _ => none

/-! ### Expressions -/

def wordExpr? (s : String) : Option Expr :=
  if s = "true" then some (.literal .true)
  else if s = "false" then some (.literal .false)
  else if s = "null" then some (.literal .null)
  else if keywords.contains s then none
  else some (.identifier s)

mutual

/-- A lambda or an assignment, or anything tighter. -/
def readExpression (ts : List Lexeme) : Option (Expr × List Lexeme) :=
  match lambdaHead? ts with
  | some (parameters, rest) => do
    let (body, rest) ← (by apply readExpression : Reader Expr) rest
    return (.lambda parameters (.expression body), rest)
  | none => do
    let (left, rest) ← (by apply readConditional : Reader Expr) ts
    match rest with
    | .mark (.assign op) :: rest => do
      let (value, rest) ← (by apply readExpression : Reader Expr) rest
      return (.assignment op left value, rest)
    | rest => return (left, rest)
partial_fixpoint

def readConditional (ts : List Lexeme) : Option (Expr × List Lexeme) := do
  let (condition, rest) ← (by apply readBinary : Nat → Reader Expr) 0 ts
  match rest with
  | .mark .question :: rest => do
    let (whenTrue, rest) ← (by apply readExpression : Reader Expr) rest
    match rest with
    | .mark .colon :: rest => do
      let (whenFalse, rest) ← (by apply readConditional : Reader Expr) rest
      return (.conditional condition whenTrue whenFalse, rest)
    | _ => none
  | rest => return (condition, rest)
partial_fixpoint

def readBinary (level : Nat) (ts : List Lexeme) : Option (Expr × List Lexeme) := do
  let (left, rest) ← (by apply readUnary : Reader Expr) ts
  (by apply extendBinary : Nat → Expr → Reader Expr) level left rest
partial_fixpoint

/-- The operators of the level and tighter ones that follow an operand. -/
def extendBinary (level : Nat) (left : Expr) (ts : List Lexeme) : Option (Expr × List Lexeme) :=
  match ts with
  | .mark (.binary op) :: rest =>
    if level ≤ op.rank then do
      let (right, rest) ← (by apply readBinary : Nat → Reader Expr) (op.rank + 1) rest
      (by apply extendBinary : Nat → Expr → Reader Expr) level (.binary op left right) rest
    else some (left, ts)
  | _ => some (left, ts)
partial_fixpoint

def readUnary (ts : List Lexeme) : Option (Expr × List Lexeme) :=
  match ts with
  | .mark (.binary .subtract) :: rest => do
    let (operand, rest) ← (by apply readUnary : Reader Expr) rest
    return (.prefixed .negate operand, rest)
  | .mark .bang :: rest => do
    let (operand, rest) ← (by apply readUnary : Reader Expr) rest
    return (.prefixed .not operand, rest)
  | _ => (by apply readPostfix : Reader Expr) ts
partial_fixpoint

def readPostfix (ts : List Lexeme) : Option (Expr × List Lexeme) := do
  let (operand, rest) ← (by apply readPrimary : Reader Expr) ts
  (by apply extendPostfix : Expr → Reader Expr) operand rest
partial_fixpoint

def extendPostfix (operand : Expr) (ts : List Lexeme) : Option (Expr × List Lexeme) :=
  match ts with
  | .mark .increment :: rest => (by apply extendPostfix : Expr → Reader Expr) (.postfixed .increment operand) rest
  | .mark .decrement :: rest => (by apply extendPostfix : Expr → Reader Expr) (.postfixed .decrement operand) rest
  | .mark .dot :: rest => do
    let (name, rest) ← name? rest
    (by apply extendPostfix : Expr → Reader Expr) (.memberAccess operand name false) rest
  | .mark .safeDot :: rest => do
    let (name, rest) ← name? rest
    (by apply extendPostfix : Expr → Reader Expr) (.memberAccess operand name true) rest
  | .mark .openParen :: rest => do
    let (arguments, rest) ← (by apply readArguments : Mark → Reader (List Argument)) .closeParen rest
    (by apply extendPostfix : Expr → Reader Expr) (.invocation operand arguments) rest
  | .mark .openBracket :: rest => do
    let (index, rest) ← (by apply readExpression : Reader Expr) rest
    match rest with
    | .mark .closeBracket :: rest => (by apply extendPostfix : Expr → Reader Expr) (.elementAccess operand index) rest
    | _ => none
  | _ => some (operand, ts)
partial_fixpoint

/-- A name, a literal, something created, or an expression in parentheses. -/
def readPrimary (ts : List Lexeme) : Option (Expr × List Lexeme) :=
  match ts with
  | .word s :: rest =>
    if s = "new" then (by apply readCreation : Reader Expr) rest else (wordExpr? s).map fun e => (e, rest)
  | .verbatim s :: rest => some (.identifier s, rest)
  | .integer n :: rest => some (.literal (.integer n), rest)
  | .decimal text :: rest => some (.literal (.decimal text), rest)
  | .string value :: rest => some (.literal (.string value), rest)
  | .interpolated text :: rest => some (.interpolated [.text text], rest)
  | .mark .openParen :: rest => do
    let (e, rest) ← (by apply readExpression : Reader Expr) rest
    match rest with
    | .mark .closeParen :: rest => some (e, rest)
    | _ => none
  | _ => none
partial_fixpoint

/-- What is created: an object with arguments, or an array with elements. -/
def readCreation (ts : List Lexeme) : Option (Expr × List Lexeme) :=
  match ts with
  | .word type :: .mark .openParen :: rest => do
    let (arguments, rest) ← (by apply readArguments : Mark → Reader (List Argument)) .closeParen rest
    return (.objectCreation (.type type) arguments, rest)
  | .word type :: .mark .openBracket :: .mark .closeBracket :: .mark .openBrace :: rest => do
    let (items, rest) ← (by apply readArguments : Mark → Reader (List Argument)) .closeBrace rest
    let elements ← values? items
    return (.arrayCreation type elements, rest)
  | _ => none
partial_fixpoint

def readArguments (close : Mark) (ts : List Lexeme) : Option (List Argument × List Lexeme) :=
  match ts with
  | .mark m :: rest =>
    if m = close then some ([], rest) else (by apply readMoreArguments : Mark → Reader (List Argument)) close ts
  | _ => (by apply readMoreArguments : Mark → Reader (List Argument)) close ts
partial_fixpoint

def readMoreArguments (close : Mark) (ts : List Lexeme) : Option (List Argument × List Lexeme) := do
  let (argument, rest) ← (by apply readArgument : Reader Argument) ts
  match rest with
  | .mark m :: rest =>
    if m = close then return ([argument], rest)
    else if m = .comma then do
      let (arguments, rest) ← (by apply readMoreArguments : Mark → Reader (List Argument)) close rest
      return (argument :: arguments, rest)
    else none
  | _ => none
partial_fixpoint

def readArgument (ts : List Lexeme) : Option (Argument × List Lexeme) :=
  match label? ts with
  | some (name, rest) => do
    let (value, rest) ← (by apply readExpression : Reader Expr) rest
    return (.mk value (some name), rest)
  | none => do
    let (value, rest) ← (by apply readExpression : Reader Expr) ts
    return (.mk value none, rest)
partial_fixpoint

end

def readText (text : Points) : Option Expr := do
  let ts ← lex text
  match ← readExpression ts with
  | (e, []) => some e
  | _ => none

end GroovySharp.CSharp
