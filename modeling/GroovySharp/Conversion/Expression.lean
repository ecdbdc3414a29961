import GroovySharp.Conversion.Build
import GroovySharp.Conversion.Types
import GroovySharp.Text.Escaped

/-!
# Expressions in C#

For each expression of the source language, the C# that its converted parts are put together to.
-/

namespace GroovySharp.Conversion

open CSharp Grammar Text

variable (site : Site) (children : List Child)

/-! ### Literals -/

def fitsInt32 (n : Int) : Bool := decide (-2147483648 ≤ n) && decide (n ≤ 2147483647)

/-- A whole number of at most 32 bits. -/
def integerLiteral : Build Expr := do
  let l ← required site .value (firstLeaf? [.integer] children)
  match readInteger l.text with
  | .error f => .fail (.numeral f)
  | .ok n =>
    if fitsInt32 n then return .literal (.integer n)
    else .fail (.unsupported site (.wideInteger l.text))

def decimalLiteral : Build Expr := do
  let l ← required site .value (firstLeaf? [.decimal] children)
  return .literal (.decimal (Unicode.ofChars l.text))

def between (start stop : Nat) (cs : Chars) : Chars := (cs.take (cs.length - stop)).drop start

def stringLiteral : Build Expr := do
  let l ← required site .value (firstLeaf? [.singleString, .doubleString, .tripleString] children)
  let width := if l.kind = .terminal .tripleString then 3 else 1
  return .literal (.string (unescape (between width width l.text)))

/-- The text of a piece of an interpolated string: the first has its opening quote, and all have a
dollar sign or the closing quote at their end. -/
def pieceText (l : Leaf) : Chars :=
  if l.kind = .gstringBegin then between 1 1 l.text else between 0 1 l.text

def gstringContents : List Child → Build (List Content)
  | [] => return []
  | .part p :: rest => do
    let e ← p.expr
    return .hole e :: (← gstringContents rest)
  | .leaf l :: rest => do
    let contents ← gstringContents rest
    if (pieceText l).isEmpty then return contents
    else return .text (unescape (pieceText l)) :: contents

def startsGstring : List Child → Bool
  | .leaf l :: _ => l.kind == .gstringBegin
  | _ => false

def gstring : Build Expr := do
  if startsGstring children then return .interpolated (← gstringContents children)
  else .fail (.missing site site.kind .startToken)

def booleanLiteral : Build Expr := do
  if hasLeaf .trueWord children then return .literal .true
  else if hasLeaf .falseWord children then return .literal .false
  else .fail (.missing site site.kind .value)

/-! ### Operators -/

def operatorText? : Option Chars :=
  (leavesOf children).head?.map Leaf.text

def assignmentExpression : Build Expr := do
  let l ← required site .operator (firstLeaf? [.assign] children)
  match AssignOp.ofText? (String.ofList l.text) with
  | none => .fail (.unsupported site (.assignmentOperator l.text))
  | some op =>
    let target ← (← nthPart site children 0 .target).expr
    return .assignment op target (← (← nthPart site children 1 .value).expr)

def ternaryExpression : Build Expr := do
  let condition ← (← nthPart site children 0 .condition).expr
  let whenTrue ← (← nthPart site children 1 .trueBranch).expr
  return .conditional condition whenTrue (← (← nthPart site children 2 .falseBranch).expr)

def binaryExpression : Build Expr := do
  let text ← required site .operator (operatorText? children)
  match BinaryOp.ofText? (String.ofList text) with
  | none => .fail (.unsupported site (.operator text))
  | some op =>
    let left ← (← nthPart site children 0 .leftOperand).expr
    return .binary op left (← (← nthPart site children 1 .rightOperand).expr)

def leadingOp? (text : Chars) : Option UnaryOp :=
  if text = ['-'] then some .negate else if text = ['!'] then some .not else none

def trailingOp? (text : Chars) : Option UnaryOp :=
  if text = ['+', '+'] then some .increment
  else if text = ['-', '-'] then some .decrement
  else none

def unaryExpression : Build Expr := do
  let op ← required site .operator ((operatorText? children).bind leadingOp?)
  return .prefixed op (← (← nthPart site children 0 .operand).expr)

def postfixExpression : Build Expr := do
  let op ← required site .operator ((operatorText? children).bind trailingOp?)
  return .postfixed op (← (← nthPart site children 0 .operand).expr)

def indexExpression : Build Expr := do
  let target ← (← nthPart site children 0 .target).expr
  return .elementAccess target (← (← nthPart site children 1 .index).expr)

/-! ### Calls -/

/-- What a call by name calls: printing functions are methods of the console. -/
def callee (name : String) : Build Expr := do
  match consoleMethod? name with
  | some method =>
    .usesSystem true
    return .memberAccess (.identifier "Console") method false
  | none => return .identifier name

def isTypeName (name : String) : Bool :=
  (typeNames.lookup name).isSome ||
    match name.toList with
    | c :: _ => Unicode.isCapital c
    | [] => false

/-- A call without parentheses. A type and a name are a declaration without its value. -/
def commandCall : Build Expr := do
  let name ← nameText site children [.commandName]
  match partsOf children with
  | [] => .fail (.missing site site.kind .argument)
  | p :: ps =>
    if isTypeName name && ps.isEmpty && p.site.kind == .identifier then
      .fail (.missing site .localDeclaration .initializer)
    else
      let target ← callee name
      return .invocation target ((← exprsOf (p :: ps)).map fun e => .mk e none)

def listedArgument (p : Part) : Build Argument := do
  if p.site.kind == .namedArgument then p.argument else return .mk (← p.expr) none

def callArguments (p : Part) : Build (List Argument) := do
  if p.site.kind == .arguments then p.arguments else return [.mk (← p.expr) none]

def memberOf (names : List Terminal) : Build Expr := do
  let target ← (← nthPart site children 0 .target).expr
  return .memberAccess target (← nameText site children names) (hasLeaf .safeDot children)

def methodCall : Build Expr := do
  let target ← memberOf site children [.callName, .name]
  return .invocation target (← eachPart callArguments ((partsOf children).drop 1)).flatten

def callExpression : Build Expr := do
  let target ← callee (← nameText site children [.callName, .name])
  return .invocation target (← eachPart callArguments (partsOf children)).flatten

def objectCreation : Build Expr := do
  let created ← (← nthPart site children 0 .typeName).created
  match firstPart? .arguments children with
  | some p => return .objectCreation created (← p.arguments)
  | none => return .objectCreation created []

def namedArgument : Build Argument := do
  let value ← (← nthPart site children 0 .value).expr
  return .mk value (some (← nameText site children [.name]))

/-! ### Closures -/

/-- The body of a closure: its only expression, or its statements. -/
def closureBody (parts : List Part) : Build LambdaBody := do
  match parts with
  | [p] =>
    match ← p.stmt? with
    | some (.expression e) =>
      if p.site.kind == .expressionStatement then return .expression e
      else return .block [.expression e]
    | s => return .block s.toList
  | parts => return .block (← stmtsOf parts)

/-- A closure. Without parameters and arrow it has the one parameter `it`. -/
def closure : Build Expr := do
  let parameters ← match firstPart? .closureParameters children with
    | some p => p.names
    | none => pure (if hasLeaf .arrow children then [] else ["it"])
  let body ← closureBody ((partsOf children).filter fun p => p.site.kind != .closureParameters)
  return .lambda parameters body

end GroovySharp.Conversion
