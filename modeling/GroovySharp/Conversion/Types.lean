import GroovySharp.CSharp.Model
import GroovySharp.Tree

/-!
# Types of converted programs

The names of types in C#, the types of declarations without one, and which bodies return a value.
-/

namespace GroovySharp.Conversion

open CSharp

/-- The types whose names differ or that need no import, each with its C# name. -/
def typeNames : List (String × String) :=
  [("def", "var"), ("Object", "object"), ("String", "string"), ("Integer", "int"), ("int", "int"),
    ("Long", "long"), ("long", "long"), ("Short", "short"), ("short", "short"), ("Byte", "byte"),
    ("byte", "byte"), ("Double", "double"), ("double", "double"), ("Float", "float"),
    ("float", "float"), ("BigDecimal", "decimal"), ("Boolean", "bool"), ("boolean", "bool"),
    ("Character", "char"), ("char", "char")]

def typeName (name : String) : String := (typeNames.lookup name).getD name

def consoleMethod? : String → Option String
  | "println" => some "WriteLine"
  | "print" => some "Write"
  | _ => none

/-! ### Returned values in trees -/

def isNode : Tree → Bool
  | .leaf _ => false
  | .node .. => true

mutual

def returnsValue : Tree → Bool
  | .leaf _ => false
  | .node kind children _ _ =>
    if kind = .closure then false
    else kind = .returnStatement && children.any isNode || anyReturnsValue children

def anyReturnsValue : List Tree → Bool
  | [] => false
  | t :: ts => returnsValue t || anyReturnsValue ts

end

/-! ### Returned values in C# -/

mutual

/-- The statement holds a return with a value; lambdas stand in expressions and are not entered. -/
def yieldsValue : Stmt → Bool
  | .returnValue value => value.isSome
  | .block statements => anyYieldsValue statements
  | .ifElse _ consequence alternative => yieldsValue consequence || optionYieldsValue alternative
  | .whileLoop _ body => yieldsValue body
  | .forLoop _ _ _ _ body => yieldsValue body
  | .forEach _ _ _ body => yieldsValue body
  | .switch _ sections => sectionsYieldValue sections
  | .tryCatch block catches finallyBlock =>
    anyYieldsValue block || catchesYieldValue catches || finallyYieldsValue finallyBlock
  | _ => false

def anyYieldsValue : List Stmt → Bool
  | [] => false
  | s :: rest => yieldsValue s || anyYieldsValue rest

def optionYieldsValue : Option Stmt → Bool
  | none => false
  | some s => yieldsValue s

def sectionsYieldValue : List SwitchSection → Bool
  | [] => false
  | .mk _ statements :: rest => anyYieldsValue statements || sectionsYieldValue rest

def catchesYieldValue : List CatchClause → Bool
  | [] => false
  | .mk _ _ block :: rest => anyYieldsValue block || catchesYieldValue rest

def finallyYieldsValue : Option (List Stmt) → Bool
  | none => false
  | some block => anyYieldsValue block

end

/-! ### Types of declarations -/

def isConsoleCall : Expr → Bool
  | .invocation (.memberAccess (.identifier "Console") _ _) _ => true
  | _ => false

def bodyYieldsValue : LambdaBody → Bool
  | .expression e => !isConsoleCall e
  | .block statements => anyYieldsValue statements

def delegateType (arity : Nat) (body : LambdaBody) : String :=
  if bodyYieldsValue body then
    "Func<" ++ String.join (List.replicate arity "dynamic, ") ++ "dynamic>"
  else if arity = 0 then "Action"
  else "Action<" ++ ", ".intercalate (List.replicate arity "dynamic") ++ ">"

def inferredType : Expr → String
  | .literal .null => "object"
  | .lambda parameters body => delegateType parameters.length body
  | _ => "var"

def isLambda : Expr → Bool
  | .lambda .. => true
  | _ => false

def terminated (statements : List Stmt) : List Stmt :=
  if statements.any Stmt.isJump then statements else statements ++ [.breakOut]

end GroovySharp.Conversion
