import GroovySharp.Unicode.CodePoint

/-!
# C# programs

The part of C# that programs are converted to, as a model of its syntax. A place for an expression or
statement can also hold a node of another category; such a model has no text.
-/

namespace GroovySharp.CSharp

open Unicode

/-! ### Operators -/

inductive BinaryOp
  | add
  | subtract
  | multiply
  | divide
  | modulo
  | less
  | greater
  | lessEqual
  | greaterEqual
  | equal
  | notEqual
  | logicalAnd
  | logicalOr
  deriving Repr, DecidableEq, Inhabited

namespace BinaryOp

def all : List BinaryOp :=
  [add, subtract, multiply, divide, modulo, less, greater, lessEqual, greaterEqual, equal, notEqual,
    logicalAnd, logicalOr]

def text : BinaryOp → String
  | add => "+"
  | subtract => "-"
  | multiply => "*"
  | divide => "/"
  | modulo => "%"
  | less => "<"
  | greater => ">"
  | lessEqual => "<="
  | greaterEqual => ">="
  | equal => "=="
  | notEqual => "!="
  | logicalAnd => "&&"
  | logicalOr => "||"

def ofText? (s : String) : Option BinaryOp := all.find? fun op => op.text == s

end BinaryOp

inductive AssignOp
  | simple
  | add
  | subtract
  | multiply
  | divide
  | modulo
  deriving Repr, DecidableEq, Inhabited

namespace AssignOp

def all : List AssignOp := [simple, add, subtract, multiply, divide, modulo]

def text : AssignOp → String
  | simple => "="
  | add => "+="
  | subtract => "-="
  | multiply => "*="
  | divide => "/="
  | modulo => "%="

def ofText? (s : String) : Option AssignOp := all.find? fun op => op.text == s

end AssignOp

inductive UnaryOp
  | negate
  | not
  | increment
  | decrement
  deriving Repr, DecidableEq, Inhabited

namespace UnaryOp

def all : List UnaryOp := [negate, not, increment, decrement]

def text : UnaryOp → String
  | negate => "-"
  | not => "!"
  | increment => "++"
  | decrement => "--"

def ofText? (s : String) : Option UnaryOp := all.find? fun op => op.text == s

end UnaryOp

/-! ### Literals -/

inductive Literal
  | string (value : Points)
  | integer (value : Int)
  | decimal (text : Points)
  | true
  | false
  | null
  deriving Repr, DecidableEq, Inhabited

/-! ### Expressions and statements -/

mutual

inductive Expr
  | identifier (name : String)
  | literal (value : Literal)
  | interpolated (contents : List Content)
  | binary (op : BinaryOp) (left right : Expr)
  | prefixed (op : UnaryOp) (operand : Expr)
  | postfixed (op : UnaryOp) (operand : Expr)
  | assignment (op : AssignOp) (target value : Expr)
  | conditional (condition whenTrue whenFalse : Expr)
  /-- A member of a target; `nullable` for access that stops at null. -/
  | memberAccess (target : Expr) (name : String) (nullable : Bool)
  | invocation (callee : Expr) (arguments : List Argument)
  | elementAccess (target index : Expr)
  | objectCreation (created : Created) (arguments : List Argument)
  | arrayCreation (elementType : String) (elements : List Expr)
  | lambda (parameters : List String) (body : LambdaBody)
  | foreign (category : String)

/-- What is created: a type by its name. Another part that stands in its place is kept. -/
inductive Created
  | type (name : String)
  | arguments (xs : List Argument)
  | expression (e : Expr)
  | statement (s : Stmt)

inductive Content
  | text (value : Points)
  | hole (value : Expr)

inductive Argument
  | mk (value : Expr) (name : Option String)

inductive LambdaBody
  | expression (value : Expr)
  | block (statements : List Stmt)

inductive Declaration
  | mk (typeName name : String) (initializer : Option Expr)

inductive Stmt
  | block (statements : List Stmt)
  | declaration (d : Declaration)
  | expression (value : Expr)
  | ifElse (condition : Expr) (consequence : Stmt) (alternative : Option Stmt)
  | whileLoop (condition : Expr) (body : Stmt)
  /-- A counting loop; a declaration takes the place of the initializers. -/
  | forLoop (declared : Option Declaration) (initializers : List Expr) (condition : Option Expr)
      (updates : List Expr) (body : Stmt)
  | forEach (typeName identifier : String) (source : Expr) (body : Stmt)
  | switch (subject : Expr) (sections : List SwitchSection)
  | breakOut
  | continueOn
  | returnValue (value : Option Expr)
  | throwValue (value : Expr)
  | tryCatch (block : List Stmt) (catches : List CatchClause) (finallyBlock : Option (List Stmt))
  | foreign (category : String)

inductive SwitchLabel
  | case (value : Expr)
  | fallback

inductive SwitchSection
  | mk (labels : List SwitchLabel) (statements : List Stmt)

inductive CatchClause
  | mk (typeName : String) (identifier : Option String) (block : List Stmt)

end

deriving instance Inhabited for Expr
deriving instance Inhabited for Stmt
deriving instance Inhabited for Created
deriving instance Inhabited for Content
deriving instance Inhabited for Declaration

/-! ### Declarations -/

structure Using where
  name : String
  «alias» : Option String := none
  deriving Repr, DecidableEq, Inhabited

structure Parameter where
  typeName : String
  name : String
  deriving Repr, DecidableEq, Inhabited

structure Method where
  returnType : String
  name : String
  parameters : List Parameter
  body : List Stmt
  modifiers : List String := ["static"]
  deriving Inhabited

inductive Member
  | method (m : Method)
  | statement (s : Stmt)
  | foreign (category : String)
  deriving Inhabited

structure CompilationUnit where
  usings : List Using := []
  members : List Member := []
  deriving Inhabited

/-! ### Categories -/

def Expr.category : Expr → String
  | identifier .. => "IdentifierName"
  | literal .. => "LiteralExpression"
  | interpolated .. => "InterpolatedStringExpression"
  | binary .. => "BinaryExpression"
  | prefixed .. => "PrefixUnaryExpression"
  | postfixed .. => "PostfixUnaryExpression"
  | assignment .. => "AssignmentExpression"
  | conditional .. => "ConditionalExpression"
  | memberAccess .. => "MemberAccessExpression"
  | invocation .. => "InvocationExpression"
  | elementAccess .. => "ElementAccessExpression"
  | objectCreation .. => "ObjectCreationExpression"
  | arrayCreation .. => "ArrayCreationExpression"
  | lambda .. => "LambdaExpression"
  | foreign category => category

def Stmt.category : Stmt → String
  | block .. => "Block"
  | declaration .. => "LocalDeclaration"
  | expression .. => "ExpressionStatement"
  | ifElse .. => "IfStatement"
  | whileLoop .. => "WhileStatement"
  | forLoop .. => "ForStatement"
  | forEach .. => "ForEachStatement"
  | switch .. => "SwitchStatement"
  | breakOut => "BreakStatement"
  | continueOn => "ContinueStatement"
  | returnValue .. => "ReturnStatement"
  | throwValue .. => "ThrowStatement"
  | tryCatch .. => "TryStatement"
  | foreign category => category

def Stmt.isJump : Stmt → Bool
  | breakOut | continueOn | returnValue _ | throwValue _ => true
  | _ => false

end GroovySharp.CSharp
