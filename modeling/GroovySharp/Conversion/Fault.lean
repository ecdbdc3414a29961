import GroovySharp.Error
import GroovySharp.Text.Numeral
import GroovySharp.Tree

/-!
# Constructs that cannot be converted

Why a tree has no C# counterpart, and the report of it.
-/

namespace GroovySharp.Conversion

open Text

structure Site where
  kind : Kind
  span : Span
  text : Chars
  deriving Repr, DecidableEq

inductive Role
  | name
  | qualifiedName
  | typeName
  | body
  | block
  | initializer
  | argument
  | expression
  | condition
  | iterable
  | subject
  | caseValue
  | handler
  | operator
  | target
  | value
  | trueBranch
  | falseBranch
  | leftOperand
  | rightOperand
  | operand
  | index
  | startToken
  deriving Repr, DecidableEq

def Role.text : Role → String
  | name => "name"
  | qualifiedName => "qualified name"
  | typeName => "type"
  | body => "body"
  | block => "block"
  | initializer => "initializer"
  | argument => "argument"
  | expression => "expression"
  | condition => "condition"
  | iterable => "iterable"
  | subject => "subject"
  | caseValue => "case value"
  | handler => "catch or finally clause"
  | operator => "operator"
  | target => "target"
  | value => "value"
  | trueBranch => "true branch"
  | falseBranch => "false branch"
  | leftOperand => "left operand"
  | rightOperand => "right operand"
  | operand => "operand"
  | index => "index"
  | startToken => "start token"

inductive Feature
  | construct (k : Kind)
  | operator (text : Chars)
  | assignmentOperator (text : Chars)
  | declarationOperator (text : Chars)
  | wideInteger (text : Chars)
  deriving Repr, DecidableEq

def Feature.text : Feature → String
  | construct k => k.label
  | operator t => "operator '" ++ String.ofList t ++ "'"
  | assignmentOperator t => "assignment operator '" ++ String.ofList t ++ "'"
  | declarationOperator t => "declaration operator '" ++ String.ofList t ++ "'"
  | wideInteger t => "integer literal " ++ String.ofList t ++ " outside 32-bit range"

inductive Place
  | expression
  | statement
  | block
  | topLevel
  | program
  /-- A name, a list of parameters or another part that only its own construct gives. -/
  | part
  deriving Repr, DecidableEq

def Place.text : Place → String
  | expression => "expression"
  | statement => "statement"
  | block => "block"
  | topLevel => "statement or declaration"
  | program => Kind.compilationUnit.label
  | part => "part"

/-- Why a tree cannot be converted. -/
inductive Fault
  /-- A construct lacks something; the construct may be another one than the node's own. -/
  | missing (site : Site) (construct : Kind) (role : Role)
  | unsupported (site : Site) (feature : Feature)
  | mismatch (site : Site) (place : Place) (category : String)
  /-- The digits of an integer literal cannot be read. -/
  | numeral (fault : NumeralFault)
  | nameless (category : String)
  deriving Repr, DecidableEq

def lineNumber? (n : Nat) : Option Int := if n = 0 then none else some n

def Site.report (site : Site) (code message : String) : Report :=
  .make code message (lineNumber? site.span.start.line) (lineNumber? site.span.stop.line)
    (String.ofList site.text)

def Fault.complaint : Fault → Complaint
  | missing site k role =>
    .reported (site.report "MISSING_CONSTRUCT" (k.label ++ " is missing its " ++ role.text))
  | unsupported site feature =>
    .reported (site.report "UNSUPPORTED_CONSTRUCT" ("Unsupported construct: " ++ feature.text))
  | mismatch site place category =>
    .reported (site.report "TYPE_MISMATCH" ("Expected " ++ place.text ++ ", got " ++ category))
  | numeral f => .broken ⟨"ValueError", f.message⟩
  | nameless category =>
    .broken ⟨"AttributeError", "'" ++ category ++ "' object has no attribute 'rsplit'"⟩

end GroovySharp.Conversion
