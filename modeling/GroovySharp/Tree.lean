import GroovySharp.Grammar.Terminal
import GroovySharp.Text.Position

/-!
# Syntax trees

The trees that source programs are read into. A node stands for a construct; its children are nodes
and the tokens that carry meaning (names, operators, literals), without punctuation.
-/

namespace GroovySharp

open Text

inductive Kind
  | compilationUnit
  | importDirective
  | qualifiedName
  | methodDeclaration
  | parameters
  | parameter
  | localDeclaration
  | expressionStatement
  | commandCall
  | block
  | ifStatement
  | whileStatement
  | classicFor
  | forInit
  | forCondition
  | forUpdate
  | forIn
  | forEach
  | switchStatement
  | switchCase
  | tryStatement
  | catchClause
  | finallyClause
  | returnStatement
  | breakStatement
  | continueStatement
  | throwStatement
  | emptyStatement
  | assignmentExpression
  | ternaryExpression
  | binaryExpression
  | unaryExpression
  | postfixExpression
  | memberAccess
  | methodCall
  | indexExpression
  | callExpression
  | objectCreation
  | creationType
  | arguments
  | namedArgument
  | closure
  | closureParameters
  | identifier
  | integerLiteral
  | decimalLiteral
  | stringLiteral
  | gstring
  | booleanLiteral
  | nullLiteral
  | listLiteral
  | mapLiteral
  | mapEntry
  deriving Repr, DecidableEq, Inhabited

namespace Kind

def label : Kind → String
  | compilationUnit => "compilation_unit"
  | importDirective => "import_directive"
  | qualifiedName => "qualified_name"
  | methodDeclaration => "method_declaration"
  | parameters => "parameters"
  | parameter => "parameter"
  | localDeclaration => "local_declaration"
  | expressionStatement => "expression_statement"
  | commandCall => "command_call"
  | block => "block"
  | ifStatement => "if_statement"
  | whileStatement => "while_statement"
  | classicFor => "classic_for"
  | forInit => "for_init"
  | forCondition => "for_condition"
  | forUpdate => "for_update"
  | forIn => "for_in"
  | forEach => "for_each"
  | switchStatement => "switch_statement"
  | switchCase => "switch_case"
  | tryStatement => "try_statement"
  | catchClause => "catch_clause"
  | finallyClause => "finally_clause"
  | returnStatement => "return_statement"
  | breakStatement => "break_statement"
  | continueStatement => "continue_statement"
  | throwStatement => "throw_statement"
  | emptyStatement => "empty_statement"
  | assignmentExpression => "assignment_expression"
  | ternaryExpression => "ternary_expression"
  | binaryExpression => "binary_expression"
  | unaryExpression => "unary_expression"
  | postfixExpression => "postfix_expression"
  | memberAccess => "member_access"
  | methodCall => "method_call"
  | indexExpression => "index_expression"
  | callExpression => "call_expression"
  | objectCreation => "object_creation"
  | creationType => "creation_type"
  | arguments => "arguments"
  | namedArgument => "named_argument"
  | closure => "closure"
  | closureParameters => "closure_parameters"
  | identifier => "identifier"
  | integerLiteral => "integer_literal"
  | decimalLiteral => "decimal_literal"
  | stringLiteral => "string_literal"
  | gstring => "gstring"
  | booleanLiteral => "boolean_literal"
  | nullLiteral => "null_literal"
  | listLiteral => "list_literal"
  | mapLiteral => "map_literal"
  | mapEntry => "map_entry"

def all : List Kind :=
  [compilationUnit, importDirective, qualifiedName, methodDeclaration, parameters, parameter,
    localDeclaration, expressionStatement, commandCall, block, ifStatement, whileStatement,
    classicFor, forInit, forCondition, forUpdate, forIn, forEach, switchStatement, switchCase,
    tryStatement, catchClause, finallyClause, returnStatement, breakStatement, continueStatement,
    throwStatement, emptyStatement, assignmentExpression, ternaryExpression, binaryExpression,
    unaryExpression, postfixExpression, memberAccess, methodCall, indexExpression,
    callExpression, objectCreation, creationType, arguments, namedArgument, closure,
    closureParameters, identifier, integerLiteral, decimalLiteral, stringLiteral, gstring,
    booleanLiteral, nullLiteral, listLiteral, mapLiteral, mapEntry]

def ofLabel? (s : String) : Option Kind := all.find? fun k => k.label == s

end Kind

/-- What a token of a tree is: a terminal of the grammar, a piece of an interpolated string, or
anything else a tree made by hand may hold. -/
inductive LeafKind
  | terminal (t : Grammar.Terminal)
  /-- The text of an interpolated string up to its first hole. -/
  | gstringBegin
  | gstringPart
  /-- The text after the last hole. -/
  | gstringEnd
  | other (label : String)
  deriving Repr, DecidableEq, Inhabited

namespace LeafKind

def label : LeafKind → String
  | terminal t => t.label
  | gstringBegin => "GSTRING_BEGIN"
  | gstringPart => "GSTRING_PART"
  | gstringEnd => "GSTRING_END"
  | other s => s

def ofLabel (s : String) : LeafKind :=
  if s == "GSTRING_BEGIN" then gstringBegin
  else if s == "GSTRING_PART" then gstringPart
  else if s == "GSTRING_END" then gstringEnd
  else
    match Grammar.Terminal.all.find? fun t => t.label == s with
    | some t => terminal t
    | none => other s

end LeafKind

structure Leaf where
  kind : LeafKind
  text : Chars
  span : Span
  deriving Repr, DecidableEq, Inhabited

inductive Tree
  | leaf (l : Leaf)
  | node (kind : Kind) (children : List Tree) (span : Span) (text : Chars)
  deriving Repr, Inhabited

namespace Tree

mutual

def within (origin : Position) : Tree → Tree
  | leaf l => leaf { l with span := l.span.within origin }
  | node k children span text => node k (allWithin origin children) (span.within origin) text

def allWithin (origin : Position) : List Tree → List Tree
  | [] => []
  | t :: ts => within origin t :: allWithin origin ts

end

end Tree

end GroovySharp
