import GroovySharp.CSharp.Model
import GroovySharp.Text.Record

/-!
# Models as records

The record of a model: every node with its category and its fields. It is the text of a part that
stands in the place of a name.
-/

namespace GroovySharp.CSharp

open Text

def BinaryOp.choice : BinaryOp → String
  | add => "ADD"
  | subtract => "SUBTRACT"
  | multiply => "MULTIPLY"
  | divide => "DIVIDE"
  | modulo => "MODULO"
  | less => "LESS_THAN"
  | greater => "GREATER_THAN"
  | lessEqual => "LESS_THAN_OR_EQUAL"
  | greaterEqual => "GREATER_THAN_OR_EQUAL"
  | equal => "EQUALS"
  | notEqual => "NOT_EQUALS"
  | logicalAnd => "LOGICAL_AND"
  | logicalOr => "LOGICAL_OR"

def AssignOp.choice : AssignOp → String
  | simple => "SIMPLE"
  | add => "ADD"
  | subtract => "SUBTRACT"
  | multiply => "MULTIPLY"
  | divide => "DIVIDE"
  | modulo => "MODULO"

def UnaryOp.choice : UnaryOp → String
  | negate => "NEGATE"
  | not => "NOT"
  | increment => "INCREMENT"
  | decrement => "DECREMENT"

def BinaryOp.record (op : BinaryOp) : Chars := choiceText "BinaryOperator" op.choice op.text

def AssignOp.record (op : AssignOp) : Chars := choiceText "AssignmentOperator" op.choice op.text

def UnaryOp.record (op : UnaryOp) : Chars := choiceText "UnaryOperator" op.choice op.text

def Literal.kindRecord : Literal → Chars
  | string _ => choiceText "LiteralKind" "STRING" "string"
  | integer _ | decimal _ => choiceText "LiteralKind" "NUMERIC" "numeric"
  | true => choiceText "LiteralKind" "TRUE" "true"
  | false => choiceText "LiteralKind" "FALSE" "false"
  | null => choiceText "LiteralKind" "NULL" "null"

def Literal.valueRecord : Literal → Chars
  | string value | decimal value => quotedPoints value
  | integer n => (toString n).toList
  | true | false | null => absentText

mutual

def exprRecord : Expr → Chars
  | .identifier name => recordText "IdentifierName" [("name", stringText name)]
  | .literal l => recordText "LiteralExpression" [("kind", l.kindRecord), ("value", l.valueRecord)]
  | .interpolated contents =>
    recordText "InterpolatedStringExpression" [("contents", tupleText (contentRecords contents))]
  | .binary op left right =>
    recordText "BinaryExpression"
      [("operator", op.record), ("left", exprRecord left), ("right", exprRecord right)]
  | .prefixed op operand =>
    recordText "PrefixUnaryExpression" [("operator", op.record), ("operand", exprRecord operand)]
  | .postfixed op operand =>
    recordText "PostfixUnaryExpression" [("operator", op.record), ("operand", exprRecord operand)]
  | .assignment op target value =>
    recordText "AssignmentExpression"
      [("operator", op.record), ("left", exprRecord target), ("right", exprRecord value)]
  | .conditional condition whenTrue whenFalse =>
    recordText "ConditionalExpression"
      [("condition", exprRecord condition), ("when_true", exprRecord whenTrue),
        ("when_false", exprRecord whenFalse)]
  | .memberAccess target name nullable =>
    recordText "MemberAccessExpression"
      [("expression", exprRecord target), ("name", stringText name),
        ("conditional", truthText nullable)]
  | .invocation callee xs =>
    recordText "InvocationExpression"
      [("expression", exprRecord callee),
        ("arguments", recordText "ArgumentList" [("arguments", tupleText (argumentRecords xs))])]
  | .elementAccess target index =>
    recordText "ElementAccessExpression"
      [("expression", exprRecord target), ("index", exprRecord index)]
  | .objectCreation created xs =>
    recordText "ObjectCreationExpression"
      [("type_name", createdRecord created),
        ("arguments", recordText "ArgumentList" [("arguments", tupleText (argumentRecords xs))])]
  | .arrayCreation elementType elements =>
    recordText "ArrayCreationExpression"
      [("element_type", stringText elementType), ("elements", tupleText (exprRecords elements))]
  | .lambda parameters body =>
    recordText "LambdaExpression"
      [("parameters", tupleText (parameters.map stringText)), ("body", lambdaRecord body)]
  | .foreign category => recordText category []

def exprRecords : List Expr → List Chars
  | [] => []
  | e :: es => exprRecord e :: exprRecords es

def exprRecord? : Option Expr → Chars
  | none => absentText
  | some e => exprRecord e

def createdRecord : Created → Chars
  | .type name => stringText name
  | .arguments xs => recordText "ArgumentList" [("arguments", tupleText (argumentRecords xs))]
  | .expression e => exprRecord e
  | .statement s => stmtRecord s

def contentRecords : List Content → List Chars
  | [] => []
  | .text value :: rest => recordText "InterpolatedText" [("text", quotedPoints value)] :: contentRecords rest
  | .hole value :: rest => recordText "Interpolation" [("expression", exprRecord value)] :: contentRecords rest

def argumentRecords : List Argument → List Chars
  | [] => []
  | .mk value name :: rest =>
    recordText "Argument" [("expression", exprRecord value), ("name", optionalText name)] ::
      argumentRecords rest

def lambdaRecord : LambdaBody → Chars
  | .expression value => exprRecord value
  | .block statements => recordText "Block" [("statements", tupleText (stmtRecords statements))]

def declarationRecord : Declaration → Chars
  | .mk typeName name initializer =>
    recordText "LocalDeclaration"
      [("type_name", stringText typeName), ("name", stringText name),
        ("initializer", exprRecord? initializer)]

def declarationRecord? : Option Declaration → Chars
  | none => absentText
  | some d => declarationRecord d

def stmtRecord : Stmt → Chars
  | .block statements => recordText "Block" [("statements", tupleText (stmtRecords statements))]
  | .declaration d => declarationRecord d
  | .expression value => recordText "ExpressionStatement" [("expression", exprRecord value)]
  | .ifElse condition consequence alternative =>
    recordText "IfStatement"
      [("condition", exprRecord condition), ("then", stmtRecord consequence),
        ("else_", stmtRecord? alternative)]
  | .whileLoop condition body =>
    recordText "WhileStatement" [("condition", exprRecord condition), ("body", stmtRecord body)]
  | .forLoop declared initializers condition updates body =>
    recordText "ForStatement"
      [("declaration", declarationRecord? declared),
        ("initializers", tupleText (exprRecords initializers)),
        ("condition", exprRecord? condition), ("incrementors", tupleText (exprRecords updates)),
        ("body", stmtRecord body)]
  | .forEach typeName identifier source body =>
    recordText "ForEachStatement"
      [("type_name", stringText typeName), ("identifier", stringText identifier),
        ("expression", exprRecord source), ("body", stmtRecord body)]
  | .switch subject sections =>
    recordText "SwitchStatement"
      [("expression", exprRecord subject), ("sections", tupleText (sectionRecords sections))]
  | .breakOut => recordText "BreakStatement" []
  | .continueOn => recordText "ContinueStatement" []
  | .returnValue value => recordText "ReturnStatement" [("expression", exprRecord? value)]
  | .throwValue value => recordText "ThrowStatement" [("expression", exprRecord value)]
  | .tryCatch block catches finallyBlock =>
    recordText "TryStatement"
      [("block", recordText "Block" [("statements", tupleText (stmtRecords block))]),
        ("catches", tupleText (catchRecords catches)), ("finally_", blockRecord? finallyBlock)]
  | .foreign category => recordText category []

def stmtRecords : List Stmt → List Chars
  | [] => []
  | s :: rest => stmtRecord s :: stmtRecords rest

def stmtRecord? : Option Stmt → Chars
  | none => absentText
  | some s => stmtRecord s

def blockRecord? : Option (List Stmt) → Chars
  | none => absentText
  | some block => recordText "Block" [("statements", tupleText (stmtRecords block))]

def sectionRecords : List SwitchSection → List Chars
  | [] => []
  | .mk labels statements :: rest =>
    recordText "SwitchSection"
        [("labels", tupleText (labelRecords labels)),
          ("statements", tupleText (stmtRecords statements))] ::
      sectionRecords rest

def labelRecords : List SwitchLabel → List Chars
  | [] => []
  | .case value :: rest => recordText "CaseLabel" [("value", exprRecord value)] :: labelRecords rest
  | .fallback :: rest => recordText "DefaultLabel" [] :: labelRecords rest

def catchRecords : List CatchClause → List Chars
  | [] => []
  | .mk typeName identifier block :: rest =>
    recordText "CatchClause"
        [("type_name", stringText typeName), ("identifier", optionalText identifier),
          ("block", recordText "Block" [("statements", tupleText (stmtRecords block))])] ::
      catchRecords rest

end

end GroovySharp.CSharp
