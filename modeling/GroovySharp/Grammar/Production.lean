import GroovySharp.Tree

/-!
# The grammar

The productions of the accepted subset, for programs whose statements end with semicolons. A production
says which of its tokens are kept in the tree and which construct it builds; productions that build
none hand the trees of their parts on to the production around them.
-/

namespace GroovySharp.Grammar

inductive Nonterminal
  | compilationUnit
  | importDirective
  | qualifiedName
  | methodDeclaration
  | parameters
  | parameter
  | statement
  | localDeclaration
  | expressionStatement
  | block
  | blockItems
  | finalStatement
  | ifStatement
  | whileStatement
  | classicFor
  | forInit
  | forCondition
  | forUpdate
  | forIn
  | forEach
  | switchStatement
  | switchCase
  | tryStatement
  | catchClause
  | finallyClause
  | returnStatement
  | breakStatement
  | continueStatement
  | throwStatement
  | emptyStatement
  | commandCall
  | commandArgument
  | expression
  | assignment
  | conditional
  | logicalOr
  | logicalAnd
  | equality
  | relational
  | additive
  | multiplicative
  | power
  | prefixed
  | postfixed
  | primary
  | creationType
  | arguments
  | argument
  | namedArgument
  | closure
  | closureParameters
  | listLiteral
  | mapLiteral
  | mapEntry
  | literal
  | unitItems
  | nameParts
  | moreParameters
  | statements
  | moreUpdates
  | switchCases
  | catchClauses
  | moreCommandArguments
  | typeQualifiers
  | moreArguments
  | moreClosureParameters
  | moreElements
  | moreEntries
  deriving Repr, DecidableEq

def Nonterminal.index (n : Nonterminal) : Nat := n.ctorIdx

inductive Symbol
  | terminal (t : Terminal)
  | phrase (n : Nonterminal)
  deriving Repr, DecidableEq

/-- A symbol on the right of a production, and whether its tree is kept. -/
structure Part where
  symbol : Symbol
  kept : Bool
  deriving Repr, DecidableEq

def keep (t : Terminal) : Part := ⟨.terminal t, true⟩

def drop (t : Terminal) : Part := ⟨.terminal t, false⟩

def rule (n : Nonterminal) : Part := ⟨.phrase n, true⟩

/-- A production: the phrase it makes, its parts, and the construct it builds. -/
structure Production where
  head : Nonterminal
  parts : List Part
  builds : Option Kind
  deriving Repr, DecidableEq

/-- The ways to spell parts that each have several forms, the earlier forms of earlier parts first. -/
def spellings : List (List (List Part)) → List (List Part)
  | [] => [[]]
  | forms :: rest => forms.flatMap fun form => (spellings rest).map (form ++ ·)

def always (parts : List Part) : List (List Part) := [parts]

def maybe (part : Part) : List (List Part) := [[part], []]

/-- The productions of a phrase that builds a construct. -/
def building (head : Nonterminal) (kind : Kind) (forms : List (List (List Part))) : List Production :=
  (spellings forms).map (⟨head, ·, some kind⟩)

/-- The productions of a phrase that is one of several others. -/
def passing (head : Nonterminal) (phrases : List Nonterminal) : List Production :=
  phrases.map (⟨head, [rule ·], none⟩)

/-- The productions of a phrase that is made of one or more others. -/
def repeating (head : Nonterminal) (parts : List Part) : List Production :=
  [⟨head, parts, none⟩, ⟨head, rule head :: parts, none⟩]

/-- The productions of a level of operators that group to the left. -/
def chaining (head operand : Nonterminal) (operators : List Terminal) : List Production :=
  ⟨head, [rule operand], none⟩ ::
    operators.map (⟨head, [rule head, keep ·, rule operand], some .binaryExpression⟩)

def unitRules : List Production :=
  building .compilationUnit .compilationUnit [maybe (rule .unitItems)] ++
  building .importDirective .importDirective
    [always [drop .importWord, rule .qualifiedName], maybe (keep .wildcard), always [drop .semicolon]] ++
  building .qualifiedName .qualifiedName [always [keep .name], maybe (rule .nameParts)] ++
  building .methodDeclaration .methodDeclaration
    [[[drop .defWord], [keep .voidWord]], always [keep .callName, drop .openParen],
      maybe (rule .parameters), always [drop .closeParen, rule .block]] ++
  building .parameters .parameters [always [rule .parameter], maybe (rule .moreParameters)] ++
  building .parameter .parameter [maybe (keep .commandName), always [keep .name]]

def statementRules : List Production :=
  passing .statement
    [.localDeclaration, .expressionStatement, .ifStatement, .whileStatement, .classicFor, .forIn, .forEach,
      .switchStatement, .tryStatement, .returnStatement, .breakStatement, .continueStatement,
      .throwStatement, .block, .emptyStatement] ++
  building .localDeclaration .localDeclaration
    [[[drop .defWord, keep .name, keep .assign, rule .expression], [drop .defWord, keep .name],
      [keep .commandName, keep .name, keep .assign, rule .expression]], always [drop .semicolon]] ++
  building .expressionStatement .expressionStatement
    [[[rule .assignment], [rule .commandCall]], always [drop .semicolon]] ++
  building .block .block [always [drop .openBrace, rule .blockItems, drop .closeBrace]] ++
  (spellings [maybe (rule .statements), maybe (rule .finalStatement)]).map (⟨.blockItems, ·, none⟩) ++
  building .finalStatement .expressionStatement [[[rule .assignment], [rule .commandCall]]] ++
  building .ifStatement .ifStatement
    [always [drop .ifWord, drop .openParen, rule .expression, drop .closeParen, rule .statement],
      [[drop .elseWord, rule .statement], []]] ++
  building .whileStatement .whileStatement
    [always [drop .whileWord, drop .openParen, rule .expression, drop .closeParen, rule .statement]]

def loopRules : List Production :=
  building .classicFor .classicFor
    [always [drop .forWord, drop .openParen], maybe (rule .forInit), always [drop .semicolon],
      maybe (rule .forCondition), always [drop .semicolon], maybe (rule .forUpdate),
      always [drop .closeParen, rule .statement]] ++
  building .forInit .forInit
    [[[drop .defWord, keep .name, keep .assign, rule .expression],
      [keep .commandName, keep .name, keep .assign, rule .expression], [rule .assignment]]] ++
  building .forCondition .forCondition [always [rule .expression]] ++
  building .forUpdate .forUpdate [always [rule .assignment], maybe (rule .moreUpdates)] ++
  building .forIn .forIn
    [always [drop .forWord, drop .openParen], [[drop .defWord], [keep .commandName], []],
      always [keep .name, drop .inWord, rule .expression, drop .closeParen, rule .statement]] ++
  building .forEach .forEach
    [always [drop .forWord, drop .openParen, keep .commandName, keep .name, drop .colon, rule .expression,
      drop .closeParen, rule .statement]]

def branchRules : List Production :=
  building .switchStatement .switchStatement
    [always [drop .switchWord, drop .openParen, rule .expression, drop .closeParen, drop .openBrace],
      maybe (rule .switchCases),
      [[keep .defaultWord, drop .colon, rule .statements], [keep .defaultWord, drop .colon], []],
      always [drop .closeBrace]] ++
  building .switchCase .switchCase
    [always [drop .caseWord, rule .expression, drop .colon], maybe (rule .statements)] ++
  building .tryStatement .tryStatement
    [always [drop .tryWord, rule .block], maybe (rule .catchClauses), maybe (rule .finallyClause)] ++
  building .catchClause .catchClause
    [always [drop .catchWord, drop .openParen], maybe (keep .commandName),
      always [keep .name, drop .closeParen, rule .block]] ++
  building .finallyClause .finallyClause [always [drop .finallyWord, rule .block]] ++
  building .returnStatement .returnStatement
    [always [drop .returnWord], maybe (rule .expression), always [drop .semicolon]] ++
  building .breakStatement .breakStatement [always [drop .breakWord, drop .semicolon]] ++
  building .continueStatement .continueStatement [always [drop .continueWord, drop .semicolon]] ++
  building .throwStatement .throwStatement [always [drop .throwWord, rule .expression, drop .semicolon]] ++
  building .emptyStatement .emptyStatement [always [drop .semicolon]] ++
  building .commandCall .commandCall
    [always [keep .commandName, rule .commandArgument], maybe (rule .moreCommandArguments)] ++
  passing .commandArgument [.conditional, .closure]

def operatorRules : List Production :=
  passing .expression [.assignment, .closure] ++
  passing .assignment [.conditional] ++
  building .assignment .assignmentExpression [always [rule .prefixed, keep .assign, rule .expression]] ++
  passing .conditional [.logicalOr] ++
  building .conditional .ternaryExpression
    [always [rule .logicalOr, drop .question, rule .expression, drop .colon, rule .conditional]] ++
  chaining .logicalOr .logicalAnd [.logicalOr] ++
  chaining .logicalAnd .equality [.logicalAnd] ++
  chaining .equality .relational [.equal, .notEqual, .compare] ++
  chaining .relational .additive [.less, .greater, .lessEqual, .greaterEqual] ++
  chaining .additive .multiplicative [.plus, .minus] ++
  chaining .multiplicative .power [.star, .slash, .percent] ++
  passing .power [.prefixed] ++
  building .power .binaryExpression [always [rule .prefixed, keep .power, rule .power]] ++
  passing .prefixed [.postfixed] ++
  building .prefixed .unaryExpression [[[keep .minus], [keep .bang]], always [rule .prefixed]]

def operandRules : List Production :=
  passing .postfixed [.primary] ++
  building .postfixed .postfixExpression
    [always [rule .postfixed], [[keep .increment], [keep .decrement]]] ++
  building .postfixed .memberAccess
    [always [rule .postfixed], [[drop .dot], [keep .safeDot]], always [keep .name]] ++
  building .postfixed .methodCall
    [always [rule .postfixed], [[drop .dot], [keep .safeDot]], always [keep .callName, rule .arguments],
      maybe (rule .closure)] ++
  building .postfixed .methodCall
    [always [rule .postfixed], [[drop .dot], [keep .safeDot]], always [keep .name, rule .closure]] ++
  building .postfixed .indexExpression
    [always [rule .postfixed, drop .openBracket, rule .expression, drop .closeBracket]] ++
  passing .primary [.literal] ++
  building .primary .identifier [always [keep .name]] ++
  building .primary .callExpression
    [[[keep .callName, rule .arguments, rule .closure], [keep .callName, rule .arguments],
      [keep .name, rule .closure]]] ++
  [⟨.primary, [drop .openParen, rule .expression, drop .closeParen], none⟩] ++
  building .primary .objectCreation [always [drop .newWord, rule .creationType, rule .arguments]] ++
  passing .primary [.listLiteral, .mapLiteral] ++
  building .creationType .creationType [maybe (rule .typeQualifiers), always [keep .callName]] ++
  building .arguments .arguments
    [always [drop .openParen], [[rule .argument, rule .moreArguments], [rule .argument], []],
      always [drop .closeParen]] ++
  passing .argument [.expression, .namedArgument] ++
  building .namedArgument .namedArgument [always [keep .name, drop .colon, rule .expression]] ++
  building .closure .closure
    [always [drop .openBrace], [[rule .closureParameters, keep .arrow], [keep .arrow], []],
      always [rule .blockItems, drop .closeBrace]] ++
  building .closureParameters .closureParameters [always [keep .name], maybe (rule .moreClosureParameters)] ++
  building .listLiteral .listLiteral
    [always [drop .openBracket], [[rule .expression, rule .moreElements], [rule .expression], []],
      always [drop .closeBracket]] ++
  building .mapLiteral .mapLiteral
    [always [drop .openBracket], [[rule .mapEntry, rule .moreEntries], [rule .mapEntry], [drop .colon]],
      always [drop .closeBracket]] ++
  building .mapEntry .mapEntry
    [[[keep .name], [keep .singleString], [keep .doubleString]], always [drop .colon, rule .expression]] ++
  building .literal .integerLiteral [always [keep .integer]] ++
  building .literal .decimalLiteral [always [keep .decimal]] ++
  building .literal .stringLiteral [[[keep .singleString], [keep .doubleString], [keep .tripleString]]] ++
  building .literal .booleanLiteral [[[keep .trueWord], [keep .falseWord]]] ++
  building .literal .nullLiteral [always [keep .nullWord]]

def listRules : List Production :=
  passing .unitItems [.importDirective, .methodDeclaration, .statement] ++
  [.importDirective, .methodDeclaration, .statement].map (⟨.unitItems, [rule .unitItems, rule ·], none⟩) ++
  repeating .nameParts [drop .dot, keep .name] ++
  repeating .moreParameters [drop .comma, rule .parameter] ++
  repeating .statements [rule .statement] ++
  repeating .moreUpdates [drop .comma, rule .assignment] ++
  repeating .switchCases [rule .switchCase] ++
  repeating .catchClauses [rule .catchClause] ++
  repeating .moreCommandArguments [drop .comma, rule .commandArgument] ++
  repeating .typeQualifiers [keep .name, drop .dot] ++
  repeating .moreArguments [drop .comma, rule .argument] ++
  repeating .moreClosureParameters [drop .comma, keep .name] ++
  repeating .moreElements [drop .comma, rule .expression] ++
  repeating .moreEntries [drop .comma, rule .mapEntry]

def productions : List Production :=
  unitRules ++ statementRules ++ loopRules ++ branchRules ++ operatorRules ++ operandRules ++ listRules

end GroovySharp.Grammar
