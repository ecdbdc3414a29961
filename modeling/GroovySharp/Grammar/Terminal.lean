/-!
# Terminals

The kinds of tokens of the source language, in the order that sets of terminals are numbered by.
-/

namespace GroovySharp.Grammar

inductive Terminal
  | breakWord
  | caseWord
  | catchWord
  | continueWord
  | defWord
  | defaultWord
  | elseWord
  | falseWord
  | finallyWord
  | forWord
  | ifWord
  | importWord
  | inWord
  | newWord
  | nullWord
  | returnWord
  | switchWord
  | throwWord
  | trueWord
  | tryWord
  | voidWord
  | whileWord
  | logicalAnd
  | arrow
  | assign
  | bang
  | colon
  | comma
  | compare
  | decrement
  | dot
  | equal
  | greaterEqual
  | greater
  | increment
  | openBrace
  | lessEqual
  | openParen
  | openBracket
  | less
  | minus
  | notEqual
  | logicalOr
  | percent
  | plus
  | power
  | question
  | closeBrace
  | closeParen
  | closeBracket
  | safeDot
  | semicolon
  | slash
  | star
  | wildcard
  | callName
  | commandName
  | name
  | decimal
  | integer
  | tripleString
  | singleString
  | doubleString
  | endOfInput
  | blank
  | lineComment
  | blockComment
  deriving Repr, DecidableEq, Inhabited

namespace Terminal

def index (t : Terminal) : Nat := t.ctorIdx

def mem (t : Terminal) (set : Nat) : Bool := set.testBit t.index

def label : Terminal → String
  | breakWord => "BREAK"
  | caseWord => "CASE"
  | catchWord => "CATCH"
  | continueWord => "CONTINUE"
  | defWord => "DEF"
  | defaultWord => "DEFAULT"
  | elseWord => "ELSE"
  | falseWord => "FALSE"
  | finallyWord => "FINALLY"
  | forWord => "FOR"
  | ifWord => "IF"
  | importWord => "IMPORT"
  | inWord => "IN"
  | newWord => "NEW"
  | nullWord => "NULL"
  | returnWord => "RETURN"
  | switchWord => "SWITCH"
  | throwWord => "THROW"
  | trueWord => "TRUE"
  | tryWord => "TRY"
  | voidWord => "VOID"
  | whileWord => "WHILE"
  | logicalAnd => "AND"
  | arrow => "ARROW"
  | assign => "ASSIGN_OP"
  | bang => "BANG"
  | colon => "COLON"
  | comma => "COMMA"
  | compare => "COMPARE"
  | decrement => "DEC"
  | dot => "DOT"
  | equal => "EQ"
  | greaterEqual => "GE"
  | greater => "GT"
  | increment => "INC"
  | openBrace => "LBRACE"
  | lessEqual => "LE"
  | openParen => "LPAR"
  | openBracket => "LSQB"
  | less => "LT"
  | minus => "MINUS"
  | notEqual => "NE"
  | logicalOr => "OR"
  | percent => "PERCENT"
  | plus => "PLUS"
  | power => "POW"
  | question => "QMARK"
  | closeBrace => "RBRACE"
  | closeParen => "RPAR"
  | closeBracket => "RSQB"
  | safeDot => "SAFE_NAV"
  | semicolon => "SEMICOLON"
  | slash => "SLASH"
  | star => "STAR"
  | wildcard => "WILDCARD"
  | callName => "CALL_NAME"
  | commandName => "COMMAND_NAME"
  | name => "NAME"
  | decimal => "DECIMAL"
  | integer => "INT"
  | tripleString => "TRIPLE_STRING"
  | singleString => "SQ_STRING"
  | doubleString => "DQ_STRING"
  | endOfInput => "$END"
  | blank => "WS"
  | lineComment => "COMMENT"
  | blockComment => "BLOCK_COMMENT"

def all : List Terminal :=
  [breakWord, caseWord, catchWord, continueWord, defWord, defaultWord, elseWord, falseWord,
    finallyWord, forWord, ifWord, importWord, inWord, newWord, nullWord, returnWord, switchWord,
    throwWord, trueWord, tryWord, voidWord, whileWord, logicalAnd, arrow, assign, bang, colon,
    comma, compare, decrement, dot, equal, greaterEqual, greater, increment, openBrace,
    lessEqual, openParen, openBracket, less, minus, notEqual, logicalOr, percent, plus, power,
    question, closeBrace, closeParen, closeBracket, safeDot, semicolon, slash, star, wildcard,
    callName, commandName, name, decimal, integer, tripleString, singleString, doubleString,
    endOfInput, blank, lineComment, blockComment]

/-- The text of a terminal that is always written the same way. -/
def fixedText? : Terminal → Option (List Char)
  | breakWord => some ['b', 'r', 'e', 'a', 'k']
  | caseWord => some ['c', 'a', 's', 'e']
  | catchWord => some ['c', 'a', 't', 'c', 'h']
  | continueWord => some ['c', 'o', 'n', 't', 'i', 'n', 'u', 'e']
  | defWord => some ['d', 'e', 'f']
  | defaultWord => some ['d', 'e', 'f', 'a', 'u', 'l', 't']
  | elseWord => some ['e', 'l', 's', 'e']
  | falseWord => some ['f', 'a', 'l', 's', 'e']
  | finallyWord => some ['f', 'i', 'n', 'a', 'l', 'l', 'y']
  | forWord => some ['f', 'o', 'r']
  | ifWord => some ['i', 'f']
  | importWord => some ['i', 'm', 'p', 'o', 'r', 't']
  | inWord => some ['i', 'n']
  | newWord => some ['n', 'e', 'w']
  | nullWord => some ['n', 'u', 'l', 'l']
  | returnWord => some ['r', 'e', 't', 'u', 'r', 'n']
  | switchWord => some ['s', 'w', 'i', 't', 'c', 'h']
  | throwWord => some ['t', 'h', 'r', 'o', 'w']
  | trueWord => some ['t', 'r', 'u', 'e']
  | tryWord => some ['t', 'r', 'y']
  | voidWord => some ['v', 'o', 'i', 'd']
  | whileWord => some ['w', 'h', 'i', 'l', 'e']
  | logicalAnd => some ['&', '&']
  | arrow => some ['-', '>']
  | bang => some ['!']
  | colon => some [':']
  | comma => some [',']
  | compare => some ['<', '=', '>']
  | decrement => some ['-', '-']
  | dot => some ['.']
  | equal => some ['=', '=']
  | greaterEqual => some ['>', '=']
  | greater => some ['>']
  | increment => some ['+', '+']
  | openBrace => some ['\x7b']
  | lessEqual => some ['<', '=']
  | openParen => some ['(']
  | openBracket => some ['[']
  | less => some ['<']
  | minus => some ['-']
  | notEqual => some ['!', '=']
  | logicalOr => some ['|', '|']
  | percent => some ['%']
  | plus => some ['+']
  | power => some ['*', '*']
  | question => some ['?']
  | closeBrace => some ['\x7d']
  | closeParen => some [')']
  | closeBracket => some [']']
  | safeDot => some ['?', '.']
  | semicolon => some [';']
  | slash => some ['/']
  | star => some ['*']
  | wildcard => some ['.', '*']
  | _ => none

def isIgnored : Terminal → Bool
  | blank | lineComment | blockComment => true
  | _ => false

def keywords : List Terminal :=
  [continueWord, defaultWord, finallyWord, importWord, returnWord, switchWord, breakWord,
    catchWord, falseWord, throwWord, whileWord, caseWord, elseWord, nullWord, trueWord, voidWord,
    defWord, forWord, newWord, tryWord, ifWord, inWord]

def classes : List Terminal :=
  [callName, tripleString, commandName, decimal, name, doubleString, singleString, blockComment,
    blank, lineComment, integer]

def marks : List Terminal :=
  [compare, assign, logicalAnd, arrow, decrement, equal, greaterEqual, increment, lessEqual,
    notEqual, logicalOr, power, safeDot, wildcard, bang, colon, comma, dot, greater, openBrace,
    openParen, openBracket, less, minus, percent, plus, question, closeBrace, closeParen,
    closeBracket, semicolon, slash, star]

end Terminal

end GroovySharp.Grammar
