import GroovySharp.CSharp.Model

/-!
# Names and strings in C# text

Keywords used as names get a leading `@`; characters that cannot stand in a string literal are written
as escapes.
-/

namespace GroovySharp.CSharp

open Unicode

def keywords : List String :=
  ["abstract", "as", "base", "bool", "break", "byte", "case", "catch", "char", "checked", "class",
    "const", "continue", "decimal", "default", "delegate", "do", "double", "else", "enum", "event",
    "explicit", "extern", "false", "finally", "fixed", "float", "for", "foreach", "goto", "if",
    "implicit", "in", "int", "interface", "internal", "is", "lock", "long", "namespace", "new",
    "null", "object", "operator", "out", "override", "params", "private", "protected", "public",
    "readonly", "ref", "return", "sbyte", "sealed", "short", "sizeof", "stackalloc", "static",
    "string", "struct", "switch", "this", "throw", "true", "try", "typeof", "uint", "ulong",
    "unchecked", "unsafe", "ushort", "using", "virtual", "void", "volatile", "while"]

def escapeIdentifier (name : String) : String :=
  if keywords.contains name then "@" ++ name else name

def escapePoint (p : CodePoint) : Points :=
  match p with
  | .scalar '\\' => points "\\\\"
  | .scalar '"' => points "\\\""
  | .scalar '\n' => points "\\n"
  | .scalar '\r' => points "\\r"
  | .scalar '\t' => points "\\t"
  | .scalar '\x00' => points "\\0"
  | p => [p]

def escapeString (text : Points) : Points := text.flatMap escapePoint

def doubleBraces (text : Points) : Points :=
  text.flatMap fun p =>
    if p = .scalar '\x7b' ∨ p = .scalar '\x7d' then [p, p] else [p]

end GroovySharp.CSharp
