import GroovySharp.Text.Quoted

/-!
# Records in messages

Messages show a record as its name and its fields, `Name(field=value, ...)`; a list of values stands
between parentheses, with a comma after a single one.
-/

namespace GroovySharp.Text

def commaSeparated : List Chars → Chars
  | [] => []
  | [t] => t
  | t :: ts => t ++ ", ".toList ++ commaSeparated ts

def recordText (name : String) (fields : List (String × Chars)) : Chars :=
  name.toList ++ '(' :: commaSeparated (fields.map fun (k, v) => k.toList ++ '=' :: v) ++ [')']

def tupleText : List Chars → Chars
  | [t] => '(' :: t ++ [',', ')']
  | ts => '(' :: commaSeparated ts ++ [')']

def choiceText (type choice value : String) : Chars :=
  '<' :: type.toList ++ '.' :: choice.toList ++ ": ".toList ++ quoted value.toList ++ ['>']

def absentText : Chars := "None".toList

def truthText (b : Bool) : Chars := if b then "True".toList else "False".toList

def stringText (s : String) : Chars := quoted s.toList

def optionalText : Option String → Chars
  | some s => stringText s
  | none => absentText

end GroovySharp.Text
