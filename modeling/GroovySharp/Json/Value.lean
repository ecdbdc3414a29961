import GroovySharp.Number.Seconds
import GroovySharp.Text.Quoted

/-!
# JSON values and their text

Values of JSON, and the text that is written for one: two more spaces of indentation for each level,
and escapes for everything outside ASCII.
-/

namespace GroovySharp

open Unicode

/-- A JSON value. Objects keep the order of their fields. -/
inductive JsonValue
  | null
  | bool (b : Bool)
  | integer (n : Int)
  | decimal (x : Float)
  | string (text : Points)
  | array (items : List JsonValue)
  | object (fields : List (Points × JsonValue))
  deriving Inhabited

abbrev Fields := List (Points × JsonValue)

namespace JsonValue

def text (s : String) : JsonValue := string (points s)

def ofFields (fields : List (String × JsonValue)) : JsonValue :=
  object (fields.map fun (k, v) => (points k, v))

def setField (key : Points) (value : JsonValue) : Fields → Fields
  | [] => [(key, value)]
  | (k, v) :: rest => if k = key then (k, value) :: rest else (k, v) :: setField key value rest

def update (fields others : Fields) : Fields :=
  others.foldl (fun fs (k, v) => setField k v fs) fields

/-! ### Text -/

def escapeNumber (n : Nat) : Chars := '\\' :: 'u' :: Text.hexDigits 4 n

def escapePoint (p : CodePoint) : Chars :=
  let n := p.toNat
  if n = 0x22 then ['\\', '"']
  else if n = 0x5C then ['\\', '\\']
  else if n = 0x0A then ['\\', 'n']
  else if n = 0x0D then ['\\', 'r']
  else if n = 0x09 then ['\\', 't']
  else if n = 0x08 then ['\\', 'b']
  else if n = 0x0C then ['\\', 'f']
  else if 0x20 ≤ n ∧ n < 0x7F then [Char.ofNat n]
  else if n < 0x10000 then escapeNumber n
  else
    escapeNumber (0xD800 + (n - 0x10000) / 0x400) ++ escapeNumber (0xDC00 + (n - 0x10000) % 0x400)

def quotedText (t : Points) : Chars := '"' :: t.flatMap escapePoint ++ ['"']

def decimalText (x : Float) : Chars :=
  if x.isNaN then "NaN".toList
  else if x.isInf then (if x < 0.0 then "-Infinity" else "Infinity").toList
  else (Number.floatText x).toList

def breakAt (level : Nat) : Chars := '\n' :: List.replicate (2 * level) ' '

def bracketed (opening closing : Char) (level : Nat) (items : List Chars) : Chars :=
  if items.isEmpty then [opening, closing]
  else
    opening :: List.flatten (List.intersperse [','] (items.map fun i => breakAt (level + 1) ++ i)) ++
      breakAt level ++ [closing]

mutual

def write (level : Nat) : JsonValue → Chars
  | null => "null".toList
  | bool b => (if b then "true" else "false").toList
  | integer n => (toString n).toList
  | decimal x => decimalText x
  | string t => quotedText t
  | array items => bracketed '[' ']' level (writeItems (level + 1) items)
  | object fields => bracketed '\x7b' '\x7d' level (writeFields (level + 1) fields)

def writeItems (level : Nat) : List JsonValue → List Chars
  | [] => []
  | v :: rest => write level v :: writeItems level rest

def writeFields (level : Nat) : Fields → List Chars
  | [] => []
  | (k, v) :: rest => (quotedText k ++ ": ".toList ++ write level v) :: writeFields level rest

end

def render (v : JsonValue) : Chars := write 0 v

end JsonValue

end GroovySharp
