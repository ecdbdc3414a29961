import GroovySharp.Text.Quoted

/-!
# Bytes

File contents are lists of bytes. Messages and digests show bytes as pairs of hexadecimal digits.
-/

namespace GroovySharp

abbrev Bytes := List UInt8

namespace Encoding

def hexByte (b : UInt8) : Chars := Text.hexDigits 2 b.toNat

def hexText (bs : Bytes) : String := String.ofList (bs.flatMap hexByte)

/-- Why bytes are not a text, or a text cannot be written as bytes. -/
structure Fault where
  codec : String
  start : Nat
  /-- Where the offending part ends, not included. -/
  stop : Nat
  culprit : Chars
  reason : String
  deriving Repr, DecidableEq

/-- The fault of bytes from `start` to `stop`. -/
def decodingFault (codec : String) (bytes : Bytes) (start stop : Nat) (reason : String) : Fault where
  codec := codec
  start := start
  stop := stop
  culprit := match bytes[start]? with
    | some b => '0' :: 'x' :: hexByte b
    | none => []
  reason := reason

def Fault.place (f : Fault) (one many : String) : String :=
  if f.stop = f.start + 1 then
    one ++ " " ++ String.ofList f.culprit ++ " in position " ++ toString f.start
  else many ++ " in position " ++ toString f.start ++ "-" ++ toString (f.stop - 1)

def Fault.decodingMessage (f : Fault) : String :=
  "'" ++ f.codec ++ "' codec can't decode " ++ f.place "byte" "bytes" ++ ": " ++ f.reason

def Fault.encodingMessage (f : Fault) : String :=
  "'" ++ f.codec ++ "' codec can't encode " ++ f.place "character" "characters" ++ ": " ++ f.reason

end Encoding

end GroovySharp
