import GroovySharp.Encoding.Utf16

/-!
# Encodings by name

The encodings that files are read in. A name may be written in several ways; case does not matter, and
any run of marks inside it counts as one underscore.
-/

namespace GroovySharp.Encoding

inductive Codec
  | ascii
  | latin1
  | windows1252
  | utf8
  /-- UTF-8 with a byte order mark, which is not part of the text. -/
  | utf8Marked
  /-- UTF-16 with a byte order mark, which is not part of the text. -/
  | utf16Marked
  | utf16 (order : Utf16.Order)
  deriving Repr, DecidableEq

namespace Codec

/-- The words of a name: its runs of letters, digits and dots, in lower case. -/
def nameWords : Chars → Chars → List Chars
  | [], [] => []
  | word, [] => [word.reverse]
  | word, c :: rest =>
    if c.isAlphanum || c == '.' then nameWords (c.toLower :: word) rest
    else if word.isEmpty then nameWords [] rest
    else word.reverse :: nameWords [] rest

def plainName (name : String) : String :=
  "_".intercalate ((nameWords [] name.toList).map String.ofList)

def ofName? (name : String) : Option Codec :=
  let n := plainName name
  if ["ascii", "us_ascii", "646", "us"].contains n then some ascii
  else if ["latin_1", "latin1", "latin", "iso_8859_1", "iso8859_1", "iso8859", "8859", "cp819", "l1",
      "iso_ir_100"].contains n then some latin1
  else if ["cp1252", "1252", "windows_1252"].contains n then some windows1252
  else if ["utf_8", "utf8", "u8", "utf", "cp65001", "utf8_ucs2", "utf8_ucs4"].contains n then some utf8
  else if n = "utf_8_sig" then some utf8Marked
  else if ["utf_16", "u16", "utf16"].contains n then some utf16Marked
  else if ["utf_16_le", "utf_16le", "unicodelittleunmarked"].contains n then some (utf16 .lowFirst)
  else if ["utf_16_be", "utf_16be", "unicodebigunmarked"].contains n then some (utf16 .highFirst)
  else none

def windowsHigh : List Nat :=
  [0x20AC, 0, 0x201A, 0x0192, 0x201E, 0x2026, 0x2020, 0x2021, 0x02C6, 0x2030, 0x0160, 0x2039, 0x0152, 0, 0x017D, 0,
    0, 0x2018, 0x2019, 0x201C, 0x201D, 0x2022, 0x2013, 0x2014,
    0x02DC, 0x2122, 0x0161, 0x203A, 0x0153, 0, 0x017E, 0x0178]

/-- The character of a byte in Windows-1252. The bytes from 80 to 9F are punctuation and letters, all
others are as in Latin-1. -/
def windowsChar? (b : UInt8) : Option Char :=
  if b.toNat < 0x80 then some (Char.ofNat b.toNat)
  else
    match windowsHigh[b.toNat - 0x80]? with
    | some 0 => none
    | some n => some (Char.ofNat n)
    | none => some (Char.ofNat b.toNat)

def faultOf (codec : String) (bytes : Bytes) (s : Utf8.Stop) : Fault :=
  decodingFault codec bytes s.start s.stop s.reason

def firstWide? (bytes : Bytes) : Option Nat := bytes.findIdx? fun b => decide (0x80 ≤ b.toNat)

def decode (bytes : Bytes) : Codec → Except Fault Chars
  | ascii =>
    match firstWide? bytes with
    | some i => .error (decodingFault "ascii" bytes i (i + 1) "ordinal not in range(128)")
    | none => .ok (bytes.map fun b => Char.ofNat b.toNat)
  | latin1 => .ok (bytes.map fun b => Char.ofNat b.toNat)
  | windows1252 =>
    match bytes.findIdx? fun b => (windowsChar? b).isNone with
    | some i => .error (decodingFault "charmap" bytes i (i + 1) "character maps to <undefined>")
    | none => .ok (bytes.filterMap windowsChar?)
  | utf8 => (Utf8.decode bytes).mapError (faultOf "utf-8" bytes)
  | utf8Marked =>
    let rest := match bytes with
      | 0xEF :: 0xBB :: 0xBF :: rest => rest
      | bytes => bytes
    (Utf8.decode rest).mapError (faultOf "utf-8" rest)
  | utf16Marked =>
    match bytes with
    | 0xFF :: 0xFE :: rest => (Utf16.decodeFrom .lowFirst 2 [] rest).mapError (faultOf "utf-16-le" bytes)
    | 0xFE :: 0xFF :: rest => (Utf16.decodeFrom .highFirst 2 [] rest).mapError (faultOf "utf-16-be" bytes)
    | bytes => (Utf16.decode .lowFirst bytes).mapError (faultOf "utf-16-le" bytes)
  | utf16 .lowFirst => (Utf16.decode .lowFirst bytes).mapError (faultOf "utf-16-le" bytes)
  | utf16 .highFirst => (Utf16.decode .highFirst bytes).mapError (faultOf "utf-16-be" bytes)

end Codec

end GroovySharp.Encoding
