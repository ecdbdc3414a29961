import GroovySharp.Encoding.Bytes

/-!
# UTF-8

Writes code points as bytes and reads bytes back. Reading takes only the shortest form of each
character and no surrogates, and says where and why it stops.
-/

namespace GroovySharp.Encoding.Utf8

open Unicode

/-! ### Writing -/

/-- The bytes of a number below 2 ^ 21. -/
def encodeNat (n : Nat) : Bytes :=
  if n < 0x80 then [n.toUInt8]
  else if n < 0x800 then [(0xC0 + n / 0x40).toUInt8, (0x80 + n % 0x40).toUInt8]
  else if n < 0x10000 then
    [(0xE0 + n / 0x1000).toUInt8, (0x80 + n / 0x40 % 0x40).toUInt8, (0x80 + n % 0x40).toUInt8]
  else
    [(0xF0 + n / 0x40000).toUInt8, (0x80 + n / 0x1000 % 0x40).toUInt8,
      (0x80 + n / 0x40 % 0x40).toUInt8, (0x80 + n % 0x40).toUInt8]

def encode (cs : Chars) : Bytes := cs.flatMap fun c => encodeNat c.toNat

def firstSurrogates? (offset : Nat) : Points → Option (Nat × Nat)
  | [] => none
  | p :: ps =>
    if p.isScalar then firstSurrogates? (offset + 1) ps
    else some (offset, ((p :: ps).takeWhile fun q => !q.isScalar).length)

/-- The bytes of a text of code points; surrogates have none. -/
def encodePoints (ps : Points) : Except Fault Bytes :=
  match firstSurrogates? 0 ps with
  | none => .ok (ps.flatMap fun p => encodeNat p.toNat)
  | some (start, length) =>
    .error
      { codec := "utf-8", start := start, stop := start + length,
        culprit := match ps[start]? with
          | some p => '\'' :: Text.quotedPoint '\'' p ++ ['\'']
          | none => []
        reason := "surrogates not allowed" }

/-! ### Reading -/

inductive Step
  | char (code width : Nat)
  /-- The first bytes are not a character; so many of them belong together. -/
  | invalid (width : Nat) (reason : String)
  | truncated
  deriving Repr, DecidableEq

def isTail (b : UInt8) : Bool := b.toNat / 0x40 == 2

/-- The byte can follow the first byte `lead`: the shortest form is wanted, surrogates are not, and
the last code point is U+10FFFF. -/
def canFollow (lead second : UInt8) : Bool :=
  isTail second &&
    match lead.toNat with
    | 0xE0 => decide (0xA0 ≤ second.toNat)
    | 0xED => decide (second.toNat < 0xA0)
    | 0xF0 => decide (0x90 ≤ second.toNat)
    | 0xF4 => decide (second.toNat < 0x90)
    | _ => true

def brokenAfter (width : Nat) : Step := .invalid width "invalid continuation byte"

def tailBits (b : UInt8) : Nat := b.toNat % 0x40

def stepTwo (lead : UInt8) : Bytes → Step
  | [] => .truncated
  | b :: _ => if isTail b then .char (lead.toNat % 0x20 * 0x40 + tailBits b) 2 else brokenAfter 1

/-- What stands at the start of the bytes after a first byte of three. -/
def stepThree (lead : UInt8) : Bytes → Step
  | [] => .truncated
  | [b] => if canFollow lead b then .truncated else brokenAfter 1
  | b :: c :: _ =>
    if !canFollow lead b then brokenAfter 1
    else if !isTail c then brokenAfter 2
    else .char ((lead.toNat % 0x10 * 0x40 + tailBits b) * 0x40 + tailBits c) 3

/-- What stands at the start of the bytes after a first byte of four. -/
def stepFour (lead : UInt8) : Bytes → Step
  | [] => .truncated
  | [b] => if canFollow lead b then .truncated else brokenAfter 1
  | [b, c] =>
    if !canFollow lead b then brokenAfter 1 else if isTail c then .truncated else brokenAfter 2
  | b :: c :: d :: _ =>
    if !canFollow lead b then brokenAfter 1
    else if !isTail c then brokenAfter 2
    else if !isTail d then brokenAfter 3
    else .char (((lead.toNat % 0x08 * 0x40 + tailBits b) * 0x40 + tailBits c) * 0x40 + tailBits d) 4

def step (lead : UInt8) (rest : Bytes) : Step :=
  let n := lead.toNat
  if n < 0x80 then .char n 1
  else if n < 0xC2 then .invalid 1 "invalid start byte"
  else if n < 0xE0 then stepTwo lead rest
  else if n < 0xF0 then stepThree lead rest
  else if n < 0xF5 then stepFour lead rest
  else .invalid 1 "invalid start byte"

/-- Why bytes cannot be read. -/
structure Stop where
  start : Nat
  stop : Nat
  reason : String
  deriving Repr, DecidableEq

def endReason : String := "unexpected end of data"

/-- Reads the bytes from offset `offset` on after the characters in `seen`, which are in reverse. `skip`
bytes belong to the last character. -/
def decodeFrom (offset skip : Nat) (seen : Chars) : Bytes → Except Stop Chars
  | [] => .ok seen.reverse
  | b :: rest =>
    match skip with
    | k + 1 => decodeFrom (offset + 1) k seen rest
    | 0 =>
      match step b rest with
      | .char code width => decodeFrom (offset + 1) (width - 1) (Char.ofNat code :: seen) rest
      | .invalid width reason => .error ⟨offset, offset + width, reason⟩
      | .truncated => .error ⟨offset, offset + rest.length + 1, endReason⟩

def decode (bytes : Bytes) : Except Stop Chars := decodeFrom 0 0 [] bytes

end GroovySharp.Encoding.Utf8
