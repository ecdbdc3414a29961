import GroovySharp.Encoding.Utf8

/-!
# UTF-16

Reads texts in units of two bytes, of which either the low or the high one comes first. Characters
past U+FFFF take two units, a high and a low surrogate.
-/

namespace GroovySharp.Encoding.Utf16

/-- Which byte of a unit comes first. -/
inductive Order
  | lowFirst
  | highFirst
  deriving Repr, DecidableEq

def unit (order : Order) (a b : UInt8) : Nat :=
  match order with
  | .lowFirst => a.toNat + b.toNat * 0x100
  | .highFirst => a.toNat * 0x100 + b.toNat

def isHigh (n : Nat) : Bool := decide (0xD800 ≤ n) && decide (n < 0xDC00)

def isLow (n : Nat) : Bool := decide (0xDC00 ≤ n) && decide (n < 0xE000)

def pair (high low : Nat) : Char := Char.ofNat (0x10000 + (high - 0xD800) * 0x400 + (low - 0xDC00))

/-- Reads the bytes from offset `offset` on after the characters in `seen`, which are in reverse. -/
def decodeFrom (order : Order) (offset : Nat) (seen : Chars) : Bytes → Except Utf8.Stop Chars
  | [] => .ok seen.reverse
  | [_] => .error ⟨offset, offset + 1, "truncated data"⟩
  | [a, b] =>
    let n := unit order a b
    if isHigh n then .error ⟨offset, offset + 2, "unexpected end of data"⟩
    else if isLow n then .error ⟨offset, offset + 2, "illegal encoding"⟩
    else .ok (Char.ofNat n :: seen).reverse
  | [a, b, c] =>
    let n := unit order a b
    if isHigh n then .error ⟨offset, offset + 3, "unexpected end of data"⟩
    else if isLow n then .error ⟨offset, offset + 2, "illegal encoding"⟩
    else decodeFrom order (offset + 2) (Char.ofNat n :: seen) [c]
  | a :: b :: c :: d :: rest =>
    let n := unit order a b
    if isHigh n then
      if isLow (unit order c d) then
        decodeFrom order (offset + 4) (pair n (unit order c d) :: seen) rest
      else .error ⟨offset, offset + 2, "illegal UTF-16 surrogate"⟩
    else if isLow n then .error ⟨offset, offset + 2, "illegal encoding"⟩
    else decodeFrom order (offset + 2) (Char.ofNat n :: seen) (c :: d :: rest)

def decode (order : Order) (bytes : Bytes) : Except Utf8.Stop Chars :=
  decodeFrom order 0 [] bytes

end GroovySharp.Encoding.Utf16
