import GroovySharp.Encoding.Bytes

/-!
# BLAKE2b

The BLAKE2b digest of bytes, without a key, in any length up to 64 bytes. Content is taken in blocks
of 128 bytes; each block is mixed into a state of eight words.
-/

namespace GroovySharp.Digest.Blake2b

/-! ### Words -/

def blockSize : Nat := 128

def wordBytes (w : UInt64) : Bytes :=
  (List.range 8).map fun i => (w >>> (8 * i).toUInt64).toUInt8

def wordOf : Bytes → UInt64
  | [] => 0
  | b :: rest => b.toUInt64 + (wordOf rest <<< 8)

def wordsOf : Nat → Bytes → List UInt64
  | 0, _ => []
  | n + 1, bs => wordOf (bs.take 8) :: wordsOf n (bs.drop 8)

def rotate (w n : UInt64) : UInt64 := (w >>> n) ||| (w <<< (64 - n))

/-! ### Mixing -/

def initial : Vector UInt64 8 :=
  #v[0x6A09E667F3BCC908, 0xBB67AE8584CAA73B, 0x3C6EF372FE94F82B, 0xA54FF53A5F1D36F1,
    0x510E527FADE682D1, 0x9B05688C2B3E6C1F, 0x1F83D9ABFB41BD6B, 0x5BE0CD19137E2179]

/-- The orders in which the rounds take the words of a block. -/
def orders : List (List (Fin 16)) := [ [0, 1, 2, 3, 4, 5, 6, 7, 8, 9, 10, 11, 12, 13, 14, 15],
  [14, 10, 4, 8, 9, 15, 13, 6, 1, 12, 0, 2, 11, 7, 5, 3],
  [11, 8, 12, 0, 5, 2, 15, 13, 10, 14, 3, 6, 7, 1, 9, 4],
  [7, 9, 3, 1, 13, 12, 11, 14, 2, 6, 5, 10, 4, 0, 15, 8],
  [9, 0, 5, 7, 2, 4, 10, 15, 14, 1, 11, 12, 6, 8, 3, 13],
  [2, 12, 6, 10, 0, 11, 8, 3, 4, 13, 7, 5, 15, 14, 1, 9],
  [12, 5, 1, 15, 14, 13, 4, 10, 0, 7, 6, 3, 9, 2, 8, 11],
  [13, 11, 7, 14, 12, 1, 3, 9, 5, 0, 15, 4, 8, 6, 2, 10],
  [6, 15, 14, 9, 11, 3, 0, 8, 12, 2, 13, 7, 1, 4, 10, 5],
  [10, 2, 8, 4, 7, 6, 1, 5, 15, 11, 9, 14, 3, 12, 13, 0],
  [0, 1, 2, 3, 4, 5, 6, 7, 8, 9, 10, 11, 12, 13, 14, 15],
  [14, 10, 4, 8, 9, 15, 13, 6, 1, 12, 0, 2, 11, 7, 5, 3]]

def lanes : List (Fin 16 × Fin 16 × Fin 16 × Fin 16) :=
  [(0, 4, 8, 12), (1, 5, 9, 13), (2, 6, 10, 14), (3, 7, 11, 15),
    (0, 5, 10, 15), (1, 6, 11, 12), (2, 7, 8, 13), (3, 4, 9, 14)]

abbrev Work := Vector UInt64 16

def put (v : Work) (i : Fin 16) (w : UInt64) : Work := v.set i.val w i.isLt

def mix (v : Work) (lane : Fin 16 × Fin 16 × Fin 16 × Fin 16) (x y : UInt64) : Work :=
  let (a, b, c, d) := lane
  let v := put v a (v[a] + v[b] + x)
  let v := put v d (rotate (v[d] ^^^ v[a]) 32)
  let v := put v c (v[c] + v[d])
  let v := put v b (rotate (v[b] ^^^ v[c]) 24)
  let v := put v a (v[a] + v[b] + y)
  let v := put v d (rotate (v[d] ^^^ v[a]) 16)
  let v := put v c (v[c] + v[d])
  put v b (rotate (v[b] ^^^ v[c]) 63)

def steps (block : Work) (v : Work) :
    List (Fin 16 × Fin 16 × Fin 16 × Fin 16) → List (Fin 16) → Work
  | lane :: rest, i :: j :: order => steps block (mix v lane block[i] block[j]) rest order
  | _, _ => v

def workOf (h : Vector UInt64 8) (count : UInt64) (last : Bool) : Work :=
  let v : Work := h ++ initial
  let v := put v 12 (v[12] ^^^ count)
  if last then put v 14 (~~~v[14]) else v

def compress (h : Vector UInt64 8) (block : Work) (count : UInt64) (last : Bool) :
    Vector UInt64 8 :=
  let v := orders.foldl (fun v order => steps block v lanes order) (workOf h count last)
  Vector.ofFn fun i => h[i] ^^^ v[i.val] ^^^ v[i.val + 8]

/-! ### Digests -/

def blockOf (bs : Bytes) : Work :=
  let words := (wordsOf 16 bs).toArray
  Vector.ofFn fun i => words.getD i.val 0

/-- The state after all bytes, taken in at most as many blocks as given. -/
def absorb (h : Vector UInt64 8) (count : Nat) : Nat → Bytes → Vector UInt64 8
  | 0, _ => h
  | n + 1, bs =>
    let block := bs.take blockSize
    let rest := bs.drop blockSize
    let count := count + block.length
    if rest.isEmpty then compress h (blockOf block) count.toUInt64 true
    else absorb (compress h (blockOf block) count.toUInt64 false) count n rest

def start (size : Nat) : Vector UInt64 8 :=
  initial.set 0 (initial[0] ^^^ 0x01010000 ^^^ size.toUInt64)

def digest (size : Nat) (bs : Bytes) : Bytes :=
  let h := absorb (start size) 0 (bs.length / blockSize + 1) bs
  (h.toList.flatMap wordBytes).take size

def hexDigest (size : Nat) (bs : Bytes) : String := Encoding.hexText (digest size bs)

end GroovySharp.Digest.Blake2b
