/-! # The XXH3 hash of 128 bits

The hash works on words of 64 bits, read from the input with the lowest byte first and mixed with
words of a fixed secret. Inputs of up to 3, 8, 16, 128 and 240 bytes have methods of their own;
longer ones go through eight accumulators, stripe by stripe. There is no seed.
-/
namespace Gateware.Xxh3

def secret : ByteArray := ⟨#[
  0xb8, 0xfe, 0x6c, 0x39, 0x23, 0xa4, 0x4b, 0xbe, 0x7c, 0x01, 0x81, 0x2c, 0xf7, 0x21, 0xad, 0x1c,
  0xde, 0xd4, 0x6d, 0xe9, 0x83, 0x90, 0x97, 0xdb, 0x72, 0x40, 0xa4, 0xa4, 0xb7, 0xb3, 0x67, 0x1f,
  0xcb, 0x79, 0xe6, 0x4e, 0xcc, 0xc0, 0xe5, 0x78, 0x82, 0x5a, 0xd0, 0x7d, 0xcc, 0xff, 0x72, 0x21,
  0xb8, 0x08, 0x46, 0x74, 0xf7, 0x43, 0x24, 0x8e, 0xe0, 0x35, 0x90, 0xe6, 0x81, 0x3a, 0x26, 0x4c,
  0x3c, 0x28, 0x52, 0xbb, 0x91, 0xc3, 0x00, 0xcb, 0x88, 0xd0, 0x65, 0x8b, 0x1b, 0x53, 0x2e, 0xa3,
  0x71, 0x64, 0x48, 0x97, 0xa2, 0x0d, 0xf9, 0x4e, 0x38, 0x19, 0xef, 0x46, 0xa9, 0xde, 0xac, 0xd8,
  0xa8, 0xfa, 0x76, 0x3f, 0xe3, 0x9c, 0x34, 0x3f, 0xf9, 0xdc, 0xbb, 0xc7, 0xc7, 0x0b, 0x4f, 0x1d,
  0x8a, 0x51, 0xe0, 0x4b, 0xcd, 0xb4, 0x59, 0x31, 0xc8, 0x9f, 0x7e, 0xc9, 0xd9, 0x78, 0x73, 0x64,
  0xea, 0xc5, 0xac, 0x83, 0x34, 0xd3, 0xeb, 0xc3, 0xc5, 0x81, 0xa0, 0xff, 0xfa, 0x13, 0x63, 0xeb,
  0x17, 0x0d, 0xdd, 0x51, 0xb7, 0xf0, 0xda, 0x49, 0xd3, 0x16, 0x55, 0x26, 0x29, 0xd4, 0x68, 0x9e,
  0x2b, 0x16, 0xbe, 0x58, 0x7d, 0x47, 0xa1, 0xfc, 0x8f, 0xf8, 0xb8, 0xd1, 0x7a, 0xd0, 0x31, 0xce,
  0x45, 0xcb, 0x3a, 0x8f, 0x95, 0x16, 0x04, 0x28, 0xaf, 0xd7, 0xfb, 0xca, 0xbb, 0x4b, 0x40, 0x7e]⟩

def prime32A : UInt64 := 0x9e3779b1
def prime32B : UInt64 := 0x85ebca77
def prime32C : UInt64 := 0xc2b2ae3d
def prime64A : UInt64 := 0x9e3779b185ebca87
def prime64B : UInt64 := 0xc2b2ae3d27d4eb4f
def prime64C : UInt64 := 0x165667b19e3779f9
def prime64D : UInt64 := 0x85ebca77c2b2ae63
def prime64E : UInt64 := 0x27d4eb2f165667c5

/-! ## Words -/

/-- The byte at a position; zero beyond the end. -/
def byteAt (data : ByteArray) (i : Nat) : UInt64 :=
  if h : i < data.size then (data[i]).toUInt64 else 0

def word32 (data : ByteArray) (i : Nat) : UInt64 :=
  byteAt data i ||| byteAt data (i + 1) <<< 8 ||| byteAt data (i + 2) <<< 16 |||
    byteAt data (i + 3) <<< 24

def word64 (data : ByteArray) (i : Nat) : UInt64 := word32 data i ||| word32 data (i + 4) <<< 32

def lowHalf (x : UInt64) : UInt64 := x &&& 0xffffffff

/-- The byte of a word that starts at bit `n`. -/
def byteFrom (x n : UInt64) : UInt64 := (x >>> n) &&& 0xff

def swap32 (x : UInt64) : UInt64 :=
  byteFrom x 0 <<< 24 ||| byteFrom x 8 <<< 16 ||| byteFrom x 16 <<< 8 ||| byteFrom x 24

def swap64 (x : UInt64) : UInt64 := swap32 (lowHalf x) <<< 32 ||| swap32 (x >>> 32)

def rotate32 (x n : UInt64) : UInt64 := lowHalf (x <<< n) ||| lowHalf x >>> (32 - n)

structure Pair where
  low : UInt64
  high : UInt64
deriving DecidableEq, Repr

def multiply (a b : UInt64) : Pair :=
  let p := a.toNat * b.toNat
  ⟨p.toUInt64, (p >>> 64).toUInt64⟩

/-- The halves of a product put together. -/
def fold (a b : UInt64) : UInt64 :=
  let p := multiply a b
  p.low ^^^ p.high

def xorShift (x n : UInt64) : UInt64 := x ^^^ x >>> n

/-- Spreads every bit over the word. -/
def avalanche (x : UInt64) : UInt64 := xorShift (xorShift x 37 * 0x165667919e3779f9) 32

/-- Spreads every bit over the word more thoroughly, for the shortest inputs. -/
def avalancheShort (x : UInt64) : UInt64 :=
  xorShift (xorShift (xorShift x 33 * prime64B) 29 * prime64C) 32

/-! ## Short inputs -/

def hashEmpty : Pair :=
  ⟨avalancheShort (word64 secret 64 ^^^ word64 secret 72),
    avalancheShort (word64 secret 80 ^^^ word64 secret 88)⟩

def hashTo3 (data : ByteArray) : Pair :=
  let n := data.size
  let low := byteAt data 0 <<< 16 ||| byteAt data (n / 2) <<< 24 ||| byteAt data (n - 1) |||
    n.toUInt64 <<< 8
  let high := rotate32 (swap32 low) 13
  ⟨avalancheShort (low ^^^ (word32 secret 0 ^^^ word32 secret 4)),
    avalancheShort (high ^^^ (word32 secret 8 ^^^ word32 secret 12))⟩

def hashTo8 (data : ByteArray) : Pair :=
  let n := data.size
  let input := word32 data 0 + word32 data (n - 4) <<< 32
  let keyed := input ^^^ (word64 secret 16 ^^^ word64 secret 24)
  let m := multiply keyed (prime64A + n.toUInt64 <<< 2)
  let high := m.high + m.low <<< 1
  let low := m.low ^^^ high >>> 3
  ⟨xorShift (xorShift low 35 * 0x9fb21c651e98df25) 28, avalanche high⟩

def hashTo16 (data : ByteArray) : Pair :=
  let n := data.size
  let inLow := word64 data 0
  let inHigh := word64 data (n - 8)
  let m := multiply (inLow ^^^ inHigh ^^^ (word64 secret 32 ^^^ word64 secret 40)) prime64A
  let low := m.low + (n - 1).toUInt64 <<< 54
  let inHigh := inHigh ^^^ (word64 secret 48 ^^^ word64 secret 56)
  let high := m.high + (inHigh + lowHalf inHigh * (prime32B - 1))
  let low := low ^^^ swap64 high
  let h := multiply low prime64B
  ⟨avalanche h.low, avalanche (h.high + high * prime64B)⟩

/-! ## Inputs of middle length -/

/-- Sixteen bytes of the input against sixteen bytes of the secret. -/
def mix16 (data : ByteArray) (i key : Nat) : UInt64 :=
  fold (word64 data i ^^^ word64 secret key) (word64 data (i + 8) ^^^ word64 secret (key + 8))

def mix32 (data : ByteArray) (acc : Pair) (i j key : Nat) : Pair :=
  ⟨(acc.low + mix16 data i key) ^^^ (word64 data j + word64 data (j + 8)),
    (acc.high + mix16 data j (key + 16)) ^^^ (word64 data i + word64 data (i + 8))⟩

def finishMiddle (n : Nat) (acc : Pair) : Pair :=
  ⟨avalanche (acc.low + acc.high),
    0 - avalanche (acc.low * prime64A + acc.high * prime64D + n.toUInt64 * prime64B)⟩

/-- Up to 128 bytes: pieces from both ends, the innermost first. -/
def hashTo128 (data : ByteArray) : Pair :=
  let n := data.size
  let step (least offset key : Nat) (acc : Pair) : Pair :=
    if least < n then mix32 data acc offset (n - 16 - offset) key else acc
  let acc : Pair := ⟨n.toUInt64 * prime64A, 0⟩
  finishMiddle n
    (step 0 0 0 (step 32 16 32 (step 64 32 64 (step 96 48 96 acc))))

/-- Up to 240 bytes: pieces from the front, with a break after the fourth, and one from the end. -/
def hashTo240 (data : ByteArray) : Pair :=
  let n := data.size
  let acc : Pair := ⟨n.toUInt64 * prime64A, 0⟩
  let acc := (List.range 4).foldl
    (fun acc k => mix32 data acc (32 * k) (32 * k + 16) (32 * k)) acc
  let acc : Pair := ⟨avalanche acc.low, avalanche acc.high⟩
  let acc := (List.range (n / 32 - 4)).foldl
    (fun acc k => mix32 data acc (32 * (k + 4)) (32 * (k + 4) + 16) (3 + 32 * k)) acc
  finishMiddle n (mix32 data acc (n - 16) (n - 32) 103)

/-! ## Long inputs -/

abbrev Lanes := List UInt64

def initialLanes : Lanes :=
  [prime32C, prime64A, prime64B, prime64C, prime64D, prime32B, prime64E, prime32A]

/-- A stripe of 64 bytes added to the lanes: each word to its neighbour, its product with the secret
to its own lane. -/
def accumulate (data : ByteArray) (i key : Nat) : Nat → Lanes → Lanes
  | lane, a :: b :: rest =>
    let v := word64 data (i + 8 * lane)
    let w := word64 data (i + 8 * (lane + 1))
    let keyedV := v ^^^ word64 secret (key + 8 * lane)
    let keyedW := w ^^^ word64 secret (key + 8 * (lane + 1))
    (a + w + lowHalf keyedV * (keyedV >>> 32)) :: (b + v + lowHalf keyedW * (keyedW >>> 32)) ::
      accumulate data i key (lane + 2) rest
  | _, lanes => lanes

def scramble : Nat → Lanes → Lanes
  | _, [] => []
  | lane, a :: rest =>
    ((xorShift a 47 ^^^ word64 secret (128 + 8 * lane)) * prime32A) :: scramble (lane + 1) rest

/-- Some stripes in a row, the key moving on by eight bytes with each. -/
def accumulateStripes (data : ByteArray) (i count : Nat) (lanes : Lanes) : Lanes :=
  (List.range count).foldl (fun lanes k => accumulate data (i + 64 * k) (8 * k) 0 lanes) lanes

def foldLanes : Nat → Lanes → UInt64
  | key, a :: b :: rest =>
    fold (a ^^^ word64 secret key) (b ^^^ word64 secret (key + 8)) + foldLanes (key + 16) rest
  | _, _ => 0

/-- More than 240 bytes. -/
def hashLong (data : ByteArray) : Pair :=
  let n := data.size
  let blocks := (n - 1) / 1024
  let lanes := (List.range blocks).foldl
    (fun lanes k => scramble 0 (accumulateStripes data (1024 * k) 16 lanes)) initialLanes
  let lanes := accumulateStripes data (1024 * blocks) ((n - 1 - 1024 * blocks) / 64) lanes
  let lanes := accumulate data (n - 64) 121 0 lanes
  ⟨avalanche (n.toUInt64 * prime64A + foldLanes 11 lanes),
    avalanche (~~~(n.toUInt64 * prime64B) + foldLanes 117 lanes)⟩

def hash (data : ByteArray) : Pair :=
  let n := data.size
  if n = 0 then hashEmpty
  else if n ≤ 3 then hashTo3 data
  else if n ≤ 8 then hashTo8 data
  else if n ≤ 16 then hashTo16 data
  else if n ≤ 128 then hashTo128 data
  else if n ≤ 240 then hashTo240 data
  else hashLong data

end Gateware.Xxh3
