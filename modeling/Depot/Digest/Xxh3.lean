/-!
# XXH3 with 128 bits

A fast digest without cryptographic strength, at seed zero and with the standard secret. Inputs are
treated by length: up to 16 bytes by a formula each, up to 240 bytes by mixing pairs of chunks, and
longer ones in stripes of 64 bytes that eight lanes accumulate.
-/

namespace Depot.Digest.Xxh3

/-- Two words, the halves of a 128-bit number. -/
structure Wide where
  low : UInt64
  high : UInt64
  deriving DecidableEq

/-! ## Constants -/

/-- The standard secret, which keys every step. -/
def secret : ByteArray :=
  ⟨#[
    0xb8, 0xfe, 0x6c, 0x39, 0x23, 0xa4, 0x4b, 0xbe, 0x7c, 0x01, 0x81, 0x2c, 0xf7, 0x21, 0xad, 0x1c,
    0xde, 0xd4, 0x6d, 0xe9, 0x83, 0x90, 0x97, 0xdb, 0x72, 0x40, 0xa4, 0xa4, 0xb7, 0xb3, 0x67, 0x1f,
    0xcb, 0x79, 0xe6, 0x4e, 0xcc, 0xc0, 0xe5, 0x78, 0x82, 0x5a, 0xd0, 0x7d, 0xcc, 0xff, 0x72, 0x21,
    0xb8, 0x08, 0x46, 0x74, 0xf7, 0x43, 0x24, 0x8e, 0xe0, 0x35, 0x90, 0xe6, 0x81, 0x3a, 0x26, 0x4c,
    0x3c, 0x28, 0x52, 0xbb, 0x91, 0xc3, 0x00, 0xcb, 0x88, 0xd0, 0x65, 0x8b, 0x1b, 0x53, 0x2e, 0xa3,
    0x71, 0x64, 0x48, 0x97, 0xa2, 0x0d, 0xf9, 0x4e, 0x38, 0x19, 0xef, 0x46, 0xa9, 0xde, 0xac, 0xd8,
    0xa8, 0xfa, 0x76, 0x3f, 0xe3, 0x9c, 0x34, 0x3f, 0xf9, 0xdc, 0xbb, 0xc7, 0xc7, 0x0b, 0x4f, 0x1d,
    0x8a, 0x51, 0xe0, 0x4b, 0xcd, 0xb4, 0x59, 0x31, 0xc8, 0x9f, 0x7e, 0xc9, 0xd9, 0x78, 0x73, 0x64,
    0xea, 0xc5, 0xac, 0x83, 0x34, 0xd3, 0xeb, 0xc3, 0xc5, 0x81, 0xa0, 0xff, 0xfa, 0x13, 0x63, 0xeb,
    0x17, 0x0d, 0xdd, 0x51, 0xb7, 0xf0, 0xda, 0x49, 0xd3, 0x16, 0x55, 0x26, 0x29, 0xd4, 0x68, 0x9e,
    0x2b, 0x16, 0xbe, 0x58, 0x7d, 0x47, 0xa1, 0xfc, 0x8f, 0xf8, 0xb8, 0xd1, 0x7a, 0xd0, 0x31, 0xce,
    0x45, 0xcb, 0x3a, 0x8f, 0x95, 0x16, 0x04, 0x28, 0xaf, 0xd7, 0xfb, 0xca, 0xbb, 0x4b, 0x40, 0x7e]⟩

def prime32A : UInt64 := 0x9e3779b1
def prime32B : UInt64 := 0x85ebca77
def prime32C : UInt64 := 0xc2b2ae3d
def prime64A : UInt64 := 0x9e3779b185ebca87
def prime64B : UInt64 := 0xc2b2ae3d27d4eb4f
def prime64C : UInt64 := 0x165667b19e3779f9
def prime64D : UInt64 := 0x85ebca77c2b2ae63
def prime64E : UInt64 := 0x27d4eb2f165667c5
def mixerA : UInt64 := 0x165667919e3779f9
def mixerB : UInt64 := 0x9fb21c651e98df25

/-! ## Words -/

/-- The little-endian number of `count` bytes at a position; bytes behind the end count as zero. -/
def littleEndian (count : Nat) (data : ByteArray) (i : Nat) : UInt64 :=
  (List.range count).foldr (fun k w => (w <<< 8) ||| (data[i + k]?.getD 0).toUInt64) 0

/-- The 64-bit word at a position. -/
def word64 (data : ByteArray) (i : Nat) : UInt64 := littleEndian 8 data i

/-- The 32-bit word at a position. -/
def word32 (data : ByteArray) (i : Nat) : UInt64 := littleEndian 4 data i

/-- The lower half of a word. -/
def lower (x : UInt64) : UInt64 := x &&& 0xffffffff

/-- The bytes of the lower half of a word in reverse order. -/
def swap32 (x : UInt64) : UInt64 :=
  let byte (n : UInt64) : UInt64 := (x >>> n) &&& 0xff
  (byte 0 <<< 24) ||| (byte 8 <<< 16) ||| (byte 16 <<< 8) ||| byte 24

/-- The bytes of a word in reverse order. -/
def swap64 (x : UInt64) : UInt64 := (swap32 (lower x) <<< 32) ||| swap32 (x >>> 32)

/-- The lower half of a word rotated to the left by 13. -/
def rotl13 (x : UInt64) : UInt64 := lower ((x <<< 13) ||| (x >>> 19))

/-- A word with a shifted copy of itself added bit by bit. -/
def xorShift (x n : UInt64) : UInt64 := x ^^^ (x >>> n)

/-- The full product of two words. -/
def mul (a b : UInt64) : Wide :=
  let n := a.toNat * b.toNat
  ⟨n.toUInt64, (n >>> 64).toUInt64⟩

/-- The halves of the full product, added bit by bit. -/
def mulFold (a b : UInt64) : UInt64 := (mul a b).low ^^^ (mul a b).high

/-- The final mixing of short inputs. -/
def avalancheShort (h : UInt64) : UInt64 :=
  xorShift (xorShift (xorShift h 33 * prime64B) 29 * prime64C) 32

/-- The final mixing of long inputs. -/
def avalanche (h : UInt64) : UInt64 := xorShift (xorShift h 37 * mixerA) 32

/-- Two words of the secret added bit by bit. -/
def key (i : Nat) : UInt64 := word64 secret i ^^^ word64 secret (i + 8)

/-! ## Inputs of up to 16 bytes -/

/-- The digest of the empty input. -/
def ofNone : Wide := ⟨avalancheShort (key 64), avalancheShort (key 80)⟩

/-- The digest of one to three bytes. -/
def ofTo3 (data : ByteArray) : Wide :=
  let n := data.size
  let first := littleEndian 1 data 0
  let middle := littleEndian 1 data (n / 2)
  let last := littleEndian 1 data (n - 1)
  let low := (first <<< 16) ||| (middle <<< 24) ||| last ||| (n.toUInt64 <<< 8)
  let high := rotl13 (swap32 low)
  ⟨avalancheShort (low ^^^ (word32 secret 0 ^^^ word32 secret 4)),
    avalancheShort (high ^^^ (word32 secret 8 ^^^ word32 secret 12))⟩

/-- The digest of four to eight bytes. -/
def ofTo8 (data : ByteArray) : Wide :=
  let n := data.size
  let input := word32 data 0 + (word32 data (n - 4) <<< 32)
  let m := mul (input ^^^ key 16) (prime64A + (n.toUInt64 <<< 2))
  let high := m.high + (m.low <<< 1)
  let low := m.low ^^^ (high >>> 3)
  ⟨xorShift (xorShift low 35 * mixerB) 28, avalanche high⟩

/-- The digest of nine to 16 bytes. -/
def ofTo16 (data : ByteArray) : Wide :=
  let n := data.size
  let front := word64 data 0
  let back := word64 data (n - 8)
  let m := mul (front ^^^ back ^^^ key 32) prime64A
  let low := m.low + ((n - 1).toUInt64 <<< 54)
  let back := back ^^^ key 48
  let high := m.high + (back + lower back * (prime32B - 1))
  let low := low ^^^ swap64 high
  let h := mul low prime64B
  ⟨avalanche h.low, avalanche (h.high + high * prime64B)⟩

/-! ## Inputs of up to 240 bytes -/

/-- Sixteen bytes of input mixed with sixteen bytes of the secret. -/
def mix16 (data : ByteArray) (i k : Nat) : UInt64 :=
  mulFold (word64 data i ^^^ word64 secret k) (word64 data (i + 8) ^^^ word64 secret (k + 8))

/-- Two chunks of sixteen bytes mixed into both halves. -/
def mix32 (data : ByteArray) (acc : Wide) (i j k : Nat) : Wide :=
  ⟨(acc.low + mix16 data i k) ^^^ (word64 data j + word64 data (j + 8)),
    (acc.high + mix16 data j (k + 16)) ^^^ (word64 data i + word64 data (i + 8))⟩

/-- The digest from the two mixed halves. -/
def finish (n : Nat) (acc : Wide) : Wide :=
  ⟨avalanche (acc.low + acc.high),
    0 - avalanche (acc.low * prime64A + acc.high * prime64D + n.toUInt64 * prime64B)⟩

/-- The digest of 17 to 128 bytes: pairs of chunks from both ends, the inner ones first. -/
def ofTo128 (data : ByteArray) : Wide :=
  let n := data.size
  let pairs := (List.range ((n - 1) / 32 + 1)).reverse
  finish n <| pairs.foldl
    (fun acc p => mix32 data acc (16 * p) (n - 16 * (p + 1)) (32 * p)) ⟨n.toUInt64 * prime64A, 0⟩

/-- The digest of 129 to 240 bytes. -/
def ofTo240 (data : ByteArray) : Wide :=
  let n := data.size
  let step (shift : Nat) (acc : Wide) (p : Nat) : Wide :=
    mix32 data acc (32 * p) (32 * p + 16) (32 * p - shift)
  let acc := (List.range 4).foldl (step 0) ⟨n.toUInt64 * prime64A, 0⟩
  let acc := ⟨avalanche acc.low, avalanche acc.high⟩
  let acc := (List.range' 4 (n / 32 - 4)).foldl (step 125) acc
  finish n (mix32 data acc (n - 16) (n - 32) 103)

/-! ## Longer inputs -/

/-- The eight lanes before the first stripe. -/
def lanes : Array UInt64 :=
  #[prime32C, prime64A, prime64B, prime64C, prime64D, prime32B, prime64E, prime32A]

/-- A stripe of 64 bytes added to the lanes; each word also goes to the neighbour lane. -/
def accumulate (data : ByteArray) (i k : Nat) (acc : Array UInt64) : Array UInt64 :=
  acc.mapIdx fun lane a =>
    let neighbour := word64 data (i + 8 * (lane ^^^ 1))
    let keyed := word64 data (i + 8 * lane) ^^^ word64 secret (k + 8 * lane)
    a + neighbour + lower keyed * (keyed >>> 32)

/-- The lanes mixed with the end of the secret, after a whole block. -/
def scramble (acc : Array UInt64) : Array UInt64 :=
  acc.mapIdx fun lane a => (xorShift a 47 ^^^ word64 secret (128 + 8 * lane)) * prime32A

/-- The first `stripes` stripes of the block at a position. -/
def accumulateBlock (data : ByteArray) (start stripes : Nat) (acc : Array UInt64) : Array UInt64 :=
  (List.range stripes).foldl (fun acc s => accumulate data (start + 64 * s) (8 * s) acc) acc

/-- The lanes merged into one word. -/
def merge (acc : Array UInt64) (k : Nat) (start : UInt64) : UInt64 :=
  avalanche <| (List.range 4).foldl
    (fun r i =>
      r + mulFold (acc[2 * i]?.getD 0 ^^^ word64 secret (k + 16 * i))
        (acc[2 * i + 1]?.getD 0 ^^^ word64 secret (k + 16 * i + 8))) start

/-- The digest of more than 240 bytes: whole blocks of 16 stripes, the stripes of the last block,
and the last 64 bytes once more. -/
def ofLong (data : ByteArray) : Wide :=
  let n := data.size
  let blocks := (n - 1) / 1024
  let acc := (List.range blocks).foldl
    (fun acc b => scramble (accumulateBlock data (1024 * b) 16 acc)) lanes
  let acc := accumulateBlock data (1024 * blocks) ((n - 1 - 1024 * blocks) / 64) acc
  let acc := accumulate data (n - 64) 121 acc
  ⟨merge acc 11 (n.toUInt64 * prime64A), merge acc 117 (~~~(n.toUInt64 * prime64B))⟩

/-- The digest of an input. -/
def digest (data : ByteArray) : Wide :=
  let n := data.size
  if n = 0 then ofNone
  else if n ≤ 3 then ofTo3 data
  else if n ≤ 8 then ofTo8 data
  else if n ≤ 16 then ofTo16 data
  else if n ≤ 128 then ofTo128 data
  else if n ≤ 240 then ofTo240 data
  else ofLong data

end Depot.Digest.Xxh3
