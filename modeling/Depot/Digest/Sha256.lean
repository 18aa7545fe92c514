/-!
# SHA-256

The digest of FIPS 180-4. A message is padded to whole blocks of 64 bytes; each block is expanded to
a schedule of 64 words and mixed into eight words of state.
-/

namespace Depot.Digest.Sha256

/-- The round constants: the first 32 bits behind the point of the cube roots of the first 64
primes. -/
def roundConstants : Array UInt32 :=
  #[
    0x428a2f98, 0x71374491, 0xb5c0fbcf, 0xe9b5dba5, 0x3956c25b, 0x59f111f1, 0x923f82a4, 0xab1c5ed5,
    0xd807aa98, 0x12835b01, 0x243185be, 0x550c7dc3, 0x72be5d74, 0x80deb1fe, 0x9bdc06a7, 0xc19bf174,
    0xe49b69c1, 0xefbe4786, 0x0fc19dc6, 0x240ca1cc, 0x2de92c6f, 0x4a7484aa, 0x5cb0a9dc, 0x76f988da,
    0x983e5152, 0xa831c66d, 0xb00327c8, 0xbf597fc7, 0xc6e00bf3, 0xd5a79147, 0x06ca6351, 0x14292967,
    0x27b70a85, 0x2e1b2138, 0x4d2c6dfc, 0x53380d13, 0x650a7354, 0x766a0abb, 0x81c2c92e, 0x92722c85,
    0xa2bfe8a1, 0xa81a664b, 0xc24b8b70, 0xc76c51a3, 0xd192e819, 0xd6990624, 0xf40e3585, 0x106aa070,
    0x19a4c116, 0x1e376c08, 0x2748774c, 0x34b0bcb5, 0x391c0cb3, 0x4ed8aa4a, 0x5b9cca4f, 0x682e6ff3,
    0x748f82ee, 0x78a5636f, 0x84c87814, 0x8cc70208, 0x90befffa, 0xa4506ceb, 0xbef9a3f7, 0xc67178f2]

/-- The eight words of state. -/
structure State where
  a : UInt32
  b : UInt32
  c : UInt32
  d : UInt32
  e : UInt32
  f : UInt32
  g : UInt32
  h : UInt32
  deriving DecidableEq

/-- The initial state: the first 32 bits behind the point of the square roots of the first eight
primes. -/
def initial : State :=
  ⟨0x6a09e667, 0xbb67ae85, 0x3c6ef372, 0xa54ff53a, 0x510e527f, 0x9b05688c,
    0x1f83d9ab, 0x5be0cd19⟩

/-- Rotation to the right. -/
def rotr (x : UInt32) (n : UInt32) : UInt32 := (x >>> n) ||| (x <<< (32 - n))

/-- The big-endian word at a position; bytes behind the end count as zero. -/
def word (data : ByteArray) (i : Nat) : UInt32 :=
  (List.range 4).foldl (fun w k => (w <<< 8) ||| (data[i + k]?.getD 0).toUInt32) 0

/-- The message followed by one bit, zeros up to a whole number of blocks and its length in bits. -/
def pad (message : ByteArray) : ByteArray :=
  let zeros := (119 - message.size % 64) % 64
  let bits := 8 * message.size
  let length := (List.range 8).map fun k => (bits >>> (8 * (7 - k))).toUInt8
  message ++ ⟨((0x80 :: List.replicate zeros 0) ++ length).toArray⟩

/-- The next word of a schedule that holds the words before it. -/
def nextWord (w : Array UInt32) (i : Nat) : UInt32 :=
  let x := w[i - 15]?.getD 0
  let y := w[i - 2]?.getD 0
  let s0 := rotr x 7 ^^^ rotr x 18 ^^^ (x >>> 3)
  let s1 := rotr y 17 ^^^ rotr y 19 ^^^ (y >>> 10)
  w[i - 16]?.getD 0 + s0 + w[i - 7]?.getD 0 + s1

/-- The schedule of the block at a position. -/
def schedule (data : ByteArray) (start : Nat) : Array UInt32 :=
  let first := (Array.range 16).map fun k => word data (start + 4 * k)
  (List.range 48).foldl (fun w k => w.push (nextWord w (16 + k))) first

/-- One round. -/
def round (w : Array UInt32) (s : State) (i : Nat) : State :=
  let s1 := rotr s.e 6 ^^^ rotr s.e 11 ^^^ rotr s.e 25
  let choice := (s.e &&& s.f) ^^^ (~~~s.e &&& s.g)
  let t1 := s.h + s1 + choice + roundConstants[i]?.getD 0 + w[i]?.getD 0
  let s0 := rotr s.a 2 ^^^ rotr s.a 13 ^^^ rotr s.a 22
  let majority := (s.a &&& s.b) ^^^ (s.a &&& s.c) ^^^ (s.b &&& s.c)
  ⟨t1 + (s0 + majority), s.a, s.b, s.c, s.d + t1, s.e, s.f, s.g⟩

/-- The state after the block at a position. -/
def compress (data : ByteArray) (s : State) (start : Nat) : State :=
  let t := (List.range 64).foldl (round (schedule data start)) s
  ⟨s.a + t.a, s.b + t.b, s.c + t.c, s.d + t.d, s.e + t.e, s.f + t.f, s.g + t.g, s.h + t.h⟩

/-- The words of the digest of a message. -/
def digest (message : ByteArray) : List UInt32 :=
  let data := pad message
  let s := (List.range (data.size / 64)).foldl (fun s k => compress data s (64 * k)) initial
  [s.a, s.b, s.c, s.d, s.e, s.f, s.g, s.h]

end Depot.Digest.Sha256
