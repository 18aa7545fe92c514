import Depot.Text.Hex
import Depot.Text.Utf8

/-!
# Percent encoding

Bytes that may not stand in a part of an address are written as a percent sign and two hexadecimal
digits in upper case. Which ASCII characters these are depends on the part; all other characters
always are.
-/

namespace Depot.Url

/-- A control character. -/
def isControl (c : Char) : Bool := c.toNat < 32 || c.toNat == 127

/-- Characters encoded in the path of an address. -/
def inPathSet (c : Char) : Bool :=
  isControl c || [' ', '"', '<', '>', '\x60', '#', '?', '\x7b', '\x7d'].contains c

/-- Characters encoded in the query of an address. -/
def inQuerySet (c : Char) : Bool := isControl c || [' ', '"', '<', '>', '#'].contains c

/-- Characters encoded in the query of an address with a special scheme. -/
def inSpecialQuerySet (c : Char) : Bool := inQuerySet c || c == '\x27'

/-- One byte as a percent sign and two digits. -/
def encodeByte (b : UInt8) : List Char :=
  ['%', Text.Hex.upper (b.toNat / 16), Text.Hex.upper (b.toNat % 16)]

/-- One character, encoded if it is in the set or outside ASCII. -/
def encodeChar (inSet : Char → Bool) (c : Char) : List Char :=
  if inSet c || 128 ≤ c.toNat then (String.utf8EncodeChar c).flatMap encodeByte else [c]

/-- Every character, encoded where that is needed. -/
def encode (inSet : Char → Bool) (s : List Char) : List Char := s.flatMap (encodeChar inSet)

/-- The bytes that a text stands for, with its percent codes decoded. -/
def decodeBytes : List Char → List UInt8
  | [] => []
  | '%' :: a :: b :: rest =>
    match Text.Hex.value? a, Text.Hex.value? b with
    | some m, some n => UInt8.ofNat (16 * m + n) :: decodeBytes rest
    | _, _ => 0x25 :: decodeBytes (a :: b :: rest)
  | c :: rest => String.utf8EncodeChar c ++ decodeBytes rest

end Depot.Url
