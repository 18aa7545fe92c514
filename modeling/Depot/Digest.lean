import Depot.Digest.Sha256
import Depot.Digest.Xxh3
import Depot.Text.Hex

/-!
# Digests

Tags of builds and keys of fetchers become file names as the lower-case hexadecimal digits of a
digest. SHA-256 is the default; XXH3 with 128 bits is for a store that nobody else writes to.
-/

namespace Depot

/-- The ways to take a digest. -/
inductive Algorithm where
  | sha256
  | xxh128
  deriving DecidableEq, Repr, Inhabited

namespace Algorithm

/-- The name of an algorithm. -/
def name : Algorithm → String
  | .sha256 => "sha256"
  | .xxh128 => "xxh128"

/-- The algorithm of a name. -/
def ofName? : String → Option Algorithm
  | "sha256" => some .sha256
  | "xxh128" => some .xxh128
  | _ => none

end Algorithm

namespace Digest

/-- The digest of some bytes in hexadecimal digits. -/
def ofBytes (algorithm : Algorithm) (data : ByteArray) : String :=
  String.ofList <|
    match algorithm with
    | .sha256 => (Sha256.digest data).flatMap fun w => Text.Hex.digits 8 w.toNat
    | .xxh128 =>
      Text.Hex.digits 16 (Xxh3.digest data).high.toNat ++
        Text.Hex.digits 16 (Xxh3.digest data).low.toNat

/-- The digest of a text in UTF-8. -/
def ofText (algorithm : Algorithm) (text : String) : String := ofBytes algorithm text.toUTF8

/-- A digest under way: the data so far. -/
structure Hasher where
  algorithm : Algorithm
  data : ByteArray := .empty

namespace Hasher

/-- Takes more data. -/
def update (h : Hasher) (data : ByteArray) : Hasher := { h with data := h.data ++ data }

/-- The digest of all data taken. -/
def finish (h : Hasher) : String := ofBytes h.algorithm h.data

end Hasher

end Digest

end Depot
