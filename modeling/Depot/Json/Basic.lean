/-!
# JSON values

A JSON text as a value. Members of an object keep their order and their repetitions, because readers
of records care about both. Two kinds of text follow the grammar without standing for a value that
can be used: a string or key with half of a surrogate pair, and a number beyond the range of
floating point. Both are kept as `Json.unusable`, so that a reader can skip over them but never take
them.
-/

namespace Depot

/-- A JSON value. -/
inductive Json where
  | null
  | bool (b : Bool)
  /-- A number written without fraction and exponent that fits 64 bits, signed or unsigned. -/
  | integer (n : Int)
  /-- Any other number in range, by its text. -/
  | fraction (text : String)
  | string (s : String)
  | array (items : List Json)
  | object (members : List (String × Json))
  /-- Follows the grammar, but stands for nothing. -/
  | unusable
  deriving Inhabited, Repr

namespace Json

mutual
/-- No unusable part, and arrays and objects nested at most `levels` deep. -/
def usable : Nat → Json → Bool
  | _, .unusable => false
  | 0, .array _ => false
  | 0, .object _ => false
  | levels + 1, .array items => usableItems levels items
  | levels + 1, .object members => usableMembers levels members
  | _, _ => true

/-- `usable` of every item. -/
def usableItems : Nat → List Json → Bool
  | _, [] => true
  | levels, v :: rest => usable levels v && usableItems levels rest

/-- `usable` of the value of every member. -/
def usableMembers : Nat → List (String × Json) → Bool
  | _, [] => true
  | levels, (_, v) :: rest => usable levels v && usableMembers levels rest
end

end Json

end Depot
