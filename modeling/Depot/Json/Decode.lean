import Depot.Json.Basic

/-!
# Reading records from JSON

Records are read strictly. A record is an object, in which unknown members are skipped and a known
one may not repeat, or an array of its fields in order, from which trailing fields may be missing.
Each record decides for itself which fields may be missing (`field`, `fieldD`).
-/

namespace Depot.Json

/-- A text. -/
def string? : Json → Option String
  | .string s => some s
  | _ => none

/-- A truth value. -/
def bool? : Json → Option Bool
  | .bool b => some b
  | _ => none

/-- A number below `limit`. -/
def natBelow? (limit : Nat) : Json → Option Nat
  | .integer (.ofNat n) => if n < limit then some n else none
  | _ => none

/-- A number that fits 64 bits. -/
def word64? (v : Json) : Option UInt64 := (natBelow? UInt64.size v).map UInt64.ofNat

/-- A number that fits 16 bits. -/
def word16? (v : Json) : Option UInt16 := (natBelow? UInt16.size v).map UInt16.ofNat

/-- A list of values that `item` reads. -/
def listOf? (item : Json → Option α) : Json → Option (List α)
  | .array items => items.mapM item
  | _ => none

/-- `null`, or a value that `item` reads. -/
def nullable? (item : Json → Option α) : Json → Option (Option α)
  | .null => some none
  | v => (item v).map some

/-- The one member with a name; a second one is refused. -/
def member? (members : List (String × Json)) (name : String) : Option (Option Json) :=
  match members.filter (·.1 == name) with
  | [] => some none
  | [(_, v)] => some (some v)
  | _ => none

/-- The values of the named fields, in their order, each if it is there. -/
def fields? (names : List String) : Json → Option (List (Option Json))
  | .object members => names.mapM (member? members)
  | .array items =>
    if items.length ≤ names.length then
      some (items.map some ++ List.replicate (names.length - items.length) none)
    else none
  | _ => none

/-- A field that must be there. -/
def field (item : Json → Option α) (v : Option Json) : Option α := v.bind item

/-- A field with a default for the case that it is missing. -/
def fieldD (default : α) (item : Json → Option α) : Option Json → Option α
  | none => some default
  | some v => item v

/-- The value of the member `tag`, which must be a text and occur once, and the value without it. In
an array the tag comes first. Everything else has to be usable and to nest at most `levels` deep. -/
def tagged? (tag : String) (levels : Nat) : Json → Option (String × Json)
  | .object members =>
    match member? members tag with
    | some (some (.string kind)) =>
      let rest := members.filter (·.1 != tag)
      if usableMembers levels rest then some (kind, .object rest) else none
    | _ => none
  | .array (.string kind :: rest) =>
    if usableItems levels rest then some (kind, .array rest) else none
  | _ => none

/-- A name from a fixed list, as a text or as the only member of an object, with `null`. -/
def choice? : Json → Option String
  | .string s => some s
  | .object [(s, .null)] => some s
  | _ => none

end Depot.Json
