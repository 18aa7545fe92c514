import Depot.Table
import Depot.Toml.Basic

/-!
# Reading records from TOML

A record is a table, in which unknown keys are skipped, or an array of its fields in order, from
which fields may be missing at the end and in which values may be left over. A moment is a record
without any field. Every field may be missing (`fieldD`), but a field that is there has to be of its
type.
-/

namespace Depot.Toml

/-- A text. -/
def text? : Toml → Option String
  | .string s => some s
  | _ => none

/-- A truth value. -/
def bool? : Toml → Option Bool
  | .boolean b => some b
  | _ => none

/-- A whole number that is not negative. -/
def nat? : Toml → Option Nat
  | .integer (.ofNat n) => some n
  | _ => none

/-- A list of values that `item` reads. -/
def listOf? (item : Toml → Option α) : Toml → Option (List α)
  | .array items => items.mapM item
  | _ => none

/-- The entries of a table whose values `item` reads. -/
def tableOf? (item : Toml → Option α) : Toml → Option (List (String × α))
  | .table entries => entries.mapM fun (key, v) => (item v).map (key, ·)
  | _ => none

/-- The values of the named fields, in their order, each if it is there. -/
def fields? (names : List String) : Toml → Option (List (Option Toml))
  | .table entries => some (names.map fun name => Table.find? name entries)
  | .array items => some ((List.range names.length).map fun place => items[place]?)
  | .moment _ => some (names.map fun _ => none)
  | _ => none

/-- A field with a default for the case that it is missing. -/
def fieldD (default : α) (item : Toml → Option α) : Option Toml → Option α
  | none => some default
  | some v => item v

/-- A collection without anything in it. -/
def isVoid : Toml → Bool
  | .array items => items.isEmpty
  | .table entries => entries.isEmpty
  | _ => false

/-- A name from a fixed list, as a text or as the only key of a table, with nothing in its value. -/
def choice? : Toml → Option String
  | .string s => some s
  | .table [(key, v)] => if isVoid v then some key else none
  | _ => none

end Depot.Toml
