/-!
# TOML values

The values of a settings file. Fractions and moments are kept by their text: nothing here computes
with them.
-/

namespace Depot

/-- A TOML value. -/
inductive Toml where
  | string (s : String)
  | integer (n : Int)
  | boolean (b : Bool)
  | fraction (text : String)
  /-- A date, a time of day, or both. -/
  | moment (text : String)
  | array (items : List Toml)
  /-- Keys with their values; no key occurs twice. -/
  | table (entries : List (String × Toml))
  deriving Inhabited, Repr

end Depot
