import Depot.Text.Decimal

/-!
# Semantic versions

The grammar `major.minor.patch[-pre][+build]`. The three numbers are numerals below `2 ^ 64`; `pre`
and `build` are lists of non-empty identifiers joined by dots, made of ASCII letters, digits and
hyphens, where a numeric identifier of `pre` has no leading zero. A plus sign can only open `build`
and before it the first hyphen can only open `pre`, so the text is cut at these two places and the
parts are tested on their own.
-/

namespace Depot.Version

/-- A version that follows the grammar. -/
structure Semantic where
  major : Nat
  minor : Nat
  patch : Nat
  /-- The part after the hyphen, empty when there is none. -/
  pre : String
  /-- The part after the plus sign, empty when there is none. -/
  build : String
  deriving DecidableEq, Repr

namespace Semantic

/-- The text before the first `mark` and, if there is one, the text after it. -/
def cut (mark : Char) (s : List Char) : List Char × Option (List Char) :=
  match s.span (· != mark) with
  | (front, []) => (front, none)
  | (front, _ :: back) => (front, some back)

/-- A letter, a digit or a hyphen. -/
def isIdentifierChar (c : Char) : Bool := c.isAlphanum || c == '-'

/-- Non-empty and made of letters, digits and hyphens. -/
def isIdentifier (s : List Char) : Bool := !s.isEmpty && s.all isIdentifierChar

/-- An identifier that is no numeral with a leading zero. -/
def isPreIdentifier (s : List Char) : Bool :=
  isIdentifier s && (!s.all Char.isDigit || Text.Decimal.isNumeral s)

/-- The number of a component: a numeral that fits a 64-bit word. -/
def component? (s : List Char) : Option Nat :=
  if Text.Decimal.isNumeral s then Text.Decimal.word? s else none

/-- An optional tail is absent or a dotted list of identifiers of the given class. -/
def tail? (isPart : List Char → Bool) : Option (List Char) → Option String
  | none => some ""
  | some s => if (s.splitOn '.').all isPart then some (String.ofList s) else none

/-- Reads a text that follows the grammar, and nothing else. -/
def parse? (s : List Char) : Option Semantic :=
  let (front, build) := cut '+' s
  let (numbers, pre) := cut '-' front
  match numbers.splitOn '.' with
  | [major, minor, patch] => do
    let major ← component? major
    let minor ← component? minor
    let patch ← component? patch
    let pre ← tail? isPreIdentifier pre
    let build ← tail? isIdentifier build
    pure ⟨major, minor, patch, pre, build⟩
  | _ => none

end Semantic

end Depot.Version
