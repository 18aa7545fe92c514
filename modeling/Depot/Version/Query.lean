import Depot.Text.Blank
import Depot.Version.Order

/-!
# Version queries

The version field of a search: nothing accepts every version, `<v` and `>v` compare with `v`, and
anything else must be the same text.
-/

namespace Depot.Version

/-- What a search asks of a version. -/
inductive Query where
  | any
  | exact (text : String)
  | below (bound : Version)
  | above (bound : Version)
  deriving Repr

namespace Query

/-- Reads a query; blanks around the operand of a comparison do not count. -/
def parse (s : String) : Query :=
  match s.toList with
  | [] => .any
  | '<' :: rest => .below ⟨String.ofList (Text.trim rest)⟩
  | '>' :: rest => .above ⟨String.ofList (Text.trim rest)⟩
  | _ => .exact s

/-- Does the candidate version satisfy the query? -/
def accepts : Query → String → Bool
  | .any, _ => true
  | .exact text, candidate => text == candidate
  | .below bound, candidate => Version.compare ⟨candidate⟩ bound == .lt
  | .above bound, candidate => Version.compare ⟨candidate⟩ bound == .gt

/-- The text of a query. -/
def display : Query → String
  | .any => ""
  | .exact text => text
  | .below bound => "<" ++ bound.text
  | .above bound => ">" ++ bound.text

/-- Queries of one kind with equal operands; operands of comparisons are equal as versions. -/
def same : Query → Query → Bool
  | .any, .any => true
  | .exact s, .exact t => s == t
  | .below a, .below b => a == b
  | .above a, .above b => a == b
  | _, _ => false

end Query

/-- Does the candidate satisfy the query that `query` writes? -/
def satisfies (candidate query : String) : Bool := (Query.parse query).accepts candidate

end Depot.Version
