import Depot.Version.Query

/-!
# Names of packages

A name has four parts and is used in two ways: it identifies a package, and as a query it selects
packages. In a query an empty part accepts everything, the version is a version query, and any other
part has to be equal.
-/

namespace Depot.Package

/-- The name of a package, or a query for packages. -/
structure Name where
  distribution : String
  name : String
  version : String
  architecture : String
  /-- Marks an alternative of a dependency that a plan may leave out. -/
  recommended : Bool := false
  deriving DecidableEq, Repr, Inhabited

namespace Name

/-- The name without any part, which as a query accepts every name. -/
def empty : Name := ⟨"", "", "", "", false⟩

/-- Reads `distribution/name`, or a name alone. -/
def parse (s : String) : Name :=
  match s.toList.span (· != '/') with
  | (front, _ :: back) => ⟨String.ofList front, String.ofList back, "", "", false⟩
  | (_, []) => ⟨"", s, "", "", false⟩

/-- The full text of a name: `distribution/name@version:architecture`. -/
def display (n : Name) : String :=
  n.distribution ++ "/" ++ n.name ++ "@" ++ n.version ++ ":" ++ n.architecture

/-- Distribution and name only, under which a plan registers what it installs. -/
def short (n : Name) : String := n.distribution ++ "/" ++ n.name

/-- Distribution and its release, cut at the first `@`; the release defaults to `latest`. -/
def distributionParts (n : Name) : String × String :=
  match n.distribution.toList.span (· != '@') with
  | (front, _ :: back) => (String.ofList front, String.ofList back)
  | (_, []) => (n.distribution, "latest")

/-- The five parts under which a record is filed: name, version, distribution, release and
architecture. -/
def path (n : Name) : List String :=
  [n.name, n.version, n.distributionParts.1, n.distributionParts.2, n.architecture]

/-- An empty part of a query accepts everything, any other part only itself. -/
def partAccepts (query part : String) : Bool := query.isEmpty || query == part

/-- Does the name satisfy the query? -/
def satisfies (n query : Name) : Bool :=
  partAccepts query.distribution n.distribution &&
    partAccepts query.architecture n.architecture &&
    partAccepts query.name n.name &&
    Version.satisfies n.version query.version

end Name

end Depot.Package
