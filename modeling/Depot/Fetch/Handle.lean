import Depot.Fetch.Decl
import Depot.Package.Architecture
import Depot.Table

/-!
# What a source hands over

A source hands its packages to a handle one by one. The handle stamps the distribution of the
declaration on names without one, refuses unknown architectures, puts versions into canonical form
once the source has promised that they are semantic, and keeps one package of each id. Nothing is
kept of a package that is refused, but what was counted on the way stays counted.
-/

namespace Depot.Fetch

/-- The log of one fetch: lines, and how often each repeated condition came up. -/
structure Log where
  messages : List String := []
  counters : Table String Nat := {}
  deriving Inhabited

namespace Log

/-- Adds a line. -/
def line (l : Log) (message : String) : Log := { l with messages := l.messages ++ [message] }

/-- Counts a condition. -/
def count (l : Log) (condition : String) : Log :=
  { l with counters := l.counters.modify condition 0 (· + 1) }

end Log

theorem ids_of_nothing : ([] : List String) = ([] : List Package).map Package.id := rfl

/-- What a source has handed over so far. -/
structure Handle where
  decl : Decl
  packages : List Package := []
  /-- The ids that are there already. -/
  ids : List String := []
  log : Log := {}
  /-- Has the source promised semantic versions? -/
  pledged : Bool := false
  ids_eq : ids = packages.map Package.id := by exact Depot.Fetch.ids_of_nothing

namespace Handle

/-- Adds a line to the log. -/
def line (h : Handle) (message : String) : Handle := { h with log := h.log.line message }

/-- Counts a condition. -/
def count (h : Handle) (condition : String) : Handle := { h with log := h.log.count condition }

/-- From here on the versions are semantic. -/
def pledge (h : Handle) : Handle := { h with pledged := true }

/-- A name in the distribution of a declaration, unless it has one of its own. -/
def stamp (d : Decl) (n : Package.Name) : Package.Name :=
  if n.distribution.isEmpty then { n with distribution := d.distribution } else n

/-- What is counted of a version without canonical form. -/
def invalidVersion (e : Version.NotCanonical) : String :=
  "invalid semver: " ++ (Failure.parse e.message).message

/-- The canonical form of a name's version, where that was promised; a version without one stays and
is counted. -/
def canonicalize (h : Handle) (n : Package.Name) : Handle × Package.Name :=
  if h.pledged && !n.version.isEmpty then
    match Version.canonical n.version with
    | .ok version => (h, { n with version })
    | .error e => (h.count (invalidVersion e), n)
  else (h, n)

/-- Stamps and checks a name. -/
def validate (h : Handle) (n : Package.Name) : Handle × Outcome Package.Name :=
  let n := stamp h.decl n
  match Package.checkArchitecture n.architecture with
  | .error e => (h, .error e)
  | .ok () => ((h.canonicalize n).1, .ok (h.canonicalize n).2)

/-- A checked name in the distribution of the declaration. -/
def name (h : Handle) (name version architecture : String) : Handle × Outcome Package.Name :=
  h.validate ⟨h.decl.distribution, name, version, architecture, false⟩

/-- Checks aliases in their order and drops those that repeat one of `seen`, or each other. -/
def validateAliases (h : Handle) (seen : List Package.Name) :
    List Package.Name → Handle × Outcome (List Package.Name)
  | [] => (h, .ok [])
  | a :: rest =>
    match h.validate a with
    | (h, .error e) => (h, .error e)
    | (h, .ok a) =>
      if seen.contains a then h.validateAliases seen rest
      else
        match h.validateAliases (a :: seen) rest with
        | (h, .ok aliases) => (h, .ok (a :: aliases))
        | (h, .error e) => (h, .error e)

/-- What is counted of a package whose id is there already. -/
def duplicate : String := "duplicate package"

/-- Takes a package with checked names. -/
def push (h : Handle) (p : Package) : Handle :=
  if h.ids.contains p.id then h.count duplicate
  else
    { h with packages := h.packages ++ [p], ids := h.ids ++ [p.id]
             ids_eq := by rw [h.ids_eq, List.map_append]; rfl }

/-- Takes a package, unless one of its names is refused or its id is there already. -/
def add (h : Handle) (p : Package) : Handle × Outcome Unit :=
  match h.validate p.name with
  | (h, .error e) => (h, .error e)
  | (h, .ok name) =>
    match h.validateAliases [name] p.aliases with
    | (h, .error e) => (h, .error e)
    | (h, .ok aliases) => (h.push { p with name, aliases }, .ok ())

end Handle

end Depot.Fetch
