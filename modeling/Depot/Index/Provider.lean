import Depot.Fetch.Source

/-!
# Search providers

A provider answers the queries of one distribution that the index cannot answer. It remembers every
package that its source ever produced for it, one of each name, and asks the source only when
nothing that it remembers satisfies the query.
-/

namespace Depot.Index

/-- Where an entry of an index comes from. Two entries are the same one when their origins are
equal, whatever their packages are. -/
inductive Origin where
  /-- By the place of its fetcher, the fetch that loaded it and its place among the packages. -/
  | fetched (fetcher load place : Nat)
  /-- By the place of its provider and its place in the memory. -/
  | found (provider place : Nat)
  deriving DecidableEq, Repr, Inhabited

/-- A package in an index. -/
structure Entry where
  package : Package
  origin : Origin
  deriving DecidableEq, Repr, Inhabited

namespace Entry

/-- The name of the package. -/
def name (e : Entry) : Package.Name := e.package.name

/-- The id of the package. -/
def id (e : Entry) : String := e.package.id

/-- Does the package satisfy the query? -/
def satisfies (e : Entry) (query : Package.Name) : Bool := e.package.satisfies query

end Entry

/-! ## Results up to a limit -/

/-- The first `max` elements, or all of them when `max` is zero. -/
def limit (max : Nat) (l : List α) : List α := if max = 0 then l else l.take max

/-- Are so many results as many as were asked for? They never are when `max` is zero. -/
def isFull (max found : Nat) : Bool := max != 0 && decide (max ≤ found)

/-- Goes through some entries and adds those that satisfy a query to the ones that were found
before, until there are `max` of them. The flag says that it stopped for this reason. -/
def gather (query : Package.Name) (max : Nat) (found : List Entry) : List Entry → List Entry × Bool
  | [] => (found, false)
  | e :: rest =>
    if e.satisfies query then
      if isFull max (found.length + 1) then (found ++ [e], true)
      else gather query max (found ++ [e]) rest
    else gather query max found rest

/-! ## Providers -/

/-- A declared provider with what it remembers. -/
structure Provider where
  decl : Fetch.Decl
  source : Fetch.Source
  memory : List Package := []
  /-- How often the source was asked. -/
  calls : Nat := 0

namespace Provider

/-- The remembered packages as entries; `place` is the place of the provider in its index. -/
def entries (p : Provider) (place : Nat) : List Entry :=
  p.memory.zipIdx.map fun (package, i) => ⟨package, .found place i⟩

/-- What the provider remembers for a query. -/
def remembered (p : Provider) (place : Nat) (query : Package.Name) (max : Nat) : List Entry :=
  (gather query max [] (p.entries place)).1

/-- Remembers a package unless one of its name is remembered already. -/
def remember (memory : List Package) (package : Package) : List Package :=
  if memory.any (·.name == package.name) then memory else memory ++ [package]

/-- Asks the source for a query and remembers what it hands over, if it ends well. -/
def ask (p : Provider) (site : Site) (query : Package.Name) : Provider × Outcome Unit :=
  let (handle, result) := (p.source.search ⟨site, p.calls, p.decl⟩ query).run { decl := p.decl }
  let asked := { p with calls := p.calls + 1 }
  match result with
  | .error e => (asked, .error (.fetchFailed p.decl.display e.message))
  | .ok () => ({ asked with memory := handle.packages.foldl remember p.memory }, .ok ())

/-- Answers a query from memory, or else with the help of the source. -/
def search (p : Provider) (place : Nat) (site : Site) (query : Package.Name) (max : Nat) :
    Provider × Outcome (List Entry) :=
  match p.remembered place query max with
  | e :: rest => (p, .ok (e :: rest))
  | [] =>
    match p.ask site query with
    | (p, .error e) => (p, .error e)
    | (p, .ok ()) => (p, .ok (p.remembered place query max))

end Provider

end Depot.Index
