import Depot.Fetch.Fetcher
import Depot.Index.Provider

/-!
# The index

The packages of all fetchers, one slot for each fetcher in the order of declaration. A slot changes
only when the index takes over what its fetcher has at that moment, so a fetch alone changes no
answer but the choice of slots that a search looks into. A search goes through the slots in order;
when they have nothing, it asks the first provider of the query's distribution. A second table leads
from ids to entries, of which the first in order counts.
-/

namespace Depot

/-- An index: fetchers and providers in the order of their declaration, and the entries. -/
structure Index where
  fetchers : List Fetch.Fetcher := []
  providers : List Index.Provider := []
  /-- The entries of each fetcher. -/
  slots : List (List Index.Entry) := []
  /-- The first entry of every id. -/
  byId : Table String Index.Entry := {}

namespace Index

/-! ## Building -/

/-- Declares a fetcher, which starts with an empty slot. -/
def addFetcher (ix : Index) (f : Fetch.Fetcher) : Index :=
  { ix with fetchers := ix.fetchers ++ [f], slots := ix.slots ++ [[]] }

/-- Declares a provider. -/
def addProvider (ix : Index) (p : Provider) : Index :=
  { ix with providers := ix.providers ++ [p] }

/-- What a fetcher at a place has now, as entries. -/
def entriesOf (f : Fetch.Fetcher) (place : Nat) : List Entry :=
  f.packages.zipIdx.map fun (package, i) => ⟨package, .fetched place f.loads i⟩

/-- The first entry of every id. -/
def firstById (entries : List Entry) : Table String Entry :=
  entries.foldl (fun t e => t.insertNew e.id e) {}

/-- The index with other slots. -/
def withSlots (ix : Index) (slots : List (List Entry)) : Index :=
  { ix with slots, byId := firstById slots.flatten }

/-- Takes over what every fetcher has. -/
def rebuild (ix : Index) : Index :=
  ix.withSlots (ix.fetchers.zipIdx.map fun (f, place) => entriesOf f place)

/-- Takes over what one fetcher has. -/
def merge (ix : Index) (place : Nat) : Index :=
  match ix.fetchers[place]? with
  | some f => ix.withSlots (ix.slots.set place (entriesOf f place))
  | none => ix

/-- Refuses a fetcher that was never declared here. -/
def mergeStray (f : Fetch.Fetcher) : Failure :=
  .notFound ("fetcher " ++ f.display ++ " is not indexed")

/-- Puts a fetcher in the place of an earlier state of it. -/
def setFetcher (ix : Index) (place : Nat) (f : Fetch.Fetcher) : Index :=
  { ix with fetchers := ix.fetchers.set place f }

/-! ## Looking -/

/-- All entries, in the order of a search. -/
def entries (ix : Index) : List Entry := ix.slots.flatten

/-- All packages, in the order of a search. -/
def packages (ix : Index) : List Package := ix.entries.map (·.package)

/-- The number of entries. -/
def count (ix : Index) : Nat := ix.entries.length

/-- The names of all packages. -/
def names (ix : Index) : List Package.Name := ix.packages.map (·.name)

/-- The names and aliases of all packages, one JSON text on a line. -/
def namesText (ix : Index) : String :=
  Cache.linesOf ((ix.packages.flatMap Package.names).map fun n => n.toJson.text)

/-- The entry of an id. -/
def get? (ix : Index) (id : String) : Option Entry := ix.byId.get? id

/-- The first fetcher with a key. -/
def fetcherOf? (ix : Index) (key : String) : Option Fetch.Fetcher :=
  ix.fetchers.find? (·.key == key)

/-- Values in increasing order, each once. -/
def sorted (values : List String) : List String :=
  values.eraseDups.mergeSort fun a b => decide (a ≤ b)

/-- The distributions that any fetcher knows, and the empty one. -/
def distributions (ix : Index) : List String :=
  sorted ("" :: ix.fetchers.flatMap fun f => f.distributions.getD [])

/-- The architectures that any fetcher knows, and the empty one. -/
def architectures (ix : Index) : List String :=
  sorted ("" :: ix.fetchers.flatMap fun f => f.architectures.getD [])

/-! ## Searching -/

/-- The entries that satisfy a query, in order; the slot of a fetcher that cannot have any is
skipped. -/
def scan (ix : Index) (query : Package.Name) : List Entry :=
  ((ix.fetchers.zip ix.slots).filter (·.1.mayHave query)).flatMap
    (·.2.filter (·.satisfies query))

/-- Goes through slots in turn, each beside its fetcher, and adds the entries that satisfy a query
to the ones that were found before, until there are `max` of them. -/
def gatherSlots (query : Package.Name) (max : Nat) (found : List Entry) :
    List (Fetch.Fetcher × List Entry) → List Entry
  | [] => found
  | (f, slot) :: rest =>
    if f.mayHave query then
      match gather query max found slot with
      | (found, true) => found
      | (found, false) => gatherSlots query max found rest
    else gatherSlots query max found rest

/-- The place of the provider that a query goes to. -/
def providerFor? (ix : Index) (query : Package.Name) : Option Nat :=
  ix.providers.findIdx? (·.decl.distribution == query.distribution)

/-- The answer of the provider that a query goes to. -/
def searchProviders (ix : Index) (site : Site) (query : Package.Name) (max : Nat) :
    Index × Outcome (List Entry) :=
  match ix.providerFor? query with
  | none => (ix, .ok [])
  | some place =>
    match ix.providers[place]? with
    | none => (ix, .ok [])
    | some p =>
      let (p, result) := p.search place site query max
      ({ ix with providers := ix.providers.set place p }, result)

/-- The entries that satisfy a query, at most `max` of them unless that is zero. -/
def search (ix : Index) (site : Site) (query : Package.Name) (max : Nat) :
    Index × Outcome (List Entry) :=
  match gatherSlots query max [] (ix.fetchers.zip ix.slots) with
  | [] => ix.searchProviders site query max
  | e :: rest => (ix, .ok (e :: rest))

end Index

end Depot
