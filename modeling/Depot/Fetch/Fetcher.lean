import Depot.Archive
import Depot.Fetch.JsonIndex

/-!
# Fetchers

A fetcher is a declaration with its source and what the last fetch left: the packages, the sets of
their distributions and architectures, a status and a log. A fetch reads the fetcher's entry of the
cache, for which the source is asked only if the entry is not fresh. A fetch that fails leaves no
packages.
-/

namespace Depot.Fetch

/-- Where fetchers keep their results. -/
structure Store where
  site : Site := {}
  cache : Cache
  archive : Option Archive := none
  /-- How many seconds a result stays fresh. -/
  ttl : Nat := 7200

/-- The version of the records in the cache. -/
def recordVersion : Nat := 1

/-- A declared fetcher with what its last fetch left. -/
structure Fetcher where
  decl : Decl
  source : Source
  packages : List Package := []
  /-- The distributions of the packages, unknown before the first fetch and after a failed one. -/
  distributions : Option (List String) := none
  /-- The architectures of the packages. -/
  architectures : Option (List String) := none
  status : Status := .notLoaded
  log : Log := {}
  /-- Has a fetch ever started? -/
  updated : Bool := false
  /-- Has a fetch ever gone well, so that there is a duration to show? -/
  timed : Bool := false
  /-- How often the source was asked. -/
  calls : Nat := 0
  /-- How many fetches have gone well. -/
  loads : Nat := 0

namespace Fetcher

/-- Names the fetcher's entry of the cache. -/
def key (f : Fetcher) : String := f.decl.key

/-- The fetcher as it is shown. -/
def display (f : Fetcher) : String := f.decl.display

/-- The path of the fetcher's entry. -/
def entryPath (f : Fetcher) (store : Store) : String := store.cache.entryPath f.key recordVersion

/-- The fetcher while a fetch is under way. -/
def start (f : Fetcher) : Fetcher :=
  { f with packages := [], distributions := none, architectures := none, log := {}, updated := true,
           status := .loading }

/-- Asks the source for everything. The report is the log of its handle. -/
def produce (f : Fetcher) (site : Site) (fs : Files) : Cache.Produced Log :=
  let ask : Ask := ⟨{ site with files := fs }, f.calls, f.decl⟩
  let (handle, result) := (f.source.fetch ask).run { decl := f.decl }
  ⟨(Cache.linesOf (handle.packages.map Package.text)).toUTF8, result, handle.log⟩

/-- The fetcher after a fetch that failed. -/
def failed (f : Fetcher) (log : Option Log) (e : Failure) : Fetcher :=
  { f with status := .error, log := (log.getD f.log).line ("fetch failed: " ++ e.message) }

/-- What is said to the caller of a fetch that failed. -/
def failure (f : Fetcher) : Failure → Failure
  | .fetchFailed fetcher reason => .fetchFailed fetcher reason
  | e => .fetchFailed f.display e.message

/-- The fetcher after a fetch that went well. -/
def loaded (f : Fetcher) (log : Option Log) (packages : List Package) : Fetcher :=
  { f with packages
           distributions := some (packages.map (·.name.distribution)).eraseDups
           architectures := some (packages.map (·.name.architecture)).eraseDups
           log := log.getD f.log, timed := true, status := .loaded, loads := f.loads + 1 }

/-- Loads the packages, through the cache; `force` asks the source in any case. -/
def fetch (f : Fetcher) (store : Store) (force : Bool) : Fetcher × Store × Outcome Unit :=
  let f := f.start
  let expire := if force then 0 else store.ttl
  let opened := Cache.openEntry store.site.files (f.entryPath store) expire (f.produce store.site)
  let f := { f with calls := f.calls + if opened.report.isSome then 1 else 0 }
  let store := { store with site := { store.site with files := opened.files } }
  let (packages, result) :=
    Cache.readObjects Package.ofJson? (fun ps p => .ok (ps ++ [p])) [] opened.contents
  match result with
  | .error e => (f.failed opened.report e, store, .error (f.failure e))
  | .ok () =>
    let store := { store with archive := store.archive.map (·.putAll packages) }
    (f.loaded opened.report packages, store, .ok ())

/-- May a part of a query be found among the known values? -/
def allows (known : Option (List String)) (part : String) : Bool :=
  part.isEmpty || match known with
    | some values => values.contains part
    | none => true

/-- Can any package of the fetcher satisfy the query, as far as the sets tell? -/
def mayHave (f : Fetcher) (query : Package.Name) : Bool :=
  allows f.distributions query.distribution && allows f.architectures query.architecture

end Fetcher

end Depot.Fetch
