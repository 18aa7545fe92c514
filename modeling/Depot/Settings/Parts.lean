import Depot.Build.Workshop
import Depot.Fetch.JsonIndex
import Depot.Index
import Depot.Settings

/-!
# The parts that settings describe

From settings come the index of all fetchers and providers, the store of the fetchers, and the
workshop.
-/

namespace Depot.Settings

/-- Declares fetchers, up to the first one whose source is unknown. -/
def addFetchers (ix : Index) : List Fetch.Decl → Outcome Index
  | [] => .ok ix
  | decl :: rest =>
    match Fetch.builtin decl.source with
    | .error e => .error e
    | .ok source => addFetchers (ix.addFetcher { decl, source }) rest

/-- Declares providers, up to the first one whose source is unknown. -/
def addProviders (ix : Index) : List Fetch.Decl → Outcome Index
  | [] => .ok ix
  | decl :: rest =>
    match Fetch.builtin decl.source with
    | .error e => .error e
    | .ok source => addProviders (ix.addProvider { decl, source }) rest

/-- The index of all fetchers and providers. -/
def index (s : Settings) : Outcome Index :=
  match addFetchers {} s.fetchers with
  | .error e => .error e
  | .ok ix => addProviders ix s.providers

/-- The store of the fetchers: the cache and then the archive. The cache stays when the archive
cannot be opened. -/
def openStore (s : Settings) (site : Site) : Site × Outcome Fetch.Store :=
  let cache : Cache := ⟨s.paths.cache⟩
  match cache.create site.files with
  | .error e => (site, .error e)
  | .ok files =>
    let site := { site with files }
    match s.paths.archive with
    | none => (site, .ok { site, cache, ttl := s.fetch.ttl })
    | some path =>
      match Archive.openFile files path with
      | .error e => (site, .error e)
      | .ok (files, archive) =>
        let site := { site with files }
        (site, .ok { site, cache, archive := some archive, ttl := s.fetch.ttl })

/-- The workshop, with all mirrors. -/
def openWorkshop (s : Settings) (site : Site) : Outcome Workshop :=
  Workshop.create
    { site, directory := s.paths.build, algorithm := s.build.algorithm
      mirrors := .ofList s.mirrors }

end Depot.Settings
