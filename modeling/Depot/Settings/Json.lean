import Depot.Settings

/-!
# Settings as JSON

Settings are written with every field, under the names that a settings file has for them.
-/

namespace Depot.Settings

/-- A declaration as JSON, under the names of a settings file. -/
def declJson (d : Fetch.Decl) : Json :=
  .object [("source", .string d.source), ("distribution", .string d.distribution),
    ("args", .ofStrings d.args)]

/-- Where things are kept, as JSON. -/
def Paths.toJson (p : Paths) : Json :=
  .object [("build_dir", .string p.build), ("cache_dir", .string p.cache),
    ("mirror_db", (p.archive.map Json.string).getD .null)]

/-- How to fetch, as JSON. -/
def Fetching.toJson (f : Fetching) : Json :=
  .object [("ttl_secs", .integer f.ttl), ("force_refresh", .bool f.force),
    ("no_parallel", .bool f.inTurn), ("workers", .integer f.workers),
    ("refresh_interval_secs", .integer f.interval)]

/-- How to build, as JSON. -/
def Building.toJson (b : Building) : Json :=
  .object [("always_rebuild", .bool b.always), ("hash_algorithm", .string b.algorithm.name)]

/-- Settings as JSON. -/
def toJson (s : Settings) : Json :=
  .object [("paths", s.paths.toJson), ("fetch", s.fetch.toJson), ("plan", s.plan.toJson),
    ("build", s.build.toJson),
    ("mirrors", .object (s.mirrors.map fun (name, urls) => (name, .ofStrings urls))),
    ("fetcher", .array (s.fetchers.map declJson)),
    ("search_provider", .array (s.providers.map declJson))]

end Depot.Settings
