import Depot.Fetch.JsonIndex
import Depot.Settings
import Depot.Toml.Decode
import Depot.Toml.Reader

/-!
# Reading settings

A settings file is a TOML document. Every section and every field of it may be missing, and what it
says beyond them does not count. Settings that are well-formed can still be useless
(`Settings.fault?`).
-/

namespace Depot.Settings

/-- Reads where things are kept. -/
def Paths.ofToml? (base : String) (v : Toml) : Option Paths := do
  match ← Toml.fields? ["build_dir", "cache_dir", "mirror_db"] v with
  | [build, cache, archive] =>
    let build ← Toml.fieldD (Paths.below base).build Toml.text? build
    let cache ← Toml.fieldD (Paths.below base).cache Toml.text? cache
    let archive ← Toml.fieldD none (fun v => (Toml.text? v).map some) archive
    pure { build, cache, archive }
  | _ => none

/-- Reads how to fetch. -/
def Fetching.ofToml? (v : Toml) : Option Fetching := do
  let names := ["ttl_secs", "force_refresh", "no_parallel", "workers", "refresh_interval_secs"]
  match ← Toml.fields? names v with
  | [ttl, force, inTurn, workers, interval] =>
    let standard : Fetching := {}
    let ttl ← Toml.fieldD standard.ttl Toml.nat? ttl
    let force ← Toml.fieldD standard.force Toml.bool? force
    let inTurn ← Toml.fieldD standard.inTurn Toml.bool? inTurn
    let workers ← Toml.fieldD standard.workers Toml.nat? workers
    let interval ← Toml.fieldD standard.interval Toml.nat? interval
    pure { ttl, force, inTurn, workers, interval }
  | _ => none

/-- Reads how to plan. -/
def planOptions? (v : Toml) : Option Plan.Options := do
  match ← Toml.fields? ["prefer_architecture", "exclude_recommends"] v with
  | [architecture, recommends] =>
    let preferArchitecture ← Toml.fieldD "" Toml.text? architecture
    let excludeRecommends ← Toml.fieldD false Toml.bool? recommends
    pure { preferArchitecture, excludeRecommends }
  | _ => none

/-- Reads how to build. -/
def Building.ofToml? (v : Toml) : Option Building := do
  match ← Toml.fields? ["always_rebuild", "hash_algorithm"] v with
  | [always, algorithm] =>
    let always ← Toml.fieldD false Toml.bool? always
    let algorithm ←
      Toml.fieldD .sha256 (fun v => (Toml.choice? v).bind Algorithm.ofName?) algorithm
    pure { always, algorithm }
  | _ => none

/-- Reads the addresses of mirrors and sorts them by name. -/
def mirrors? (v : Toml) : Option (List (String × List String)) :=
  (Toml.tableOf? (Toml.listOf? Toml.text?) v).map fun mirrors =>
    mirrors.mergeSort fun a b => decide (a.1 ≤ b.1)

/-- Reads the declaration of a fetcher or a provider. -/
def decl? (v : Toml) : Option Fetch.Decl := do
  match ← Toml.fields? ["source", "distribution", "args"] v with
  | [source, distribution, args] =>
    let source ← Toml.fieldD Fetch.JsonIndex.id Toml.text? source
    let distribution ← Toml.fieldD "" Toml.text? distribution
    let args ← Toml.fieldD [] (Toml.listOf? Toml.text?) args
    pure { source, distribution, args }
  | _ => none

/-- The sections of a settings file. -/
def sections : List String :=
  ["paths", "fetch", "plan", "build", "mirrors", "fetcher", "search_provider"]

/-- Reads settings, with the default places below a base directory. -/
def ofToml? (base : String) (v : Toml) : Option Settings := do
  match ← Toml.fields? sections v with
  | [paths, fetch, plan, build, mirrors, fetchers, providers] =>
    let paths ← Toml.fieldD (.below base) (Paths.ofToml? base) paths
    let fetch ← Toml.fieldD {} Fetching.ofToml? fetch
    let plan ← Toml.fieldD {} planOptions? plan
    let build ← Toml.fieldD {} Building.ofToml? build
    let mirrors ← Toml.fieldD [] mirrors? mirrors
    let fetchers ← Toml.fieldD [] (Toml.listOf? decl?) fetchers
    let providers ← Toml.fieldD [] (Toml.listOf? decl?) providers
    pure { paths, fetch, plan, build, mirrors, fetchers, providers }
  | _ => none

/-- What makes settings useless although each of them is well-formed: no workers, or a mirror
without addresses. -/
def fault? (s : Settings) : Option Failure :=
  if s.fetch.workers = 0 then some (.config "fetch.workers must be at least 1")
  else
    (s.mirrors.find? (·.2.isEmpty)).map fun (name, _) =>
      .config ("mirror " ++ name ++ " has no urls")

/-- Reads the text of a settings file. -/
def parse (base text : String) : Outcome Settings :=
  match (Toml.parse? text).bind (ofToml? base) with
  | none => .error .toml
  | some s =>
    match s.fault? with
    | some e => .error e
    | none => .ok s

/-- Reads a settings file. -/
def load (base : String) (fs : Files) (path : String) : Outcome Settings :=
  match fs.readText path with
  | .error e => .error (.config ("failed to read " ++ path ++ ": " ++ e.message))
  | .ok text => parse base text

end Depot.Settings
