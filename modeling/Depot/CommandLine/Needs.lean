import Depot.CommandLine.Run

/-!
# What a run looks at

The paths of the files that a run may read, as far as the files that are known tell: first the
settings file, then what the settings name, and then what the packages name. With those files at
hand the paths may become more, so they are asked for again until nothing new turns up.
-/

namespace Depot.CommandLine

/-- The files that a declaration reads. -/
def locationPaths (d : Fetch.Decl) : List String :=
  (d.args.filter fun location => !Fetch.JsonIndex.onWeb location).map Fetch.JsonIndex.pathOf

/-- The entry of a declaration in the cache. -/
def entryPath (settings : Settings) (d : Fetch.Decl) : String :=
  Cache.entryPath ⟨settings.paths.cache⟩ d.key Fetch.recordVersion

/-- The files that every command but the greeting looks at. -/
def storePaths (settings : Settings) : List String :=
  settings.paths.archive.toList ++ settings.fetchers.map (entryPath settings) ++
    (settings.fetchers ++ settings.providers).flatMap locationPaths

/-- The path of an address that is a file. -/
def filePath? (url : String) : Option String :=
  ("file://".toList.isPrefixOf? url.toList).map String.ofList

/-- The artifact of a download, and the files that it may come from. -/
def downloadPaths (shop : Workshop) (url : String) : List String :=
  shop.outputPath url ::
    match shop.urlsFor url with
    | .ok urls => urls.filterMap filePath?
    | .error _ => []

/-- The files that downloading the contents of packages looks at. -/
def contentPaths (settings : Settings) (site : Site) (packages : List Package) : List String :=
  match settings.openWorkshop site with
  | .error _ => []
  | .ok shop =>
    (packages.filterMap (·.preferredDownloader?)).flatMap fun d => downloadPaths shop d.url

/-- The packages that a fetch of everything gives. -/
def fetchedPackages (settings : Settings) (site : Site) : List Package :=
  match openStock settings site with
  | (_, .error _) => []
  | (_, .ok stock) => (stock.fetchAll settings.fetch.force settings.fetch.inTurn).1.index.packages

/-- The files that a command looks at. -/
def commandPaths (settings : Settings) (site : Site) : Command → List String
  | .greet => []
  | .plan _ _ _ true =>
    storePaths settings ++ contentPaths settings site (fetchedPackages settings site)
  | _ => storePaths settings

/-- The files that a run with some arguments looks at. -/
def needs (s : Surroundings) (site : Site) (arguments : List String) : List String :=
  match Request.read arguments with
  | .error _ => []
  | .ok r =>
    r.settings.getD s.settingsFile ::
      match settingsOf s r site.files with
      | .error _ => []
      | .ok settings => commandPaths (r.adjust settings) site r.command

/-- How many seconds a run waits before it begins anew, if it is to keep the index current. -/
def pause? (s : Surroundings) (site : Site) (arguments : List String) : Option Nat :=
  match Request.read arguments with
  | .ok r =>
    if r.command = .refresh then
      match settingsOf s r site.files with
      | .ok settings => some settings.fetch.interval
      | .error _ => none
    else none
  | .error _ => none

end Depot.CommandLine
