import Depot.Build.Download
import Depot.CommandLine.Request
import Depot.Plan.Resolve
import Depot.Settings.Parts
import Depot.Settings.Reader
import Depot.Stock

/-!
# Running a request

A run reads its request and the settings, declares the index, opens the store, fetches, and then
does what the command asks for. What it leaves behind is a value: the files, the text that it writes
and how it ends. Text that was written before a failure stays written.
-/

namespace Depot.CommandLine

/-- What a run takes from its surroundings besides files and the web. -/
structure Surroundings where
  /-- The home directory, empty for the working directory. -/
  home : String := ""
  /-- The text of the present moment. -/
  now : String
  deriving Repr

/-- The settings file if none is named. -/
def Surroundings.settingsFile (s : Surroundings) : String :=
  Files.join s.home ".config/mosaic/config.toml"

/-- The directory that holds everything unless the settings say otherwise. -/
def Surroundings.base (s : Surroundings) : String := Files.join s.home ".cache/mosaic"

/-- What a command leaves behind. -/
structure Done where
  site : Site
  output : String := ""
  result : Outcome Unit := .ok ()

/-- Lines as a text. -/
def lines (l : List String) : String := String.join (l.map (· ++ "\n"))

/-! ## Commands -/

/-- Shows how many packages there are. -/
def showCount (stock : Stock) : Done :=
  { site := stock.store.site
    output := lines ["Indexed " ++ toString stock.index.count ++ " packages"] }

/-- Shows the packages that satisfy a query. -/
def search (query : String) (limit : Nat) (stock : Stock) : Done :=
  match stock.search (Package.Name.parse query) limit with
  | (stock, .error e) => { site := stock.store.site, result := .error e }
  | (stock, .ok entries) =>
    { site := stock.store.site
      output := lines (entries.map fun e => e.id ++ "  " ++ e.package.description) }

/-- The text of a plan, and whether it is complete. -/
def planText (form : Form) (plan : Plan) : String × Outcome Unit :=
  match form with
  | .containerFile => Directive.emit plan.directives
  | .graph => (plan.graph, .ok ())
  | .ids => (lines (plan.packages.map (·.id)), .ok ())

/-- Downloads the contents of all packages of a plan. -/
def fetchContents (settings : Settings) (plan : Plan) (site : Site) : Site × Outcome Unit :=
  match settings.openWorkshop site with
  | .error e => (site, .error e)
  | .ok shop =>
    let (shop, result) := Build.fetchContents (plan.packages.map (·.package)) shop
    (shop.site, result.map fun _ => ())

/-- Plans some packages, shows the plan, and downloads the contents if that is asked for. -/
def plan (settings : Settings) (packages : List String) (form : Form) (baseImage : Option String)
    (withContents : Bool) (stock : Stock) : Done :=
  let site := stock.store.site
  let planner := Planner.fresh stock.index settings.plan
  match planner.addAll site (packages.map Package.Name.parse) with
  | (_, .error e) => { site, result := .error e }
  | (planner, .ok ()) =>
    let plan := { planner.plan with baseImage }
    match planText form plan with
    | (output, .error e) => { site, output, result := .error e }
    | (output, .ok ()) =>
      if withContents then
        let (site, result) := fetchContents settings plan site
        { site, output, result }
      else { site, output }

/-- The lines on the state of a fetcher. -/
def statusLines (now : String) (f : Fetch.Fetcher) : List String :=
  (padRight 12 f.status.name ++ " " ++ padRight 40 f.display ++ " " ++
      padLeft 8 (toString f.packages.length) ++ " packages  " ++
        if f.updated then now else "never") ::
    f.log.messages.map ("    " ++ ·)

/-- Shows the state of every fetcher. -/
def showStatus (now : String) (stock : Stock) : Done :=
  { site := stock.store.site, output := lines (stock.index.fetchers.flatMap (statusLines now)) }

/-- Plans every package on its own and shows how many of them work. -/
def testAll (settings : Settings) (stock : Stock) : Done :=
  let site := stock.store.site
  match Planner.testAll site settings.plan stock.index with
  | (_, .error e, _) => { site, result := .error e }
  | (_, .ok tally, _) => { site, output := lines [tally.text] }

/-- Refreshes every fetcher once, which is one round of keeping the index current. -/
def refresh (settings : Settings) (stock : Stock) : Done :=
  let stock := stock.refreshAll (stock.places.map fun place => (place, settings.fetch.force))
  { site := stock.store.site }

/-- Fetches everything and goes on if that went well. -/
def afterFetch (settings : Settings) (stock : Stock) (next : Stock → Done) : Done :=
  match stock.fetchAll settings.fetch.force settings.fetch.inTurn with
  | (stock, .error e, _) => { site := stock.store.site, result := .error e }
  | (stock, .ok (), _) => next stock

/-- Fetches everything and goes on, whether that went well or not. -/
def afterTrying (settings : Settings) (stock : Stock) (next : Stock → Done) : Done :=
  next (stock.fetchAll settings.fetch.force settings.fetch.inTurn).1

/-- What the program says when it is asked for nothing. -/
def greeting : String := lines ["Mosaic v0.1.0", "Run 'mosaic --help' for usage information"]

/-- Declares the index and opens the store. -/
def openStock (settings : Settings) (site : Site) : Site × Outcome Stock :=
  match settings.index with
  | .error e => (site, .error e)
  | .ok index =>
    match settings.openStore site with
    | (site, .error e) => (site, .error e)
    | (site, .ok store) => (site, .ok { index, store })

/-- Opens the stock and goes on with it. -/
def withStock (settings : Settings) (site : Site) (next : Stock → Done) : Done :=
  match openStock settings site with
  | (site, .error e) => { site, result := .error e }
  | (_, .ok stock) => next stock

/-- Does what a command asks for. -/
def perform (now : String) (settings : Settings) (site : Site) : Command → Done
  | .greet => { site, output := greeting }
  | .fetch => withStock settings site (afterFetch settings · showCount)
  | .search query limit => withStock settings site (afterFetch settings · (search query limit))
  | .plan packages form baseImage withContents =>
    withStock settings site
      (afterFetch settings · (plan settings packages form baseImage withContents))
  | .status => withStock settings site (afterTrying settings · (showStatus now))
  | .testAll => withStock settings site (afterFetch settings · (testAll settings))
  | .refresh => withStock settings site (refresh settings)

/-! ## Runs -/

/-- How a run ends. -/
inductive Ending where
  | success
  /-- With a message, and the cause behind it where it is another text. -/
  | failure (message : String) (cause : Option String)
  /-- With arguments that cannot be understood. -/
  | misuse
  deriving DecidableEq, Repr

namespace Ending

/-- The number that tells the caller how a run ended. -/
def code : Ending → UInt8
  | .success => 0
  | .failure .. => 1
  | .misuse => 2

/-- The ending of a command. -/
def ofResult : Outcome Unit → Ending
  | .ok () => .success
  | .error e => .failure e.message e.cause?

end Ending

/-- What a run leaves behind. -/
structure Run where
  site : Site
  output : String := ""
  ending : Ending := .success

/-- The settings of a request: from the file that it names, from the usual file if there is one, or
the default. A failure comes with the path of the file. -/
def settingsOf (s : Surroundings) (r : Request) (fs : Files) : Except (String × Failure) Settings :=
  let path := r.settings.or (if fs.has s.settingsFile then some s.settingsFile else none)
  match path with
  | none => .ok (.default s.base)
  | some path => (Settings.load s.base fs path).mapError (path, ·)

/-- The settings with what the request adds. -/
def Request.adjust (r : Request) (settings : Settings) : Settings :=
  { settings with fetch := { settings.fetch with force := settings.fetch.force || r.force } }

/-- Runs a request. -/
def Request.run (s : Surroundings) (site : Site) (r : Request) : Run :=
  match settingsOf s r site.files with
  | .error (path, e) =>
    { site, ending := .failure ("loading configuration from " ++ path) (some e.message) }
  | .ok settings =>
    let done := perform s.now (r.adjust settings) site r.command
    { site := done.site, output := done.output, ending := .ofResult done.result }

/-- Runs the program with some arguments. -/
def run (s : Surroundings) (site : Site) (arguments : List String) : Run :=
  match Request.read arguments with
  | .error .help => { site, output := usage }
  | .error .version => { site, output := lines ["mosaic 0.1.0"] }
  | .error .misuse => { site, ending := .misuse }
  | .ok r => r.run s site

end Depot.CommandLine
