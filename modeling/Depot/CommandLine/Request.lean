import Depot.CommandLine.Line

/-!
# Requests

What a line of arguments asks for. A first line with the common switches leads up to the name of a
command, and a second one, which may repeat these switches, belongs to the command.
-/

namespace Depot.CommandLine

/-- The commands by their names. -/
inductive Verb where
  | fetch
  | search
  | plan
  | status
  | testAll
  | refresh
  deriving DecidableEq, Repr

namespace Verb

/-- All commands. -/
def all : List Verb := [.fetch, .search, .plan, .status, .testAll, .refresh]

/-- The name of a command. -/
def name : Verb → String
  | .fetch => "fetch"
  | .search => "search"
  | .plan => "plan"
  | .status => "status"
  | .testAll => "test-all"
  | .refresh => "refresh"

/-- The command of a name. -/
def ofName? (name : String) : Option Verb := all.find? (·.name == name)

/-- What a command does, in a few words. -/
def about : Verb → String
  | .fetch => "Run every fetcher once and report the index size"
  | .search => "Search the package index"
  | .plan => "Resolve packages into an installation plan"
  | .status => "Show the status of every fetcher"
  | .testAll => "Try to plan every indexed package on its own"
  | .refresh => "Keep the index current until interrupted"

end Verb

/-! ## Switches -/

/-- The switches of every line. -/
def commonSwitches : List Switch :=
  [⟨"config", some 'c', .path⟩, ⟨"force-refresh", none, .flag⟩, ⟨"help", some 'h', .help⟩]

/-- Asks for the usage of the program or of a command. -/
def helpWord : String := "help"

/-- The line in front of a command. -/
def frontLine : Grammar where
  switches := commonSwitches ++ [⟨"version", some 'V', .version⟩]
  commands := helpWord :: Verb.all.map Verb.name

/-- The line of a command. -/
def Verb.grammar : Verb → Grammar
  | .search =>
    { switches := commonSwitches ++ [⟨"limit", some 'l', .number⟩], least := 1, most := some 1 }
  | .plan =>
    { switches := commonSwitches ++
        [⟨"dockerfile", none, .flag⟩, ⟨"graph", none, .flag⟩, ⟨"base-image", none, .text⟩,
          ⟨"fetch-contents", none, .flag⟩]
      least := 1
      most := none }
  | _ => { switches := commonSwitches }

/-! ## Requests -/

/-- How a plan is shown. -/
inductive Form where
  | containerFile
  | graph
  /-- The ids of the packages. -/
  | ids
  deriving DecidableEq, Repr

/-- What to do. -/
inductive Command where
  /-- Nothing but saying hello. -/
  | greet
  | fetch
  /-- Shows the packages that satisfy a query, at most `limit` of them unless that is zero. -/
  | search (query : String) (limit : Nat)
  | plan (packages : List String) (form : Form) (baseImage : Option String) (fetchContents : Bool)
  | status
  | testAll
  | refresh
  deriving DecidableEq, Repr

/-- A command, and what the common switches say. -/
structure Request where
  /-- The settings file, if one was named. -/
  settings : Option String := none
  force : Bool := false
  command : Command := .greet
  deriving DecidableEq, Repr

/-- How many packages a search shows unless it is told otherwise. -/
def defaultLimit : Nat := 50

/-- The command of a line. -/
def Verb.command (v : Verb) (l : Line) : Command :=
  match v with
  | .fetch => .fetch
  | .search =>
    .search (l.words.headD "") (((l.value? "limit").bind number?).getD defaultLimit)
  | .plan =>
    .plan l.words
      (if l.has "dockerfile" then .containerFile else if l.has "graph" then .graph else .ids)
      (l.value? "base-image") (l.has "fetch-contents")
  | .status => .status
  | .testAll => .testAll
  | .refresh => .refresh

/-- Reads what follows the word that asks for the usage: nothing, or one command. -/
def readHelp : List String → Stop
  | [] => .help
  | [name] => if frontLine.commands.contains name then .help else .misuse
  | _ => .misuse

/-- Reads a request. What a command's own line says counts more than what was said in front. -/
def Request.read (arguments : List String) : Except Stop Request :=
  match frontLine.read arguments with
  | .error e => .error e
  | .ok (front, []) =>
    .ok { settings := front.value? "config", force := front.has "force-refresh" }
  | .ok (front, name :: rest) =>
    match Verb.ofName? name with
    | none => .error (readHelp rest)
    | some v =>
      match v.grammar.read rest with
      | .error e => .error e
      | .ok (l, _) =>
        .ok
          { settings := (l.value? "config").or (front.value? "config")
            force := l.has "force-refresh" || front.has "force-refresh"
            command := v.command l }

/-! ## Usage -/

/-- A text with blanks behind it, up to a width. -/
def padRight (width : Nat) (s : String) : String := s.pushn ' ' (width - s.length)

/-- A text with blanks in front of it, up to a width. -/
def padLeft (width : Nat) (s : String) : String := "".pushn ' ' (width - s.length) ++ s

/-- How to use the program. -/
def usage : String :=
  "Package metadata fetcher and image planner\n\n" ++
    "Usage: mosaic [OPTIONS] [COMMAND]\n\nCommands:\n" ++
    String.join (Verb.all.map fun v => "  " ++ padRight 10 v.name ++ v.about ++ "\n") ++
    "  help      Print this message or the help of the given subcommand(s)\n\nOptions:\n" ++
    "  -c, --config <CONFIG>  Configuration file (default: <config dir>/mosaic/config.toml)\n" ++
    "      --force-refresh    Ignore cached fetch results\n" ++
    "  -h, --help             Print help\n" ++
    "  -V, --version          Print version\n"

end Depot.CommandLine
