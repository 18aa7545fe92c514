import Depot.Package.Name

/-!
# Failures

Everything that can go wrong, by its cause. The first three are answers of a planner about packages;
the others come from sources, builds, files, the network and settings, and carry the context that
their message needs.
-/

namespace Depot

/-- Why an operation failed. -/
inductive Failure where
  /-- A request has no candidate. -/
  | packageNotFound (query : Package.Name)
  /-- A chosen package does not go together with another one. -/
  | conflict (package conflictsWith : Package.Name)
  /-- No alternative of a dependency has a candidate. -/
  | noCandidate (package : Package.Name) (options : List Package.Name)
  /-- A container file cannot express this kind of directive. -/
  | unsupportedDirective (kind : String)
  | fetchFailed (fetcher reason : String)
  | buildFailed (tag reason : String)
  | cache (reason : String)
  | config (reason : String)
  | download (reason : String)
  | invalidArchitecture (arch : String)
  | parse (reason : String)
  | notFound (what : String)
  | io (reason : String)
  /-- A record is not well-formed. -/
  | json
  /-- The file of the archive cannot be used. -/
  | database (reason : String)
  /-- A web request did not succeed. -/
  | http
  /-- The settings are not well-formed. -/
  | toml
  /-- Requests nest too deeply. -/
  | tooDeep
  deriving DecidableEq, Repr

namespace Failure

/-- What is said of a record that is not well-formed. -/
def malformedRecord : String := "malformed record"

/-- What is said of a web request without a usable answer. -/
def noAnswer : String := "no usable answer"

/-- What is said of settings that are not well-formed. -/
def malformedSettings : String := "TOML parse error"

/-- The wording of a failure. -/
def message : Failure → String
  | .packageNotFound query => "package " ++ query.display ++ " not found"
  | .conflict package other =>
    "found conflict between " ++ package.display ++ " and " ++ other.display
  | .noCandidate package options =>
    "could not find installation candidate for " ++ package.display ++ " among options: " ++
      " | ".intercalate (options.map Package.Name.display)
  | .unsupportedDirective kind => "directive " ++ kind ++ " not handled for this emitter"
  | .fetchFailed fetcher reason => "failed to load " ++ fetcher ++ ": " ++ reason
  | .buildFailed tag reason => "build of " ++ tag ++ " failed: " ++ reason
  | .cache reason => "Cache error: " ++ reason
  | .config reason => "Configuration error: " ++ reason
  | .download reason => "Download error: " ++ reason
  | .invalidArchitecture arch => "invalid architecture: " ++ arch
  | .parse reason => "Parse error: " ++ reason
  | .notFound what => "Not found: " ++ what
  | .io reason => "I/O error: " ++ reason
  | .json => "Serialization error: " ++ malformedRecord
  | .database reason => "Database error: " ++ reason
  | .http => "HTTP error: " ++ noAnswer
  | .toml => "Configuration error: " ++ malformedSettings
  | .tooDeep => "requests nest too deeply"

/-- What another layer said, for the failures that pass on its words. -/
def cause? : Failure → Option String
  | .io reason => some reason
  | .json => some malformedRecord
  | .database reason => some reason
  | .http => some noAnswer
  | .toml => some malformedSettings
  | _ => none

end Failure

/-- What an operation gives: a value or the reason why there is none. -/
abbrev Outcome := Except Failure

end Depot
