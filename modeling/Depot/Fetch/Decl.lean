import Depot.Digest
import Depot.Json.Decode
import Depot.Package.Json

/-!
# Declarations of fetchers

Which source to run and with what. The digest of a declaration names the fetcher's entry in the
cache.
-/

namespace Depot.Fetch

/-- What a fetcher runs: a source, a distribution for records without one, and arguments. -/
structure Decl where
  source : String
  distribution : String := ""
  args : List String := []
  deriving DecidableEq, Repr, Inhabited

namespace Decl

/-- The distribution, if there is one, and the arguments. -/
def tokens (d : Decl) : List String :=
  if d.distribution.isEmpty then d.args else d.distribution :: d.args

/-- The text that is digested: the source and, each behind an underscore, the tokens. -/
def keyText (d : Decl) : String := d.tokens.foldl (fun text token => text ++ "_" ++ token) d.source

/-- Names the declaration's entry in a cache. -/
def key (d : Decl) : String := Digest.ofText .sha256 d.keyText

/-- A declaration as it is shown. -/
def display (d : Decl) : String := d.source ++ "(" ++ ", ".intercalate d.tokens ++ ")"

/-- A declaration as JSON. -/
def toJson (d : Decl) : Json :=
  .object [("source_id", .string d.source), ("distribution", .string d.distribution),
    ("args", .ofStrings d.args)]

/-- Reads a declaration; only the source has to be there. -/
def ofJson? (v : Json) : Option Decl := do
  match ← Json.fields? ["source_id", "distribution", "args"] v with
  | [source, distribution, args] =>
    let source ← Json.field Json.string? source
    let distribution ← Json.fieldD "" Json.string? distribution
    let args ← Json.fieldD [] (Json.listOf? Json.string?) args
    pure ⟨source, distribution, args⟩
  | _ => none

end Decl

/-- Where a fetcher stands. -/
inductive Status where
  | notLoaded
  | loading
  | loaded
  | error
  deriving DecidableEq, Repr, Inhabited

namespace Status

/-- The name of a status. -/
def name : Status → String
  | .notLoaded => "NotLoaded"
  | .loading => "Loading"
  | .loaded => "Loaded"
  | .error => "Error"

/-- The status of a name. -/
def ofName? : String → Option Status
  | "NotLoaded" => some .notLoaded
  | "Loading" => some .loading
  | "Loaded" => some .loaded
  | "Error" => some .error
  | _ => none

end Status

end Depot.Fetch
