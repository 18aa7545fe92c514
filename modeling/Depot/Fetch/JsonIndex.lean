import Depot.Fetch.Source
import Depot.Text.Blank

/-!
# Index files

The built-in source. Its arguments are locations, files or web addresses, with one package record on
each line that is not blank. A search reads the same locations and hands over the records that
satisfy the query once they carry the distribution of the declaration.
-/

namespace Depot.Fetch.JsonIndex

/-- Under this name a declaration asks for the source. -/
def id : String := "json-index"

/-- Is the location on the web? -/
def onWeb (location : String) : Bool :=
  "http://".toList.isPrefixOf location.toList || "https://".toList.isPrefixOf location.toList

/-- The path of a location that is a file. -/
def pathOf (location : String) : String :=
  match "file://".toList.isPrefixOf? location.toList with
  | some rest => String.ofList rest
  | none => location

/-- The text at a location. -/
def textAt (site : Site) (location : String) : Outcome String :=
  if onWeb location then
    match site.web.get location with
    | .dropped => .error .http
    | .cut _ _ => .error .http
    | .answered status body =>
      if 400 ≤ status && status < 600 then .error .http else .ok (Text.bodyText body)
  else
    match site.files.readText (pathOf location) with
    | .ok text => .ok text
    | .error e =>
      .error (.download ("failed to read index " ++ pathOf location ++ ": " ++ e.message))

/-- Hands over the records of some lines that satisfy `keep`; `number` is the number of the first
line and `added` counts the records. -/
def ofLines (keep : Package → Bool) (location : String) (next : Script) :
    (number added : Nat) → List (List Char) → Script
  | _, added, [] =>
    .line ("loaded " ++ toString added ++ " records from " ++ location) next
  | number, added, line :: rest =>
    if Text.allBlank line then ofLines keep location next (number + 1) added rest
    else
      match Package.ofText? (String.ofList line) with
      | none =>
        .fail <| .parse <|
          location ++ ":" ++ toString number ++ ": " ++ Failure.malformedRecord
      | some p =>
        if keep p then
          .add p fun
            | .error e => .fail e
            | .ok () => ofLines keep location next (number + 1) (added + 1) rest
        else ofLines keep location next (number + 1) added rest

/-- Hands over the records of every location in turn. -/
def ofLocations (site : Site) (keep : Package → Bool) : List String → Script
  | [] => .done
  | location :: rest =>
    match textAt site location with
    | .error e => .fail e
    | .ok text =>
      ofLines keep location (ofLocations site keep rest) 1 0 (text.toList.splitOn '\n')

/-- Does the package satisfy the query once its name is stamped? Aliases count as they are. -/
def keeps (d : Decl) (query : Package.Name) (p : Package) : Bool :=
  Package.satisfies { p with name := Handle.stamp d p.name } query

/-- The source of index files. -/
def source : Source where
  fetch ask := ofLocations ask.site (fun _ => true) ask.decl.args
  search ask query := ofLocations ask.site (keeps ask.decl query) ask.decl.args

end Depot.Fetch.JsonIndex

namespace Depot.Fetch

/-- The built-in source of a name. -/
def builtin (name : String) : Outcome Source :=
  if name = JsonIndex.id then .ok JsonIndex.source
  else .error (.config ("unknown fetch source: " ++ name))

end Depot.Fetch
