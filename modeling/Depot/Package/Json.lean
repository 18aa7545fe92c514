import Depot.Json.Decode
import Depot.Json.Printer
import Depot.Json.Reader
import Depot.Package.Record

/-!
# Package records as JSON

How names, downloaders, directives and packages are written as JSON, and how they are read. Writing
puts the fields in their fixed order and leaves `recommended` out when it is not set; reading
follows the strict rules of `Depot.Json.Decode`. `Package.text` is one line, and reading it gives
the package back.
-/

namespace Depot

open Json (field fieldD fields? string? bool? word64? word16? listOf? nullable? tagged?)

/-- A list of texts as JSON. -/
def Json.ofStrings (l : List String) : Json := .array (l.map .string)

namespace Package

/-! ## Names -/

/-- A name as JSON. -/
def Name.toJson (n : Name) : Json :=
  .object <|
    [("distribution", .string n.distribution), ("name", .string n.name),
      ("version", .string n.version), ("architecture", .string n.architecture)] ++
      if n.recommended then [("recommended", .bool true)] else []

/-- Reads a name; only its name part has to be there. -/
def Name.ofJson? (v : Json) : Option Name := do
  match ← fields? ["distribution", "name", "version", "architecture", "recommended"] v with
  | [distribution, name, version, architecture, recommended] =>
    let distribution ← fieldD "" string? distribution
    let name ← field string? name
    let version ← fieldD "" string? version
    let architecture ← fieldD "" string? architecture
    let recommended ← fieldD false bool? recommended
    pure ⟨distribution, name, version, architecture, recommended⟩
  | _ => none

/-! ## Downloaders -/

/-- A size that may be missing. -/
def sizeJson : Option UInt64 → Json
  | none => .null
  | some n => .integer n.toNat

/-- A downloader as JSON. -/
def Downloader.toJson : Downloader → Json
  | .http url expectedSize =>
    .object
      [("kind", .string "http"), ("url", .string url), ("expected_size", sizeJson expectedSize)]
  | .content fetcher url =>
    .object [("kind", .string "content"), ("fetcher", .string fetcher), ("url", .string url)]

/-- Reads a downloader whose parts nest at most `levels` deep. -/
def Downloader.ofJson? (levels : Nat) (v : Json) : Option Downloader := do
  let (kind, v) ← tagged? "kind" levels v
  match kind with
  | "http" =>
    match ← fields? ["url", "expected_size"] v with
    | [url, size] =>
      let url ← field string? url
      let size ← fieldD none (nullable? word64?) size
      pure (.http url size)
    | _ => none
  | "content" =>
    match ← fields? ["fetcher", "url"] v with
    | [fetcher, url] =>
      let fetcher ← field string? fetcher
      let url ← field string? url
      pure (.content fetcher url)
    | _ => none
  | _ => none

end Package

/-! ## Directives -/

/-- A directive as JSON. -/
def Directive.toJson (d : Directive) : Json :=
  .object <| ("kind", .string d.kind) ::
    match d with
    | .baseImage image => [("image", .string image)]
    | .runCommand command => [("command", .string command)]
    | .environment key value => [("key", .string key), ("value", .string value)]
    | .addFile filename contents executable =>
      [("filename", .string filename), ("contents", .string contents),
        ("executable", .bool executable)]
    | .exportPort name port => [("name", .string name), ("port", .integer port.toNat)]

/-- Reads a directive whose parts nest at most `levels` deep. -/
def Directive.ofJson? (levels : Nat) (v : Json) : Option Directive := do
  let (kind, v) ← tagged? "kind" levels v
  match kind with
  | "base_image" =>
    match ← fields? ["image"] v with
    | [image] => (field string? image).map .baseImage
    | _ => none
  | "run_command" =>
    match ← fields? ["command"] v with
    | [command] => (field string? command).map .runCommand
    | _ => none
  | "environment" =>
    match ← fields? ["key", "value"] v with
    | [key, value] =>
      let key ← field string? key
      let value ← field string? value
      pure (.environment key value)
    | _ => none
  | "add_file" =>
    match ← fields? ["filename", "contents", "executable"] v with
    | [filename, contents, executable] =>
      let filename ← field string? filename
      let contents ← field string? contents
      let executable ← fieldD false bool? executable
      pure (.addFile filename contents executable)
    | _ => none
  | "export_port" =>
    match ← fields? ["name", "port"] v with
    | [name, port] =>
      let name ← field string? name
      let port ← field word16? port
      pure (.exportPort name port)
    | _ => none
  | _ => none

namespace Package

/-! ## Packages -/

/-- The metadata as an object with its keys in order. -/
def Metadata.toJson (m : Metadata) : Json :=
  .object (m.entries.map fun (key, value) => (key, .string value))

/-- Reads an object of texts; of a repeated key the last value counts. -/
def Metadata.ofJson? : Json → Option Metadata
  | .object members => do
    let entries ← members.mapM fun (key, v) => (string? v).map fun value => (key, value)
    pure (.ofList entries)
  | _ => none

/-- Groups of names as JSON. -/
def groupsJson (groups : List (List Name)) : Json :=
  .array (groups.map fun group => .array (group.map Name.toJson))

/-- How deep arrays and objects may nest in a text that is read for its values. -/
def nestingLimit : Nat := 127

/-- The names of the fields of a record, in their order. -/
def fieldNames : List String :=
  ["name", "description", "license", "size", "installed_size", "download_urls", "downloaders",
    "metadata", "depends", "conflicts", "aliases", "directives"]

/-- A package as JSON. -/
def toJson (p : Package) : Json :=
  .object
    [("name", p.name.toJson), ("description", .string p.description),
      ("license", .string p.license), ("size", .integer p.size.toNat),
      ("installed_size", .integer p.installedSize.toNat),
      ("download_urls", .ofStrings p.downloadUrls),
      ("downloaders", .array (p.downloaders.map Downloader.toJson)),
      ("metadata", p.metadata.toJson), ("depends", groupsJson p.depends),
      ("conflicts", groupsJson p.conflicts), ("aliases", .array (p.aliases.map Name.toJson)),
      ("directives", .array (p.directives.map Directive.toJson))]

/-- Reads a package; every field may be missing. -/
def ofJson? (v : Json) : Option Package := do
  match ← fields? fieldNames v with
  | [name, description, license, size, installedSize, downloadUrls, downloaders, metadata, depends,
      conflicts, aliases, directives] =>
    let name ← fieldD .empty Name.ofJson? name
    let description ← fieldD "" string? description
    let license ← fieldD "" string? license
    let size ← fieldD 0 word64? size
    let installedSize ← fieldD 0 word64? installedSize
    let downloadUrls ← fieldD [] (listOf? string?) downloadUrls
    let downloaders ← fieldD [] (listOf? (Downloader.ofJson? (nestingLimit - 3))) downloaders
    let metadata ← fieldD .empty Metadata.ofJson? metadata
    let depends ← fieldD [] (listOf? (listOf? Name.ofJson?)) depends
    let conflicts ← fieldD [] (listOf? (listOf? Name.ofJson?)) conflicts
    let aliases ← fieldD [] (listOf? Name.ofJson?) aliases
    let directives ← fieldD [] (listOf? (Directive.ofJson? (nestingLimit - 3))) directives
    pure { name, description, license, size, installedSize, downloadUrls, downloaders, metadata,
           depends, conflicts, aliases, directives }
  | _ => none

/-- The record of a package: one line of compact JSON. -/
def text (p : Package) : String := p.toJson.text

/-- Reads the record of a package. -/
def ofText? (s : String) : Option Package := do ofJson? (← Json.parse? s)

end Package

end Depot
