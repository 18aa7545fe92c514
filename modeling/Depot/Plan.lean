import Depot.Directive
import Depot.Index

/-!
# Installation plans

A plan collects the packages that some requests need. It knows what it has chosen under every name:
a short name leads to the version and the entry registered last under it, and a bare name, for
requests without a distribution, to the short name registered first. An entry is picked when it is
chosen and packaged when all that it depends on is; both lists keep their order, and the edges keep
who asked for what.
-/

namespace Depot

/-- How a plan chooses. -/
structure Plan.Options where
  /-- Preferred where several entries satisfy a request; nothing is preferred when it is empty. -/
  preferArchitecture : String := ""
  /-- Leaves out alternatives that are only recommended. -/
  excludeRecommends : Bool := false
  deriving DecidableEq, Repr, Inhabited

/-- A plan. -/
structure Plan where
  options : Plan.Options := {}
  /-- The version registered under a short name. -/
  installed : Table String String := {}
  /-- The entry registered under a short name. -/
  installedEntries : Table String Index.Entry := {}
  /-- The short name that a bare name stands for. -/
  bareNames : Table String String := {}
  /-- The chosen entries, in the order of choice. -/
  picked : List Index.Entry := []
  /-- The entries in the order of installation. -/
  packages : List Index.Entry := []
  /-- Who asked for an entry; a request from outside has no parent. -/
  edges : List (Option Index.Entry × Index.Entry) := []
  baseImage : Option String := none
  deriving DecidableEq, Inhabited

namespace Plan

/-! ## Options as JSON -/

/-- Options as JSON. -/
def Options.toJson (o : Options) : Json :=
  .object [("prefer_architecture", .string o.preferArchitecture),
    ("exclude_recommends", .bool o.excludeRecommends)]

/-- Reads options; each of them may be missing. -/
def Options.ofJson? (v : Json) : Option Options := do
  match ← Json.fields? ["prefer_architecture", "exclude_recommends"] v with
  | [architecture, recommends] =>
    let preferArchitecture ← Json.fieldD "" Json.string? architecture
    let excludeRecommends ← Json.fieldD false Json.bool? recommends
    pure { preferArchitecture, excludeRecommends }
  | _ => none

/-! ## Names -/

/-- The short name that a query refers to, if anything is registered there. -/
def lookupKey? (p : Plan) (query : Package.Name) : Option String :=
  if query.distribution.isEmpty then p.bareNames.get? query.name
  else if p.installed.contains query.short then some query.short
  else none

/-- The version registered for a query. -/
def installedVersion? (p : Plan) (query : Package.Name) : Option String :=
  (p.lookupKey? query).bind p.installed.get?

/-- The entry registered for a query. -/
def installedEntry? (p : Plan) (query : Package.Name) : Option Index.Entry :=
  (p.lookupKey? query).bind p.installedEntries.get?

/-- Registers an entry under a name. -/
def register (e : Index.Entry) (p : Plan) (name : Package.Name) : Plan :=
  { p with installed := p.installed.insert name.short name.version
           installedEntries := p.installedEntries.insert name.short e
           bareNames := p.bareNames.insertNew name.name name.short }

/-! ## Going back -/

/-- What is kept of a plan while a request runs: the tables, and of each list only how long it
is. -/
structure Checkpoint where
  installed : Table String String
  installedEntries : Table String Index.Entry
  bareNames : Table String String
  picked : Nat
  packages : Nat
  edges : Nat

/-- What is kept of a plan. -/
def checkpoint (p : Plan) : Checkpoint where
  installed := p.installed
  installedEntries := p.installedEntries
  bareNames := p.bareNames
  picked := p.picked.length
  packages := p.packages.length
  edges := p.edges.length

/-- Puts back the tables and cuts the lists to the lengths that they had. -/
def restore (p : Plan) (c : Checkpoint) : Plan :=
  { p with installed := c.installed
           installedEntries := c.installedEntries
           bareNames := c.bareNames
           picked := p.picked.take c.picked
           packages := p.packages.take c.packages
           edges := p.edges.take c.edges }

/-! ## Conflicts -/

/-- The first conflict that an entry declares with something registered. -/
def ownConflict? (p : Plan) (e : Index.Entry) : Option Package.Name :=
  e.package.conflicts.flatten.find? fun option =>
    match p.installedVersion? option with
    | some version => Version.satisfies version option.version
    | none => false

/-- The first conflict that another picked entry declares with an entry, and the name of that other
one. -/
def declaredConflict? (p : Plan) (e : Index.Entry) : Option (Package.Name × Package.Name) :=
  (p.picked.filter (·.origin != e.origin)).findSome? fun other =>
    (other.package.conflicts.flatten.find? e.satisfies).map fun option => (other.name, option)

/-! ## Choice -/

/-- The entry to choose among the results of a search: the first one of the preferred architecture,
if there is a preference and a choice, or else the first. -/
def choose? (o : Options) (query : Package.Name) : List Index.Entry → Option Index.Entry
  | [] => none
  | [e] => some e
  | first :: rest =>
    if o.preferArchitecture.isEmpty then some first
    else
      let preferred := { query with architecture := o.preferArchitecture }
      some (((first :: rest).find? (·.satisfies preferred)).getD first)

/-! ## What a plan says -/

/-- The base image, if there is one, and the directives of the packages in their order. -/
def directives (p : Plan) : List Directive :=
  (p.baseImage.map Directive.baseImage).toList ++ p.packages.flatMap (·.package.directives)

/-- The name of the side of an edge that may be missing. -/
def sourceName : Option Index.Entry → String
  | some e => e.id
  | none => "<root>"

/-- One edge as a line of a graph. -/
def edgeLine (edge : Option Index.Entry × Index.Entry) : String :=
  "  \"" ++ sourceName edge.1 ++ "\" -> \"" ++ edge.2.id ++ "\";\n"

/-- The edges as a directed graph in the DOT language. -/
def graph (p : Plan) : String :=
  "digraph G \x7b\n" ++ p.edges.foldl (fun text edge => text ++ edgeLine edge) "" ++ "\x7d\n"

end Plan

end Depot
