import Depot.Plan
import Depot.Progress

/-!
# Resolution

A request is answered with what is registered for it, or else with an entry that a search finds. A
new entry is registered and checked for conflicts in both directions, and then every group of its
dependencies is met by the first alternative that has any candidate. A missing candidate is the one
failure that lets the next alternative be tried. `Planner.add` is the request from outside: when it
fails, the plan is put back to what it was.

The recursion is on a bound for its depth, and running into the bound is a failure of its own. A
request gets a bound that resolution stays below unless it goes round without end
(`Planner.depthBound`).
-/

namespace Depot

/-- What resolving a request comes to. -/
inductive Plan.Resolution where
  /-- Answered; carries the entries that were chosen for it. -/
  | resolved (added : List Index.Entry)
  /-- There is no candidate. -/
  | notFound (query : Package.Name)
  /-- A chosen package does not go together with another one. -/
  | conflict (package conflictsWith : Package.Name)
  /-- No alternative of a group has a candidate. -/
  | noCandidate (package : Package.Name) (options : List Package.Name)
  deriving DecidableEq

namespace Plan.Resolution

/-- The entries that were chosen, or the failure. -/
def outcome : Resolution → Outcome (List Index.Entry)
  | .resolved added => .ok added
  | .notFound query => .error (.packageNotFound query)
  | .conflict package other => .error (.conflict package other)
  | .noCandidate package options => .error (.noCandidate package options)

end Plan.Resolution

/-- A plan and the index that it chooses from, whose providers may learn on the way. -/
structure Planner where
  index : Index
  plan : Plan

namespace Planner

open Plan (Resolution)

/-- How trying the alternatives of a group ends. -/
inductive Attempt where
  /-- One of them is there; carries the entries chosen for it. -/
  | met (added : List Index.Entry)
  /-- None of them has a candidate. -/
  | unmet
  /-- One of them has a candidate that does not work out. -/
  | broken (r : Resolution)

/-- How one request is resolved. -/
abbrev Step := Package.Name → Planner → Planner × Outcome Resolution

/-- Tries alternatives in their order, as long as they have no candidate. -/
def tryOptions (resolve : Step) : List Package.Name → Planner → Planner × Outcome Attempt
  | [], s => (s, .ok .unmet)
  | option :: rest, s =>
    match resolve option s with
    | (s, .error e) => (s, .error e)
    | (s, .ok (.resolved more)) => (s, .ok (.met more))
    | (s, .ok (.notFound _)) => tryOptions resolve rest s
    | (s, .ok r) => (s, .ok (.broken r))

/-- The alternatives that count. -/
def kept (o : Plan.Options) (group : List Package.Name) : List Package.Name :=
  group.filter fun option => !(option.recommended && o.excludeRecommends)

/-- Meets groups in their order, each by one of its alternatives. A group of which nothing counts is
skipped; one that was empty to begin with cannot be met. -/
def meetGroups (resolve : Step) (package : Package.Name) :
    List (List Package.Name) → List Index.Entry → Planner → Planner × Outcome Resolution
  | [], added, s => (s, .ok (.resolved added))
  | group :: rest, added, s =>
    let options := kept s.plan.options group
    if options.isEmpty && !group.isEmpty then meetGroups resolve package rest added s
    else
      match tryOptions resolve options s with
      | (s, .error e) => (s, .error e)
      | (s, .ok (.met more)) => meetGroups resolve package rest (added ++ more) s
      | (s, .ok .unmet) => (s, .ok (.noCandidate package group))
      | (s, .ok (.broken r)) => (s, .ok r)

/-- The plan with one more edge. -/
def connect (s : Planner) (parent : Option Index.Entry) (e : Index.Entry) : Planner :=
  { s with plan := { s.plan with edges := s.plan.edges ++ [(parent, e)] } }

/-- Registers a new entry under its own name. -/
def introduce (s : Planner) (e : Index.Entry) : Planner :=
  { s with plan := s.plan.register e e.name }

/-- Picks an introduced entry and registers it under its aliases. -/
def pick (s : Planner) (e : Index.Entry) : Planner :=
  let picked : Plan := { s.plan with picked := s.plan.picked ++ [e] }
  { s with plan := e.package.aliases.foldl (Plan.register e) picked }

/-- Installs a picked entry. -/
def install (s : Planner) (e : Index.Entry) : Planner :=
  { s with plan := { s.plan with packages := s.plan.packages ++ [e] } }

/-- The conflict of a new entry with what is there, in either direction. -/
def conflictOf? (p : Plan) (e : Index.Entry) : Option (Package.Name × Package.Name) :=
  match p.ownConflict? e with
  | some option => some (e.name, option)
  | none => p.declaredConflict? e

/-- Takes a chosen entry up into the plan, with everything that it depends on. -/
def take (resolve : Step) (parent : Option Index.Entry) (e : Index.Entry) (s : Planner) :
    Planner × Outcome Resolution :=
  let s := (s.connect parent e).introduce e
  match conflictOf? s.plan e with
  | some (package, other) => (s, .ok (.conflict package other))
  | none =>
    match meetGroups resolve e.name e.package.depends [e] (s.pick e) with
    | (s, .ok (.resolved added)) => (s.install e, .ok (.resolved added))
    | failure => failure

/-- Resolves a request, with at most `depth` requests inside each other. -/
def resolve (site : Site) : (depth : Nat) → Option Index.Entry → Step
  | 0, _, _, s => (s, .error .tooDeep)
  | depth + 1, parent, query, s =>
    match s.plan.installedEntry? query with
    | some e => (s.connect parent e, .ok (.resolved []))
    | none =>
      match s.index.search site query 0 with
      | (index, .error e) => ({ s with index }, .error e)
      | (index, .ok results) =>
        match Plan.choose? s.plan.options query results with
        | none => ({ s with index }, .ok (.notFound query))
        | some e => take (resolve site depth (some e)) parent e { s with index }

/-- How deep the packages that providers find may nest. -/
def providerDepth : Nat := 4096

/-- More than resolution needs unless it goes round without end. Requests inside each other find a
new short name or bare name at most as often as the index has names, and in between no entry is
chosen more than twice. What providers find comes on top. -/
def depthBound (ix : Index) : Nat :=
  (2 + 2 * (ix.packages.flatMap Package.names).length) * (1 + 2 * ix.count) +
    if ix.providers.isEmpty then 0 else providerDepth

/-- Resolves a request from outside, with at most `depth` requests inside each other. When it fails,
the plan goes back to its checkpoint. -/
def addWithin (site : Site) (depth : Nat) (query : Package.Name) (s : Planner) :
    Planner × Outcome (List Index.Entry) :=
  let before := s.plan.checkpoint
  match resolve site depth none query s with
  | (t, .ok (.resolved added)) => (t, .ok added)
  | (t, .ok failure) => ({ t with plan := t.plan.restore before }, failure.outcome)
  | (t, .error e) => ({ t with plan := t.plan.restore before }, .error e)

/-- Resolves a request from outside. -/
def add (site : Site) (query : Package.Name) (s : Planner) :
    Planner × Outcome (List Index.Entry) :=
  s.addWithin site (depthBound s.index) query

/-- Resolves requests one after the other, up to the first failure. -/
def addAll (site : Site) : List Package.Name → Planner → Planner × Outcome Unit
  | [], s => (s, .ok ())
  | query :: rest, s =>
    match s.add site query with
    | (s, .ok _) => addAll site rest s
    | (s, .error e) => (s, .error e)

/-- A planner with an empty plan. -/
def fresh (index : Index) (options : Plan.Options) : Planner := ⟨index, { options }⟩

/-! ## Testing an index -/

/-- The failures that speak about packages. -/
def isAboutPackages : Failure → Bool
  | .packageNotFound _ => true
  | .conflict .. => true
  | .noCandidate .. => true
  | _ => false

/-- What a test of packages has found. -/
structure Tally where
  working : Nat := 0
  broken : Nat := 0
  deriving DecidableEq, Repr

/-- The numbers in words. -/
def Tally.text (t : Tally) : String :=
  toString t.working ++ " working, " ++ toString t.broken ++ " broken"

/-- Plans every name on its own; any other failure than one about packages ends the test. -/
def testEach (site : Site) (options : Plan.Options) :
    List Package.Name → Index → Tally → Index × Outcome Tally × List Progress.Event
  | [], index, tally => (index, .ok tally, [])
  | name :: rest, index, tally =>
    match (fresh index options).add site name with
    | (s, .ok _) =>
      let (index, result, events) :=
        testEach site options rest s.index { tally with working := tally.working + 1 }
      (index, result, .increment 1 :: events)
    | (s, .error e) =>
      if isAboutPackages e then
        let (index, result, events) :=
          testEach site options rest s.index { tally with broken := tally.broken + 1 }
        (index, result, .increment 1 :: events)
      else (s.index, .error e, [])

/-- Plans every package of an index on its own and counts how many of them work. -/
def testAll (site : Site) (options : Plan.Options) (index : Index) :
    Index × Outcome Tally × List Progress.Event :=
  let start : Progress.Event := .length (UInt64.ofNat index.count)
  match testEach site options index.names index {} with
  | (index, .error e, events) => (index, .error e, start :: events)
  | (index, .ok tally, events) => (index, .ok tally, start :: events ++ [.finish tally.text])

end Planner

end Depot
