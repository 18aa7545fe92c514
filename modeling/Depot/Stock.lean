import Depot.Index
import Depot.Progress

/-!
# Keeping an index current

An index together with the store of its fetchers. A cycle fetches every fetcher once and takes the
results over only if all of them went well. A refresh fetches one fetcher and takes over its result
alone. The events of a cycle say what a progress tracker is told.
-/

namespace Depot

/-- An index and the store of its fetchers. -/
structure Stock where
  index : Index := {}
  store : Fetch.Store

namespace Stock

/-- Fetches the fetcher at a place, without taking its result over. -/
def fetch (s : Stock) (place : Nat) (force : Bool) : Stock × Outcome Unit :=
  match s.index.fetchers[place]? with
  | none => (s, .error (.notFound "fetcher"))
  | some f =>
    let (f, store, result) := f.fetch s.store force
    (⟨s.index.setFetcher place f, store⟩, result)

/-- The places of the fetchers. -/
def places (s : Stock) : List Nat := List.range s.index.fetchers.length

/-- The name that a tracker shows for a place. -/
def label (s : Stock) (place : Nat) : String :=
  match s.index.fetchers[place]? with
  | some f => f.display
  | none => ""

/-- Fetches one place after the other, up to the first failure. -/
def fetchInTurn (force : Bool) : List Nat → Stock → Stock × Outcome Unit × List Progress.Event
  | [], s => (s, .ok (), [])
  | place :: rest, s =>
    match s.fetch place force with
    | (t, .error e) => (t, .error e, [.message (s.label place), .finishError e.message])
    | (t, .ok ()) =>
      let (t, result, events) := fetchInTurn force rest t
      (t, result, .message (s.label place) :: .increment 1 :: events)

/-- Fetches all places, whatever becomes of each; the first failure is the one that counts. -/
def fetchTogether (force : Bool) : List Nat → Stock → Stock × Outcome Unit × List Progress.Event
  | [], s => (s, .ok (), [])
  | place :: rest, s =>
    let (t, first) := s.fetch place force
    let (t, result, events) := fetchTogether force rest t
    match first with
    | .error e => (t, .error e, [.finishError e.message])
    | .ok () => (t, result, .increment 1 :: events)

/-- Fetches every fetcher and takes all results over, if all of them went well. -/
def fetchAll (s : Stock) (force inTurn : Bool) : Stock × Outcome Unit × List Progress.Event :=
  let run := if inTurn then fetchInTurn force s.places s else fetchTogether force s.places s
  let start : Progress.Event := .length (UInt64.ofNat s.index.fetchers.length)
  match run with
  | (t, .error e, events) => (t, .error e, start :: events)
  | (t, .ok (), events) =>
    let index := t.index.rebuild
    let finish := .finish ("loaded " ++ toString index.count ++ " packages")
    ({ t with index }, .ok (), start :: events ++ [finish])

/-- Fetches the fetcher at a place and takes its result over, if it went well. -/
def refresh (s : Stock) (place : Nat) (force : Bool) : Stock :=
  match s.fetch place force with
  | (t, .ok ()) => { t with index := t.index.merge place }
  | (t, .error _) => t

/-- Answers some requests for a refresh, one after the other. -/
def refreshAll (s : Stock) (requests : List (Nat × Bool)) : Stock :=
  requests.foldl (fun s (place, force) => s.refresh place force) s

/-- The entries that satisfy a query, at most `max` of them unless that is zero. -/
def search (s : Stock) (query : Package.Name) (max : Nat) : Stock × Outcome (List Index.Entry) :=
  let (index, result) := s.index.search s.store.site query max
  ({ s with index }, result)

end Stock

end Depot
