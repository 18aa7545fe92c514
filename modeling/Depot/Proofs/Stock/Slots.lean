import Depot.Proofs.Fetch.Isolation
import Depot.Proofs.Index.Arising
import Depot.Proofs.Stock.Cycle

/-!
# What a slot holds

An index goes through declarations, fetches, rebuilds and merges in any order. One of these changes
a slot to what its fetcher has at that moment or leaves it alone (`Sound.slot_perform`), so a slot
holds what was taken over last from its fetcher (`Arises.slot_after`), whatever that one has loaded
since. The table of ids follows the slots, and an id that a fetcher has lost leads to the package of
another one as long as there is one (`ids_follow_slots`).
-/

namespace Depot.Index

variable {ix : Index} {place other : Nat}

/-- An index after a fetch at a place, whose result is not taken over. -/
def fetchAt (ix : Index) (place : Nat) (store : Fetch.Store) (force : Bool) : Index :=
  (Stock.fetch ⟨ix, store⟩ place force).1.index

/-- What is done to an index. -/
inductive Operation where
  | addFetcher (f : Fetch.Fetcher)
  | addProvider (p : Provider)
  /-- A fetch, with the store as it is by then. -/
  | fetch (place : Nat) (store : Fetch.Store) (force : Bool)
  | rebuild
  | merge (place : Nat)

namespace Operation

/-- The index after an operation. -/
def perform (op : Operation) (ix : Index) : Index :=
  match op with
  | addFetcher f => ix.addFetcher f
  | addProvider p => ix.addProvider p
  | fetch place store force => ix.fetchAt place store force
  | rebuild => ix.rebuild
  | merge place => ix.merge place

/-- What an operation declares. -/
def declared : Operation → List Fetch.Decl
  | addFetcher f => [f.decl]
  | _ => []

/-- Does an operation take over what the fetcher at a place has? -/
def TakesOver (place : Nat) : Operation → Prop
  | rebuild => True
  | merge merged => merged = place
  | _ => False

instance (place : Nat) : DecidablePred (TakesOver place)
  | addFetcher _ | addProvider _ | fetch _ _ _ => inferInstanceAs (Decidable False)
  | rebuild => inferInstanceAs (Decidable True)
  | merge merged => inferInstanceAs (Decidable (merged = place))

end Operation

/-- An index after some operations. -/
def after (ix : Index) (ops : List Operation) : Index := ops.foldl (fun ix op => op.perform ix) ix

theorem after_nil (ix : Index) : ix.after [] = ix := rfl

theorem after_cons (ix : Index) (op : Operation) (rest : List Operation) :
    ix.after (op :: rest) = (op.perform ix).after rest := rfl

/-- What an operation takes over from the fetcher at a place. -/
def taken? (ix : Index) (op : Operation) (place : Nat) : Option (List Entry) :=
  if op.TakesOver place then ix.current? place else none

/-- What some operations take over last from the fetcher at a place. -/
def lastTaken? (place : Nat) : Index → List Operation → Option (List Entry)
  | _, [] => none
  | ix, op :: rest => (lastTaken? place (op.perform ix) rest).or (ix.taken? op place)

/-! ## One operation -/

theorem fetchAt_of_fetcher {f : Fetch.Fetcher} (hf : ix.fetchers[place]? = some f)
    (store : Fetch.Store) (force : Bool) :
    ix.fetchAt place store force = ix.setFetcher place (f.fetch store force).1 := by
  rw [fetchAt, Stock.fetch_of_fetcher (s := ⟨ix, store⟩) hf]

theorem fetchAt_of_none (hf : ix.fetchers[place]? = none) (store : Fetch.Store) (force : Bool) :
    ix.fetchAt place store force = ix := by
  simp only [fetchAt, Stock.fetch, hf]

theorem slot_fetchAt (ix : Index) (fetched : Nat) (store : Fetch.Store) (force : Bool) :
    (ix.fetchAt fetched store force).slot = ix.slot := by
  unfold slot fetchAt
  rw [(Stock.sameSnapshot_fetch ⟨ix, store⟩ fetched force).slots]

theorem Arises.perform (h : ix.Arises) (op : Operation) : (op.perform ix).Arises := by
  cases op with
  | addFetcher f => exact h.addFetcher f
  | addProvider p => exact h.addProvider p
  | fetch place store force =>
    show (ix.fetchAt place store force).Arises
    cases hf : ix.fetchers[place]? with
    | none => rwa [fetchAt_of_none hf]
    | some f =>
      rw [fetchAt_of_fetcher hf]
      exact h.setFetcher place _
  | rebuild => exact h.rebuild
  | merge place => exact h.merge place

/-- No operation changes a declaration, and one adds a declaration at the end. -/
theorem decls_perform (ix : Index) (op : Operation) :
    (op.perform ix).fetchers.map (·.decl) = ix.fetchers.map (·.decl) ++ op.declared := by
  cases op with
  | addFetcher f => exact List.map_append
  | addProvider p => exact (List.append_nil _).symm
  | fetch place store force =>
    exact (Stock.decls_fetch ⟨ix, store⟩ place force).trans (List.append_nil _).symm
  | rebuild => exact (List.append_nil _).symm
  | merge place =>
    rw [Operation.perform, fetchers_merge]
    exact (List.append_nil _).symm

theorem slot_addFetcher (ix : Index) (f : Fetch.Fetcher) (place : Nat) :
    (ix.addFetcher f).slot place = ix.slot place := by
  unfold slot addFetcher
  rcases Nat.lt_trichotomy place ix.slots.length with hlt | rfl | hgt
  · rw [List.getElem?_append_left hlt]
  · simp
  · rw [List.getElem?_eq_none (by simp; omega), List.getElem?_eq_none (by omega)]

/-- An operation changes a slot to what its fetcher has, or leaves it alone. -/
theorem Sound.slot_perform (h : ix.Sound) (op : Operation) (place : Nat) :
    (op.perform ix).slot place = (ix.taken? op place).getD (ix.slot place) := by
  cases op with
  | addFetcher f => exact ix.slot_addFetcher f place
  | addProvider p => rfl
  | fetch fetched store force => exact congrFun (ix.slot_fetchAt fetched store force) place
  | rebuild => exact h.slot_rebuild place
  | merge merged =>
    refine (h.slot_merge merged place).trans ?_
    by_cases hplace : place = merged
    · subst hplace
      rfl
    · have hother : ¬ (Operation.merge merged).TakesOver place := Ne.symm hplace
      rw [if_neg hplace, taken?, if_neg hother]

/-! ## Runs -/

theorem Arises.after (h : ix.Arises) (ops : List Operation) : (ix.after ops).Arises := by
  induction ops generalizing ix with
  | nil => exact h
  | cons op rest ih => exact ih (h.perform op)

theorem decls_after (ix : Index) (ops : List Operation) :
    (ix.after ops).fetchers.map (·.decl) =
      ix.fetchers.map (·.decl) ++ ops.flatMap Operation.declared := by
  induction ops generalizing ix with
  | nil => exact (List.append_nil _).symm
  | cons op rest ih =>
    refine (ih (op.perform ix)).trans ?_
    rw [decls_perform, List.flatMap_cons, List.append_assoc]

/-- A slot holds what was taken over last from its fetcher. -/
theorem Arises.slot_after (h : ix.Arises) (ops : List Operation) (place : Nat) :
    (ix.after ops).slot place = (lastTaken? place ix ops).getD (ix.slot place) := by
  induction ops generalizing ix with
  | nil => rfl
  | cons op rest ih =>
    refine (ih (h.perform op)).trans ?_
    rw [h.sound.slot_perform, lastTaken?, Option.getD_or]

/-! ## Ids -/

variable {e : Entry}

theorem mem_entries_iff : e ∈ ix.entries ↔ ∃ place, e ∈ ix.slot place := by
  rw [entries, List.mem_flatten]
  constructor
  · rintro ⟨slot, hslot, he⟩
    obtain ⟨place, hplace⟩ := List.mem_iff_getElem?.1 hslot
    exact ⟨place, by simpa [Index.slot, hplace] using he⟩
  · rintro ⟨place, he⟩
    unfold slot at he
    cases hslot : ix.slots[place]? with
    | none => simp [hslot] at he
    | some slot => exact ⟨slot, List.mem_of_getElem? hslot, by simpa [hslot] using he⟩

/-- An id leads somewhere as long as any slot has it. -/
theorem Sound.exists_get? (h : ix.Sound) (he : e ∈ ix.slot place) :
    ∃ found other, ix.get? e.id = some found ∧ found ∈ ix.slot other ∧ found.id = e.id := by
  have hfound : (ix.entries.find? (·.id == e.id)).isSome :=
    List.find?_isSome.2 ⟨e, mem_entries_iff.2 ⟨place, he⟩, beq_self_eq_true _⟩
  obtain ⟨found, hfind⟩ := Option.isSome_iff_exists.1 hfound
  obtain ⟨other, hother⟩ := mem_entries_iff.1 (List.mem_of_find?_eq_some hfind)
  exact ⟨found, other, (h.get?_eq _).trans hfind, hother, by simpa using List.find?_some hfind⟩

/-- An id that a fetcher has lost is kept by the other slots through a merge. -/
theorem Sound.get?_merge_of_lost (h : ix.Sound) (hother : other ≠ place) (he : e ∈ ix.slot other)
    (hlost : ∀ f ∈ ix.fetchers[place]?, ∀ p ∈ f.packages, p.id ≠ e.id) :
    ∃ found holder, holder ≠ place ∧ found ∈ ix.slot holder ∧ found.id = e.id ∧
      (ix.merge place).get? e.id = some found := by
  have hslot {i : Nat} (hi : i ≠ place) : (ix.merge place).slot i = ix.slot i := by
    rw [slot, slots_merge_of_ne hi, slot]
  rw [← hslot hother] at he
  obtain ⟨found, holder, hget, hfound, hid⟩ := (h.merge place).exists_get? he
  have hne : holder ≠ place := by
    rintro rfl
    rw [h.slot_merge, if_pos rfl] at hfound
    cases hf : ix.fetchers[holder]? with
    | none =>
      rw [current?, hf, h.slot_of_le (List.getElem?_eq_none_iff.1 hf)] at hfound
      cases hfound
    | some f =>
      rw [current?, hf] at hfound
      have hpackage : found.package ∈ f.packages :=
        map_package_entriesOf f holder ▸ List.mem_map_of_mem hfound
      exact hlost f hf _ hpackage hid
  exact ⟨found, holder, hne, hslot hne ▸ hfound, hid, hget⟩

/-- In whatever order fetchers and providers are declared, fetchers fetch, and slots are rebuilt and
merged: there is one slot for each declared fetcher, in the order of declaration, with what was
taken over last from it. An id leads to the first package of that id, if there is one. A merge
changes no other slot, and an id that its fetcher has lost leads to a package of another one, as
long as another one has it. -/
theorem ids_follow_slots (ops : List Operation) :
    let ix := ({} : Index).after ops
    ix.fetchers.map (·.decl) = ops.flatMap Operation.declared ∧
      ix.slots = (List.range ix.fetchers.length).map
        (fun place => (lastTaken? place {} ops).getD []) ∧
      (∀ id, ix.get? id = ix.entries.find? (·.id == id)) ∧
      (∀ id, (ix.get? id).map (·.package) = ix.packages.find? (·.id == id)) ∧
      ∀ place other, other ≠ place →
        (ix.merge place).slots[other]? = ix.slots[other]? ∧
        ∀ e ∈ ix.slot other, (∀ f ∈ ix.fetchers[place]?, ∀ p ∈ f.packages, p.id ≠ e.id) →
          ∃ found holder, holder ≠ place ∧ found ∈ ix.slot holder ∧ found.id = e.id ∧
            (ix.merge place).get? e.id = some found := by
  intro ix
  have hsound : ix.Sound := (Arises.empty.after ops).sound
  refine ⟨decls_after {} ops, ?_, hsound.get?_eq, hsound.package_get?, fun place other hother =>
    ⟨slots_merge_of_ne hother, fun e he hlost => hsound.get?_merge_of_lost hother he hlost⟩⟩
  rw [hsound.slots_eq]
  exact List.map_congr_left fun place _ => Arises.empty.slot_after ops place

/-! ### A package of two fetchers

The first fetcher finds it once and fails from then on. -/

open Fetch.Fetcher (emptyStore emptyStore_coherent emptyStore_ready listing onceOnly)

/-- The fetchers are declared and fetched, and what they have is taken over. Then the first one
fails. -/
def failingLater : List Operation :=
  [.addFetcher onceOnly, .addFetcher (listing ["b"] "zlib"), .fetch 0 emptyStore false,
    .fetch 1 emptyStore false, .rebuild, .fetch 0 emptyStore true]

/-- The package. -/
def ofBoth : Package := { name := ⟨"alpine", "zlib", "1", "", false⟩ }

/-- The first fetcher as long as it has the package. -/
def onceLoaded : Fetch.Fetcher := onceOnly.asking.loaded (some {}) [ofBoth]

/-- The first fetcher when it has failed. -/
def onceFailed : Fetch.Fetcher := onceLoaded.asking.failed (some {}) (.notFound "list")

/-- The second fetcher. -/
def alwaysLoaded : Fetch.Fetcher :=
  (listing ["b"] "zlib").asking.loaded (some {}) [ofBoth]

/-- The two fetchers, declared. -/
def declaredBoth : Index := (({} : Index).addFetcher onceOnly).addFetcher (listing ["b"] "zlib")

theorem perform_fetch {f f' : Fetch.Fetcher} {store : Fetch.Store} {force : Bool}
    (hf : ix.fetchers[place]? = some f) (hfetch : (f.fetch store force).1 = f') :
    (Operation.fetch place store force).perform ix = ix.setFetcher place f' := by
  refine (fetchAt_of_fetcher hf store force).trans ?_
  rw [hfetch]

theorem fetch_onceLoaded : (onceLoaded.fetch emptyStore true).1 = onceFailed := by
  have hempty := emptyStore_coherent onceLoaded
  obtain ⟨p, q, hready⟩ := emptyStore_ready onceLoaded
  obtain ⟨files, -, hfetch⟩ := Fetch.Fetcher.fetch_of_failed hready (hempty.due_of_none _)
    (e := .notFound "list") (by rfl)
  rw [hfetch]
  rfl

theorem after_failingLater :
    ({} : Index).after failingLater =
      ({ fetchers := [onceLoaded, alwaysLoaded] } : Index).rebuild.setFetcher 0 onceFailed := by
  have hdeclared : (Operation.addFetcher (listing ["b"] "zlib")).perform
      ((Operation.addFetcher onceOnly).perform {}) = declaredBoth := rfl
  have hfirst : (Operation.fetch 0 emptyStore false).perform declaredBoth =
      declaredBoth.setFetcher 0 onceLoaded :=
    perform_fetch rfl (onceOnly.fetch_emptyStore_of_done false rfl)
  have hsecond : (Operation.fetch 1 emptyStore false).perform
      (declaredBoth.setFetcher 0 onceLoaded) =
        (declaredBoth.setFetcher 0 onceLoaded).setFetcher 1 alwaysLoaded :=
    perform_fetch rfl ((listing ["b"] "zlib").fetch_emptyStore_of_done false rfl)
  have hrebuilt : Operation.rebuild.perform
      ((declaredBoth.setFetcher 0 onceLoaded).setFetcher 1 alwaysLoaded) =
        ({ fetchers := [onceLoaded, alwaysLoaded] } : Index).rebuild := rfl
  rw [failingLater, after_cons, after_cons, hdeclared, after_cons, hfirst, after_cons, hsecond,
    after_cons, hrebuilt, after_cons, perform_fetch rfl fetch_onceLoaded, after_nil]

/-- The id leads to the package of the second fetcher, once the failure is taken over. -/
theorem id_kept_by_second :
    let ix := ({} : Index).after failingLater
    ix.packages = [ofBoth, ofBoth] ∧ ix.get? ofBoth.id = some ⟨ofBoth, .fetched 0 1 0⟩ ∧
      (∀ f ∈ ix.fetchers[0]?, f.packages = []) ∧ ix.slot 1 = [⟨ofBoth, .fetched 1 1 0⟩] ∧
      ∃ found holder, holder ≠ 0 ∧ found ∈ ix.slot holder ∧ found.id = ofBoth.id ∧
        (ix.merge 0).get? ofBoth.id = some found := by
  intro ix
  have hix : ix = _ := after_failingLater
  obtain ⟨-, -, hget, -, hmerge⟩ := ids_follow_slots failingLater
  have hlost : ∀ f ∈ ix.fetchers[0]?, f.packages = [] := by
    intro f hf
    rw [hix] at hf
    obtain rfl := Option.some.inj hf
    rfl
  have hslot : ix.slot 1 = [⟨ofBoth, .fetched 1 1 0⟩] := by rw [hix]; decide +kernel
  obtain ⟨-, hkept⟩ := hmerge 0 1 (by decide)
  refine ⟨by rw [hix]; decide +kernel, ?_, hlost, hslot, ?_⟩
  · rw [hget ofBoth.id, after_failingLater]
    decide +kernel
  · refine hkept ⟨ofBoth, .fetched 1 1 0⟩ (hslot ▸ List.mem_singleton_self _) fun f hf p hp => ?_
    rw [hlost f hf] at hp
    cases hp

end Depot.Index
