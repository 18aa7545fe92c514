import Depot.Proofs.Index.Limit

/-!
# Indexes that arise

In every index that arises from an empty one, each fetcher has a slot and the table of ids leads to
the first entry of each id (`Arises.sound`). So an index is settled by its fetchers, its providers
and its slots (`Sound.ext`), and of the slots a merge changes that of its fetcher alone
(`Sound.slot_merge`).
-/

namespace Depot.Index

variable {ix : Index} {place : Nat}

/-- The indexes there are: an empty one, and whatever an operation makes of one. -/
inductive Arises : Index → Prop
  | empty : Arises {}
  | addFetcher {ix : Index} (f : Fetch.Fetcher) : Arises ix → Arises (ix.addFetcher f)
  | addProvider {ix : Index} (p : Provider) : Arises ix → Arises (ix.addProvider p)
  | setFetcher {ix : Index} (place : Nat) (f : Fetch.Fetcher) :
    Arises ix → Arises (ix.setFetcher place f)
  | rebuild {ix : Index} : Arises ix → Arises ix.rebuild
  | merge {ix : Index} (place : Nat) : Arises ix → Arises (ix.merge place)
  | search {ix : Index} (site : Site) (query : Package.Name) (max : Nat) :
    Arises ix → Arises (ix.search site query max).1

/-- One slot for each fetcher, and a table of the ids in the slots. -/
structure Sound (ix : Index) : Prop where
  length : ix.slots.length = ix.fetchers.length
  byId : ix.byId = firstById ix.slots.flatten

theorem Sound.setFetcher (h : ix.Sound) (place : Nat) (f : Fetch.Fetcher) :
    (ix.setFetcher place f).Sound :=
  ⟨by simpa [Index.setFetcher] using h.length, h.byId⟩

theorem merge_of_fetcher {f : Fetch.Fetcher} (hf : ix.fetchers[place]? = some f) :
    ix.merge place = ix.withSlots (ix.slots.set place (entriesOf f place)) := by
  simp only [merge, hf]

theorem fetchers_merge (ix : Index) (place : Nat) : (ix.merge place).fetchers = ix.fetchers := by
  unfold merge
  split <;> rfl

theorem slots_merge_of_ne {other : Nat} (h : other ≠ place) :
    (ix.merge place).slots[other]? = ix.slots[other]? := by
  unfold merge
  split
  · exact List.getElem?_set_ne h.symm
  · rfl

theorem Sound.merge (h : ix.Sound) (place : Nat) : (ix.merge place).Sound := by
  cases hf : ix.fetchers[place]? with
  | none => simpa only [Index.merge, hf] using h
  | some f =>
    rw [merge_of_fetcher hf]
    exact ⟨by simpa [withSlots] using h.length, rfl⟩

theorem Sound.search (h : ix.Sound) (site : Site) (query : Package.Name) (max : Nat) :
    (ix.search site query max).1.Sound := by
  rw [search_eq_match]
  split
  · unfold searchProviders
    split
    · exact h
    · split
      · exact h
      · exact ⟨h.length, h.byId⟩
  · exact h

theorem Arises.sound (h : ix.Arises) : ix.Sound := by
  induction h with
  | empty => exact ⟨rfl, rfl⟩
  | addFetcher f _ ih =>
    refine ⟨by simpa [Index.addFetcher] using ih.length, ?_⟩
    simpa [Index.addFetcher] using ih.byId
  | addProvider p _ ih => exact ⟨ih.length, ih.byId⟩
  | setFetcher place f _ ih => exact ih.setFetcher place f
  | rebuild _ ih => exact ⟨by simp [Index.rebuild, withSlots], rfl⟩
  | merge place _ ih => exact ih.merge place
  | search site query max _ ih => exact ih.search site query max

/-! ## Slots and ids -/

theorem get?_firstById (entries : List Entry) (id : String) :
    (firstById entries).get? id = entries.find? (·.id == id) := by
  have hfold (entries : List Entry) (t : Table String Entry) :
      (entries.foldl (fun t e => t.insertNew e.id e) t).get? id =
        (t.get? id).or (entries.find? (·.id == id)) := by
    induction entries generalizing t with
    | nil => simp
    | cons e rest ih =>
      rw [List.foldl_cons, ih, Table.get?_insertNew, Option.or_assoc, List.find?_cons]
      by_cases hid : e.id = id
      · simp [hid]
      · simp [beq_eq_false_iff_ne.2 hid, Ne.symm hid]
  exact (hfold entries {}).trans (by simp)

/-- The slot of a fetcher, empty where there is none. -/
def slot (ix : Index) (place : Nat) : List Entry := (ix.slots[place]?).getD []

/-- The packages in the slot of a fetcher. -/
def contributed (ix : Index) (place : Nat) : List Package :=
  ((ix.slots[place]?).getD []).map (·.package)

theorem map_package_entriesOf (f : Fetch.Fetcher) (place : Nat) :
    (entriesOf f place).map (·.package) = f.packages := by
  rw [entriesOf, List.map_map]
  exact List.zipIdx_map_fst 0 f.packages

/-- What the fetcher at a place has now, as entries. -/
def current? (ix : Index) (place : Nat) : Option (List Entry) :=
  (ix.fetchers[place]?).map (entriesOf · place)

theorem current?_eq_none_iff : ix.current? place = none ↔ ix.fetchers.length ≤ place := by
  simp [current?]

namespace Sound

theorem slot_of_le (h : ix.Sound) (hplace : ix.fetchers.length ≤ place) : ix.slot place = [] := by
  rw [slot, List.getElem?_eq_none (h.length ▸ hplace)]
  rfl

theorem slots_eq (h : ix.Sound) : ix.slots = (List.range ix.fetchers.length).map ix.slot := by
  refine List.ext_getElem (by simp [h.length]) fun i hi _ => ?_
  simp [slot, hi]

theorem ext {ix' : Index} (h : ix.Sound) (h' : ix'.Sound) (hfetchers : ix.fetchers = ix'.fetchers)
    (hproviders : ix.providers = ix'.providers)
    (hslots : ∀ place < ix.fetchers.length, ix.slot place = ix'.slot place) : ix = ix' := by
  have hsame : ix.slots = ix'.slots := by
    rw [h.slots_eq, h'.slots_eq, ← hfetchers]
    exact List.map_congr_left fun place hplace => hslots place (List.mem_range.1 hplace)
  have hbyId : ix.byId = ix'.byId := by rw [h.byId, h'.byId, hsame]
  cases ix
  cases ix'
  simp_all only

theorem get?_eq (h : ix.Sound) (id : String) : ix.get? id = ix.entries.find? (·.id == id) := by
  rw [get?, h.byId, get?_firstById, entries]

theorem packages_eq (h : ix.Sound) :
    ix.packages = (List.range ix.fetchers.length).flatMap ix.contributed := by
  rw [packages, entries, h.slots_eq, List.map_flatten, List.map_map, List.flatMap_def]
  rfl

/-- The first package of an id, in the order of declaration. -/
theorem package_get? (h : ix.Sound) (id : String) :
    (ix.get? id).map (·.package) = ix.packages.find? (·.id == id) := by
  rw [h.get?_eq, packages, List.find?_map]
  rfl

theorem slot_merge (h : ix.Sound) (place other : Nat) :
    (ix.merge place).slot other =
      (if other = place then ix.current? place else none).getD (ix.slot other) := by
  by_cases hother : other = place
  · subst hother
    cases hf : ix.fetchers[other]? with
    | none => simp [Index.merge, current?, hf]
    | some f =>
      obtain ⟨hlt, -⟩ := List.getElem?_eq_some_iff.1 hf
      rw [merge_of_fetcher hf, if_pos rfl, current?, hf]
      simp [slot, withSlots, h.length, hlt]
  · rw [slot, slots_merge_of_ne hother, if_neg hother]
    rfl

theorem slot_rebuild (h : ix.Sound) (place : Nat) :
    ix.rebuild.slot place = (ix.current? place).getD (ix.slot place) := by
  have hslot : ix.rebuild.slots[place]? = ix.current? place := by
    simp [Index.rebuild, withSlots, current?, Function.comp_def]
  rw [slot, hslot]
  cases hcurrent : ix.current? place with
  | none => rw [h.slot_of_le (current?_eq_none_iff.1 hcurrent), Option.getD_none]
  | some entries => rfl

end Sound

theorem contributed_merge {f : Fetch.Fetcher} (h : ix.Sound)
    (hf : ix.fetchers[place]? = some f) (other : Nat) :
    (ix.merge place).contributed other =
      if other = place then f.packages else ix.contributed other := by
  have hslot : (ix.merge place).contributed other =
      ((ix.merge place).slot other).map (·.package) := rfl
  rw [hslot, h.slot_merge, current?, hf]
  split
  · exact map_package_entriesOf f place
  · rfl

end Depot.Index
