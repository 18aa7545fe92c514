import Depot.Proofs.Index.Arising
import Depot.Proofs.Stock.Failed

/-!
# Refreshes

A refresh changes the slot of one fetcher to what its fetch has loaded, or nothing
(`contributed_refresh`). So after any requests each slot has what the last good answer to a request
for its fetcher has brought (`contributed_refreshAll`).
-/

namespace Depot.Stock

variable {s t : Stock} {place other : Nat} {force : Bool} {requests : List (Nat × Bool)}

/-- The packages that a request for a refresh loads, if it goes well. -/
def loaded? (s : Stock) (place : Nat) (force : Bool) : Option (List Package) :=
  match s.fetch place force with
  | (t, .ok ()) => (t.index.fetchers[place]?).map (·.packages)
  | (_, .error _) => none

/-- For each request its place, and what it has brought. -/
def answers : Stock → List (Nat × Bool) → List (Nat × Option (List Package))
  | _, [] => []
  | s, (place, force) :: rest =>
    (place, s.loaded? place force) :: (s.refresh place force).answers rest

/-- What the last good answer for a place has brought, if there is one. -/
def lastGood (place : Nat) : List (Nat × Option (List Package)) → Option (List Package)
  | [] => none
  | (first, brought) :: rest => (lastGood place rest).or (if first = place then brought else none)

/-- What a fetcher shows after some requests: what the last good answer for it has brought, or what
it showed before. -/
def shown (s : Stock) (requests : List (Nat × Bool)) (place : Nat) : List Package :=
  (lastGood place (s.answers requests)).getD (s.index.contributed place)

theorem refresh_of_failed (h : (s.fetch place force).2 ≠ .ok ()) :
    s.refresh place force = (s.fetch place force).1 := by
  unfold refresh
  split
  · next hfetch => simp [hfetch] at h
  · next hfetch => rw [hfetch]

theorem refresh_of_ok (h : (s.fetch place force).2 = .ok ()) :
    s.refresh place force =
      { (s.fetch place force).1 with index := (s.fetch place force).1.index.merge place } := by
  unfold refresh
  split
  · next hfetch => rw [hfetch]
  · next hfetch => simp [hfetch] at h

theorem sound_fetch (h : s.index.Sound) (place : Nat) (force : Bool) :
    (s.fetch place force).1.index.Sound := by
  have hsnapshot := s.sameSnapshot_fetch place force
  refine ⟨?_, ?_⟩
  · rw [hsnapshot.slots, hsnapshot.length, h.length]
  · rw [hsnapshot.slots, hsnapshot.byId, h.byId]

theorem sound_refresh (h : s.index.Sound) (place : Nat) (force : Bool) :
    (s.refresh place force).index.Sound := by
  have hfetch := sound_fetch h place force
  by_cases hok : (s.fetch place force).2 = .ok ()
  · rw [refresh_of_ok hok]
    exact hfetch.merge place
  · rw [refresh_of_failed hok]
    exact hfetch

theorem contributed_fetch (s : Stock) (place : Nat) (force : Bool) (other : Nat) :
    (s.fetch place force).1.index.contributed other = s.index.contributed other := by
  unfold Index.contributed
  rw [(s.sameSnapshot_fetch place force).slots]

/-- A failed request changes no slot. -/
theorem slots_refresh_of_failed (h : (s.fetch place force).2 ≠ .ok ()) :
    (s.refresh place force).index.slots = s.index.slots := by
  rw [refresh_of_failed h, (s.sameSnapshot_fetch place force).slots]

theorem loaded?_of_failed (h : (s.fetch place force).2 ≠ .ok ()) :
    s.loaded? place force = none := by
  unfold loaded?
  split
  · next hfetch => simp [hfetch] at h
  · rfl

/-- What a fetch that goes well loads is what its fetcher then has. -/
theorem exists_fetcher_of_ok (h : (s.fetch place force).2 = .ok ()) :
    ∃ f, (s.fetch place force).1.index.fetchers[place]? = some f ∧
      s.loaded? place force = some f.packages := by
  cases hf : s.index.fetchers[place]? with
  | none => simp [fetch, hf] at h
  | some f =>
    have hleft : (s.fetch place force).1.index.fetchers[place]? =
        some (f.fetch s.store force).1 := by
      rw [fetchers_fetch, if_pos rfl, hf, Option.map_some]
    refine ⟨_, hleft, ?_⟩
    unfold loaded?
    split
    · next hfetch =>
      rw [hfetch] at hleft
      simp only [hleft, Option.map_some]
    · next hfetch => simp [hfetch] at h

theorem contributed_refresh (h : s.index.Sound) (place : Nat) (force : Bool) (other : Nat) :
    (s.refresh place force).index.contributed other =
      (if place = other then s.loaded? place force else none).getD (s.index.contributed other) := by
  have hkept := s.contributed_fetch place force other
  by_cases hok : (s.fetch place force).2 = .ok ()
  · obtain ⟨f, hf, hloaded⟩ := exists_fetcher_of_ok hok
    rw [refresh_of_ok hok, Index.contributed_merge (sound_fetch h place force) hf, hkept, hloaded]
    by_cases hother : other = place
    · simp [hother]
    · simp [hother, Ne.symm hother]
  · rw [refresh_of_failed hok, hkept, loaded?_of_failed hok, ite_self, Option.getD_none]

/-- A request that has brought nothing for a place leaves its slot alone. -/
theorem slot_refresh (h : (if place = other then s.loaded? place force else none) = none) :
    (s.refresh place force).index.slots[other]? = s.index.slots[other]? := by
  by_cases hok : (s.fetch place force).2 = .ok ()
  · obtain ⟨f, hf, hloaded⟩ := exists_fetcher_of_ok hok
    have hother : place ≠ other := fun heq => by simp [heq, heq ▸ hloaded] at h
    rw [refresh_of_ok hok, Index.merge_of_fetcher hf]
    simp [Index.withSlots, List.getElem?_set_ne hother, (s.sameSnapshot_fetch place force).slots]
  · rw [slots_refresh_of_failed hok]

theorem sound_refreshAll (h : s.index.Sound) (requests : List (Nat × Bool)) :
    (s.refreshAll requests).index.Sound := by
  induction requests generalizing s with
  | nil => exact h
  | cons request rest ih => exact ih (sound_refresh h request.1 request.2)

theorem length_refreshAll (s : Stock) (requests : List (Nat × Bool)) :
    (s.refreshAll requests).index.fetchers.length = s.index.fetchers.length := by
  induction requests generalizing s with
  | nil => rfl
  | cons request rest ih =>
    refine (ih (s.refresh request.1 request.2)).trans ?_
    have hfetch := (s.sameSnapshot_fetch request.1 request.2).length
    by_cases hok : (s.fetch request.1 request.2).2 = .ok ()
    · rw [refresh_of_ok hok, Index.fetchers_merge, hfetch]
    · rw [refresh_of_failed hok, hfetch]

/-- Each slot has what the last good answer for its fetcher has brought, or what it had. -/
theorem contributed_refreshAll (h : s.index.Sound) (requests : List (Nat × Bool)) (place : Nat) :
    (s.refreshAll requests).index.contributed place = s.shown requests place := by
  unfold shown
  induction requests generalizing s with
  | nil => rfl
  | cons request rest ih =>
    obtain ⟨first, force⟩ := request
    refine (ih (sound_refresh h first force)).trans ?_
    rw [contributed_refresh h, answers, lastGood, Option.getD_or]

theorem slot_refreshAll (h : lastGood place (s.answers requests) = none) :
    (s.refreshAll requests).index.slots[place]? = s.index.slots[place]? := by
  induction requests generalizing s with
  | nil => rfl
  | cons request rest ih =>
    rw [answers, lastGood, Option.or_eq_none_iff] at h
    exact (ih h.1).trans (slot_refresh h.2)

/-- After any requests for refreshes, the index shows for each fetcher the packages with which the
last of its requests that went well has ended. A fetcher without such a request has the slot that it
had, a request that fails changes no slot, and an id leads to its first package. -/
theorem last_good_of_refreshes (h : s.index.Arises) (requests : List (Nat × Bool)) :
    (s.refreshAll requests).index.packages = s.places.flatMap (s.shown requests) ∧
      (∀ place ∈ s.places,
        (s.refreshAll requests).index.contributed place = s.shown requests place ∧
        (lastGood place (s.answers requests) = none →
          (s.refreshAll requests).index.slots[place]? = s.index.slots[place]?)) ∧
      (∀ place force, ((s.refreshAll requests).fetch place force).2 ≠ .ok () →
        (s.refreshAll (requests ++ [(place, force)])).index.slots =
          (s.refreshAll requests).index.slots) ∧
      ∀ id, ((s.refreshAll requests).index.get? id).map (·.package) =
        (s.places.flatMap (s.shown requests)).find? (·.id == id) := by
  have hsound := sound_refreshAll h.sound requests
  have hslots := contributed_refreshAll h.sound requests
  have hpackages : (s.refreshAll requests).index.packages =
      s.places.flatMap (s.shown requests) := by
    rw [hsound.packages_eq, length_refreshAll, ← funext hslots]
    rfl
  refine ⟨hpackages, fun place _ => ⟨hslots place, slot_refreshAll⟩, ?_, ?_⟩
  · intro place force hfailed
    rw [refreshAll, List.foldl_append]
    exact slots_refresh_of_failed hfailed
  · intro id
    rw [hsound.package_get?, hpackages]

/-- The fetcher that breaks off has nothing to show, and the other one has its package. -/
theorem last_good_of_refreshes_halfDown :
    halfDown.index.Arises ∧
      (halfDown.refreshAll [(0, true), (1, true)]).index.packages.map (·.name.name) = ["curl"] := by
  have harises : halfDown.index.Arises := .addFetcher _ (.addFetcher _ .empty)
  refine ⟨harises, ?_⟩
  obtain ⟨hpackages, -⟩ := last_good_of_refreshes harises [(0, true), (1, true)]
  have hplaces : halfDown.places = [0, 1] := rfl
  have hbreaking : halfDown.index.fetchers[0]? = some breakingOff := rfl
  have hlisting : (halfDown.fetch 0 true).1.index.fetchers[1]? =
      some (Fetch.Fetcher.listing ["b"] "curl") := by
    rw [fetchers_fetch, if_neg (by decide)]
    rfl
  -- what the other fetcher finds does not depend on the failure before
  have hempty := Fetch.Fetcher.emptyStore_coherent (Fetch.Fetcher.listing ["b"] "curl")
  have hcoherent := hempty.drift (hempty.drift_other halfDown_keys true)
  have hstart := (Fetch.Fetcher.startable_fetch_iff breakingOff _ _ true).2
    (Fetch.Fetcher.startable_emptyStore (Fetch.Fetcher.listing ["b"] "curl"))
  obtain ⟨f', store', hfetch, hnames⟩ :=
    Fetch.Fetcher.fetch_listing hcoherent (hcoherent.due_of_none true) hstart
  have hstore : (halfDown.fetch 0 true).1.store =
      (breakingOff.fetch Fetch.Fetcher.emptyStore true).2.1 := by
    have hempty : halfDown.store = Fetch.Fetcher.emptyStore := rfl
    rw [store_fetch hbreaking, hempty]
  have hok : ((halfDown.fetch 0 true).1.fetch 1 true).2 = .ok () := by
    rw [result_fetch hlisting, hstore, hfetch]
  obtain ⟨f, hf, hloaded⟩ := exists_fetcher_of_ok hok
  have hcurl : f.packages.map (·.name.name) = ["curl"] := by
    rw [fetchers_fetch, if_pos rfl, hlisting, hstore, Option.map_some, hfetch] at hf
    obtain rfl := Option.some.inj hf
    exact hnames
  have hanswers : halfDown.answers [(0, true), (1, true)] = [(0, none), (1, some f.packages)] := by
    simp only [answers, loaded?_of_failed halfDown_fails, refresh_of_failed halfDown_fails, hloaded]
  have hempty : halfDown.index.contributed 0 = [] := rfl
  rw [hpackages, hplaces]
  simp [shown, hanswers, lastGood, hempty, hcurl]

end Depot.Stock
