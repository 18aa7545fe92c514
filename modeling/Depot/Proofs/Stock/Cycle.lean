import Depot.Proofs.Fetch.Call
import Depot.Stock

/-!
# Fetches of a stock

A fetch replaces one fetcher and leaves the snapshot of the index alone (`sameSnapshot_fetch`), and
so does every sequence of fetches (`Fetches`, `Fetches.sameSnapshot`). A cycle is such a sequence,
after which the results are taken over only if every fetch went well (`fetchAll_of_ok`,
`fetchAll_of_error`). Then the sets of each fetcher are those of its packages (`Fetches.settled`).
-/

namespace Depot

namespace Fetch.Fetcher

variable {f : Fetcher} {store : Store} {force : Bool}

/-- The sets of the fetcher are those of the packages that it has. -/
structure Settled (f : Fetcher) : Prop where
  distributions : f.distributions = some (f.packages.map (·.name.distribution)).eraseDups
  architectures : f.architectures = some (f.packages.map (·.name.architecture)).eraseDups

theorem settled_of_ok (h : (f.fetch store force).2.2 = .ok ()) :
    (f.fetch store force).1.Settled := by
  obtain ⟨calls, log, files, ⟨e, hfetch⟩ | ⟨packages, hfetch⟩⟩ := f.fetch_cases store force
  · rw [hfetch] at h
    cases h
  · rw [hfetch]
    exact ⟨rfl, rfl⟩

end Fetch.Fetcher

/-! ## The snapshot -/

/-- Two states of an index with the same entries and providers; the fetchers may have moved on. -/
structure Index.SameSnapshot (ix ix' : Index) : Prop where
  slots : ix'.slots = ix.slots
  byId : ix'.byId = ix.byId
  providers : ix'.providers = ix.providers
  length : ix'.fetchers.length = ix.fetchers.length

namespace Index.SameSnapshot

variable {ix ix' ix'' : Index}

theorem refl (ix : Index) : SameSnapshot ix ix := ⟨rfl, rfl, rfl, rfl⟩

theorem trans (h : SameSnapshot ix ix') (h' : SameSnapshot ix' ix'') : SameSnapshot ix ix'' :=
  ⟨h'.slots.trans h.slots, h'.byId.trans h.byId, h'.providers.trans h.providers,
    h'.length.trans h.length⟩

theorem entries_eq (h : SameSnapshot ix ix') : ix'.entries = ix.entries := by
  rw [entries, h.slots, entries]

theorem get?_eq (h : SameSnapshot ix ix') (id : String) : ix'.get? id = ix.get? id := by
  rw [get?, h.byId, get?]

theorem setFetcher (ix : Index) (place : Nat) (f : Fetch.Fetcher) :
    SameSnapshot ix (ix.setFetcher place f) :=
  ⟨rfl, rfl, rfl, by simp [Index.setFetcher]⟩

end Index.SameSnapshot

namespace Stock

variable {s t : Stock} {place : Nat} {force inTurn : Bool} {f : Fetch.Fetcher}

/-! ## One fetch -/

theorem ne_key_of_ne_place {other : Nat} {g : Fetch.Fetcher}
    (hkeys : (s.index.fetchers.map (·.key)).Nodup) (hf : s.index.fetchers[place]? = some f)
    (hg : s.index.fetchers[other]? = some g) (hne : other ≠ place) : f.key ≠ g.key := by
  intro hkey
  have hi : (s.index.fetchers.map (·.key))[place]? = some f.key := by simp [hf]
  have hj : (s.index.fetchers.map (·.key))[other]? = some f.key := by simp [hg, hkey]
  obtain ⟨hlt, -⟩ := List.getElem?_eq_some_iff.1 hi
  exact hne ((List.getElem?_inj hlt hkeys).1 (hi.trans hj.symm)).symm

theorem fetch_of_fetcher (h : s.index.fetchers[place]? = some f) (force : Bool) :
    s.fetch place force =
      (⟨s.index.setFetcher place (f.fetch s.store force).1, (f.fetch s.store force).2.1⟩,
        (f.fetch s.store force).2.2) := by
  simp only [fetch, h]

theorem sameSnapshot_fetch (s : Stock) (place : Nat) (force : Bool) :
    s.index.SameSnapshot (s.fetch place force).1.index := by
  cases h : s.index.fetchers[place]? with
  | none =>
    simp only [fetch, h]
    exact .refl _
  | some f =>
    rw [fetch_of_fetcher h]
    exact .setFetcher ..

theorem fetchers_fetch (s : Stock) (place : Nat) (force : Bool) (other : Nat) :
    (s.fetch place force).1.index.fetchers[other]? =
      if other = place then (s.index.fetchers[place]?).map fun f => (f.fetch s.store force).1
      else s.index.fetchers[other]? := by
  cases h : s.index.fetchers[place]? with
  | none =>
    simp only [fetch, h]
    by_cases hother : other = place
    · simp [hother, h]
    · simp [hother]
  | some f =>
    rw [fetch_of_fetcher h]
    obtain ⟨hlt, -⟩ := List.getElem?_eq_some_iff.1 h
    by_cases hother : other = place
    · simp [hother, Index.setFetcher, hlt]
    · simp [hother, Index.setFetcher, List.getElem?_set_ne (Ne.symm hother)]

/-- A fetch changes no declaration. -/
theorem decls_fetch (s : Stock) (place : Nat) (force : Bool) :
    (s.fetch place force).1.index.fetchers.map (·.decl) = s.index.fetchers.map (·.decl) := by
  refine List.ext_getElem? fun i => ?_
  rw [List.getElem?_map, List.getElem?_map, fetchers_fetch]
  split
  · next hi =>
    subst hi
    cases s.index.fetchers[i]? with
    | none => rfl
    | some f => simp [Fetch.Fetcher.fetch_decl]
  · rfl

/-! ## Sequences of fetches -/

/-- A fetch of a sequence: where, whether it was forced, and how it ended. -/
structure Call where
  place : Nat
  force : Bool
  result : Outcome Unit

/-- Fetches one after the other, without any result being taken over. -/
inductive Fetches : Stock → List Call → Stock → Prop
  | nil (s : Stock) : Fetches s [] s
  | cons {s t : Stock} {calls : List Call} (place : Nat) (force : Bool) :
    Fetches (s.fetch place force).1 calls t →
      Fetches s (⟨place, force, (s.fetch place force).2⟩ :: calls) t

variable {calls : List Call}

namespace Fetches

theorem sameSnapshot (h : Fetches s calls t) : s.index.SameSnapshot t.index := by
  induction h with
  | nil s => exact .refl _
  | cons place force _ ih => exact (sameSnapshot_fetch _ place force).trans ih

theorem fetcher_of_not_mem (h : Fetches s calls t) (hplace : ∀ c ∈ calls, c.place ≠ place) :
    t.index.fetchers[place]? = s.index.fetchers[place]? := by
  induction h with
  | nil s => rfl
  | cons first force _ ih =>
    rw [ih fun c hc => hplace c (List.mem_cons_of_mem _ hc), fetchers_fetch,
      if_neg fun heq => hplace _ List.mem_cons_self heq.symm]

/-- A fetcher that was fetched, always with success, has the sets of its packages. -/
theorem settled (h : Fetches s calls t) (hok : ∀ c ∈ calls, c.result = .ok ())
    (hplace : ∃ c ∈ calls, c.place = place) (hf : t.index.fetchers[place]? = some f) :
    f.Settled := by
  induction h with
  | nil s => simp at hplace
  | @cons s t calls first force h ih =>
    have hrest : ∀ c ∈ calls, c.result = .ok () := fun c hc => hok c (List.mem_cons_of_mem _ hc)
    by_cases hagain : ∃ c ∈ calls, c.place = place
    · exact ih hrest hagain hf
    · -- the first fetch is the last one of this place
      obtain ⟨c, hc, rfl⟩ := hplace
      have hfirst : c.place = first := by
        rcases List.mem_cons.1 hc with rfl | hc
        · rfl
        · exact absurd ⟨c, hc, rfl⟩ hagain
      rw [h.fetcher_of_not_mem fun c' hc' heq => hagain ⟨c', hc', heq⟩, fetchers_fetch,
        if_pos hfirst] at hf
      obtain ⟨f₀, hf₀, rfl⟩ := Option.map_eq_some_iff.1 hf
      have hresult : (s.fetch first force).2 = .ok () := hok _ List.mem_cons_self
      simp only [fetch_of_fetcher hf₀] at hresult
      exact Fetch.Fetcher.settled_of_ok (f := f₀) hresult

end Fetches

/-! ## Cycles -/

/-- The fetches of these places, all of them if they all went well. -/
def Fetched (s : Stock) (places : List Nat) (t : Stock) (result : Outcome Unit) : Prop :=
  ∃ calls, Fetches s calls t ∧
    (result = .ok () → calls.map (·.place) = places ∧ ∀ c ∈ calls, c.result = .ok ())

theorem Fetched.cons {places : List Nat} {result : Outcome Unit}
    (h : Fetched (s.fetch place force).1 places t result) (hok : (s.fetch place force).2 = .ok ()) :
    Fetched s (place :: places) t result := by
  obtain ⟨calls, hcalls, hall⟩ := h
  refine ⟨_, .cons place force hcalls, fun hresult => ?_⟩
  obtain ⟨hplaces, hresults⟩ := hall hresult
  simpa [hplaces, hok] using hresults

theorem fetched_fetchInTurn (force : Bool) (places : List Nat) (s : Stock) :
    Fetched s places (fetchInTurn force places s).1 (fetchInTurn force places s).2.1 := by
  induction places generalizing s with
  | nil => exact ⟨[], .nil s, fun _ => ⟨rfl, by simp⟩⟩
  | cons place rest ih =>
    have hfirst := Fetches.cons place force (.nil (s.fetch place force).1)
    have hrest (hok : (s.fetch place force).2 = .ok ()) := (ih (s.fetch place force).1).cons hok
    unfold fetchInTurn
    rcases hfetch : s.fetch place force with ⟨t, e | u⟩
    · rw [hfetch] at hfirst
      exact ⟨_, hfirst, by simp⟩
    · rw [hfetch] at hrest
      exact hrest rfl

theorem fetched_fetchTogether (force : Bool) (places : List Nat) (s : Stock) :
    Fetched s places (fetchTogether force places s).1 (fetchTogether force places s).2.1 := by
  induction places generalizing s with
  | nil => exact ⟨[], .nil s, fun _ => ⟨rfl, by simp⟩⟩
  | cons place rest ih =>
    have hall := ih (s.fetch place force).1
    have hrest (hok : (s.fetch place force).2 = .ok ()) := hall.cons hok
    obtain ⟨calls, hcalls, -⟩ := hall
    have hcalls := hcalls.cons place force
    unfold fetchTogether
    rcases hfetch : s.fetch place force with ⟨t, e | u⟩
    · rw [hfetch] at hcalls
      exact ⟨_, hcalls, by simp⟩
    · rw [hfetch] at hrest
      exact hrest rfl

/-- The fetches of a cycle, before any result is taken over. -/
def fetchPlaces (s : Stock) (force inTurn : Bool) : Stock × Outcome Unit × List Progress.Event :=
  if inTurn then fetchInTurn force s.places s else fetchTogether force s.places s

theorem fetched_fetchPlaces (s : Stock) (force inTurn : Bool) :
    Fetched s s.places (s.fetchPlaces force inTurn).1 (s.fetchPlaces force inTurn).2.1 := by
  cases inTurn with
  | true => exact fetched_fetchInTurn force s.places s
  | false => exact fetched_fetchTogether force s.places s

/-- A cycle that fails takes nothing over. -/
theorem fetchAll_of_error {e : Failure} (h : (s.fetchAll force inTurn).2.1 = .error e) :
    ∃ calls, Fetches s calls (s.fetchAll force inTurn).1 := by
  obtain ⟨calls, hcalls, -⟩ := s.fetched_fetchPlaces force inTurn
  unfold fetchAll at h ⊢
  rw [← fetchPlaces] at h ⊢
  rcases hrun : s.fetchPlaces force inTurn with ⟨t, e' | u, events⟩
  · rw [hrun] at hcalls
    exact ⟨calls, hcalls⟩
  · simp [hrun] at h

/-- A cycle that goes well takes over what its fetches have left. -/
theorem fetchAll_of_ok (h : (s.fetchAll force inTurn).2.1 = .ok ()) :
    ∃ calls t, Fetches s calls t ∧ calls.map (·.place) = s.places ∧
      (∀ c ∈ calls, c.result = .ok ()) ∧
      (s.fetchAll force inTurn).1 = { t with index := t.index.rebuild } := by
  obtain ⟨calls, hcalls, hall⟩ := s.fetched_fetchPlaces force inTurn
  unfold fetchAll at h ⊢
  rw [← fetchPlaces] at h ⊢
  rcases hrun : s.fetchPlaces force inTurn with ⟨t, e' | u, events⟩
  · simp [hrun] at h
  · rw [hrun] at hcalls hall
    obtain ⟨hplaces, hresults⟩ := hall rfl
    exact ⟨calls, t, hcalls, hplaces, hresults, rfl⟩

theorem slots_of_fetchAll (h : (s.fetchAll force inTurn).2.1 = .ok ()) :
    (s.fetchAll force inTurn).1.index.slots =
      (s.fetchAll force inTurn).1.index.fetchers.zipIdx.map fun (f, place) =>
        Index.entriesOf f place := by
  obtain ⟨calls, t, -, -, -, heq⟩ := fetchAll_of_ok h
  rw [heq]
  rfl

theorem settled_of_fetchAll (h : (s.fetchAll force inTurn).2.1 = .ok ())
    (hf : f ∈ (s.fetchAll force inTurn).1.index.fetchers) : f.Settled := by
  obtain ⟨calls, t, hcalls, hplaces, hresults, heq⟩ := fetchAll_of_ok h
  rw [heq] at hf
  obtain ⟨place, hplace⟩ := List.mem_iff_getElem?.1 hf
  refine hcalls.settled hresults ?_ hplace
  have hmem : place ∈ calls.map (·.place) := by
    obtain ⟨hlt, -⟩ := List.getElem?_eq_some_iff.1 hplace
    rw [hplaces, places, List.mem_range, ← hcalls.sameSnapshot.length]
    exact hlt
  exact List.mem_map.1 hmem

end Stock

end Depot
