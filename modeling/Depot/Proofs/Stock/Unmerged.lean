import Depot.Proofs.Stock.Prefilter

/-!
# Fetches whose results are not taken over

Fetches without a merge leave every answer of an index alone, except that a search asks the fetchers
which slots to skip (`answers_of_fetches`). So a search sees a fetch exactly where the fetcher now
lets a query through that it held back, or the other way round, and its slot has something for the
query (`scan_fetch_eq_iff`).
-/

namespace Depot

theorem flatten_set_eq_iff {α : Type} {ls : List (List α)} {i : Nat} {old : List α}
    (h : ls[i]? = some old) (new : List α) : (ls.set i new).flatten = ls.flatten ↔ new = old := by
  induction ls generalizing i with
  | nil => simp at h
  | cons l rest ih =>
    cases i with
    | zero =>
      obtain rfl : l = old := by simpa using h
      simp
    | succ i => simpa using ih (by simpa using h)

namespace Index

variable {ix ix' : Index} {query : Package.Name}

/-- What a search sees of the slot of a fetcher. -/
def visible (query : Package.Name) (f : Fetch.Fetcher) (slot : List Entry) : List Entry :=
  if f.mayHave query then slot.filter (·.satisfies query) else []

theorem visible_eq_iff {f f' : Fetch.Fetcher} {slot : List Entry} :
    visible query f' slot = visible query f slot ↔
      f'.mayHave query = f.mayHave query ∨ ∀ e ∈ slot, e.satisfies query = false := by
  unfold visible
  cases f.mayHave query <;> cases f'.mayHave query <;> simp

theorem scan_eq_flatten (ix : Index) (query : Package.Name) :
    ix.scan query = (List.zipWith (visible query) ix.fetchers ix.slots).flatten := by
  unfold scan
  generalize ix.slots = slots
  induction ix.fetchers generalizing slots with
  | nil => simp
  | cons f rest ih =>
    cases slots with
    | nil => simp
    | cons slot slots =>
      rw [List.zip_cons_cons, List.zipWith_cons_cons, List.flatten_cons, ← ih slots]
      by_cases hf : f.mayHave query = true
      · simp [visible, hf]
      · simp [visible, hf]

/-- The fetchers of two states let the query through alike, wherever a slot has something for it. -/
def AgreeOn (query : Package.Name) (ix ix' : Index) : Prop :=
  ∀ (place : Nat) (f f' : Fetch.Fetcher) (slot : List Entry), ix.fetchers[place]? = some f →
    ix'.fetchers[place]? = some f' → ix.slots[place]? = some slot →
      f'.mayHave query = f.mayHave query ∨ ∀ e ∈ slot, e.satisfies query = false

namespace SameSnapshot

theorem scan_eq (h : SameSnapshot ix ix') (hagree : AgreeOn query ix ix') :
    ix'.scan query = ix.scan query := by
  rw [scan_eq_flatten, scan_eq_flatten, h.slots]
  congr 1
  apply List.ext_getElem?
  intro place
  rw [List.getElem?_zipWith, List.getElem?_zipWith]
  have hsome : (ix'.fetchers[place]?).isSome = (ix.fetchers[place]?).isSome := by
    rw [Bool.eq_iff_iff, isSome_getElem?, isSome_getElem?, h.length]
  cases hslot : ix.slots[place]? with
  | none => simp
  | some slot =>
    cases hf : ix.fetchers[place]? with
    | none => simp_all
    | some f =>
      obtain ⟨f', hf'⟩ := Option.isSome_iff_exists.1 (hsome.trans (by rw [hf]; rfl))
      rw [hf']
      exact congrArg some (visible_eq_iff.2 (hagree place f f' slot hf hf' hslot))

theorem search_eq (h : SameSnapshot ix ix') (hscan : ix'.scan query = ix.scan query) (site : Site)
    (max : Nat) : (ix'.search site query max).2 = (ix.search site query max).2 := by
  rw [search_eq_match, search_eq_match, hscan]
  split
  · have hplace : ix'.providerFor? query = ix.providerFor? query := by
      rw [providerFor?, h.providers, providerFor?]
    unfold searchProviders
    rw [hplace, h.providers]
    split
    · rfl
    · split <;> rfl
  · rfl

end SameSnapshot

theorem scan_setFetcher_eq_iff {place : Nat} {f f' : Fetch.Fetcher} {slot : List Entry}
    (hf : ix.fetchers[place]? = some f) (hslot : ix.slots[place]? = some slot) :
    (ix.setFetcher place f').scan query = ix.scan query ↔
      f'.mayHave query = f.mayHave query ∨ ∀ e ∈ slot, e.satisfies query = false := by
  have hset : List.zipWith (visible query) (ix.fetchers.set place f') ix.slots =
      (List.zipWith (visible query) ix.fetchers ix.slots).set place (visible query f' slot) := by
    apply List.ext_getElem?
    intro other
    rw [List.getElem?_zipWith, List.getElem?_set, List.getElem?_set, List.getElem?_zipWith]
    by_cases hother : place = other
    · subst hother
      obtain ⟨hlt, -⟩ := List.getElem?_eq_some_iff.1 hf
      obtain ⟨hlt', -⟩ := List.getElem?_eq_some_iff.1 hslot
      have hlt'' : place < min ix.fetchers.length ix.slots.length := Nat.lt_min.2 ⟨hlt, hlt'⟩
      simp [hslot, hlt, hlt'']
    · simp [hother]
  have hold : (List.zipWith (visible query) ix.fetchers ix.slots)[place]? =
      some (visible query f slot) := by
    rw [List.getElem?_zipWith, hf, hslot]
  rw [scan_eq_flatten, scan_eq_flatten, ← visible_eq_iff, ← flatten_set_eq_iff hold]
  show (List.zipWith (visible query) (ix.fetchers.set place f') ix.slots).flatten = _ ↔ _
  rw [hset]

end Index

namespace Stock

/-- Fetches leave all answers alone, except that a search may skip other slots. After one fetch a
search finds other entries exactly if its fetcher now lets the query through and did not before, or
the other way round, and has something for the query in its slot. A cycle that fails is a sequence
of fetches. -/
theorem answers_of_unmerged (s : Stock) :
    (∀ calls t, Fetches s calls t →
      t.index.packages = s.index.packages ∧ t.index.count = s.index.count ∧
        t.index.names = s.index.names ∧ (∀ id, t.index.get? id = s.index.get? id) ∧
        ∀ query, Index.AgreeOn query s.index t.index → ∀ site max,
          (t.index.search site query max).2 = (s.index.search site query max).2) ∧
    (∀ place force f slot query, s.index.fetchers[place]? = some f →
      s.index.slots[place]? = some slot →
        ((s.fetch place force).1.index.scan query = s.index.scan query ↔
          (f.fetch s.store force).1.mayHave query = f.mayHave query ∨
            ∀ e ∈ slot, e.satisfies query = false)) ∧
    (∀ force inTurn e, (s.fetchAll force inTurn).2.1 = .error e →
      ∃ calls, Fetches s calls (s.fetchAll force inTurn).1) := by
  refine ⟨fun calls t h => ?_, fun place force f slot query hf hslot => ?_,
    fun _ _ _ => fetchAll_of_error⟩
  · have hsame := h.sameSnapshot
    refine ⟨?_, ?_, ?_, hsame.get?_eq, fun query hagree site max =>
      hsame.search_eq (hsame.scan_eq hagree) site max⟩
    · rw [Index.packages, hsame.entries_eq, Index.packages]
    · rw [Index.count, hsame.entries_eq, Index.count]
    · rw [Index.names, Index.packages, hsame.entries_eq, Index.names, Index.packages]
  · rw [fetch_of_fetcher hf]
    exact Index.scan_setFetcher_eq_iff hf hslot

/-! A package that moves to another distribution between two fetches. -/

/-- One package, in some distribution. -/
def zlibOf (distribution : String) : Package where
  name := ⟨distribution, "zlib", "1", "", false⟩

/-- Hands over a package of one distribution first, and of another one later. -/
def moving (ask : Fetch.Ask) : Fetch.Script :=
  .add (zlibOf (if ask.calls = 0 then "alpine" else "debian")) fun _ => .done

/-- A fetcher whose package moves to another distribution. -/
def movingFetcher : Fetch.Fetcher where
  decl := ⟨"list", "alpine", []⟩
  source := { fetch := moving }

/-- The fetcher after its first fetch. -/
def movedOnce : Fetch.Fetcher := movingFetcher.asking.loaded (some {}) [zlibOf "alpine"]

/-- The fetcher after its second fetch. -/
def movedTwice : Fetch.Fetcher := movedOnce.asking.loaded (some {}) [zlibOf "debian"]

theorem fetchAll_movingFetcher :
    ∃ store, ((ofFetcher movingFetcher).fetchAll false true).1 =
        { index := ({ fetchers := [movedOnce] } : Index).rebuild, store } ∧
      ∃ store', movedOnce.fetch store true = (movedTwice, store', .ok ()) := by
  have hempty := Fetch.Fetcher.emptyStore_coherent movingFetcher
  obtain ⟨p, q, hready⟩ := Fetch.Fetcher.emptyStore_ready movingFetcher
  obtain ⟨files, -, -, -, hfirst⟩ :=
    Fetch.Fetcher.fetch_of_done hready (hempty.due_of_none false) (by rfl)
  have hcoherent := hempty.call false
  have hstart := (Fetch.Fetcher.startable_fetch_iff movingFetcher movedOnce _ false).2
    (Fetch.Fetcher.startable_emptyStore movedOnce)
  rw [hfirst] at hcoherent hstart
  obtain ⟨p', q', hready'⟩ := hcoherent.ready hstart
  obtain ⟨files', -, -, -, hsecond⟩ :=
    Fetch.Fetcher.fetch_of_done hready' (.inl rfl) (by rfl)
  exact ⟨_, (fetchAll_ofFetcher hfirst).2, _, hsecond⟩

/-- A fetch that nothing takes over can change the answer to a search. -/
theorem search_sees_unmerged :
    ¬∀ (s : Stock) (place : Nat) (force : Bool) (query : Package.Name) (site : Site) (max : Nat),
      ((s.fetch place force).1.index.search site query max).2 =
        (s.index.search site query max).2 := by
  intro hall
  obtain ⟨store, hstock, store', hfetch⟩ := fetchAll_movingFetcher
  have hsearch := hall ((ofFetcher movingFetcher).fetchAll false true).1 0 true
    ⟨"alpine", "zlib", "", "", false⟩ {} 0
  rw [hstock, fetch_of_fetcher (f := movedOnce) rfl, hfetch] at hsearch
  have hchanged : ((({ fetchers := [movedOnce] } : Index).rebuild.setFetcher 0 movedTwice).search {}
      ⟨"alpine", "zlib", "", "", false⟩ 0).2 ≠
        (({ fetchers := [movedOnce] } : Index).rebuild.search {}
          ⟨"alpine", "zlib", "", "", false⟩ 0).2 := by
    decide
  exact hchanged hsearch

theorem answers_of_unmerged_movingFetcher :
    let s := ((ofFetcher movingFetcher).fetchAll false true).1
    (s.fetch 0 true).1.index.packages = s.index.packages ∧
      ((s.fetch 0 true).1.index.search {} ⟨"", "zlib", "", "", false⟩ 0).2 = .ok s.index.entries ∧
      (s.fetch 0 true).1.index.scan ⟨"alpine", "zlib", "", "", false⟩ ≠
        s.index.scan ⟨"alpine", "zlib", "", "", false⟩ := by
  intro s
  obtain ⟨store, hstock, store', hfetch⟩ := fetchAll_movingFetcher
  have hs : s = { index := ({ fetchers := [movedOnce] } : Index).rebuild, store } := hstock
  have hone : Fetches s _ (s.fetch 0 true).1 := .cons 0 true (.nil _)
  obtain ⟨hanswers, hscan, -⟩ := answers_of_unmerged s
  obtain ⟨hpackages, -, -, -, hsearch⟩ := hanswers _ _ hone
  have hagree : Index.AgreeOn ⟨"", "zlib", "", "", false⟩ s.index (s.fetch 0 true).1.index :=
    fun _ _ _ _ _ _ _ => .inl rfl
  refine ⟨hpackages, ?_, ?_⟩
  · have hindex : s.index = ({ fetchers := [movedOnce] } : Index).rebuild := by rw [hs]
    rw [hsearch _ hagree, hindex]
    decide
  · rw [Ne, hscan 0 true movedOnce (Index.entriesOf movedOnce 0) _ (by rw [hs]; rfl)
      (by rw [hs]; rfl), hs, hfetch]
    show ¬(movedTwice.mayHave ⟨"alpine", "zlib", "", "", false⟩ =
        movedOnce.mayHave ⟨"alpine", "zlib", "", "", false⟩ ∨
      ∀ e ∈ Index.entriesOf movedOnce 0, e.satisfies ⟨"alpine", "zlib", "", "", false⟩ = false)
    decide

end Stock

end Depot
