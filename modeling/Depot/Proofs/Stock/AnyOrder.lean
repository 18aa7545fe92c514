import Depot.Proofs.Fetch.Frame
import Depot.Proofs.Fetch.Isolation
import Depot.Proofs.Stock.Cycle

/-!
# Fetches in any order

Each fetch of a sequence comes out as if it were the only one, because it changes nothing that
another one looks at (`After.fetch`). So where a sequence leads can be said without its order
(`After`), and any two orders of the same fetches lead to the same index and the same files
(`After.unique`). What a tracker is told of a cycle is counted by `Steps`.
-/

namespace Depot.Stock

open Fetch.Fetcher (withFiles)

variable {s t t' : Stock} {force : Bool} {done : List Nat} {place : Nat} {f : Fetch.Fetcher}

/-- The places of all entries and their temporary files. -/
def spots (s : Stock) : List Path := s.index.fetchers.flatMap (·.spots s.store)

/-- Every fetcher has an entry for itself, and a source that none of the entries means anything
to. -/
structure Separate (s : Stock) : Prop where
  archive : s.store.archive = none
  keys : (s.index.fetchers.map (·.key)).Nodup
  unmoved : ∀ f ∈ s.index.fetchers, f.Unmoved s.store.site s.spots

/-- Some places were fetched, and each has come out as if it were the only one. -/
structure After (s : Stock) (force : Bool) (done : List Nat) (t : Stock) : Prop where
  snapshot : s.index.SameSnapshot t.index
  fetchers : ∀ i : Nat, t.index.fetchers[i]? = (s.index.fetchers[i]?).map fun f =>
    if i ∈ done then (f.fetch s.store force).1 else f
  store : t.store = withFiles s.store t.store.site.files
  same : s.store.site.files.SameBut s.spots t.store.site.files
  own : ∀ (i : Nat) (f : Fetch.Fetcher), s.index.fetchers[i]? = some f → ∀ p ∈ f.spots s.store,
    t.store.site.files.file? p =
      if i ∈ done then (f.fetch s.store force).2.1.site.files.file? p
      else s.store.site.files.file? p

theorem After.start (s : Stock) (force : Bool) : After s force [] s where
  snapshot := .refl _
  fetchers i := by simp
  store := rfl
  same := (Files.SameBut.refl _).mono (by simp)
  own := by simp

theorem spots_subset (hf : s.index.fetchers[place]? = some f) : f.spots s.store ⊆ s.spots :=
  fun _ hp => List.mem_flatMap.2 ⟨f, List.mem_of_getElem? hf, hp⟩

theorem Separate.apart (h : s.Separate) {i j : Nat} {g : Fetch.Fetcher} (hij : i ≠ j)
    (hf : s.index.fetchers[i]? = some f) (hg : s.index.fetchers[j]? = some g) {p : Path}
    (hp : p ∈ f.spots s.store) : p ∉ g.spots s.store :=
  Fetch.Fetcher.spots_apart (ne_key_of_ne_place h.keys hf hg hij.symm) hp

namespace After

/-- The files of a fetcher that was not fetched are as they were. -/
theorem sameBut_others (h : After s force done t) (hf : s.index.fetchers[place]? = some f)
    (hplace : place ∉ done) :
    s.store.site.files.SameBut (s.spots.filter (· ∉ f.spots s.store)) t.store.site.files := by
  refine ⟨h.same.dirs, fun p hp => ?_⟩
  by_cases hown : p ∈ f.spots s.store
  · rw [h.own place f hf p hown, if_neg hplace]
  · exact h.same.files p fun hmem => hp (by simp [hmem, hown])

/-- A fetcher that was not fetched does what it does on its own. -/
theorem fetch_alone (h : After s force done t) (hs : s.Separate)
    (hf : s.index.fetchers[place]? = some f) (hplace : place ∉ done) :
    ((f.fetch t.store force).2.2 = .ok () ↔ (f.fetch s.store force).2.2 = .ok ()) ∧
      ((f.fetch t.store force).2.2 = .ok () → ∃ after,
        f.fetch t.store force = ((f.fetch s.store force).1, withFiles s.store after, .ok ()) ∧
        t.store.site.files.SameBut (f.spots s.store) after ∧
        ∀ p ∈ f.spots s.store,
          after.file? p = (f.fetch s.store force).2.1.site.files.file? p) := by
  have hothers := h.sameBut_others hf hplace
  have hapart : ∀ p ∈ f.spots s.store, p ∉ s.spots.filter (· ∉ f.spots s.store) := by
    intro p hp hmem
    simp [hp] at hmem
  have hsub : s.spots.filter (· ∉ f.spots s.store) ++ f.spots s.store ⊆ s.spots :=
    List.append_subset.2 ⟨fun p hp => (List.mem_filter.1 hp).1, spots_subset hf⟩
  have hunmoved := (hs.unmoved f (List.mem_of_getElem? hf)).mono hsub
  have hback (hok : (f.fetch t.store force).2.2 = .ok ()) :
      (f.fetch s.store force).2.2 = .ok () := by
    rw [h.store] at hok
    have hspots := Fetch.Fetcher.spots_withFiles (f := f) hothers
    have hunmoved' := hunmoved.withFiles (hothers.mono (List.subset_append_left _ _))
    obtain ⟨_, _, -, hfetch, -⟩ := Fetch.Fetcher.fetch_frame
      (withFiles s.store t.store.site.files) hothers.symm (by rw [hspots]; exact hapart)
      (by rw [hspots]; exact hunmoved') hs.archive hok
    have hsame : withFiles (withFiles s.store t.store.site.files) s.store.site.files = s.store :=
      rfl
    rw [← hsame, hfetch]
  have hforth (hok : (f.fetch s.store force).2.2 = .ok ()) :=
    Fetch.Fetcher.fetch_frame s.store hothers hapart hunmoved hs.archive hok
  refine ⟨⟨hback, fun hok => ?_⟩, fun hok => ?_⟩
  · obtain ⟨_, _, -, hfetch, -⟩ := hforth hok
    rw [h.store, hfetch]
  · obtain ⟨before, after, hfirst, hfetch, -, hafter, halike⟩ := hforth (hback hok)
    have hleft : (f.fetch s.store force).2.1.site.files = before :=
      congrArg (·.2.1.site.files) hfirst
    rw [← h.store] at hfetch
    exact ⟨after, hfetch, hafter, fun p hp => hleft ▸ halike p hp⟩

/-- One more fetcher is as after a fetch on its own, and its files are. -/
theorem next (h : After s force done t) (hs : s.Separate)
    (hf : s.index.fetchers[place]? = some f) (hplace : place ∉ done) {after : Files}
    (hafter : t.store.site.files.SameBut (f.spots s.store) after)
    (halike : ∀ p ∈ f.spots s.store,
      after.file? p = (f.fetch s.store force).2.1.site.files.file? p) :
    After s force (place :: done)
      ⟨t.index.setFetcher place (f.fetch s.store force).1, withFiles s.store after⟩ where
  snapshot := h.snapshot.trans (.setFetcher ..)
  fetchers := by
    intro i
    have hf' : t.index.fetchers[place]? = some f := by
      rw [h.fetchers, hf]
      simp [hplace]
    obtain ⟨hlt, -⟩ := List.getElem?_eq_some_iff.1 hf'
    by_cases hi : i = place
    · subst hi
      simp [Index.setFetcher, hlt, hf]
    · simp [Index.setFetcher, List.getElem?_set_ne (Ne.symm hi), h.fetchers, hi]
  store := rfl
  same := (h.same.trans hafter).mono
    (List.append_subset.2 ⟨List.Subset.refl _, spots_subset hf⟩)
  own := by
    intro i g hg p hp
    show after.file? p = _
    by_cases hi : i = place
    · subst hi
      obtain rfl : f = g := Option.some.inj (hf.symm.trans hg)
      rw [halike p hp, if_pos List.mem_cons_self]
    · rw [hafter.files p (hs.apart hi hg hf hp), h.own i g hg p hp]
      simp [hi]

/-- A fetch comes out as if it were the only one. -/
theorem fetch (h : After s force done t) (hs : s.Separate)
    (hf : s.index.fetchers[place]? = some f) (hplace : place ∉ done) :
    ((t.fetch place force).2 = .ok () ↔ (f.fetch s.store force).2.2 = .ok ()) ∧
      ((t.fetch place force).2 = .ok () →
        After s force (place :: done) (t.fetch place force).1) := by
  obtain ⟨hiff, hleft⟩ := h.fetch_alone hs hf hplace
  have hf' : t.index.fetchers[place]? = some f := by
    rw [h.fetchers, hf]
    simp [hplace]
  simp only [fetch_of_fetcher hf']
  refine ⟨hiff, fun hok => ?_⟩
  obtain ⟨after, hfetch, hafter, halike⟩ := hleft hok
  simp only [hfetch]
  exact h.next hs hf hplace hafter halike

end After

/-! ## Sequences in any order -/

theorem After.fetchInTurn (h : After s force done t) (hs : s.Separate) {order : List Nat}
    (hplaces : ∀ i ∈ order, i ∈ s.places) (hnodup : order.Nodup) (hnew : ∀ i ∈ order, i ∉ done) :
    ((fetchInTurn force order t).2.1 = .ok () ↔
        ∀ i ∈ order, ∀ f, s.index.fetchers[i]? = some f → (f.fetch s.store force).2.2 = .ok ()) ∧
      ((fetchInTurn force order t).2.1 = .ok () →
        After s force (order.reverse ++ done) (fetchInTurn force order t).1) := by
  induction order generalizing t done with
  | nil => exact ⟨by simp [Stock.fetchInTurn], fun _ => h⟩
  | cons place rest ih =>
    obtain ⟨hplace, hnodup⟩ := List.nodup_cons.1 hnodup
    have hlt : place < s.index.fetchers.length := by
      simpa [places] using hplaces place List.mem_cons_self
    have hf : s.index.fetchers[place]? = some s.index.fetchers[place] :=
      List.getElem?_eq_getElem hlt
    obtain ⟨hiff, hafter⟩ := h.fetch hs hf (hnew place List.mem_cons_self)
    have hrest (hok : (t.fetch place force).2 = .ok ()) := ih (hafter hok)
      (fun i hi => hplaces i (List.mem_cons_of_mem _ hi)) hnodup fun i hi => by
        have hne : i ≠ place := fun heq => hplace (heq ▸ hi)
        simpa [hne] using hnew i (List.mem_cons_of_mem _ hi)
    rw [List.forall_mem_cons]
    have hfirst : (∀ f, s.index.fetchers[place]? = some f →
        (f.fetch s.store force).2.2 = .ok ()) ↔ (t.fetch place force).2 = .ok () := by
      rw [hiff, hf]
      simp
    rw [hfirst]
    unfold Stock.fetchInTurn
    rcases hfetch : t.fetch place force with ⟨u, e | r⟩
    · simp
    · rw [hfetch] at hrest
      simpa using hrest rfl

/-- What is left depends only on which places were fetched. -/
theorem After.unique {done' : List Nat} (h : After s force done t) (h' : After s force done' t')
    (hdone : ∀ i, i ∈ done ↔ i ∈ done') :
    t.index = t'.index ∧ t.store = withFiles t'.store t.store.site.files ∧
      t'.store.site.files.SameBut [] t.store.site.files := by
  have hfetchers : t.index.fetchers = t'.index.fetchers := by
    refine List.ext_getElem? fun i => ?_
    rw [h.fetchers, h'.fetchers]
    simp only [hdone]
  refine ⟨?_, ?_, fun p => (h.same.dirs p).trans (h'.same.dirs p).symm, fun p _ => ?_⟩
  · obtain ⟨hslots, hbyId, hproviders, -⟩ := h.snapshot
    obtain ⟨hslots', hbyId', hproviders', -⟩ := h'.snapshot
    cases hindex : t.index
    cases hindex' : t'.index
    simp_all
  · rw [h'.store]
    exact h.store
  · by_cases hp : p ∈ s.spots
    · obtain ⟨f, hmem, hown⟩ := List.mem_flatMap.1 hp
      obtain ⟨i, hf⟩ := List.mem_iff_getElem?.1 hmem
      rw [h.own i f hf p hown, h'.own i f hf p hown]
      simp only [hdone]
    · rw [h.same.files p hp, h'.same.files p hp]

/-! ## What a tracker is told -/

/-- The amounts of the increments among some events. -/
def increments (events : List Progress.Event) : List UInt64 :=
  events.filterMap fun
    | .increment amount => some amount
    | _ => none

/-- So many steps of one were told, and nothing that ends the work or changes its length. -/
structure Steps (n : Nat) (events : List Progress.Event) : Prop where
  increments : increments events = List.replicate n 1
  run : ∀ p : Progress, p.run events = { p with position := p.position + UInt64.ofNat n }

theorem Steps.nil : Steps 0 [] := ⟨rfl, fun p => by simp [Progress.run]⟩

theorem Steps.increment {n : Nat} {events : List Progress.Event} (h : Steps n events) :
    Steps (n + 1) (.increment 1 :: events) := by
  refine ⟨by simpa [Stock.increments, List.replicate_succ] using h.increments, fun p => ?_⟩
  have hone : UInt64.ofNat (n + 1) = 1 + UInt64.ofNat n := by
    rw [UInt64.ofNat_add, UInt64.add_comm]
    rfl
  rw [Progress.run, List.foldl_cons, ← Progress.run, h.run, hone, ← UInt64.add_assoc]
  rfl

theorem Steps.message {n : Nat} {events : List Progress.Event} (h : Steps n events)
    (text : String) : Steps n (.message text :: events) :=
  ⟨h.increments, h.run⟩

theorem steps_fetchInTurn {places : List Nat} {s : Stock}
    (h : (fetchInTurn force places s).2.1 = .ok ()) :
    Steps places.length (fetchInTurn force places s).2.2 := by
  induction places generalizing s with
  | nil => exact .nil
  | cons place rest ih =>
    unfold fetchInTurn at h ⊢
    rcases hfetch : s.fetch place force with ⟨t, e | u⟩
    · simp [hfetch] at h
    · simp only [hfetch] at h ⊢
      exact (ih h).increment.message _

theorem steps_fetchTogether {places : List Nat} {s : Stock}
    (h : (fetchTogether force places s).2.1 = .ok ()) :
    Steps places.length (fetchTogether force places s).2.2 := by
  induction places generalizing s with
  | nil => exact .nil
  | cons place rest ih =>
    unfold fetchTogether at h ⊢
    rcases hfetch : s.fetch place force with ⟨t, e | u⟩
    · simp [hfetch] at h
    · simp only [hfetch] at h ⊢
      exact (ih h).increment

/-- A cycle that goes well tells its tracker of one step for each fetcher, of as many as it has
announced. -/
theorem told_of_fetchAll {inTurn : Bool} (h : (s.fetchAll force inTurn).2.1 = .ok ())
    (style : Progress.Style) :
    increments (s.fetchAll force inTurn).2.2 = List.replicate s.index.fetchers.length 1 ∧
      (({ style } : Progress).run (s.fetchAll force inTurn).2.2).length =
        UInt64.ofNat s.index.fetchers.length ∧
      (({ style } : Progress).run (s.fetchAll force inTurn).2.2).position =
        UInt64.ofNat s.index.fetchers.length := by
  have hsteps (hok : (s.fetchPlaces force inTurn).2.1 = .ok ()) :
      Steps s.index.fetchers.length (s.fetchPlaces force inTurn).2.2 := by
    have hlength : s.places.length = s.index.fetchers.length := List.length_range
    rw [← hlength]
    cases inTurn with
    | true => exact steps_fetchInTurn hok
    | false => exact steps_fetchTogether hok
  unfold fetchAll at h ⊢
  rw [← fetchPlaces] at h ⊢
  rcases hrun : s.fetchPlaces force inTurn with ⟨t, e | u, events⟩
  · simp [hrun] at h
  · rw [hrun] at hsteps
    obtain ⟨hincrements, hposition⟩ := hsteps rfl
    refine ⟨?_, ?_⟩
    · simpa [increments] using hincrements
    · simp only [Progress.run, List.foldl_append, List.cons_append, List.foldl_cons, List.foldl_nil]
      rw [← Progress.run, hposition]
      cases style <;> simp [Progress.step]

/-! ## Cycles -/

/-- Where every fetcher has an entry of its own and no source looks at the entries, it does not
matter in which order the fetchers are fetched. All fetches go well in one order if each of them
goes well on its own, and so in any order. Then they leave the same index, all fetchers with it, and
the same files, all entries among them; only the ages of directories are not looked at here. A cycle
that goes well tells its tracker of one step for each fetcher, of as many as it has announced. -/
theorem any_order_of_fetches (hs : s.Separate) (force : Bool) {order : List Nat}
    (horder : order.Perm s.places) :
    ((fetchInTurn force order s).2.1 = .ok () ↔ (s.fetchAll force true).2.1 = .ok ()) ∧
      ((s.fetchAll force true).2.1 = .ok () ↔
        ∀ f ∈ s.index.fetchers, (f.fetch s.store force).2.2 = .ok ()) ∧
      ((s.fetchAll force true).2.1 = .ok () →
        (fetchInTurn force order s).1.index.rebuild = (s.fetchAll force true).1.index ∧
        (fetchInTurn force order s).1.store =
          withFiles (s.fetchAll force true).1.store
            (fetchInTurn force order s).1.store.site.files ∧
        (s.fetchAll force true).1.store.site.files.SameBut []
          (fetchInTurn force order s).1.store.site.files) ∧
      ∀ inTurn, (s.fetchAll force inTurn).2.1 = .ok () → ∀ style : Progress.Style,
        increments (s.fetchAll force inTurn).2.2 = List.replicate s.index.fetchers.length 1 ∧
        (({ style } : Progress).run (s.fetchAll force inTurn).2.2).length =
          UInt64.ofNat s.index.fetchers.length ∧
        (({ style } : Progress).run (s.fetchAll force inTurn).2.2).position =
          UInt64.ofNat s.index.fetchers.length := by
  have hnodup : s.places.Nodup := List.nodup_range
  obtain ⟨hiff, hafter⟩ := (After.start s force).fetchInTurn hs
    (fun i hi => horder.mem_iff.1 hi) (horder.nodup_iff.2 hnodup) (by simp)
  obtain ⟨hiff', hafter'⟩ := (After.start s force).fetchInTurn hs
    (fun i (hi : i ∈ s.places) => hi) hnodup (by simp)
  have hsame : (fetchInTurn force order s).2.1 = .ok () ↔
      (fetchInTurn force s.places s).2.1 = .ok () := by
    rw [hiff, hiff']
    simp only [horder.mem_iff]
  have hcycle : (s.fetchAll force true).2.1 = (fetchInTurn force s.places s).2.1 := by
    unfold fetchAll
    rcases fetchInTurn force s.places s with ⟨t, e | u, events⟩ <;> simp
  have hall : (fetchInTurn force s.places s).2.1 = .ok () ↔
      ∀ f ∈ s.index.fetchers, (f.fetch s.store force).2.2 = .ok () := by
    rw [hiff']
    refine ⟨fun h f hf => ?_, fun h i _ f hf => h f (List.mem_of_getElem? hf)⟩
    obtain ⟨i, hlt, rfl⟩ := List.mem_iff_getElem.1 hf
    exact h i (List.mem_range.2 hlt) _ (List.getElem?_eq_getElem hlt)
  refine ⟨by rw [hsame, hcycle], by rw [hcycle, hall], fun hok => ?_,
    fun inTurn hok style => told_of_fetchAll hok style⟩
  rw [hcycle] at hok
  obtain ⟨hindex, hstore, hfiles⟩ := (hafter (hsame.2 hok)).unique (hafter' hok) fun i => by
    simp [horder.mem_iff]
  have hleft : (s.fetchAll force true).1 =
      { (fetchInTurn force s.places s).1 with
        index := (fetchInTurn force s.places s).1.index.rebuild } := by
    unfold fetchAll
    rcases hrun : fetchInTurn force s.places s with ⟨t, e | u, events⟩
    · simp [hrun] at hok
    · simp
  rw [hleft]
  exact ⟨congrArg _ hindex, hstore, hfiles⟩

/-! ### Two lists -/

/-- Two fetchers that find one package each, over an empty cache. -/
def twoLists : Stock where
  index := { fetchers := [Fetch.Fetcher.listing ["a"] "zlib", Fetch.Fetcher.listing ["b"] "curl"] }
  store := Fetch.Fetcher.emptyStore

/-- The second list may be fetched first. -/
theorem any_order_of_twoLists :
    (fetchInTurn true [1, 0] twoLists).2.1 = .ok () ∧
      (fetchInTurn true [1, 0] twoLists).1.index.rebuild = (twoLists.fetchAll true true).1.index ∧
      increments (twoLists.fetchAll true true).2.2 = [1, 1] := by
  have hkey : (Fetch.Fetcher.listing ["a"] "zlib").key ≠
      (Fetch.Fetcher.listing ["b"] "curl").key := by
    decide +kernel
  have hseparate : twoLists.Separate :=
    { archive := rfl
      keys := by simpa [twoLists] using hkey
      unmoved := by
        intro f hf files _
        obtain rfl | rfl : f = _ ∨ f = _ := by simpa [twoLists] using hf
        all_goals rfl }
  obtain ⟨hsame, hall, hleft, htold⟩ :=
    any_order_of_fetches hseparate true (show [1, 0].Perm twoLists.places from .swap 0 1 [])
  have hfetch (args : List String) (name : String) :
      ((Fetch.Fetcher.listing args name).fetch Fetch.Fetcher.emptyStore true).2.2 = .ok () := by
    have hempty := Fetch.Fetcher.emptyStore_coherent (Fetch.Fetcher.listing args name)
    have hstart := Fetch.Fetcher.startable_emptyStore (Fetch.Fetcher.listing args name)
    obtain ⟨_, _, hcall, -⟩ :=
      Fetch.Fetcher.fetch_listing hempty (hempty.due_of_none true) hstart
    rw [hcall]
  have hfetchers : twoLists.index.fetchers =
      [Fetch.Fetcher.listing ["a"] "zlib", Fetch.Fetcher.listing ["b"] "curl"] := rfl
  have hstore : twoLists.store = Fetch.Fetcher.emptyStore := rfl
  have hok : (twoLists.fetchAll true true).2.1 = .ok () := by
    rw [hall, hfetchers, hstore, List.forall_mem_cons, List.forall_mem_singleton]
    exact ⟨hfetch _ _, hfetch _ _⟩
  exact ⟨hsame.2 hok, (hleft hok).1, (htold true hok .silent).1⟩

end Depot.Stock
