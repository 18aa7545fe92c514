import Mathlib.Data.List.Flatten
import Depot.Proofs.Fetch.Coherence
import Depot.Proofs.Index.Arising
import Depot.Proofs.Index.Search
import Depot.Proofs.Stock.Cycle

/-!
# A search after a cycle

A search skips the slot of a fetcher that has no package in the query's distribution, or none for
its architecture. The sets that tell so are those of the packages' own names (`covers`), so a
package that satisfies the query by its own name is never skipped, but one that does so only by an
alias can be. The search agrees with the whole of the index exactly if nothing that was skipped
satisfies the query (`search_after_cycle`).
-/

namespace Depot

/-- Leaving some elements out changes a concatenation unless they contribute nothing. -/
theorem flatMap_filter_eq_iff {α β : Type} (keep : α → Bool) (g : α → List β) (l : List α) :
    (l.filter keep).flatMap g = l.flatMap g ↔ ∀ a ∈ l, keep a = false → g a = [] := by
  induction l with
  | nil => simp
  | cons a rest ih =>
    by_cases ha : keep a = true
    · rw [List.filter_cons_of_pos ha, List.flatMap_cons, List.flatMap_cons,
        List.append_cancel_left_eq, ih]
      simp [ha]
    · -- the lists may repeat elements, so what `a` adds is shown to be empty by the lengths
      have hfewer : ((rest.filter keep).flatMap g).length ≤ (rest.flatMap g).length :=
        (List.filter_sublist.flatMap g).length_le
      rw [List.filter_cons_of_neg ha, List.flatMap_cons]
      constructor
      · intro heq
        have hlength := congrArg List.length heq
        rw [List.length_append] at hlength
        have hnone : g a = [] := List.eq_nil_of_length_eq_zero (by omega)
        rw [hnone, List.nil_append] at heq
        simpa [hnone] using ih.1 heq
      · intro hall
        rw [hall a List.mem_cons_self (by simpa using ha), List.nil_append]
        exact ih.2 fun b hb => hall b (List.mem_cons_of_mem _ hb)

namespace Package

/-- Has any of the packages, by its own name, the distribution and has any the architecture of the
query? -/
def covers (packages : List Package) (query : Name) : Bool :=
  (query.distribution.isEmpty || packages.any (·.name.distribution == query.distribution)) &&
    (query.architecture.isEmpty || packages.any (·.name.architecture == query.architecture))

/-- A package that satisfies a query by its own name stands for its fetcher. -/
theorem covers_of_satisfies {packages : List Package} {p : Package} {query : Name}
    (hp : p ∈ packages) (h : p.name.satisfies query = true) : covers packages query = true := by
  simp only [Name.satisfies, Name.partAccepts, Bool.and_eq_true, Bool.or_eq_true, beq_iff_eq] at h
  obtain ⟨⟨⟨hdistribution, harchitecture⟩, -⟩, -⟩ := h
  simp only [covers, Bool.and_eq_true, Bool.or_eq_true, List.any_eq_true, beq_iff_eq]
  exact ⟨hdistribution.imp_right fun heq => ⟨p, hp, heq.symm⟩,
    harchitecture.imp_right fun heq => ⟨p, hp, heq.symm⟩⟩

end Package

theorem Fetch.Fetcher.mayHave_of_settled {f : Fetcher} (h : f.Settled) (query : Package.Name) :
    f.mayHave query = Package.covers f.packages query := by
  have hcontains (values : List String) (part : String) :
      values.eraseDups.contains part = values.contains part := by
    rw [Bool.eq_iff_iff, List.contains_iff_mem, List.contains_iff_mem, List.mem_eraseDups]
  have hany (part : Package.Name → String) (value : String) :
      (f.packages.map fun p => part p.name).contains value =
        f.packages.any fun p => part p.name == value := by
    rw [List.contains_eq_any_beq, List.any_map]
    congr 1
    funext p
    exact Bool.beq_comm
  simp only [mayHave, allows, h.distributions, h.architectures, hcontains, Package.covers]
  rw [hany (·.distribution), hany (·.architecture)]

namespace Index

variable {ix : Index} {query : Package.Name} {max : Nat}

theorem filter_entries_eq (h : ix.slots.length = ix.fetchers.length) (query : Package.Name) :
    ix.entries.filter (·.satisfies query) =
      (ix.fetchers.zip ix.slots).flatMap (·.2.filter (·.satisfies query)) := by
  have hslots : ix.slots = (ix.fetchers.zip ix.slots).map (·.2) :=
    (List.map_snd_zip (Nat.le_of_eq h)).symm
  rw [entries, List.filter_flatten, List.flatMap_def]
  conv_lhs => rw [hslots]
  rw [List.map_map]
  rfl

/-- A scan finds all that satisfies the query exactly if it skips nothing that does. -/
theorem scan_eq_filter_iff (h : ix.slots.length = ix.fetchers.length) :
    ix.scan query = ix.entries.filter (·.satisfies query) ↔
      ∀ pair ∈ ix.fetchers.zip ix.slots, pair.1.mayHave query = false →
        ∀ e ∈ pair.2, e.satisfies query = false := by
  rw [filter_entries_eq h]
  unfold scan
  rw [flatMap_filter_eq_iff]
  simp

theorem search_of_scan_ne_nil (h : ix.scan query ≠ []) (site : Site) (max : Nat) :
    ix.search site query max = (ix, .ok (limit max (ix.scan query))) := by
  have hlimit : limit max (ix.scan query) ≠ [] := by
    unfold limit
    split
    · exact h
    · next hmax => simp [hmax, h]
  rw [search_eq_match]
  split
  · next hnil => exact absurd hnil hlimit
  · next heq => rw [heq]

theorem satisfies_entriesOf_iff {f : Fetch.Fetcher} {place : Nat} :
    (∀ e ∈ entriesOf f place, e.satisfies query = false) ↔
      ∀ p ∈ f.packages, p.satisfies query = false := by
  rw [← map_package_entriesOf f place]
  simp [Entry.satisfies]

theorem zip_slots_of_rebuilt
    (h : ix.slots = ix.fetchers.zipIdx.map fun (f, place) => entriesOf f place) :
    ix.fetchers.zip ix.slots = ix.fetchers.zipIdx.map fun (f, place) => (f, entriesOf f place) := by
  have hzip := List.zip_map' (f := Prod.fst) (g := fun (f, place) => entriesOf f place)
    (l := ix.fetchers.zipIdx)
  rw [List.zipIdx_map_fst] at hzip
  rw [h, hzip]

end Index

namespace Stock

variable {s : Stock} {force inTurn : Bool}

/-- Right after a cycle a search finds what satisfies the query among the packages of the fetchers
that cover it. By their own names packages are always covered, so the search agrees with the whole
of the index exactly if no fetcher that is skipped has an alias that satisfies the query. -/
theorem search_after_cycle (h : (s.fetchAll force inTurn).2.1 = .ok ()) (query : Package.Name) :
    let ix := (s.fetchAll force inTurn).1.index
    ix.scan query =
        (ix.fetchers.zipIdx.filter fun (f, _) => Package.covers f.packages query).flatMap
          (fun (f, place) => (Index.entriesOf f place).filter (·.satisfies query)) ∧
      (∀ f ∈ ix.fetchers, ∀ p ∈ f.packages, p.name.satisfies query = true →
        Package.covers f.packages query = true) ∧
      (ix.scan query = ix.entries.filter (·.satisfies query) ↔
        ∀ f ∈ ix.fetchers, Package.covers f.packages query = false →
          ∀ p ∈ f.packages, p.satisfies query = false) ∧
      ∀ site max, ix.scan query ≠ [] →
        ix.search site query max = (ix, .ok (Index.limit max (ix.scan query))) := by
  intro ix
  have hslots : ix.slots = ix.fetchers.zipIdx.map fun (f, place) => Index.entriesOf f place :=
    slots_of_fetchAll h
  have hsettled (f : Fetch.Fetcher) (hf : f ∈ ix.fetchers) :
      f.mayHave query = Package.covers f.packages query :=
    Fetch.Fetcher.mayHave_of_settled (settled_of_fetchAll h hf) query
  have hzip := Index.zip_slots_of_rebuilt hslots
  refine ⟨?_, fun f _ p hp => Package.covers_of_satisfies hp, ?_, fun site max hne =>
    Index.search_of_scan_ne_nil hne site max⟩
  · unfold Index.scan
    rw [hzip, List.filter_map, List.flatMap_map]
    congr 1
    refine List.filter_congr fun pair hpair => ?_
    exact hsettled pair.1 (List.fst_mem_of_mem_zipIdx hpair)
  · rw [Index.scan_eq_filter_iff (by simp [hslots]), hzip, List.forall_mem_map]
    constructor
    · intro hall f hf hcovers
      obtain ⟨place, hplace⟩ := List.mem_iff_getElem?.1 hf
      have hpair : (f, place) ∈ ix.fetchers.zipIdx := List.mk_mem_zipIdx_iff_getElem?.2 hplace
      exact Index.satisfies_entriesOf_iff.1 (hall _ hpair ((hsettled f hf).trans hcovers))
    · intro hall pair hpair hskip
      have hf := List.fst_mem_of_mem_zipIdx hpair
      exact Index.satisfies_entriesOf_iff.2 (hall pair.1 hf ((hsettled _ hf).symm.trans hskip))

/-! A package of one distribution with an alias in another. -/

/-- A mail server, which also serves under a name of another distribution. -/
def mailServer : Package where
  name := ⟨"alpine", "postfix", "1", "", false⟩
  aliases := [⟨"debian", "mta", "1", "", false⟩]

/-- A fetcher whose source has the mail server. -/
def mailFetcher : Fetch.Fetcher where
  decl := ⟨"list", "alpine", []⟩
  source := { fetch := fun _ => .add mailServer fun _ => .done }

/-- The fetcher after a fetch. -/
def mailFetched : Fetch.Fetcher := mailFetcher.asking.loaded (some {}) [mailServer]

/-- A stock with one fetcher and an empty cache. -/
def ofFetcher (f : Fetch.Fetcher) : Stock :=
  { index := ({} : Index).addFetcher f, store := Fetch.Fetcher.emptyStore }

theorem fetchAll_ofFetcher {f f' : Fetch.Fetcher} {store : Fetch.Store}
    (h : f.fetch Fetch.Fetcher.emptyStore force = (f', store, .ok ())) :
    ((ofFetcher f).fetchAll force true).2.1 = .ok () ∧
      ((ofFetcher f).fetchAll force true).1 =
        { index := ({ fetchers := [f'] } : Index).rebuild, store } := by
  simp [fetchAll, places, fetchInTurn, fetch, ofFetcher, Index.addFetcher, Index.setFetcher, h,
    Index.rebuild, Index.withSlots]

theorem fetchAll_mailFetcher :
    ((ofFetcher mailFetcher).fetchAll false true).2.1 = .ok () ∧
      ((ofFetcher mailFetcher).fetchAll false true).1.index =
        ({ fetchers := [mailFetched] } : Index).rebuild := by
  have hcoherent := Fetch.Fetcher.emptyStore_coherent mailFetcher
  obtain ⟨p, q, hready⟩ := Fetch.Fetcher.emptyStore_ready mailFetcher
  obtain ⟨files, -, -, -, hfetch⟩ :=
    Fetch.Fetcher.fetch_of_done hready (hcoherent.due_of_none false) (by rfl)
  obtain ⟨hok, hstock⟩ := fetchAll_ofFetcher hfetch
  rw [hstock]
  exact ⟨hok, rfl⟩

/-- A match by an alias can be hidden. -/
theorem search_hides_alias :
    ¬∀ (s : Stock) (force inTurn : Bool), (s.fetchAll force inTurn).2.1 = .ok () →
      ∀ (query : Package.Name) (site : Site) (max : Nat),
        (∃ p ∈ (s.fetchAll force inTurn).1.index.packages, p.satisfies query = true) →
        ((s.fetchAll force inTurn).1.index.search site query max).2 =
          .ok (Index.limit max
            ((s.fetchAll force inTurn).1.index.entries.filter (·.satisfies query))) := by
  intro hall
  obtain ⟨hok, hindex⟩ := fetchAll_mailFetcher
  have hsearch := hall _ _ _ hok ⟨"debian", "mta", "", "", false⟩ {} 0
  rw [hindex] at hsearch
  exact absurd (hsearch ⟨mailServer, by decide, by decide⟩) (by decide)

theorem search_after_cycle_mailFetcher :
    let ix := ((ofFetcher mailFetcher).fetchAll false true).1.index
    ix.packages = [mailServer] ∧
      (ix.search {} ⟨"alpine", "postfix", "", "", false⟩ 0).2 = .ok ix.entries ∧
      ix.scan ⟨"debian", "mta", "", "", false⟩ ≠
        ix.entries.filter (·.satisfies ⟨"debian", "mta", "", "", false⟩) := by
  intro ix
  obtain ⟨hok, hindex⟩ := fetchAll_mailFetcher
  obtain ⟨-, -, hown, hsearch⟩ := search_after_cycle hok ⟨"alpine", "postfix", "", "", false⟩
  obtain ⟨-, -, hother, -⟩ := search_after_cycle hok ⟨"debian", "mta", "", "", false⟩
  rw [hindex] at hown hsearch hother
  have hix : ix = ({ fetchers := [mailFetched] } : Index).rebuild := hindex
  rw [hix]
  refine ⟨by decide, ?_, fun h => ?_⟩
  · rw [hsearch {} 0 (by decide), hown.2 (by decide)]
    decide
  · exact absurd (hother.1 h) (by decide)

end Stock

end Depot
