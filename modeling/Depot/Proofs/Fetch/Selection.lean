import Depot.Proofs.Fetch.JsonIndex

/-!
# Searching index files against fetching them

A fetch of index files hands over all records, a search those that satisfy the query. The search
looks at a record before the handle has stamped its aliases, so it misses a record that satisfies
the query by nothing but an alias without a distribution (`misses`), and only then does it have less
than what the fetch has for the query (`search_selects`). This takes a query that names the
distribution of the declaration (`distribution_of_misses`).
-/

namespace Depot.Fetch.JsonIndex

open Handle (stamp kept Known)

variable {site : Site} {d : Decl} {query : Package.Name} {keep : Package → Bool}
  {records : List Package} {r : Package}

/-- Does a record satisfy the query only once its aliases are stamped? Then neither its name does,
nor an alias as it stands, but one that has no distribution of its own. -/
def misses (d : Decl) (query : Package.Name) (r : Package) : Bool :=
  !(stamp d r.name).satisfies query && !r.aliases.any (·.satisfies query) &&
    r.aliases.any fun a => a.distribution.isEmpty && (stamp d a).satisfies query

theorem misses_eq_true_iff :
    misses d query r = true ↔
      ((stamp d r.name).satisfies query = false ∧ ∀ a ∈ r.aliases, a.satisfies query = false) ∧
        ∃ a ∈ r.aliases, a.distribution = "" ∧ (stamp d a).satisfies query = true := by
  simp [misses]

theorem keeps_eq_false_iff :
    keeps d query r = false ↔
      (stamp d r.name).satisfies query = false ∧ ∀ a ∈ r.aliases, a.satisfies query = false := by
  simp [keeps, Package.satisfies, Package.names]

theorem stamp_of_empty {n : Package.Name} (h : n.distribution = "") :
    stamp d n = { n with distribution := d.distribution } := by
  rw [stamp, h]
  rfl

theorem stamp_of_own {n : Package.Name} (h : n.distribution ≠ "") : stamp d n = n := by
  rw [stamp, if_neg (by simpa using h)]

/-- A search keeps a record when the handle would have it for the query, unless it misses it. -/
theorem keeps_eq (d : Decl) (query : Package.Name) (r : Package) :
    keeps d query r = ((kept d r).satisfies query && !misses d query r) := by
  cases hkeeps : keeps d query r with
  | true =>
    have hfound : misses d query r = false := by
      refine Bool.eq_false_iff.2 fun hmisses => ?_
      rw [keeps_eq_false_iff.2 (misses_eq_true_iff.1 hmisses).1] at hkeeps
      cases hkeeps
    rw [satisfies_of_keeps hkeeps, hfound]
    rfl
  | false =>
    cases hsatisfies : (kept d r).satisfies query with
    | false => rfl
    | true =>
      have hunstamped := keeps_eq_false_iff.1 hkeeps
      rcases Handle.satisfies_kept_iff.1 hsatisfies with h | ⟨a, ha, h⟩
      · simp [hunstamped.1] at h
      · -- an alias with a distribution of its own would have been seen without a stamp
        have hempty : a.distribution = "" := by
          refine Decidable.by_contra fun hown => ?_
          rw [stamp_of_own hown, hunstamped.2 a ha] at h
          cases h
        rw [misses_eq_true_iff.2 ⟨hunstamped, a, ha, hempty, h⟩]
        rfl

theorem satisfies_of_misses (h : misses d query r = true) :
    (kept d r).satisfies query = true := by
  obtain ⟨-, a, ha, -, hsatisfies⟩ := misses_eq_true_iff.1 h
  exact Handle.satisfies_kept_iff.2 (.inr ⟨a, ha, hsatisfies⟩)

/-- Only a query that names the distribution of the declaration can miss a record. -/
theorem distribution_of_misses (h : misses d query r = true) :
    query.distribution ≠ "" ∧ query.distribution = d.distribution := by
  obtain ⟨⟨-, haliases⟩, a, ha, hempty, hsatisfies⟩ := misses_eq_true_iff.1 h
  have hnot := haliases a ha
  rw [stamp_of_empty hempty] at hsatisfies
  simp only [Package.Name.satisfies, Package.Name.partAccepts, hempty] at hsatisfies hnot
  -- the stamp makes a difference to the query's distribution and to nothing else
  by_cases hquery : query.distribution = "" <;> simp_all

/-! ## Both uses of the same files -/

/-- Index files whose packages have ids of their own hand over each record that is wanted. -/
theorem run_of_distinct (keep : Package → Bool)
    (hrecords : records? site d.args = some records) (hknown : ∀ r ∈ records, Known r)
    (hids : (records.map fun r => (kept d r).id).Nodup) :
    ∃ h, (ofLocations site keep d.args).run { decl := d } = (h, .ok ()) ∧
      h.packages = (records.filter keep).map (kept d) := by
  obtain ⟨h, hrun, htook⟩ := run_ofLocations keep (h := { decl := d }) hrecords rfl
    fun r hr _ => hknown r hr
  refine ⟨h, hrun, ?_⟩
  have hnodup : (((records.filter keep).map (kept d)).map (·.id)).Nodup := by
    rw [List.map_map]
    exact hids.sublist (List.filter_sublist.map _)
  rw [htook.packages, foldl_addNew_eq_filter Package.id _ _ hnodup]
  simp

/-- A selection of a list is all of it exactly if nothing is left out. -/
theorem map_filter_eq_map_iff {α β : Type} {f : α → β} {select : α → Bool} {l : List α} :
    (l.filter select).map f = l.map f ↔ ∀ a ∈ l, select a = true := by
  constructor
  · intro hsame
    have hlength := congrArg List.length hsame
    rw [List.length_map, List.length_map] at hlength
    exact List.length_filter_eq_length_iff.1 hlength
  · intro hall
    rw [List.filter_eq_self.2 hall]

/-- Over index files that can be read, with known architectures and with ids that are pairwise
different once the records are stamped, a fetch leaves all records in the handle, and a search those
that satisfy the query once they are stamped, without the records that it misses. So it leaves what
a fetch leaves for the query exactly if it misses none, as when the query does not name the
distribution of the declaration. -/
theorem search_selects (site : Site) (d : Decl) (query : Package.Name) (calls calls' : Nat)
    (records : List Package) (hrecords : records? site d.args = some records)
    (hknown : ∀ r ∈ records, Known r) (hids : (records.map fun r => (kept d r).id).Nodup) :
    ∃ fetched searched,
      (source.fetch ⟨site, calls, d⟩).run { decl := d } = (fetched, .ok ()) ∧
      (source.search ⟨site, calls', d⟩ query).run { decl := d } = (searched, .ok ()) ∧
      fetched.packages = records.map (kept d) ∧
      searched.packages =
        ((records.filter fun r => !misses d query r).map (kept d)).filter (·.satisfies query) ∧
      (searched.packages = fetched.packages.filter (·.satisfies query) ↔
        ∀ r ∈ records, misses d query r = false) ∧
      (query.distribution = "" ∨ query.distribution ≠ d.distribution →
        searched.packages = fetched.packages.filter (·.satisfies query)) := by
  obtain ⟨fetched, hfetch, hfetched⟩ :=
    run_of_distinct (fun _ => true) hrecords hknown hids
  obtain ⟨searched, hsearch, hsearched⟩ :=
    run_of_distinct (keeps d query) hrecords hknown hids
  have hall : fetched.packages = records.map (kept d) := by
    rw [hfetched, List.filter_eq_self.2 fun _ _ => rfl]
  -- what a fetch has for the query, less what the search misses of it
  have hkeeps : records.filter (keeps d query) =
      (records.filter fun r => (kept d r).satisfies query).filter fun r => !misses d query r := by
    rw [List.filter_filter]
    exact List.filter_congr fun r _ => (keeps_eq d query r).trans (Bool.and_comm _ _)
  have hselected : searched.packages =
      ((records.filter fun r => !misses d query r).map (kept d)).filter (·.satisfies query) := by
    rw [hsearched, hkeeps, List.filter_map, List.filter_filter, List.filter_filter]
    exact congrArg (List.map _) (List.filter_congr fun r _ => Bool.and_comm _ _)
  have hsame : searched.packages = fetched.packages.filter (·.satisfies query) ↔
      ∀ r ∈ records, misses d query r = false := by
    rw [hall, hsearched, hkeeps, List.filter_map]
    refine map_filter_eq_map_iff.trans ⟨fun hnone r hr => ?_, fun hnone r hr => ?_⟩
    · cases hmisses : misses d query r with
      | false => rfl
      | true =>
        have hmem : r ∈ records.filter fun r => (kept d r).satisfies query :=
          List.mem_filter.2 ⟨hr, satisfies_of_misses hmisses⟩
        simpa [hmisses] using hnone r hmem
    · rw [hnone r (List.mem_filter.1 hr).1]
      rfl
  refine ⟨fetched, searched, hfetch, hsearch, hall, hselected, hsame, fun hquery => ?_⟩
  refine hsame.2 fun r _ => Bool.eq_false_iff.2 fun hmisses => ?_
  obtain ⟨hnamed, hown⟩ := distribution_of_misses hmisses
  exact hquery.elim hnamed fun hother => hother hown

/-! ### An alias without a distribution -/

/-- A declaration of one index file. -/
def catalogue : Decl := ⟨"json-index", "pypi", ["pypi.jsonl"]⟩

/-- A record with an alias, neither of which says its distribution. -/
def aliased : Package :=
  { name := ⟨"", "bar", "", "", false⟩, aliases := [⟨"", "foo", "", "", false⟩] }

/-- An index file with this record. -/
def aliasedSite : Site :=
  shelf "pypi.jsonl" <|
    "\x7b\"name\":\x7b\"name\":\"bar\"\x7d," ++ "\"aliases\":[\x7b\"name\":\"foo\"\x7d]\x7d"

theorem known_aliased : ∀ r ∈ [aliased], Known r := by
  intro r hr n hn
  obtain rfl := List.mem_singleton.1 hr
  rcases List.mem_cons.1 hn with rfl | hn
  · rfl
  · obtain rfl := List.mem_singleton.1 hn
    rfl

/-- A search for the name has the package that a fetch has. -/
theorem selected_by_name :
    let query : Package.Name := ⟨"pypi", "bar", "", "", false⟩
    records? aliasedSite catalogue.args = some [aliased] ∧ (∀ r ∈ [aliased], Known r) ∧
      ([aliased].map fun r => (kept catalogue r).id).Nodup ∧
      ∃ fetched searched,
        (source.fetch ⟨aliasedSite, 0, catalogue⟩).run { decl := catalogue } = (fetched, .ok ()) ∧
        (source.search ⟨aliasedSite, 0, catalogue⟩ query).run { decl := catalogue } =
          (searched, .ok ()) ∧
        fetched.packages = [kept catalogue aliased] ∧
        searched.packages = fetched.packages.filter (·.satisfies query) := by
  intro query
  have hrecords : records? aliasedSite catalogue.args = some [aliased] := by decide +kernel
  have hids : ([aliased].map fun r => (kept catalogue r).id).Nodup := by decide +kernel
  obtain ⟨fetched, searched, hfetch, hsearch, hfetched, -, hsame, -⟩ :=
    search_selects aliasedSite catalogue query 0 0 [aliased] hrecords known_aliased hids
  exact ⟨hrecords, known_aliased, hids, fetched, searched, hfetch, hsearch, hfetched,
    hsame.2 (by decide +kernel)⟩

/-- A search for the alias does not. -/
theorem search_misses_alias :
    ¬ ∀ (site : Site) (d : Decl) (query : Package.Name) (records : List Package),
      records? site d.args = some records → (∀ r ∈ records, Known r) →
      (records.map fun r => (kept d r).id).Nodup →
        ((source.search ⟨site, 0, d⟩ query).run { decl := d }).1.packages =
          ((source.fetch ⟨site, 0, d⟩).run { decl := d }).1.packages.filter
            (·.satisfies query) := by
  intro h
  have hpackages := h aliasedSite catalogue ⟨"pypi", "foo", "", "", false⟩ [aliased]
    (by decide +kernel) known_aliased (by decide +kernel)
  revert hpackages
  decide +kernel

end Depot.Fetch.JsonIndex
