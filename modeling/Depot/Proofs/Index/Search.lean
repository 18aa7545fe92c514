import Depot.Proofs.Index.Limit

/-!
# What a search finds

Whether the slots of the fetchers or a provider answers a search, every entry that it finds
satisfies the query (`satisfies_of_search`). A search fails only when a provider does, and then with
the provider's own failure (`fetchFailed_of_search`). Without providers a search always comes to an
answer, which has only entries of the index, and leaves the index alone (`search_eq_scan`,
`mem_entries_of_scan`).
-/

namespace Depot.Index

variable {query : Package.Name} {e : Entry} {max : Nat}

theorem Entry.satisfies_iff :
    e.satisfies query = true ↔ ∃ name ∈ e.package.names, name.satisfies query = true := by
  simp [Entry.satisfies, Package.satisfies]

theorem satisfies_of_scan {ix : Index} (h : e ∈ ix.scan query) : e.satisfies query = true := by
  obtain ⟨_, -, he⟩ := List.mem_flatMap.1 h
  exact (List.mem_filter.1 he).2

theorem Provider.satisfies_of_remembered {p : Provider} {place : Nat}
    (h : e ∈ p.remembered place query max) : e.satisfies query = true := by
  rw [remembered_eq] at h
  exact (List.mem_filter.1 (mem_of_mem_limit h)).2

theorem Provider.satisfies_of_search {p : Provider} {place : Nat} {site : Site}
    {results : List Entry} (h : (p.search place site query max).2 = .ok results)
    (he : e ∈ results) : e.satisfies query = true := by
  unfold Provider.search at h
  split at h
  · next heq =>
    obtain rfl := Except.ok.inj h
    exact p.satisfies_of_remembered (heq ▸ he)
  · split at h
    · cases h
    · obtain rfl := Except.ok.inj h
      exact Provider.satisfies_of_remembered he

theorem satisfies_of_searchProviders {ix : Index} {site : Site} {results : List Entry}
    (h : (ix.searchProviders site query max).2 = .ok results) (he : e ∈ results) :
    e.satisfies query = true := by
  unfold searchProviders at h
  split at h
  · obtain rfl := Except.ok.inj h
    cases he
  · split at h
    · obtain rfl := Except.ok.inj h
      cases he
    · exact Provider.satisfies_of_search h he

theorem satisfies_of_search {ix : Index} {site : Site} {results : List Entry}
    (h : (ix.search site query max).2 = .ok results) (he : e ∈ results) :
    e.satisfies query = true := by
  rw [search_eq_match] at h
  split at h
  · exact satisfies_of_searchProviders h he
  · next heq =>
    obtain rfl := Except.ok.inj h
    exact satisfies_of_scan (mem_of_mem_limit (heq ▸ he))

/-! ## Failures -/

theorem Provider.fetchFailed_of_ask {p : Provider} {site : Site} {f : Failure}
    (h : (p.ask site query).2 = .error f) : ∃ fetcher reason, f = .fetchFailed fetcher reason := by
  simp only [Provider.ask] at h
  split at h
  · exact ⟨_, _, (Except.error.inj h).symm⟩
  · cases h

theorem Provider.fetchFailed_of_search {p : Provider} {place : Nat} {site : Site} {f : Failure}
    (h : (p.search place site query max).2 = .error f) :
    ∃ fetcher reason, f = .fetchFailed fetcher reason := by
  unfold Provider.search at h
  split at h
  · cases h
  · split at h
    · next hask =>
      obtain rfl := Except.error.inj h
      exact Provider.fetchFailed_of_ask (congrArg Prod.snd hask)
    · cases h

theorem fetchFailed_of_search {ix : Index} {site : Site} {f : Failure}
    (h : (ix.search site query max).2 = .error f) :
    ∃ fetcher reason, f = .fetchFailed fetcher reason := by
  rw [search_eq_match] at h
  split at h
  · unfold searchProviders at h
    split at h
    · cases h
    · split at h
      · cases h
      · exact Provider.fetchFailed_of_search h
  · cases h

/-! ## Without providers -/

theorem search_eq_scan {ix : Index} (h : ix.providers = []) (site : Site) (query : Package.Name)
    (max : Nat) : ix.search site query max = (ix, .ok (limit max (ix.scan query))) := by
  have hproviders : ix.searchProviders site query max = (ix, .ok []) := by
    simp [searchProviders, providerFor?, h]
  rw [search_eq_match]
  split <;> rename_i heq
  · rw [heq, hproviders]
  · rw [heq]

theorem mem_entries_of_scan {ix : Index} (h : e ∈ ix.scan query) : e ∈ ix.entries := by
  obtain ⟨⟨f, slot⟩, hslot, he⟩ := List.mem_flatMap.1 h
  have hzip : (f, slot) ∈ ix.fetchers.zip ix.slots := (List.mem_filter.1 hslot).1
  exact List.mem_flatten.2 ⟨slot, (List.of_mem_zip hzip).2, (List.mem_filter.1 he).1⟩

end Depot.Index
