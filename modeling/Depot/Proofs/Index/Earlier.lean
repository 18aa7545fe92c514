import Mathlib.Data.List.Nodup
import Depot.Proofs.Fetch.Frame
import Depot.Proofs.Index.Memory
import Depot.Proofs.Index.Searches

/-!
# What an answer owes to earlier queries

A provider of index files answers from its memory alone when anything there satisfies the query. So
its answer may depend on what was asked before: after a narrow query, a broader one has only what
the narrow one has brought (`one_release_remembered`). But it depends on nothing else. As long as
the files stay as they are, what the provider remembers follows from the answers that the earlier
queries would have had as first ones (`learn`), and a query that nothing remembered satisfies has
its own first answer, less the names that are remembered (`search_after_earlier`).
-/

namespace Depot.Index.Provider

open Fetch (JsonIndex.keeps JsonIndex.source JsonIndex.textAt JsonIndex.shelf)

variable {p : Provider} {d : Fetch.Decl} {place : Nat} {site : Site} {query : Package.Name}
  {max : Nat} {requests : List Request}

/-- The packages that a search finds. -/
def found (result : Outcome (List Entry)) : Outcome (List Package) :=
  result.map (·.map (·.package))

/-- The answer of a provider of index files that was never asked before. -/
def firstAnswer (d : Fetch.Decl) (place : Nat) (site : Site) (query : Package.Name) :
    Outcome (List Package) :=
  found ((fresh d JsonIndex.source).search place site query 0).2

/-- The packages whose names are not known. -/
def news (known packages : List Package) : List Package :=
  packages.filter fun x => known.all (·.name != x.name)

/-- What is known after one more query, if a query that nothing known satisfies is answered as the
first one. -/
def learn (first : Package.Name → Outcome (List Package)) (known : List Package)
    (query : Package.Name) : List Package :=
  if known.any (·.satisfies query) then known
  else
    match first query with
    | .ok packages => known ++ news known packages
    | .error _ => known

theorem remembered_eq_nil_iff :
    p.remembered place query 0 = [] ↔ ∀ x ∈ p.memory, x.satisfies query = false := by
  rw [← List.map_eq_nil_iff (f := (·.package)), map_package_remembered, List.filter_eq_nil_iff]
  simp only [Bool.not_eq_true]

/-! ## Providers of index files -/

/-- A provider of the index files of a declaration. -/
structure OfFiles (d : Fetch.Decl) (p : Provider) : Prop where
  decl : p.decl = d
  source : p.source = JsonIndex.source

theorem ofFiles_fresh (d : Fetch.Decl) : OfFiles d (fresh d JsonIndex.source) := ⟨rfl, rfl⟩

theorem OfFiles.search (h : OfFiles d p) : OfFiles d (p.search place site query max).1 := by
  rcases p.search_cases place site query max with
    ⟨e, rest, -, hsearch⟩ | ⟨f, hsearch⟩ | ⟨produced, p', rfl, hsearch⟩ <;> rw [hsearch]
  · exact h
  · exact ⟨h.decl, h.source⟩
  · exact ⟨h.decl, h.source⟩

theorem OfFiles.handed_eq (h : OfFiles d p) :
    p.handed site query = (fresh d JsonIndex.source).handed site query := by
  simp only [handed, records, h.decl, fresh]

theorem handed_names_nodup (p : Provider) (site : Site) (query : Package.Name) :
    ((p.handed site query).map (·.name)).Nodup := by
  have hids : ((p.handed site query).map (·.id)).Nodup :=
    nodup_foldl_addNew Package.id _ [] (by simp)
  rw [show Package.id = Package.Name.display ∘ Package.name from rfl, ← List.map_map] at hids
  exact List.Nodup.of_map _ hids

/-- Index files fail for a query, or they hand over the same packages whoever asks. -/
theorem ask_of_index_files (d : Fetch.Decl) (site : Site) (query : Package.Name) :
    (∃ f, ∀ p, OfFiles d p → p.ask site query = ({ p with calls := p.calls + 1 }, .error f)) ∨
      ∃ packages, packages = (fresh d JsonIndex.source).handed site query ∧
        ∀ p, OfFiles d p → p.ask site query =
          ({ p with calls := p.calls + 1
                    memory := packages.foldl (addNew Package.name) p.memory }, .ok ()) := by
  rcases hrun : (Fetch.JsonIndex.ofLocations site (JsonIndex.keeps d query) d.args).run
    { decl := d } with ⟨handle, e | u⟩
  · left
    refine ⟨.fetchFailed d.display e.message, fun p hp => ?_⟩
    obtain ⟨rfl, hsource⟩ := hp
    exact ask_of_fails hsource hrun
  · right
    obtain ⟨records, hrecords, hknown⟩ := Fetch.JsonIndex.exists_records_of_run hrun
    refine ⟨_, rfl, fun p hp => ?_⟩
    rw [← hp.handed_eq]
    obtain ⟨rfl, hsource⟩ := hp
    exact ask_of_records hsource hrecords hknown

/-- What satisfies a query after packages that do have come to a memory where nothing did. -/
theorem filter_foldl_addNew {known packages : List Package}
    (hnodup : (packages.map (·.name)).Nodup) (hall : ∀ x ∈ packages, x.satisfies query = true)
    (hnone : ∀ x ∈ known, x.satisfies query = false) :
    (packages.foldl (addNew Package.name) known).filter (·.satisfies query) =
      news known packages := by
  rw [foldl_addNew_eq_filter Package.name _ _ hnodup, List.filter_append]
  have hknown : known.filter (·.satisfies query) = [] :=
    List.filter_eq_nil_iff.2 fun x hx => by simp [hnone x hx]
  have hnews : (news known packages).filter (·.satisfies query) = news known packages :=
    List.filter_eq_self.2 fun x hx => hall x (List.mem_filter.1 hx).1
  rw [hknown]
  exact hnews

theorem news_nil (packages : List Package) : news [] packages = packages := by simp [news]

theorem search_of_failed {f : Failure} (hnone : ∀ x ∈ p.memory, x.satisfies query = false)
    (hask : p.ask site query = ({ p with calls := p.calls + 1 }, .error f)) :
    found (p.search place site query 0).2 = .error f ∧
      (p.search place site query 0).1.memory = p.memory := by
  rw [search_of_nil (remembered_eq_nil_iff.2 hnone), hask]
  exact ⟨rfl, rfl⟩

theorem search_of_handed {packages : List Package}
    (hnodup : (packages.map (·.name)).Nodup) (hall : ∀ x ∈ packages, x.satisfies query = true)
    (hnone : ∀ x ∈ p.memory, x.satisfies query = false)
    (hask : p.ask site query =
      ({ p with calls := p.calls + 1
                memory := packages.foldl (addNew Package.name) p.memory }, .ok ())) :
    found (p.search place site query 0).2 = .ok (news p.memory packages) ∧
      (p.search place site query 0).1.memory = p.memory ++ news p.memory packages := by
  rw [search_of_nil (remembered_eq_nil_iff.2 hnone), hask]
  refine ⟨congrArg Except.ok ?_, foldl_addNew_eq_filter Package.name _ _ hnodup⟩
  exact (map_package_remembered _ place query).trans (filter_foldl_addNew hnodup hall hnone)

/-- A query that nothing remembered satisfies goes the way it would go as the first one. -/
theorem search_of_unknown (d : Fetch.Decl) (place : Nat) (site : Site) (query : Package.Name) :
    (∃ f, firstAnswer d place site query = .error f ∧
        ∀ p, OfFiles d p → (∀ x ∈ p.memory, x.satisfies query = false) →
          found (p.search place site query 0).2 = .error f ∧
            (p.search place site query 0).1.memory = p.memory) ∨
      ∃ packages, firstAnswer d place site query = .ok packages ∧
        (∀ x ∈ packages, x ∈ (fresh d JsonIndex.source).finds site ∧ x.satisfies query = true) ∧
        ∀ p, OfFiles d p → (∀ x ∈ p.memory, x.satisfies query = false) →
          found (p.search place site query 0).2 = .ok (news p.memory packages) ∧
            (p.search place site query 0).1.memory = p.memory ++ news p.memory packages := by
  have hfresh : ∀ x ∈ (fresh d JsonIndex.source).memory, x.satisfies query = false :=
    fun x hx => nomatch hx
  rcases ask_of_index_files d site query with ⟨f, hask⟩ | ⟨packages, hpackages, hask⟩
  · refine .inl ⟨f, ?_, fun p hp hnone => search_of_failed hnone (hask p hp)⟩
    exact (search_of_failed hfresh (hask _ (ofFiles_fresh d))).1
  · have hsubset := handed_subset site query (fresh d JsonIndex.source)
    have hnodup := handed_names_nodup (fresh d JsonIndex.source) site query
    rw [← hpackages] at hsubset hnodup
    have hall : ∀ x ∈ packages, x.satisfies query = true := fun x hx => (hsubset x hx).2
    have hfirst : firstAnswer d place site query = .ok (news [] packages) :=
      (search_of_handed hnodup hall hfresh (hask _ (ofFiles_fresh d))).1
    exact .inr ⟨packages, by rw [hfirst, news_nil], hsubset,
      fun p hp hnone => search_of_handed hnodup hall hnone (hask p hp)⟩

/-- A query that something remembered satisfies is answered from memory. -/
theorem search_of_known (h : ∃ x ∈ p.memory, x.satisfies query = true) :
    found (p.search place site query 0).2 = .ok (p.memory.filter (·.satisfies query)) ∧
      (p.search place site query 0).1 = p := by
  obtain ⟨x, hx, hsatisfies⟩ := h
  rw [← map_package_remembered p place]
  cases hremembered : p.remembered place query 0 with
  | nil => simp [remembered_eq_nil_iff.1 hremembered x hx] at hsatisfies
  | cons e rest =>
    rw [search_of_cons hremembered]
    exact ⟨rfl, rfl⟩

theorem OfFiles.found_search (h : OfFiles d p)
    (hnone : ∀ x ∈ p.memory, x.satisfies query = false) :
    found (p.search place site query 0).2 =
      (firstAnswer d place site query).map (news p.memory) := by
  rcases search_of_unknown d place site query with
    ⟨f, hfirst, hfails⟩ | ⟨packages, hfirst, -, hlearns⟩ <;> rw [hfirst]
  · exact (hfails p h hnone).1
  · exact (hlearns p h hnone).1

/-- What is remembered after a query depends only on what was, and on first answers. -/
theorem OfFiles.memory_search (h : OfFiles d p) :
    (p.search place site query 0).1.memory =
      learn (firstAnswer d place site) p.memory query := by
  unfold learn
  cases hknown : p.memory.any (·.satisfies query) with
  | true => rw [(search_of_known (List.any_eq_true.1 hknown)).2, if_pos rfl]
  | false =>
    have hnone : ∀ x ∈ p.memory, x.satisfies query = false := by simpa using hknown
    rw [if_neg Bool.false_ne_true]
    rcases search_of_unknown d place site query with
      ⟨f, hfirst, hfails⟩ | ⟨packages, hfirst, -, hlearns⟩ <;> rw [hfirst]
    · exact (hfails p h hnone).2
    · exact (hlearns p h hnone).2

/-! ## Files that stay as they are -/

theorem OfFiles.search_congr (h : OfFiles d p) {site' : Site}
    (hsame : ∀ location ∈ d.args,
      JsonIndex.textAt site' location = JsonIndex.textAt site location) :
    p.search place site' query max = p.search place site query max := by
  have hscript : p.source.search ⟨site', p.calls, p.decl⟩ query =
      p.source.search ⟨site, p.calls, p.decl⟩ query := by
    rw [h.source, h.decl]
    exact Fetch.Fetcher.ofLocations_congr hsame
  have hask : p.ask site' query = p.ask site query := by
    unfold ask
    rw [hscript]
  simp only [Provider.search, hask]

/-- What is remembered after any number of queries. -/
theorem OfFiles.memory_after (h : OfFiles d p) (place : Nat)
    (hunchanged : ∀ r ∈ requests, ∀ location ∈ d.args,
      JsonIndex.textAt r.site location = JsonIndex.textAt site location) :
    OfFiles d (p.after place requests) ∧
      (p.after place requests).memory =
        (requests.map (·.query)).foldl (learn (firstAnswer d place site)) p.memory := by
  induction requests generalizing p with
  | nil => exact ⟨h, rfl⟩
  | cons r rest ih =>
    obtain ⟨hfirst, hrest⟩ := List.forall_mem_cons.1 hunchanged
    -- the limit of a search changes only what is said
    have hstep : (p.search place r.site r.query r.max).1.memory =
        learn (firstAnswer d place site) p.memory r.query := by
      rw [h.search_congr hfirst, search_of_limit]
      exact h.memory_search
    obtain ⟨hfiles, hmemory⟩ := ih h.search hrest
    exact ⟨hfiles, by rw [List.map_cons, List.foldl_cons, ← hstep]; exact hmemory⟩

/-! ## What was learned -/

section Learned

variable {first : Package.Name → Outcome (List Package)} {known : List Package}
  {queries : List Package.Name} {x : Package}

theorem mem_foldl_learn (hx : x ∈ queries.foldl (learn first) known) :
    x ∈ known ∨ ∃ q ∈ queries, ∃ packages, first q = .ok packages ∧ x ∈ packages := by
  induction queries generalizing known with
  | nil => exact .inl hx
  | cons q rest ih =>
    rcases ih hx with hlearned | ⟨q', hq', hlater⟩
    · unfold learn at hlearned
      split at hlearned
      · exact .inl hlearned
      · split at hlearned
        · next packages hfirst =>
          refine (List.mem_append.1 hlearned).imp_right fun hnew => ?_
          exact ⟨q, List.mem_cons_self, packages, hfirst, (List.mem_filter.1 hnew).1⟩
        · exact .inl hlearned
    · exact .inr ⟨q', List.mem_cons_of_mem _ hq', hlater⟩

theorem mem_finds_of_learned
    (hx : x ∈ queries.foldl (learn (firstAnswer d place site)) []) :
    x ∈ (fresh d JsonIndex.source).finds site := by
  rcases mem_foldl_learn hx with hnil | ⟨q, -, packages, hfirst, hmem⟩
  · cases hnil
  · rcases search_of_unknown d place site q with ⟨f, hfails, -⟩ | ⟨packages', hok, hsubset, -⟩
    · rw [hfirst] at hfails
      cases hfails
    · rw [hfirst] at hok
      obtain rfl := Except.ok.inj hok
      exact (hsubset x hmem).1

/-- Packages that are told apart by their ids have new names for a memory that lacks them. -/
theorem news_eq_self {finds packages : List Package} (hids : (finds.map (·.id)).Nodup)
    (hknown : ∀ y ∈ known, y ∈ finds ∧ y.satisfies query = false)
    (hpackages : ∀ x ∈ packages, x ∈ finds ∧ x.satisfies query = true) :
    news known packages = packages := by
  refine List.filter_eq_self.2 fun x hx => List.all_eq_true.2 fun y hy => ?_
  refine bne_iff_ne.2 fun hname => ?_
  obtain ⟨hx, hsatisfies⟩ := hpackages x hx
  obtain ⟨hy, hnot⟩ := hknown y hy
  obtain rfl : y = x := List.inj_on_of_nodup_map hids hy hx (congrArg Package.Name.display hname)
  rw [hnot] at hsatisfies
  cases hsatisfies

theorem map_news_firstAnswer (hids : (((fresh d JsonIndex.source).finds site).map (·.id)).Nodup)
    (hknown : ∀ y ∈ known,
      y ∈ (fresh d JsonIndex.source).finds site ∧ y.satisfies query = false) :
    (firstAnswer d place site query).map (news known) = firstAnswer d place site query := by
  rcases search_of_unknown d place site query with
    ⟨f, hfirst, -⟩ | ⟨packages, hfirst, hsubset, -⟩ <;> rw [hfirst]
  · rfl
  · exact congrArg Except.ok (news_eq_self hids hknown hsubset)

end Learned

/-- As long as its files do not change, a provider of index files depends on earlier queries, with
any limits, only by what it remembers from them, and this is what they would have had as first
answers. A query that something remembered satisfies is answered with all of this and nothing else;
any other query has its first answer, less names that are remembered. So where the ids in the files
are pairwise different, the answer is the first answer, unless something remembered satisfies the
query and is not the whole first answer. -/
theorem search_after_earlier (d : Fetch.Decl) (place : Nat) (site : Site) (earlier : List Request)
    (query : Package.Name)
    (hunchanged : ∀ r ∈ earlier, ∀ location ∈ d.args,
      JsonIndex.textAt r.site location = JsonIndex.textAt site location) :
    let p := (fresh d JsonIndex.source).after place earlier
    let answer := found (p.search place site query 0).2
    let first := firstAnswer d place site
    p.memory = (earlier.map (·.query)).foldl (learn first) [] ∧
      ((∃ x ∈ p.memory, x.satisfies query = true) →
        answer = .ok (p.memory.filter (·.satisfies query))) ∧
      ((∀ x ∈ p.memory, x.satisfies query = false) →
        answer = (first query).map (news p.memory)) ∧
      ((((fresh d JsonIndex.source).finds site).map (·.id)).Nodup →
        (answer = first query ↔ (∀ x ∈ p.memory, x.satisfies query = false) ∨
          first query = .ok (p.memory.filter (·.satisfies query)))) := by
  intro p answer first
  obtain ⟨hfiles, hmemory⟩ := (ofFiles_fresh d).memory_after place hunchanged
  have hknown : (∃ x ∈ p.memory, x.satisfies query = true) →
      answer = .ok (p.memory.filter (·.satisfies query)) := fun h => (search_of_known h).1
  have hunknown : (∀ x ∈ p.memory, x.satisfies query = false) →
      answer = (first query).map (news p.memory) := hfiles.found_search
  refine ⟨hmemory, hknown, hunknown, fun hids => ?_⟩
  by_cases hsome : ∃ x ∈ p.memory, x.satisfies query = true
  · have hnot : ¬ ∀ x ∈ p.memory, x.satisfies query = false := by
      obtain ⟨x, hx, hsatisfies⟩ := hsome
      intro hnone
      simp [hnone x hx] at hsatisfies
    rw [hknown hsome]
    exact ⟨fun h => .inr h.symm, fun h => (h.resolve_left hnot).symm⟩
  · have hnone : ∀ x ∈ p.memory, x.satisfies query = false := by simpa using hsome
    have hfinds : ∀ y ∈ p.memory,
        y ∈ (fresh d JsonIndex.source).finds site ∧ y.satisfies query = false :=
      fun y hy => ⟨mem_finds_of_learned (hmemory ▸ hy), hnone y hy⟩
    rw [hunknown hnone]
    exact ⟨fun _ => .inl hnone, fun _ => map_news_firstAnswer hids hfinds⟩

/-! ### A narrow query and a broader one -/

/-- A package in a version. -/
def release (version : String) : Package := { name := ⟨"pypi", "foo", version, "", false⟩ }

/-- Its name as a query for some versions. -/
def fooAt (version : String) : Package.Name := ⟨"pypi", "foo", version, "", false⟩

/-- An index file with two versions. -/
def twoReleases : Site := JsonIndex.shelf "pypi.jsonl" <|
  "\x7b\"name\":\x7b\"name\":\"foo\",\"version\":\"1\"\x7d\x7d\n" ++
  "\x7b\"name\":\x7b\"name\":\"foo\",\"version\":\"2\"\x7d\x7d\n"

/-- Its declaration. -/
def releases : Fetch.Decl := ⟨"json-index", "pypi", ["pypi.jsonl"]⟩

/-- A query for one of the versions. -/
def narrow : List Request := [{ site := twoReleases, query := fooAt "1" }]

theorem memory_after_narrow :
    ((fresh releases JsonIndex.source).after 0 narrow).memory = [release "1"] := by
  decide +kernel

theorem firstAnswer_releases :
    (firstAnswer releases 0 twoReleases (fooAt "")).toOption =
      some [release "1", release "2"] := by
  decide +kernel

theorem exists_known_after_narrow :
    ∃ x ∈ ((fresh releases JsonIndex.source).after 0 narrow).memory,
      x.satisfies (fooAt "") = true := by
  rw [memory_after_narrow]
  exact ⟨release "1", List.mem_singleton_self _, by decide⟩

/-- The query leaves one version in the memory, which is all that a query for any version gets. -/
theorem one_release_remembered :
    let p := (fresh releases JsonIndex.source).after 0 narrow
    let answer := found (p.search 0 twoReleases (fooAt "") 0).2
    let first := firstAnswer releases 0 twoReleases
    (∀ r ∈ narrow, ∀ location ∈ releases.args,
        JsonIndex.textAt r.site location = JsonIndex.textAt twoReleases location) ∧
      answer = .ok (p.memory.filter (·.satisfies (fooAt ""))) ∧ p.memory = [release "1"] ∧
      (first (fooAt "")).toOption = some [release "1", release "2"] ∧
      (answer = first (fooAt "") ↔ (∀ x ∈ p.memory, x.satisfies (fooAt "") = false) ∨
        first (fooAt "") = .ok (p.memory.filter (·.satisfies (fooAt "")))) := by
  intro p answer first
  have hunchanged : ∀ r ∈ narrow, ∀ location ∈ releases.args,
      JsonIndex.textAt r.site location = JsonIndex.textAt twoReleases location := by
    intro r hr location _
    obtain rfl := List.mem_singleton.1 hr
    rfl
  obtain ⟨-, hknown, -, hsame⟩ :=
    search_after_earlier releases 0 twoReleases narrow (fooAt "") hunchanged
  exact ⟨hunchanged, hknown exists_known_after_narrow, memory_after_narrow, firstAnswer_releases,
    hsame (by decide +kernel)⟩

/-- As the first query this one would have had both versions. -/
theorem broader_query_answered_from_memory :
    ¬ ∀ (d : Fetch.Decl) (place : Nat) (site : Site) (earlier : List Package.Name)
        (query : Package.Name),
      let p := (fresh d JsonIndex.source).after place
        (earlier.map fun query => ⟨site, query, 0⟩)
      found (p.search place site query 0).2 =
        found ((fresh d JsonIndex.source).search place site query 0).2 := by
  intro h
  have hanswer : found (((fresh releases JsonIndex.source).after 0 narrow).search 0 twoReleases
      (fooAt "") 0).2 = .ok _ := (search_of_known exists_known_after_narrow).1
  have hfirst : (firstAnswer releases 0 twoReleases (fooAt "")).toOption = some _ :=
    congrArg Except.toOption
      ((h releases 0 twoReleases [fooAt "1"] (fooAt "")).symm.trans hanswer)
  rw [firstAnswer_releases, memory_after_narrow] at hfirst
  revert hfirst
  decide

end Depot.Index.Provider
