import Depot.Proofs.Fetch.JsonIndex
import Depot.Proofs.Index.Search

/-!
# What providers remember

A provider answers from its memory what it can, and its memory only grows (`Ahead`). So an answer
may depend on what was asked before. For a provider of index files that is in order for the queries
that it is asked (`Orderly`), it does not, as far as the choice of an entry goes: either the memory
has everything that there is for a query, and always has the same answer (`Ahead.remembered_eq`), or
a later answer begins with the earlier one and its entries differ in no preferred architecture
(`Provider.search_again`). The same then holds of an index (`search_again`).
-/

namespace Depot.Index

open Fetch (Handle JsonIndex.records? JsonIndex.keeps)

namespace Provider

variable {p p' p'' : Provider} {site : Site} {asked : Package.Name → Prop} {architecture : String}
  {place : Nat} {query query' : Package.Name}

/-- The records of a provider's index files, none if the files cannot be read. -/
def records (p : Provider) (site : Site) : List Package :=
  (JsonIndex.records? site p.decl.args).getD []

/-- The packages that a provider may come to remember. -/
def finds (p : Provider) (site : Site) : List Package :=
  (p.records site).map (Handle.kept p.decl)

/-- The packages that a provider remembers or may come to remember. -/
def pool (p : Provider) (site : Site) : List Package := p.memory ++ p.finds site

/-- What the source hands over for a query. -/
def handed (p : Provider) (site : Site) (query : Package.Name) : List Package :=
  (((p.records site).filter (JsonIndex.keeps p.decl query)).map (Handle.kept p.decl)).foldl
    (addNew Package.id) []

/-! ## Providers in order -/

/-- Under the name of everything that there is for a query, something is remembered. -/
def Knows (site : Site) (query : Package.Name) (p : Provider) : Prop :=
  ∀ x ∈ p.finds site, x.satisfies query = true → ∃ z ∈ p.memory, z.name = x.name

/-- No architecture is preferred, or all that there is for a query has the preferred one, or nothing
has. -/
def Alike (site : Site) (architecture : String) (query : Package.Name) (p : Provider) : Prop :=
  architecture = "" ∨
    (∀ x ∈ p.pool site, x.satisfies query = true →
      x.satisfies { query with architecture } = true) ∨
    ∀ x ∈ p.pool site, x.satisfies query = true →
      x.satisfies { query with architecture } = false

/-- Of what there is for a query, all is remembered or nothing, and every other query is answered
with all of it or nothing. -/
structure Whole (site : Site) (asked : Package.Name → Prop) (query : Package.Name) (p : Provider) :
    Prop where
  knows : (∃ x ∈ p.memory, x.satisfies query = true) → p.Knows site query
  apart : ∀ query', asked query' →
    (∃ x ∈ p.finds site, x.satisfies query = true ∧ x.satisfies query' = true) →
      ∀ y ∈ p.finds site, y.satisfies query = true → y.satisfies query' = true

/-- A query that a provider of index files answers alike at any time: its source refuses no record
and misses none, and what is remembered by then makes no difference to the choice. -/
structure Steady (site : Site) (asked : Package.Name → Prop) (architecture : String)
    (query : Package.Name) (p : Provider) : Prop where
  known : ∀ r ∈ p.records site, JsonIndex.keeps p.decl query r = true → Handle.Known r
  visible : ∀ r ∈ p.records site, (Handle.kept p.decl r).satisfies query = true →
    JsonIndex.keeps p.decl query r = true
  choice : p.Alike site architecture query ∨ p.Whole site asked query

/-- A provider of index files that is in order for the queries that it is asked; its packages are
told apart by their ids. -/
structure Orderly (site : Site) (asked : Package.Name → Prop) (architecture : String)
    (p : Provider) : Prop where
  source : p.source = Fetch.JsonIndex.source
  ids : ∀ r ∈ p.finds site, ∀ r' ∈ p.finds site, r.id = r'.id → r.name = r'.name
  steady : ∀ query, asked query → p.Steady site asked architecture query

/-! ## Providers that have been asked -/

/-- The same provider after some more queries. What it has learned comes behind what it knew, and
under other names. -/
structure Ahead (site : Site) (p p' : Provider) : Prop where
  decl : p'.decl = p.decl
  source : p'.source = p.source
  learned : ∃ more, p'.memory = p.memory ++ more ∧
    ∀ x ∈ more, x ∈ p.finds site ∧ ∀ y ∈ p.memory, y.name ≠ x.name

namespace Ahead

theorem refl (site : Site) (p : Provider) : Ahead site p p := ⟨rfl, rfl, [], by simp⟩

theorem records_eq (h : Ahead site p p') : p'.records site = p.records site := by
  rw [records, h.decl, records]

theorem finds_eq (h : Ahead site p p') : p'.finds site = p.finds site := by
  rw [finds, h.records_eq, h.decl, finds]

theorem trans (h : Ahead site p p') (h' : Ahead site p' p'') : Ahead site p p'' := by
  obtain ⟨more, hmore, hnew⟩ := h.learned
  obtain ⟨more', hmore', hnew'⟩ := h'.learned
  refine ⟨h'.decl.trans h.decl, h'.source.trans h.source, more ++ more', ?_, fun x hx => ?_⟩
  · rw [hmore', hmore, List.append_assoc]
  · rcases List.mem_append.1 hx with hx | hx
    · exact hnew x hx
    · obtain ⟨hfinds, hother⟩ := hnew' x hx
      refine ⟨h.finds_eq ▸ hfinds, fun y hy => hother y ?_⟩
      rw [hmore]
      exact List.mem_append_left _ hy

theorem memory_subset (h : Ahead site p p') : p.memory ⊆ p'.memory := by
  obtain ⟨more, hmore, -⟩ := h.learned
  rw [hmore]
  exact List.subset_append_left _ _

theorem mem_or_finds (h : Ahead site p p') {x : Package} (hx : x ∈ p'.memory) :
    x ∈ p.memory ∨ x ∈ p.finds site := by
  obtain ⟨more, hmore, hnew⟩ := h.learned
  rw [hmore, List.mem_append] at hx
  exact hx.imp_right fun hx => (hnew x hx).1

theorem pool_subset (h : Ahead site p p') : p'.pool site ⊆ p.pool site := by
  intro x hx
  rw [pool, h.finds_eq, List.mem_append] at hx
  exact List.mem_append.2 (hx.elim h.mem_or_finds .inr)

theorem knows (h : Ahead site p p') (hknows : p.Knows site query) : p'.Knows site query := by
  intro x hx hsatisfies
  obtain ⟨z, hz, hname⟩ := hknows x (h.finds_eq ▸ hx) hsatisfies
  exact ⟨z, h.memory_subset hz, hname⟩

theorem alike (h : Ahead site p p') (halike : p.Alike site architecture query) :
    p'.Alike site architecture query :=
  halike.imp_right (.imp (fun hall x hx => hall x (h.pool_subset hx))
    fun hnone x hx => hnone x (h.pool_subset hx))

end Ahead

/-! ## Asking -/

theorem handed_subset (site : Site) (query : Package.Name) (p : Provider) :
    ∀ x ∈ p.handed site query, x ∈ p.finds site ∧ x.satisfies query = true := by
  intro x hx
  obtain ⟨more, hmore, hnew⟩ := foldl_addNew_eq_append Package.id
    (((p.records site).filter (JsonIndex.keeps p.decl query)).map (Handle.kept p.decl)) []
  rw [handed, hmore, List.nil_append] at hx
  obtain ⟨r, hr, rfl⟩ := List.mem_map.1 (hnew x hx).1
  obtain ⟨hr, hkeeps⟩ := List.mem_filter.1 hr
  exact ⟨List.mem_map_of_mem hr, Fetch.JsonIndex.satisfies_of_keeps hkeeps⟩

theorem Orderly.exists_handed (hp : p.Orderly site asked architecture) (hquery : asked query)
    {x : Package} (hx : x ∈ p.finds site) (hsatisfies : x.satisfies query = true) :
    ∃ y ∈ p.handed site query, y.name = x.name := by
  obtain ⟨r, hr, rfl⟩ := List.mem_map.1 hx
  have hkeeps := (hp.steady query hquery).visible r hr hsatisfies
  obtain ⟨y, hy, hid⟩ := exists_key_of_mem Package.id
    (((p.records site).filter (JsonIndex.keeps p.decl query)).map (Handle.kept p.decl)) []
    (List.mem_map_of_mem (List.mem_filter.2 ⟨hr, hkeeps⟩))
  exact ⟨y, hy, hp.ids y (handed_subset site query p y hy).1 _ hx hid⟩

theorem ask_of_fails (hsource : p.source = Fetch.JsonIndex.source) {handle : Handle} {e : Failure}
    (hrun : (Fetch.JsonIndex.ofLocations site (JsonIndex.keeps p.decl query) p.decl.args).run
      { decl := p.decl } = (handle, .error e)) :
    p.ask site query =
      ({ p with calls := p.calls + 1 }, .error (.fetchFailed p.decl.display e.message)) := by
  have hscript : (p.source.search ⟨site, p.calls, p.decl⟩ query).run { decl := p.decl } =
      (handle, .error e) := by
    rw [hsource]
    exact hrun
  simp only [ask, hscript]

/-- Index files that can be read hand over all that is wanted of them, if none of it is refused. -/
theorem ask_of_records (hsource : p.source = Fetch.JsonIndex.source) {found : List Package}
    (hrecords : JsonIndex.records? site p.decl.args = some found)
    (hknown : ∀ r ∈ found, JsonIndex.keeps p.decl query r = true → Handle.Known r) :
    p.ask site query =
      ({ p with calls := p.calls + 1
                memory := (p.handed site query).foldl (addNew Package.name) p.memory },
        .ok ()) := by
  obtain ⟨handle, hrun, htook⟩ := Fetch.JsonIndex.run_ofLocations (JsonIndex.keeps p.decl query)
    (h := { decl := p.decl }) hrecords rfl hknown
  have hscript : (p.source.search ⟨site, p.calls, p.decl⟩ query).run { decl := p.decl } =
      (handle, .ok ()) := by
    rw [hsource]
    exact hrun
  have hpackages : handle.packages = p.handed site query := by
    rw [htook.packages, handed, records, hrecords]
    rfl
  simp only [ask, hscript, hpackages]
  rfl

/-- Index files that cannot be read fail for every query and have nothing to learn from; others
hand over all that there is. -/
theorem Orderly.ask_eq (hp : p.Orderly site asked architecture) (hquery : asked query) :
    (∃ e, ∀ p' : Provider, p'.decl = p.decl → p'.source = p.source →
        p'.ask site query = ({ p' with calls := p'.calls + 1 }, .error e)) ∧ p.finds site = [] ∨
      p.ask site query =
        ({ p with calls := p.calls + 1
                  memory := (p.handed site query).foldl (addNew Package.name) p.memory },
          .ok ()) := by
  cases hrecords : JsonIndex.records? site p.decl.args with
  | none =>
    left
    obtain ⟨handle, e, hrun⟩ := Fetch.JsonIndex.run_ofLocations_fails
      (JsonIndex.keeps p.decl query) hrecords { decl := p.decl }
    refine ⟨⟨.fetchFailed p.decl.display e.message, fun p' hdecl hsource => ?_⟩, ?_⟩
    · rw [← hdecl] at hrun ⊢
      exact ask_of_fails (hsource.trans hp.source) hrun
    · simp [finds, records, hrecords]
  | some found =>
    have hfound : p.records site = found := by simp [records, hrecords]
    exact .inr (ask_of_records hp.source hrecords (hfound ▸ (hp.steady query hquery).known))

theorem Orderly.ahead_ask (hp : p.Orderly site asked architecture) (hquery : asked query) :
    Ahead site p (p.ask site query).1 := by
  rcases hp.ask_eq hquery with ⟨⟨e, hask⟩, -⟩ | hask
  · rw [hask p rfl rfl]
    exact ⟨rfl, rfl, [], by simp⟩
  · rw [hask]
    obtain ⟨more, hmore, hnew⟩ :=
      foldl_addNew_eq_append Package.name (p.handed site query) p.memory
    exact ⟨rfl, rfl, more, hmore,
      fun x hx => ⟨(handed_subset site query p x (hnew x hx).1).1, (hnew x hx).2⟩⟩

/-- Once the source was asked for a query, everything that there is for it is known. -/
theorem Orderly.knows_ask (hp : p.Orderly site asked architecture) (hquery : asked query) :
    (p.ask site query).1.Knows site query := by
  intro x hx hsatisfies
  rw [(hp.ahead_ask hquery).finds_eq] at hx
  rcases hp.ask_eq hquery with ⟨-, hnothing⟩ | hask
  · rw [hnothing] at hx
    cases hx
  · obtain ⟨y, hy, hname⟩ := hp.exists_handed hquery hx hsatisfies
    obtain ⟨z, hz, hname'⟩ := exists_key_of_mem Package.name _ p.memory hy
    rw [hask]
    exact ⟨z, hz, hname'.trans hname⟩

/-- Asking for one query leaves all or nothing of another one in the memory. -/
theorem Orderly.whole_ask (hp : p.Orderly site asked architecture) (hquery : asked query)
    (hwhole : p.Whole site asked query') : (p.ask site query).1.Whole site asked query' := by
  have hahead := hp.ahead_ask hquery
  refine ⟨fun ⟨x, hx, hsatisfies⟩ => ?_, ?_⟩
  · by_cases hold : x ∈ p.memory
    · exact hahead.knows (hwhole.knows ⟨x, hold, hsatisfies⟩)
    · have hfinds := (hahead.mem_or_finds hx).resolve_left hold
      -- what is new was handed over, so that the query that was asked accepts it, too
      have hsatisfies' : x.satisfies query = true := by
        rcases hp.ask_eq hquery with ⟨⟨e, hask⟩, -⟩ | hask
        · rw [hask p rfl rfl] at hx
          exact absurd hx hold
        · rw [hask] at hx
          obtain ⟨more, hmore, hnew⟩ :=
            foldl_addNew_eq_append Package.name (p.handed site query) p.memory
          have hmem := (List.mem_append.1 (hmore ▸ hx)).resolve_left hold
          exact (handed_subset site query p x (hnew x hmem).1).2
      intro y hy hy'
      refine hp.knows_ask hquery y hy (hwhole.apart query hquery ?_ y (hahead.finds_eq ▸ hy) hy')
      exact ⟨x, hfinds, hsatisfies, hsatisfies'⟩
  · rw [hahead.finds_eq]
    exact hwhole.apart

theorem Orderly.orderly_ask (hp : p.Orderly site asked architecture) (hquery : asked query) :
    (p.ask site query).1.Orderly site asked architecture := by
  have hahead := hp.ahead_ask hquery
  refine ⟨hahead.source.trans hp.source, ?_, fun query' hquery' => ?_⟩
  · rw [hahead.finds_eq]
    exact hp.ids
  · obtain ⟨hknown, hvisible, hchoice⟩ := hp.steady query' hquery'
    refine ⟨?_, ?_, hchoice.imp hahead.alike (hp.whole_ask hquery)⟩
    · rw [hahead.records_eq, hahead.decl]
      exact hknown
    · rw [hahead.records_eq, hahead.decl]
      exact hvisible

/-! ## Searching -/

/-- What is said from the memory of a provider further ahead begins with what was said before, and
is no more than that if everything was known. -/
theorem Ahead.remembered (h : Ahead site p p') (place : Nat) (query : Package.Name) :
    ∃ rest, p'.remembered place query 0 = p.remembered place query 0 ++ rest ∧
      (p.Knows site query → rest = []) := by
  obtain ⟨more, hmore, hnew⟩ := h.learned
  let later : List Entry := (more.zipIdx p.memory.length).map fun x => ⟨x.1, .found place x.2⟩
  refine ⟨later.filter (·.satisfies query), ?_, fun hknows => ?_⟩
  · rw [remembered_eq, remembered_eq, entries_of_append hmore, List.filter_append]
    rfl
  · refine List.filter_eq_nil_iff.2 fun e he hsatisfies => ?_
    obtain ⟨⟨x, i⟩, hx, rfl⟩ := List.mem_map.1 he
    obtain ⟨hfinds, hother⟩ := hnew x (List.fst_mem_of_mem_zipIdx hx)
    obtain ⟨z, hz, hname⟩ := hknows x hfinds hsatisfies
    exact hother z hz hname

theorem Ahead.remembered_eq (h : Ahead site p p') (hknows : p.Knows site query) :
    p'.remembered place query 0 = p.remembered place query 0 := by
  obtain ⟨rest, hrest, hnothing⟩ := h.remembered place query
  rw [hrest, hnothing hknows, List.append_nil]

theorem mem_memory_of_remembered {e : Entry} (h : e ∈ p.remembered place query 0) :
    e.package ∈ p.memory := by
  have hmem : e.package ∈ (p.remembered place query 0).map (·.package) := List.mem_map_of_mem h
  rw [map_package_remembered] at hmem
  exact (List.mem_filter.1 hmem).1

theorem Orderly.search (hp : p.Orderly site asked architecture) (hquery : asked query)
    (place : Nat) :
    (p.search place site query 0).1.Orderly site asked architecture ∧
      Ahead site p (p.search place site query 0).1 := by
  cases hremembered : p.remembered place query 0 with
  | cons e rest =>
    rw [search_of_cons hremembered]
    exact ⟨hp, .refl site p⟩
  | nil =>
    rw [search_of_nil hremembered]
    exact ⟨hp.orderly_ask hquery, hp.ahead_ask hquery⟩

theorem mem_pool_of_search {results : List Entry}
    (hp : p.Orderly site asked architecture) (hquery : asked query)
    (h : (p.search place site query 0).2 = .ok results) {e : Entry} (he : e ∈ results) :
    e.package ∈ p.pool site := by
  cases hremembered : p.remembered place query 0 with
  | cons e' rest =>
    rw [search_of_cons hremembered] at h
    obtain rfl := Except.ok.inj h
    exact List.mem_append_left _ (mem_memory_of_remembered (hremembered ▸ he))
  | nil =>
    rw [search_of_nil hremembered] at h
    rcases hask : p.ask site query with ⟨p', error | u⟩
    · simp [hask, Except.map] at h
    · have hahead := hp.ahead_ask hquery
      simp only [hask, Except.map, Except.ok.injEq] at h hahead
      subst h
      exact hahead.pool_subset (List.mem_append_left _ (mem_memory_of_remembered he))

/-- Two results of a search for which a plan that prefers an architecture chooses the same entry:
the second one is the first, or goes on where the first has ended with entries that are no other as
to this architecture. -/
inductive Agrees (architecture : String) (query : Package.Name) :
    Outcome (List Entry) → Outcome (List Entry) → Prop where
  | same (r : Outcome (List Entry)) : Agrees architecture query r r
  | longer (e : Entry) (rest more : List Entry)
    (alike : architecture = "" ∨
      (∀ x ∈ e :: rest ++ more, x.satisfies { query with architecture } = true) ∨
      ∀ x ∈ e :: rest ++ more, x.satisfies { query with architecture } = false) :
    Agrees architecture query (.ok (e :: rest)) (.ok (e :: rest ++ more))

/-- An answer from memory is chosen from alike when it is repeated later. -/
theorem agrees_of_remembered (hp : p.Orderly site asked architecture) (hquery : asked query)
    (h : Ahead site p p') {e : Entry} {rest : List Entry}
    (hremembered : p.remembered place query 0 = e :: rest) :
    Agrees architecture query (.ok (e :: rest)) (p'.search place site query 0).2 := by
  rcases (hp.steady query hquery).choice with halike | hwhole
  · obtain ⟨more, hmore, -⟩ := h.remembered place query
    rw [hremembered] at hmore
    rw [search_of_cons hmore]
    have hpool : ∀ x ∈ e :: rest ++ more, x.package ∈ p'.pool site ∧
        x.package.satisfies query = true := by
      rw [← hmore]
      intro x hx
      exact ⟨List.mem_append_left _ (mem_memory_of_remembered hx), satisfies_of_remembered hx⟩
    refine .longer e rest more ((h.alike halike).imp_right (.imp (fun hall x hx => ?_)
      fun hnone x hx => ?_))
    · exact hall x.package (hpool x hx).1 (hpool x hx).2
    · exact hnone x.package (hpool x hx).1 (hpool x hx).2
  · have hmem : e ∈ p.remembered place query 0 := hremembered ▸ List.mem_cons_self
    have hknows := hwhole.knows
      ⟨e.package, mem_memory_of_remembered hmem, satisfies_of_remembered hmem⟩
    rw [search_of_cons ((h.remembered_eq hknows).trans hremembered)]
    exact .same _

/-- What the source was asked for has the same answer later, from memory or from the source. -/
theorem search_of_asked (hp : p.Orderly site asked architecture)
    (hp' : p'.Orderly site asked architecture) (hquery : asked query)
    (hremembered : p.remembered place query 0 = []) (h : Ahead site (p.ask site query).1 p') :
    (p'.search place site query 0).2 =
      (p.ask site query).2.map fun _ => (p.ask site query).1.remembered place query 0 := by
  have hlater := (hp.ahead_ask hquery).trans h
  have hsame : p'.remembered place query 0 = (p.ask site query).1.remembered place query 0 :=
    h.remembered_eq (hp.knows_ask hquery)
  rcases hp.ask_eq hquery with ⟨⟨e, hfails⟩, -⟩ | hask
  · have hnothing : (p.ask site query).1.remembered place query 0 = [] := by
      rw [hfails p rfl rfl]
      exact hremembered
    rw [search_of_nil (hsame.trans hnothing), hfails p rfl rfl,
      hfails p' hlater.decl hlater.source]
    rfl
  · have hok : (p.ask site query).2 = .ok () := by rw [hask]
    rw [hok, ← hsame]
    cases hanswer : p'.remembered place query 0 with
    | cons e rest => rw [search_of_cons hanswer, Except.map]
    | nil =>
      -- the source hands over the same again, of which nothing is new
      have hknown : ∀ y ∈ p'.handed site query, ∃ z ∈ p'.memory, z.name = y.name := by
        intro y hy
        obtain ⟨hfinds, hsatisfies⟩ := handed_subset site query p' y hy
        exact h.knows (hp.knows_ask hquery) y hfinds hsatisfies
      rw [search_of_nil hanswer]
      rcases hp'.ask_eq hquery with ⟨⟨e, hfails⟩, -⟩ | hask'
      · simp [hfails p hlater.decl.symm hlater.source.symm] at hok
      · rw [foldl_addNew_eq_self Package.name _ _ hknown] at hask'
        rw [hask', Except.map, Except.map, ← hanswer]
        rfl

/-- A plan chooses the same entry when a query is repeated later. -/
theorem search_again (hp : p.Orderly site asked architecture)
    (hp' : p'.Orderly site asked architecture) (hquery : asked query)
    (h : Ahead site (p.search place site query 0).1 p') :
    Agrees architecture query (p.search place site query 0).2 (p'.search place site query 0).2 := by
  cases hremembered : p.remembered place query 0 with
  | cons e rest =>
    rw [search_of_cons hremembered] at h ⊢
    exact agrees_of_remembered hp hquery h hremembered
  | nil =>
    rw [search_of_nil hremembered] at h ⊢
    rw [search_of_asked hp hp' hquery hremembered h]
    exact .same _

/-- The queries among those that are asked which go to a provider. -/
def Serves (asked : Package.Name → Prop) (p : Provider) (query : Package.Name) : Prop :=
  asked query ∧ query.distribution = p.decl.distribution

theorem Ahead.serves_eq (h : Ahead site p p') : p'.Serves asked = p.Serves asked := by
  unfold Serves
  rw [h.decl]

end Provider

/-! ## Indexes -/

variable {ix ix' ix'' : Index} {site : Site} {asked : Package.Name → Prop} {architecture : String}
  {query : Package.Name} {place : Nat} {p p' : Provider}

/-- The packages that an index has or may come to find. -/
def pool (ix : Index) (site : Site) : List Package :=
  ix.packages ++ ix.providers.flatMap (·.pool site)

/-- An index whose providers are in order for what is asked, to which all alternatives of
dependencies belong. -/
structure Orderly (site : Site) (asked : Package.Name → Prop) (architecture : String)
    (ix : Index) : Prop where
  closed : ∀ x ∈ ix.pool site, ∀ option ∈ x.depends.flatten, asked option
  providers : ∀ p ∈ ix.providers, p.Orderly site (p.Serves asked) architecture

/-- The same index after some more searches. -/
structure Ahead (site : Site) (ix ix' : Index) : Prop where
  fetchers : ix'.fetchers = ix.fetchers
  slots : ix'.slots = ix.slots
  decls : ix'.providers.map (·.decl) = ix.providers.map (·.decl)
  providers : ∀ (place : Nat) (p' : Provider), ix'.providers[place]? = some p' →
    ∃ p, ix.providers[place]? = some p ∧ p.Ahead site p'

namespace Ahead

theorem refl (site : Site) (ix : Index) : Ahead site ix ix :=
  ⟨rfl, rfl, rfl, fun _ p hp => ⟨p, hp, .refl site p⟩⟩

theorem trans (h : Ahead site ix ix') (h' : Ahead site ix' ix'') : Ahead site ix ix'' := by
  refine ⟨h'.fetchers.trans h.fetchers, h'.slots.trans h.slots, h'.decls.trans h.decls, ?_⟩
  intro place p'' hp''
  obtain ⟨p', hp', hahead'⟩ := h'.providers place p'' hp''
  obtain ⟨p, hp, hahead⟩ := h.providers place p' hp'
  exact ⟨p, hp, hahead.trans hahead'⟩

theorem length_eq (h : Ahead site ix ix') : ix'.providers.length = ix.providers.length := by
  simpa using congrArg List.length h.decls

theorem exists_provider (h : Ahead site ix ix') (hp : ix.providers[place]? = some p) :
    ∃ p', ix'.providers[place]? = some p' ∧ p.Ahead site p' := by
  have hplace : place < ix'.providers.length := by
    rw [h.length_eq]
    exact (List.getElem?_eq_some_iff.1 hp).1
  obtain ⟨p₀, hp₀, hahead⟩ := h.providers place _ (List.getElem?_eq_getElem hplace)
  obtain rfl : p₀ = p := Option.some.inj (hp₀.symm.trans hp)
  exact ⟨_, List.getElem?_eq_getElem hplace, hahead⟩

theorem scan_eq (h : Ahead site ix ix') : ix'.scan query = ix.scan query := by
  rw [scan, h.fetchers, h.slots, scan]

theorem packages_eq (h : Ahead site ix ix') : ix'.packages = ix.packages := by
  rw [packages, entries, h.slots, packages, entries]

theorem providerFor?_eq (h : Ahead site ix ix') :
    ix'.providerFor? query = ix.providerFor? query := by
  have hdecls (ix : Index) : ix.providerFor? query =
      (ix.providers.map (·.decl)).findIdx? (·.distribution == query.distribution) := by
    rw [providerFor?, List.findIdx?_map]
    rfl
  rw [hdecls, h.decls, hdecls]

theorem pool_subset (h : Ahead site ix ix') : ix'.pool site ⊆ ix.pool site := by
  intro x hx
  rw [pool, h.packages_eq, List.mem_append] at hx
  refine List.mem_append.2 (hx.imp_right fun hx => ?_)
  obtain ⟨p', hp', hmem⟩ := List.mem_flatMap.1 hx
  obtain ⟨place, hplace⟩ := List.getElem?_of_mem hp'
  obtain ⟨p, hp, hahead⟩ := h.providers place p' hplace
  exact List.mem_flatMap.2 ⟨p, List.mem_of_getElem? hp, hahead.pool_subset hmem⟩

theorem set (hp : ix.providers[place]? = some p) (h : p.Ahead site p') :
    Ahead site ix { ix with providers := ix.providers.set place p' } := by
  refine ⟨rfl, rfl, ?_, fun i q hq => ?_⟩
  · obtain ⟨hplace, rfl⟩ := List.getElem?_eq_some_iff.1 hp
    rw [List.map_set, h.decl, ← List.map_set, List.set_getElem_self]
  · simp only [List.getElem?_set] at hq
    split at hq
    · next hsame =>
      subst hsame
      split at hq
      · obtain rfl := Option.some.inj hq
        exact ⟨p, hp, h⟩
      · cases hq
    · exact ⟨q, hq, .refl site q⟩

end Ahead

theorem search_of_scan {e : Entry} {rest : List Entry} (h : ix.scan query = e :: rest) :
    ix.search site query 0 = (ix, .ok (e :: rest)) := by
  simp [search_eq_match, limit, h]

theorem search_of_none (hscan : ix.scan query = []) (hplace : ix.providerFor? query = none) :
    ix.search site query 0 = (ix, .ok []) := by
  simp [search_eq_match, searchProviders, limit, hscan, hplace]

theorem search_of_provider (hscan : ix.scan query = [])
    (hplace : ix.providerFor? query = some place) (hp : ix.providers[place]? = some p) :
    ix.search site query 0 =
      ({ ix with providers := ix.providers.set place (p.search place site query 0).1 },
        (p.search place site query 0).2) := by
  simp [search_eq_match, searchProviders, limit, hscan, hplace, hp]

/-- A search is answered by the slots, or by nobody, or by the first provider of the query's
distribution. -/
theorem search_cases (ix : Index) (site : Site) (query : Package.Name) :
    (∃ e rest, ix.scan query = e :: rest ∧ ix.search site query 0 = (ix, .ok (e :: rest))) ∨
      (ix.scan query = [] ∧ ix.providerFor? query = none ∧
        ix.search site query 0 = (ix, .ok [])) ∨
      ∃ place p, ix.scan query = [] ∧ ix.providerFor? query = some place ∧
        ix.providers[place]? = some p ∧ query.distribution = p.decl.distribution ∧
        ix.search site query 0 =
          ({ ix with providers := ix.providers.set place (p.search place site query 0).1 },
            (p.search place site query 0).2) := by
  cases hscan : ix.scan query with
  | cons e rest => exact .inl ⟨e, rest, rfl, search_of_scan hscan⟩
  | nil =>
    right
    cases hplace : ix.providerFor? query with
    | none => exact .inl ⟨rfl, rfl, search_of_none hscan hplace⟩
    | some place =>
      obtain ⟨hlt, hdistribution, -⟩ := List.findIdx?_eq_some_iff_getElem.1 hplace
      have hp := List.getElem?_eq_getElem hlt
      exact .inr ⟨place, _, rfl, rfl, hp, (beq_iff_eq.1 hdistribution).symm,
        search_of_provider hscan hplace hp⟩

theorem Orderly.search (hix : ix.Orderly site asked architecture) (hquery : asked query) :
    (ix.search site query 0).1.Orderly site asked architecture ∧
      Ahead site ix (ix.search site query 0).1 := by
  rcases search_cases ix site query with
    ⟨e, rest, -, hsearch⟩ | ⟨-, -, hsearch⟩ | ⟨place, p, -, -, hp, hdistribution, hsearch⟩
  · rw [hsearch]
    exact ⟨hix, .refl site ix⟩
  · rw [hsearch]
    exact ⟨hix, .refl site ix⟩
  · have horderly := hix.providers p (List.mem_of_getElem? hp)
    obtain ⟨horderly', hahead⟩ := horderly.search ⟨hquery, hdistribution⟩ place
    have hset := Ahead.set hp hahead
    rw [hsearch]
    refine ⟨⟨fun x hx => hix.closed x (hset.pool_subset hx), fun q hq => ?_⟩, hset⟩
    rcases List.mem_or_eq_of_mem_set hq with hq | rfl
    · exact hix.providers q hq
    · rw [hahead.serves_eq]
      exact horderly'

theorem Orderly.asked_of_search (hix : ix.Orderly site asked architecture) (hquery : asked query)
    {results : List Entry} (h : (ix.search site query 0).2 = .ok results) :
    ∀ e ∈ results, ∀ option ∈ e.package.depends.flatten, asked option := by
  intro e he
  apply hix.closed
  rcases search_cases ix site query with
    ⟨e', rest, hscan, hsearch⟩ | ⟨-, -, hsearch⟩ | ⟨place, p, -, -, hp, hdistribution, hsearch⟩
  · rw [hsearch] at h
    obtain rfl := Except.ok.inj h
    exact List.mem_append_left _ (List.mem_map_of_mem (mem_entries_of_scan (hscan ▸ he)))
  · rw [hsearch] at h
    obtain rfl := Except.ok.inj h
    cases he
  · have hmem := List.mem_of_getElem? hp
    rw [hsearch] at h
    refine List.mem_append_right _ (List.mem_flatMap.2 ⟨p, hmem, ?_⟩)
    exact Provider.mem_pool_of_search (hix.providers p hmem) ⟨hquery, hdistribution⟩ h he

/-- A plan chooses the same entry when a query is repeated later. -/
theorem search_again (hix : ix.Orderly site asked architecture)
    (hix' : ix'.Orderly site asked architecture) (hquery : asked query)
    (h : Ahead site (ix.search site query 0).1 ix') :
    Provider.Agrees architecture query (ix.search site query 0).2 (ix'.search site query 0).2 := by
  have hlater := (hix.search hquery).2.trans h
  rcases search_cases ix site query with ⟨e, rest, hscan, hsearch⟩ | ⟨hscan, hplace, hsearch⟩ |
    ⟨place, p, hscan, hplace, hp, hdistribution, hsearch⟩
  · rw [hsearch, search_of_scan (hlater.scan_eq.trans hscan)]
    exact .same _
  · rw [hsearch, search_of_none (hlater.scan_eq.trans hscan) (hlater.providerFor?_eq.trans hplace)]
    exact .same _
  · rw [hsearch] at h ⊢
    have hset : (ix.providers.set place (p.search place site query 0).1)[place]? =
        some (p.search place site query 0).1 := by
      rw [List.getElem?_set_self (List.getElem?_eq_some_iff.1 hp).1]
    obtain ⟨p', hp', hahead⟩ := h.exists_provider hset
    have horderly := hix.providers p (List.mem_of_getElem? hp)
    have horderly' := hix'.providers p' (List.mem_of_getElem? hp')
    have hahead' := (horderly.search ⟨hquery, hdistribution⟩ place).2.trans hahead
    rw [hahead'.serves_eq] at horderly'
    rw [search_of_provider (hlater.scan_eq.trans hscan) (hlater.providerFor?_eq.trans hplace) hp']
    exact Provider.search_again horderly horderly' ⟨hquery, hdistribution⟩ hahead

end Depot.Index
