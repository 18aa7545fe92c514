import Mathlib.Data.Finset.Dedup
import Mathlib.Data.Finset.Card
import Depot.Proofs.Planner.Order

/-!
# How deep resolution goes

Resolution keeps no list of what it has visited. It ends all the same when the index has no
providers and every alternative has a name: each entry that is chosen for an alternative registers a
short name or a bare name that was not registered before (`namesLeft_lt`), and the index has only so
many of them. So the requests inside each other are at most two more than the short names and the
bare names of the index, whatever goes round among the dependencies (`resolve_finishes`). Below that
the bound for the depth is never reached, and a higher one changes nothing
(`resolution_ends_by_names`).
-/

namespace Depot

namespace Planner

open Plan (Resolution registrations seen?)

/-! ## More depth -/

/-- One way of resolving requests does what another one does, except where that one runs into its
bound. -/
def Outlasts (g f : Step) : Prop :=
  ∀ query s, (f query s).2 ≠ .error .tooDeep → g query s = f query s

theorem eq_of_tooDeep {α : Type} {x : Planner × Outcome α} (h : x.2 = .error .tooDeep) :
    ∃ t, x = (t, .error .tooDeep) :=
  ⟨x.1, Prod.ext rfl h⟩

theorem Outlasts.tryOptions {f g : Step} (h : Outlasts g f) {options : List Package.Name}
    {s : Planner} (hf : (tryOptions f options s).2 ≠ .error .tooDeep) :
    tryOptions g options s = tryOptions f options s := by
  induction options generalizing s with
  | nil => rfl
  | cons option rest ih =>
    have hsame : g option s = f option s := by
      refine h option s fun hdeep => hf ?_
      obtain ⟨t, hresult⟩ := eq_of_tooDeep hdeep
      simp only [Planner.tryOptions, hresult]
    simp only [Planner.tryOptions, hsame] at hf ⊢
    split
    · rfl
    · rfl
    · next hresult =>
      rw [hresult] at hf
      exact ih hf
    · rfl

theorem Outlasts.meetGroups {f g : Step} (h : Outlasts g f) {package : Package.Name}
    {groups : List (List Package.Name)} {added : List Index.Entry} {s : Planner}
    (hf : (meetGroups f package groups added s).2 ≠ .error .tooDeep) :
    meetGroups g package groups added s = meetGroups f package groups added s := by
  induction groups generalizing added s with
  | nil => rfl
  | cons group rest ih =>
    simp only [Planner.meetGroups] at hf ⊢
    split
    · next hskip =>
      rw [if_pos hskip] at hf
      exact ih hf
    · next hskip =>
      rw [if_neg hskip] at hf
      have hsame : Planner.tryOptions g (kept s.plan.options group) s =
          Planner.tryOptions f (kept s.plan.options group) s := by
        refine h.tryOptions fun hdeep => hf ?_
        obtain ⟨t, hresult⟩ := eq_of_tooDeep hdeep
        simp only [hresult]
      rw [hsame]
      split
      · rfl
      · next hresult =>
        rw [hresult] at hf
        exact ih hf
      · rfl
      · rfl

theorem Outlasts.take {f g : Step} (h : Outlasts g f) {parent : Option Index.Entry}
    {e : Index.Entry} {s : Planner} (hf : (take f parent e s).2 ≠ .error .tooDeep) :
    take g parent e s = take f parent e s := by
  simp only [Planner.take] at hf ⊢
  split
  · rfl
  · next hconflict =>
    rw [hconflict] at hf
    rw [h.meetGroups fun hdeep => hf ?_]
    obtain ⟨t, hresult⟩ := eq_of_tooDeep hdeep
    simp only [hresult]

theorem resolve_outlasts (site : Site) (depth : Nat) (parent : Option Index.Entry) :
    Outlasts (resolve site (depth + 1) parent) (resolve site depth parent) := by
  induction depth generalizing parent with
  | zero =>
    intro query s hf
    exact absurd rfl hf
  | succ depth ih =>
    intro query s hf
    rw [resolve] at hf ⊢
    rw [resolve]
    split
    · rfl
    · next hunregistered =>
      rw [hunregistered] at hf
      split
      · rfl
      · next hsearch =>
        rw [hsearch] at hf
        split
        · rfl
        · next hchoose =>
          simp only [hchoose] at hf
          exact (ih _).take hf

/-- What comes to an end at some depth comes to the same end at every greater one. -/
theorem resolve_of_le {site : Site} {depth more : Nat} {parent : Option Index.Entry}
    {query : Package.Name} {s : Planner} (hle : depth ≤ more)
    (hends : (resolve site depth parent query s).2 ≠ .error .tooDeep) :
    resolve site more parent query s = resolve site depth parent query s := by
  induction more, hle using Nat.le_induction with
  | base => rfl
  | succ more _ ih =>
    rw [← ih] at hends
    exact (resolve_outlasts site more parent query s hends).trans ih

/-! ## Names that are left -/

/-- What the names and aliases of entries have for one of their texts, each once. -/
def textsOf (f : Package.Name → String) (entries : List Index.Entry) : Finset String :=
  ((entries.flatMap (·.package.names)).map f).toFinset

/-- The short names of entries and of their aliases, each once. -/
def shortNames (entries : List Index.Entry) : Finset String := textsOf Package.Name.short entries

/-- The bare names of entries and of their aliases, each once. -/
def bareNames (entries : List Index.Entry) : Finset String := textsOf (·.name) entries

/-- How many short names and bare names of an index are not among those of the picked entries. -/
def namesLeft (ix : Index) (picked : List Index.Entry) : Nat :=
  (shortNames ix.entries \ shortNames picked).card + (bareNames ix.entries \ bareNames picked).card

/-- Two more than the short names and the bare names of an index. -/
def nestingBound (ix : Index) : Nat :=
  (shortNames ix.entries).card + (bareNames ix.entries).card + 2

theorem mem_textsOf {f : Package.Name → String} {entries : List Index.Entry} {text : String} :
    text ∈ textsOf f entries ↔ ∃ e ∈ entries, ∃ name ∈ e.package.names, f name = text := by
  simp only [textsOf, List.mem_toFinset, List.mem_map, List.mem_flatMap]
  constructor
  · rintro ⟨name, ⟨e, he, hname⟩, htext⟩
    exact ⟨e, he, name, hname, htext⟩
  · rintro ⟨e, he, name, hname, htext⟩
    exact ⟨name, ⟨e, he, hname⟩, htext⟩

theorem textsOf_mono (f : Package.Name → String) {picked more : List Index.Entry}
    (h : picked ⊆ more) : textsOf f picked ⊆ textsOf f more := by
  intro text htext
  obtain ⟨e, he, hname⟩ := mem_textsOf.1 htext
  exact mem_textsOf.2 ⟨e, h he, hname⟩

theorem left_subset (f : Package.Name → String) (all : List Index.Entry)
    {picked more : List Index.Entry} (h : picked ⊆ more) :
    textsOf f all \ textsOf f more ⊆ textsOf f all \ textsOf f picked :=
  Finset.sdiff_subset_sdiff le_rfl (textsOf_mono f h)

theorem card_left_le (f : Package.Name → String) (all : List Index.Entry)
    {picked more : List Index.Entry} (h : picked ⊆ more) :
    (textsOf f all \ textsOf f more).card ≤ (textsOf f all \ textsOf f picked).card :=
  Finset.card_le_card (left_subset f all h)

theorem card_left_lt {f : Package.Name → String} {all picked : List Index.Entry}
    {e : Index.Entry} {name : Package.Name} (he : e ∈ all) (hname : name ∈ e.package.names)
    (hnew : ∀ p ∈ picked, ∀ old ∈ p.package.names, f old ≠ f name) :
    (textsOf f all \ textsOf f (picked ++ [e])).card < (textsOf f all \ textsOf f picked).card := by
  have hleft : f name ∈ textsOf f all \ textsOf f picked := by
    refine Finset.mem_sdiff.2 ⟨mem_textsOf.2 ⟨e, he, name, hname, rfl⟩, fun htext => ?_⟩
    obtain ⟨p, hp, old, hold, hsame⟩ := mem_textsOf.1 htext
    exact hnew p hp old hold hsame
  have htaken : f name ∉ textsOf f all \ textsOf f (picked ++ [e]) := by
    intro htext
    refine (Finset.mem_sdiff.1 htext).2 (mem_textsOf.2 ⟨e, ?_, name, hname, rfl⟩)
    exact List.mem_append_right _ (List.mem_singleton_self e)
  have hsubset := left_subset f all (List.subset_append_left picked [e])
  apply Finset.card_lt_card
  apply (Finset.ssubset_iff_of_subset hsubset).2
  exact ⟨f name, hleft, htaken⟩

theorem namesLeft_le_of_subset {ix : Index} {picked more : List Index.Entry} (h : picked ⊆ more) :
    namesLeft ix more ≤ namesLeft ix picked :=
  Nat.add_le_add (card_left_le _ ix.entries h) (card_left_le _ ix.entries h)

theorem namesLeft_le (ix : Index) (picked : List Index.Entry) :
    namesLeft ix picked + 2 ≤ nestingBound ix := by
  have hshort := Finset.card_le_card
    (Finset.sdiff_subset : shortNames ix.entries \ shortNames picked ⊆ _)
  have hbare := Finset.card_le_card
    (Finset.sdiff_subset : bareNames ix.entries \ bareNames picked ⊆ _)
  exact Nat.add_le_add_right (Nat.add_le_add hshort hbare) 2

/-- An entry that is chosen for a request with a name, where that saw nothing, has a short name or a
bare name that was left. -/
theorem namesLeft_lt {ix : Index} {picked : List Index.Entry} {e : Index.Entry}
    {query : Package.Name} (he : e ∈ ix.entries) (hsatisfies : e.satisfies query = true)
    (hquery : query.name ≠ "") (hunseen : seen? (registrations picked) query = none) :
    namesLeft ix (picked ++ [e]) < namesLeft ix picked := by
  have hsub : picked ⊆ picked ++ [e] := List.subset_append_left _ _
  obtain ⟨name, hname, hmatch⟩ := Index.Entry.satisfies_iff.1 hsatisfies
  obtain ⟨hbare, hdistribution⟩ := Package.Name.asksFor_of_satisfies hquery hmatch
  by_cases hempty : query.distribution = ""
  · -- the bare name of the request is new
    have hnew : ∀ p ∈ picked, ∀ old ∈ p.package.names, old.name ≠ name.name := by
      intro p hp old hold hsame
      have hasks : query.AsksFor old := ⟨hbare.trans hsame.symm, .inl hempty⟩
      obtain ⟨r, hseen⟩ := Plan.seen?_of_asksFor
        (Plan.mem_registrations_iff.2 ⟨hp, hold⟩ : ⟨old, p⟩ ∈ registrations picked) hasks
      rw [hunseen] at hseen
      cases hseen
    exact Nat.add_lt_add_of_le_of_lt (card_left_le _ ix.entries hsub) (card_left_lt he hname hnew)
  · -- the short name of the request is new
    have hshort : query.short = name.short := by
      rw [Package.Name.short, hbare, hdistribution.resolve_left hempty, Package.Name.short]
    have hnew : ∀ p ∈ picked, ∀ old ∈ p.package.names, old.short ≠ name.short := by
      intro p hp old hold hsame
      obtain ⟨r, hlatest⟩ := Plan.latest?_isSome
        (Plan.mem_registrations_iff.2 ⟨hp, hold⟩ : ⟨old, p⟩ ∈ registrations picked)
      have hseen : seen? (registrations picked) query = some r := by
        rw [seen?, if_neg (by rwa [String.isEmpty_iff]), hshort, ← hsame]
        exact hlatest
      rw [hunseen] at hseen
      cases hseen
    exact Nat.add_lt_add_of_lt_of_le (card_left_lt he hname hnew) (card_left_le _ ix.entries hsub)

/-! ## Resolution ends -/

/-- A resolution that lets its parent go on: it is answered, or there is no candidate. -/
def GoesOn (r : Resolution) : Prop :=
  (∃ added, r = .resolved added) ∨ ∃ query, r = .notFound query

/-- Requests with names are resolved, and where the parent goes on it finds what it relied on. -/
def Finishes (Ready : Planner → Prop) (f : Step) : Prop :=
  ∀ query s, query.name ≠ "" → Ready s →
    ∃ t r, f query s = (t, .ok r) ∧ (GoesOn r → Ready t)

section

variable {Ready : Planner → Prop} {f : Step} (hf : Finishes Ready f)

include hf

theorem Finishes.tryOptions {options : List Package.Name} {s : Planner}
    (hnamed : ∀ option ∈ options, option.name ≠ "") (hs : Ready s) :
    ∃ t a, tryOptions f options s = (t, .ok a) ∧ ((∃ more, a = .met more) → Ready t) := by
  induction options generalizing s with
  | nil => exact ⟨s, .unmet, rfl, fun _ => hs⟩
  | cons option rest ih =>
    obtain ⟨t, r, hresult, hready⟩ := hf option s (hnamed option List.mem_cons_self) hs
    simp only [Planner.tryOptions, hresult]
    cases r with
    | resolved more => exact ⟨t, .met more, rfl, fun _ => hready (.inl ⟨more, rfl⟩)⟩
    | notFound query =>
      exact ih (fun option hoption => hnamed option (List.mem_cons_of_mem _ hoption))
        (hready (.inr ⟨query, rfl⟩))
    | conflict => exact ⟨t, _, rfl, by simp⟩
    | noCandidate => exact ⟨t, _, rfl, by simp⟩

theorem Finishes.meetGroups {package : Package.Name} {groups : List (List Package.Name)}
    {added : List Index.Entry} {s : Planner}
    (hnamed : ∀ option ∈ groups.flatten, option.name ≠ "") (hs : Ready s) :
    ∃ t r, meetGroups f package groups added s = (t, .ok r) := by
  induction groups generalizing added s with
  | nil => exact ⟨s, .resolved added, rfl⟩
  | cons group rest ih =>
    have hgroup : ∀ option ∈ kept s.plan.options group, option.name ≠ "" := by
      intro option hoption
      exact hnamed option (List.mem_append_left _ (List.mem_filter.1 hoption).1)
    have hrest : ∀ option ∈ rest.flatten, option.name ≠ "" :=
      fun option hoption => hnamed option (List.mem_append_right _ hoption)
    simp only [Planner.meetGroups]
    split
    · exact ih hrest hs
    · obtain ⟨t, a, hresult, hready⟩ := hf.tryOptions hgroup hs
      rw [hresult]
      cases a with
      | met more => exact ih hrest (hready ⟨more, rfl⟩)
      | unmet => exact ⟨t, _, rfl⟩
      | broken r => exact ⟨t, r, rfl⟩

theorem Finishes.take {parent : Option Index.Entry} {e : Index.Entry} {s : Planner}
    (hnamed : ∀ option ∈ e.package.depends.flatten, option.name ≠ "")
    (hs : Ready (s.takeUp parent e)) : ∃ t r, take f parent e s = (t, .ok r) := by
  simp only [Planner.take]
  split
  · exact ⟨_, _, rfl⟩
  · obtain ⟨t, r, hresult⟩ := hf.meetGroups hnamed hs
    rw [takeUp] at hresult
    rw [hresult]
    cases r <;> exact ⟨_, _, rfl⟩

end

/-- The index is the same, the tables hold what was picked, and fewer names than that are left. -/
structure Bounded (ix : Index) (bound : Nat) (s : Planner) : Prop where
  index : s.index = ix
  registered : s.plan.Registered
  namesLeft : namesLeft ix s.plan.picked < bound

section

variable {ix : Index} (hproviders : ix.providers = [])
  (hnamed : ∀ e ∈ ix.entries, ∀ option ∈ e.package.depends.flatten, option.name ≠ "")

include hproviders

theorem Bounded.resolve {site : Site} {bound depth : Nat} {parent : Option Index.Entry}
    {query : Package.Name} {s t : Planner} {r : Resolution} (hs : Bounded ix bound s)
    (h : resolve site depth parent query s = (t, .ok r)) (hr : GoesOn r) : Bounded ix bound t := by
  have hindex := resolve_index (hs.index ▸ hproviders) site depth parent query
  have hgrows := grows_resolve site depth parent query s
  rw [h] at hindex hgrows
  refine ⟨hindex.trans hs.index, ?_, ?_⟩
  · rcases hr with ⟨added, rfl⟩ | ⟨missing, rfl⟩
    · exact (course_of_resolve h).registered hs.registered
    · rw [(lacks_of_resolve h).2.plan_eq]
      exact hs.registered
  · exact (namesLeft_le_of_subset hgrows.picked.subset).trans_lt hs.namesLeft

include hnamed

/-- A request comes to an end if what it would choose leaves a state from which the alternatives
do. -/
theorem resolve_succ_finishes {site : Site} {depth : Nat} {parent : Option Index.Entry}
    {query : Package.Name} {s : Planner} (hindex : s.index = ix)
    (hf : ∀ e, Finishes (Bounded ix depth) (resolve site depth (some e)))
    (htakeUp : ∀ e ∈ ix.entries, e.satisfies query = true →
      s.plan.installedEntry? query = none → Bounded ix depth (s.takeUp parent e)) :
    ∃ t r, resolve site (depth + 1) parent query s = (t, .ok r) := by
  have hsearch : s.index.search site query 0 = (ix, .ok (ix.scan query)) := by
    rw [hindex]
    exact Index.search_eq_scan hproviders site query 0
  rw [resolve]
  split
  · exact ⟨_, _, rfl⟩
  · next hunregistered =>
    rw [hsearch]
    simp only
    split
    · exact ⟨_, _, rfl⟩
    · next e hchoose =>
      have hscan := mem_of_choose? hchoose
      have he : e ∈ ix.entries := Index.mem_entries_of_scan hscan
      have hs : ({ s with index := ix } : Planner) = s := by rw [← hindex]
      rw [hs]
      exact (hf e).take (hnamed e he)
        (htakeUp e he (Index.satisfies_of_scan hscan) hunregistered)

theorem resolve_finishes (site : Site) (depth : Nat) (parent : Option Index.Entry) :
    Finishes (Bounded ix depth) (resolve site depth parent) := by
  induction depth generalizing parent with
  | zero =>
    intro query s _ hs
    exact absurd hs.namesLeft (Nat.not_lt_zero _)
  | succ depth ih =>
    intro query s hquery hs
    have htakeUp : ∀ e ∈ ix.entries, e.satisfies query = true →
        s.plan.installedEntry? query = none → Bounded ix depth (s.takeUp parent e) := by
      intro e he hsatisfies hunregistered
      have hunseen : seen? (registrations s.plan.picked) query = none := by
        rwa [Plan.Holds.installedEntry? hs.registered, Option.map_eq_none_iff] at hunregistered
      refine ⟨hs.index, registered_takeUp hs.registered parent e, ?_⟩
      rw [takeUp_picked]
      have hless := namesLeft_lt he hsatisfies hquery hunseen
      have hbound := hs.namesLeft
      omega
    obtain ⟨t, r, hresult⟩ :=
      resolve_succ_finishes hproviders hnamed hs.index (fun e => ih (some e)) htakeUp
    exact ⟨t, r, hresult, hs.resolve hproviders hresult⟩

end

theorem nestingBound_le_depthBound (ix : Index) : nestingBound ix ≤ depthBound ix := by
  have hcard : ∀ f, (textsOf f ix.entries).card ≤ (ix.packages.flatMap Package.names).length := by
    intro f
    simpa only [textsOf, Index.packages, List.flatMap_map, List.length_map] using
      List.toFinset_card_le ((ix.entries.flatMap (·.package.names)).map f)
  have hshort : (shortNames ix.entries).card ≤ _ := hcard Package.Name.short
  have hbare : (bareNames ix.entries).card ≤ _ := hcard (·.name)
  calc (shortNames ix.entries).card + (bareNames ix.entries).card + 2
      ≤ 2 + 2 * (ix.packages.flatMap Package.names).length := by omega
    _ ≤ (2 + 2 * (ix.packages.flatMap Package.names).length) * (1 + 2 * ix.count) :=
      Nat.le_mul_of_pos_right _ (by omega)
    _ ≤ depthBound ix := Nat.le_add_right _ _

/-- A request comes to the same end with every bound from some depth on. -/
theorem exists_end_of_named {s : Planner} (hregistered : s.plan.Registered)
    (hproviders : s.index.providers = [])
    (hnamed : ∀ e ∈ s.index.entries, ∀ group ∈ e.package.depends, ∀ option ∈ group,
      option.name ≠ "")
    (site : Site) (parent : Option Index.Entry) (query : Package.Name) :
    ∃ t r, ∀ depth, nestingBound s.index ≤ depth →
      resolve site depth parent query s = (t, .ok r) := by
  have hoptions : ∀ e ∈ s.index.entries, ∀ option ∈ e.package.depends.flatten,
      option.name ≠ "" := by
    intro e he option hoption
    obtain ⟨group, hgroup, hmem⟩ := List.mem_flatten.1 hoption
    exact hnamed e he group hgroup option hmem
  -- this request need not have a name, so that its own choice may register nothing new
  have htakeUp : ∀ e ∈ s.index.entries, e.satisfies query = true →
      s.plan.installedEntry? query = none →
      Bounded s.index ((shortNames s.index.entries).card +
        (bareNames s.index.entries).card + 1) (s.takeUp parent e) := by
    intro e _ _ _
    refine ⟨rfl, registered_takeUp hregistered parent e, ?_⟩
    exact Nat.lt_of_succ_le (Nat.le_of_succ_le_succ (namesLeft_le s.index _))
  obtain ⟨t, r, hresult⟩ := resolve_succ_finishes hproviders hoptions rfl
    (fun e => resolve_finishes hproviders hoptions site _ (some e)) htakeUp
  refine ⟨t, r, fun depth hdepth => ?_⟩
  rw [← hresult]
  refine resolve_of_le hdepth ?_
  rw [hresult]
  simp

/-- A request from outside that comes to an end does not run into the bound. -/
theorem add_ne_tooDeep {s t : Planner} {site : Site} {query : Package.Name} {r : Resolution}
    (hresult : resolve site (depthBound s.index) none query s = (t, .ok r)) :
    (s.add site query).2 ≠ .error .tooDeep := by
  simp only [add, addWithin, hresult]
  cases r <;> simp [Plan.Resolution.outcome]

/-- Without providers, when all alternatives of the index have names, every request comes to an end
in every session, with no more requests inside each other than two and the number of short names and
of bare names. What it comes to does not depend on the bound from there on, and is what a request
from outside comes to. -/
theorem resolution_ends_by_names {s : Planner} {journal : List Recording} (h : Session s journal)
    (hproviders : s.index.providers = [])
    (hnamed : ∀ e ∈ s.index.entries, ∀ group ∈ e.package.depends, ∀ option ∈ group,
      option.name ≠ "")
    (site : Site) (parent : Option Index.Entry) (query : Package.Name) :
    (∃ t r, ∀ depth, nestingBound s.index ≤ depth →
      resolve site depth parent query s = (t, .ok r)) ∧
    (∀ depth, nestingBound s.index ≤ depth →
      s.addWithin site depth query = s.add site query) ∧
    (s.add site query).2 ≠ .error .tooDeep := by
  have hends (parent : Option Index.Entry) :=
    exists_end_of_named h.registered hproviders hnamed site parent query
  obtain ⟨t, r, hresult⟩ := hends none
  have hbound := hresult _ (nestingBound_le_depthBound s.index)
  refine ⟨hends parent, fun depth hdepth => ?_, add_ne_tooDeep hbound⟩
  simp only [add, addWithin, hbound, hresult depth hdepth]

/-- Two packages that need each other come to an end, in an index of four short names and four bare
names. -/
theorem cycle_ends :
    ∃ t, ∀ depth, 10 ≤ depth → resolve {} depth none (.parse "ping") withChain =
      (t, .ok (.resolved [entangled.entries[2], entangled.entries[3]])) := by
  obtain ⟨_, hsession⟩ := (Session.fresh entangled {}).serve {} [.parse "app"]
  obtain ⟨⟨t, r, hends⟩, -⟩ := resolution_ends_by_names hsession rfl (by decide) {} none
    (.parse "ping")
  have hbound : nestingBound withChain.index = 10 := by decide
  change ∀ depth, nestingBound withChain.index ≤ depth → _ at hends
  rw [hbound] at hends
  have hten : (resolve {} 10 none (.parse "ping") withChain).2 =
      .ok (.resolved [entangled.entries[2], entangled.entries[3]]) := by decide
  have hresult := hends 10 le_rfl
  obtain rfl : r = .resolved [entangled.entries[2], entangled.entries[3]] :=
    Except.ok.inj ((congrArg Prod.snd hresult).symm.trans hten)
  exact ⟨t, hends⟩

end Planner

end Depot
