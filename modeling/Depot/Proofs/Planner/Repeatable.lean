import Depot.Proofs.Index.Memory
import Depot.Proofs.Planner.Rollback

/-!
# Planning again

A second plan over the same index meets providers that have learned from the first one. For
providers that are in order this makes no difference (`planning_is_repeatable`).

The proof goes along a run. A step is `Repeatable` from a plan if it comes to the same from every
index that is ahead of the one that it has left. The later step then leaves an index that is further
ahead still, so that steps one after the other are repeatable, too (`Repeatable.bind`). What a step
decides by the plan alone is the same anyway, and a search leads to the same choice
(`repeatable_look`).
-/

namespace Depot

namespace Planner

variable {site : Site} {asked : Package.Name → Prop} {o : Plan.Options} {α β : Type}

/-! ## Choice -/

theorem choose?_of_alike {query : Package.Name} {e : Index.Entry} {rest : List Index.Entry}
    (h : o.preferArchitecture = "" ∨
      (∀ x ∈ e :: rest,
        x.satisfies { query with architecture := o.preferArchitecture } = true) ∨
      ∀ x ∈ e :: rest,
        x.satisfies { query with architecture := o.preferArchitecture } = false) :
    Plan.choose? o query (e :: rest) = some e := by
  cases rest with
  | nil => rfl
  | cons next rest =>
    simp only [Plan.choose?]
    rcases h with hempty | hall | hnone
    · simp [hempty]
    · split
      · rfl
      · simp [hall e List.mem_cons_self]
    · split
      · rfl
      · have hfind : (e :: next :: rest).find?
            (·.satisfies { query with architecture := o.preferArchitecture }) = none :=
          List.find?_eq_none.2 fun x hx => by simp [hnone x hx]
        simp only [hfind, Option.getD_none]

theorem map_choose?_of_agrees {query : Package.Name} {r r' : Outcome (List Index.Entry)}
    (h : Index.Provider.Agrees o.preferArchitecture query r r') :
    r'.map (Plan.choose? o query) = r.map (Plan.choose? o query) := by
  cases h with
  | same => rfl
  | longer e rest more halike =>
    have hfirst : Plan.choose? o query (e :: rest) = some e :=
      choose?_of_alike (halike.imp_right (.imp
        (fun hall x hx => hall x (List.mem_append_left more hx))
        fun hnone x hx => hnone x (List.mem_append_left more hx)))
    have hlater : Plan.choose? o query (e :: rest ++ more) = some e := choose?_of_alike halike
    simp only [Except.map, hfirst, hlater]

/-! ## Repeatable steps -/

/-- A planner with some options over an index that is in order. -/
structure Fit (site : Site) (asked : Package.Name → Prop) (o : Plan.Options) (s : Planner) :
    Prop where
  options : s.plan.options = o
  orderly : s.index.Orderly site asked o.preferArchitecture

/-- A step from a plan that comes to the same whenever it is repeated later. -/
structure Repeatable (site : Site) (asked : Package.Name → Prop) (o : Plan.Options) (p : Plan)
    (f : Planner → Planner × α) : Prop where
  keeps : ∀ s, Fit site asked o s → s.plan = p →
    Fit site asked o (f s).1 ∧ s.index.Ahead site (f s).1.index
  again : ∀ s s', Fit site asked o s → Fit site asked o s' → s.plan = p → s'.plan = p →
    (f s).1.index.Ahead site s'.index → (f s').2 = (f s).2 ∧ (f s').1.plan = (f s).1.plan

namespace Repeatable

variable {p q : Plan}

theorem done (p : Plan) (a : α) : Repeatable site asked o p fun s => (s, a) where
  keeps s hs _ := ⟨hs, .refl site s.index⟩
  again _ _ _ _ hp hp' _ := ⟨rfl, hp'.trans hp.symm⟩

/-- A step that goes on from another plan. -/
theorem after {f g : Planner → Planner × α} (hg : Repeatable site asked o q g)
    (hq : q.options = p.options) (h : ∀ ix, f ⟨ix, p⟩ = g ⟨ix, q⟩) :
    Repeatable site asked o p f := by
  have hfit {s : Planner} (hs : Fit site asked o s) (hp : s.plan = p) :
      Fit site asked o ⟨s.index, q⟩ :=
    ⟨hq.trans (hp ▸ hs.options), hs.orderly⟩
  have hrun {s : Planner} (hp : s.plan = p) : f s = g ⟨s.index, q⟩ := by
    rw [← h s.index, ← hp]
  constructor
  · intro s hs hp
    rw [hrun hp]
    exact hg.keeps _ (hfit hs hp) rfl
  · intro s s' hs hs' hp hp' hahead
    rw [hrun hp] at hahead ⊢
    rw [hrun hp']
    exact hg.again _ _ (hfit hs hp) (hfit hs' hp') rfl rfl hahead

/-- A step after a step, where what comes second may depend on what the first one has come to. -/
theorem bind {f : Planner → Planner × α} {h : Planner → Planner × β}
    (hf : Repeatable site asked o p f)
    (hnext : ∀ s₀ t₀ a, Fit site asked o s₀ → s₀.plan = p → f s₀ = (t₀, a) →
      ∃ g, Repeatable site asked o t₀.plan g ∧ ∀ s t, Fit site asked o s → s.plan = p →
        f s = (t, a) → h s = g t) :
    Repeatable site asked o p h := by
  constructor
  · intro s hs hp
    obtain ⟨hfit, hahead⟩ := hf.keeps s hs hp
    obtain ⟨g, hg, hrun⟩ := hnext s _ _ hs hp rfl
    rw [hrun s _ hs hp rfl]
    obtain ⟨hfit', hahead'⟩ := hg.keeps _ hfit rfl
    exact ⟨hfit', hahead.trans hahead'⟩
  · intro s s' hs hs' hp hp' hahead
    obtain ⟨hfit, -⟩ := hf.keeps s hs hp
    obtain ⟨hfit', hlater⟩ := hf.keeps s' hs' hp'
    obtain ⟨g, hg, hrun⟩ := hnext s _ _ hs hp rfl
    rw [hrun s _ hs hp rfl] at hahead ⊢
    -- the first step is repeated before what its second step has left, too
    obtain ⟨hsame, hplan⟩ := hf.again s s' hs hs' hp hp' ((hg.keeps _ hfit rfl).2.trans hahead)
    rw [hrun s' (f s').1 hs' hp' (Prod.ext rfl hsame)]
    exact hg.again _ _ hfit hfit' rfl hplan (hahead.trans hlater)

end Repeatable

/-! ## Resolution -/

/-- A search and the choice among what it finds. -/
def look (site : Site) (query : Package.Name) (s : Planner) :
    Planner × Outcome (Option Index.Entry) :=
  ({ s with index := (s.index.search site query 0).1 },
    (s.index.search site query 0).2.map (Plan.choose? s.plan.options query))

theorem repeatable_look {query : Package.Name} (hquery : asked query) (p : Plan) :
    Repeatable site asked o p (look site query) := by
  constructor
  · intro s hs _
    obtain ⟨horderly, hahead⟩ := hs.orderly.search hquery
    exact ⟨⟨hs.options, horderly⟩, hahead⟩
  · intro s s' hs hs' hp hp' hahead
    refine ⟨?_, hp'.trans hp.symm⟩
    simp only [look, hs.options, hs'.options]
    exact map_choose?_of_agrees (Index.search_again hs.orderly hs'.orderly hquery hahead)

theorem asked_of_look {query : Package.Name} (hquery : asked query) {s t : Planner}
    {e : Index.Entry} (hs : Fit site asked o s) (h : look site query s = (t, .ok (some e))) :
    ∀ option ∈ e.package.depends.flatten, asked option := by
  have hresult := congrArg Prod.snd h
  simp only [look] at hresult
  cases hsearch : (s.index.search site query 0).2 with
  | error failure => simp [hsearch, Except.map] at hresult
  | ok results =>
    simp only [hsearch, Except.map, Except.ok.injEq] at hresult
    exact hs.orderly.asked_of_search hquery hsearch e (mem_of_choose? hresult)

section

variable {resolve : Step}
  (hresolve : ∀ query, asked query → ∀ p, Repeatable site asked o p (resolve query))

include hresolve

theorem repeatable_tryOptions {options : List Package.Name}
    (hasked : ∀ option ∈ options, asked option) (p : Plan) :
    Repeatable site asked o p (tryOptions resolve options) := by
  induction options generalizing p with
  | nil => exact .done p _
  | cons option rest ih =>
    obtain ⟨hoption, hrest⟩ := List.forall_mem_cons.1 hasked
    refine (hresolve option hoption p).bind fun s₀ t₀ result _ _ _ => ?_
    rcases result with e | r
    · exact ⟨_, .done _ (.error e), fun s t _ _ hrun => by simp only [tryOptions, hrun]⟩
    · cases r with
      | resolved more =>
        exact ⟨_, .done _ (.ok (.met more)), fun s t _ _ hrun => by simp only [tryOptions, hrun]⟩
      | notFound query =>
        exact ⟨_, ih hrest _, fun s t _ _ hrun => by simp only [tryOptions, hrun]⟩
      | conflict package other =>
        exact ⟨_, .done _ (.ok (.broken (.conflict package other))),
          fun s t _ _ hrun => by simp only [tryOptions, hrun]⟩
      | noCandidate package options =>
        exact ⟨_, .done _ (.ok (.broken (.noCandidate package options))),
          fun s t _ _ hrun => by simp only [tryOptions, hrun]⟩

theorem repeatable_meetGroups {package : Package.Name} {groups : List (List Package.Name)}
    (hasked : ∀ option ∈ groups.flatten, asked option) (added : List Index.Entry) (p : Plan) :
    Repeatable site asked o p (meetGroups resolve package groups added) := by
  induction groups generalizing added p with
  | nil => exact .done p _
  | cons group rest ih =>
    have hgroup : ∀ option ∈ kept p.options group, asked option := fun option hoption =>
      hasked option (List.mem_append_left _ (List.mem_filter.1 hoption).1)
    have hrest : ∀ option ∈ rest.flatten, asked option := fun option hoption =>
      hasked option (List.mem_append_right _ hoption)
    by_cases hskip : ((kept p.options group).isEmpty && !group.isEmpty) = true
    · refine (ih hrest added p).after rfl fun ix => ?_
      simp only [meetGroups, hskip, if_true]
    · refine (repeatable_tryOptions hresolve hgroup p).bind fun s₀ t₀ result _ _ _ => ?_
      rcases result with e | a
      · exact ⟨_, .done _ (.error e),
          fun s t _ hp hrun => by simp only [meetGroups, hp, if_neg hskip, hrun]⟩
      · cases a with
        | met more =>
          exact ⟨_, ih hrest (added ++ more) _,
            fun s t _ hp hrun => by simp only [meetGroups, hp, if_neg hskip, hrun]⟩
        | unmet =>
          exact ⟨_, .done _ (.ok (.noCandidate package group)),
            fun s t _ hp hrun => by simp only [meetGroups, hp, if_neg hskip, hrun]⟩
        | broken r =>
          exact ⟨_, .done _ (.ok r),
            fun s t _ hp hrun => by simp only [meetGroups, hp, if_neg hskip, hrun]⟩

theorem repeatable_take (parent : Option Index.Entry) {e : Index.Entry}
    (hasked : ∀ option ∈ e.package.depends.flatten, asked option) (p : Plan) :
    Repeatable site asked o p (take resolve parent e) := by
  -- the plans on the way do not depend on the index
  let introduced : Plan := (((⟨{}, p⟩ : Planner).connect parent e).introduce e).plan
  let taken : Plan := ((⟨{}, introduced⟩ : Planner).pick e).plan
  cases hconflict : conflictOf? introduced e with
  | some conflict =>
    refine (Repeatable.done introduced (.ok (.conflict conflict.1 conflict.2))).after rfl
      fun ix => ?_
    have hsame : conflictOf? (((⟨ix, p⟩ : Planner).connect parent e).introduce e).plan e =
        some conflict := hconflict
    simp only [take, hsame]
    rfl
  | none =>
    have hnone (s : Planner) (hp : s.plan = p) :
        conflictOf? ((s.connect parent e).introduce e).plan e = none := by
      subst hp
      exact hconflict
    have hmeet : Repeatable site asked o p fun s => meetGroups resolve e.name e.package.depends [e]
        (((s.connect parent e).introduce e).pick e) :=
      (repeatable_meetGroups hresolve hasked [e] taken).after (pick_options _ e) fun _ => rfl
    refine hmeet.bind fun s₀ t₀ result _ _ _ => ?_
    rcases result with failure | r
    · exact ⟨_, .done _ (.error failure),
        fun s t _ hp hrun => by simp only [take, hnone s hp, hrun]⟩
    · cases r with
      | resolved added =>
        have hinstall : Repeatable site asked o t₀.plan fun t =>
            (t.install e, (.ok (.resolved added) : Outcome Plan.Resolution)) :=
          (Repeatable.done (t₀.install e).plan _).after rfl fun _ => rfl
        exact ⟨_, hinstall, fun s t _ hp hrun => by simp only [take, hnone s hp, hrun]⟩
      | notFound query =>
        exact ⟨_, .done _ (.ok (.notFound query)),
          fun s t _ hp hrun => by simp only [take, hnone s hp, hrun]⟩
      | conflict package other =>
        exact ⟨_, .done _ (.ok (.conflict package other)),
          fun s t _ hp hrun => by simp only [take, hnone s hp, hrun]⟩
      | noCandidate package options =>
        exact ⟨_, .done _ (.ok (.noCandidate package options)),
          fun s t _ hp hrun => by simp only [take, hnone s hp, hrun]⟩

end

theorem resolve_eq_look (site : Site) (depth : Nat) (parent : Option Index.Entry)
    {query : Package.Name} {s : Planner} (h : s.plan.installedEntry? query = none) :
    resolve site (depth + 1) parent query s =
      match look site query s with
      | (t, .error e) => (t, .error e)
      | (t, .ok none) => (t, .ok (.notFound query))
      | (t, .ok (some e)) => take (resolve site depth (some e)) parent e t := by
  rcases hsearch : s.index.search site query 0 with ⟨ix, e | results⟩
  · simp only [resolve, h, look, hsearch, Except.map]
  · cases hchoose : Plan.choose? s.plan.options query results <;>
      simp only [resolve, h, look, hsearch, Except.map, hchoose]

theorem repeatable_resolve (depth : Nat) (parent : Option Index.Entry) {query : Package.Name}
    (hquery : asked query) (p : Plan) :
    Repeatable site asked o p (resolve site depth parent query) := by
  induction depth generalizing parent query p with
  | zero => exact .done p (Except.error Failure.tooDeep)
  | succ depth ih =>
    cases hinstalled : p.installedEntry? query with
    | some e =>
      exact (Repeatable.done ((⟨{}, p⟩ : Planner).connect parent e).plan
        (.ok (.resolved []))).after rfl fun ix => resolve_of_registered hinstalled
    | none =>
      have hlook {s : Planner} (hp : s.plan = p) :=
        resolve_eq_look site depth parent (hp ▸ hinstalled : s.plan.installedEntry? query = none)
      refine (repeatable_look hquery p).bind fun s₀ t₀ result hs₀ _ hrun₀ => ?_
      rcases result with e | _ | e
      · exact ⟨_, .done _ (.error e), fun s t _ hp hrun => by rw [hlook hp, hrun]⟩
      · exact ⟨_, .done _ (.ok (.notFound query)), fun s t _ hp hrun => by rw [hlook hp, hrun]⟩
      · have halternatives := asked_of_look hquery hs₀ hrun₀
        have htake := repeatable_take (fun _ hquery p => ih (some e) hquery p) parent halternatives
        exact ⟨_, htake t₀.plan, fun s t _ hp hrun => by rw [hlook hp, hrun]⟩

/-! ## Requests -/

theorem repeatable_addWithin (depth : Nat) {query : Package.Name} (hquery : asked query)
    (p : Plan) : Repeatable site asked o p (addWithin site depth query) := by
  refine (repeatable_resolve depth none hquery p).bind fun s₀ t₀ result _ _ _ => ?_
  -- a failed request goes back to the plan that it has started from
  have hrestore (e : Failure) : Repeatable site asked o t₀.plan fun t =>
      ({ t with plan := t.plan.restore p.checkpoint }, (.error e : Outcome (List Index.Entry))) :=
    (Repeatable.done (t₀.plan.restore p.checkpoint) _).after rfl fun _ => rfl
  rcases result with e | r
  · exact ⟨_, hrestore e, fun s t _ hp hrun => by simp only [addWithin, hrun, hp]⟩
  · cases r with
    | resolved added =>
      exact ⟨_, .done _ (.ok added), fun s t _ hp hrun => by simp only [addWithin, hrun]⟩
    | notFound query =>
      exact ⟨_, hrestore _, fun s t _ hp hrun => by simp only [addWithin, hrun, hp]; rfl⟩
    | conflict package other =>
      exact ⟨_, hrestore _, fun s t _ hp hrun => by simp only [addWithin, hrun, hp]; rfl⟩
    | noCandidate package options =>
      exact ⟨_, hrestore _, fun s t _ hp hrun => by simp only [addWithin, hrun, hp]; rfl⟩

theorem depthBound_of_ahead {ix ix' : Index} (h : ix.Ahead site ix') :
    depthBound ix' = depthBound ix := by
  have hcount : ix'.count = ix.count := by rw [Index.count, Index.entries, h.slots]; rfl
  have hempty : ix'.providers.isEmpty = ix.providers.isEmpty := by
    simpa using congrArg List.isEmpty h.decls
  rw [depthBound, h.packages_eq, hcount, hempty]
  rfl

theorem repeatable_add {query : Package.Name} (hquery : asked query) (p : Plan) :
    Repeatable site asked o p (add site query) := by
  constructor
  · intro s hs hp
    exact (repeatable_addWithin (depthBound s.index) hquery p).keeps s hs hp
  · intro s s' hs hs' hp hp' hahead
    have hrequest : Repeatable site asked o p (addWithin site (depthBound s.index) query) :=
      repeatable_addWithin _ hquery p
    have hbound : depthBound s'.index = depthBound s.index :=
      depthBound_of_ahead ((hrequest.keeps s hs hp).2.trans hahead)
    unfold add
    rw [hbound]
    exact hrequest.again s s' hs hs' hp hp' hahead

theorem repeatable_serve {queries : List Package.Name} (hasked : ∀ query ∈ queries, asked query)
    (p : Plan) : Repeatable site asked o p (serve site queries) := by
  induction queries generalizing p with
  | nil => exact .done p []
  | cons query rest ih =>
    obtain ⟨hquery, hrest⟩ := List.forall_mem_cons.1 hasked
    refine (repeatable_add hquery p).bind fun s₀ t₀ result _ _ _ => ?_
    have hserve : Repeatable site asked o t₀.plan fun t =>
        ((serve site rest t).1, result :: (serve site rest t).2) :=
      (ih hrest t₀.plan).bind fun _ _ results _ _ _ =>
        ⟨_, .done _ (result :: results), fun s t _ _ hrun => by rw [hrun]⟩
    exact ⟨_, hserve, fun s t _ _ hrun => by simp only [serve, hrun]⟩

/-! ## Plans -/

/-- Everything that is asked while requests are resolved: the requests, and the alternatives of all
dependencies. -/
def Asked (site : Site) (ix : Index) (queries : List Package.Name) (query : Package.Name) : Prop :=
  query ∈ queries ∨ ∃ x ∈ ix.pool site, query ∈ x.depends.flatten

/-- Planning the same requests again on an index whose providers are in order for everything that
is asked comes to the same results, packages and edges, whatever the providers have learned. -/
theorem planning_is_repeatable (site : Site) (ix : Index) (options : Plan.Options)
    (queries : List Package.Name)
    (h : ∀ p ∈ ix.providers,
      p.Orderly site (p.Serves (Asked site ix queries)) options.preferArchitecture) :
    let first := (fresh ix options).serve site queries
    let second := (fresh first.1.index options).serve site queries
    second.2 = first.2 ∧ second.1.plan = first.1.plan := by
  intro first second
  have hserve : Repeatable site (Asked site ix queries) options { options } (serve site queries) :=
    repeatable_serve (fun query hquery => .inl hquery) { options }
  have hfirst : Fit site (Asked site ix queries) options (fresh ix options) :=
    ⟨rfl, fun x hx option hoption => .inr ⟨x, hx, hoption⟩, h⟩
  obtain ⟨hfit, -⟩ := hserve.keeps _ hfirst rfl
  exact hserve.again _ (fresh first.1.index options) hfirst ⟨rfl, hfit.orderly⟩ rfl rfl
    (.refl site first.1.index)

/-! ### Two architectures, and an alias without distribution -/

/-- A provider for one index file. -/
def catalogue : Index.Provider where
  decl := ⟨"json-index", "pypi", ["pypi.jsonl"]⟩
  source := Fetch.JsonIndex.source

/-- An index with nothing else. -/
def pypi : Index := ({} : Index).addProvider catalogue

/-- A site that has the index file. -/
def siteOf (text : String) : Site := { files := ⟨⟨[(["pypi.jsonl"], .file text.toUTF8 0)]⟩⟩ }

/-- The file has two packages of one name. -/
def mixed : Site := siteOf <|
  "\x7b\"name\":\x7b\"name\":\"foo\",\"architecture\":\"i386\"\x7d\x7d\n" ++
  "\x7b\"name\":\x7b\"name\":\"foo\",\"architecture\":\"x86_64\"\x7d\x7d\n"

/-- A request for something that is missing, and one that both packages satisfy. -/
def requests : List Package.Name :=
  [⟨"pypi", "bar", "", "", false⟩, ⟨"pypi", "foo", "", "", false⟩]

/-- One of the packages, before or after it has got its distribution. -/
def foo (distribution architecture : String) : Package :=
  { name := ⟨distribution, "foo", "", architecture, false⟩ }

theorem records_mixed : catalogue.records mixed = [foo "" "i386", foo "" "x86_64"] := by
  decide +kernel

theorem finds_mixed : catalogue.finds mixed = [foo "pypi" "i386", foo "pypi" "x86_64"] := by
  rw [Index.Provider.finds, records_mixed]
  rfl

theorem pool_addProvider {p : Index.Provider} (h : p.memory = []) (site : Site) :
    (({} : Index).addProvider p).pool site = p.finds site := by
  simp [Index.pool, Index.addProvider, Index.packages, Index.entries, Index.Provider.pool, h]

theorem mem_requests {query : Package.Name}
    (h : catalogue.Serves (Asked mixed pypi requests) query) : query ∈ requests := by
  rcases h with ⟨hquery | ⟨x, hx, hoption⟩, -⟩
  · exact hquery
  · have hindependent : ∀ x ∈ catalogue.finds mixed, x.depends.flatten = [] := by
      rw [finds_mixed]
      decide
    rw [pypi, pool_addProvider rfl mixed] at hx
    rw [hindependent x hx] at hoption
    cases hoption

theorem orderly_catalogue :
    catalogue.Orderly mixed (catalogue.Serves (Asked mixed pypi requests)) "x86_64" := by
  have hknown : ∀ r ∈ catalogue.records mixed, Fetch.Handle.Known r := by
    have hfoo {architecture : String} (h : Package.checkArchitecture architecture = .ok ()) :
        Fetch.Handle.Known (foo "" architecture) := by
      intro n hn
      obtain rfl := List.mem_singleton.1 hn
      exact h
    rw [records_mixed]
    exact List.forall_mem_cons.2 ⟨hfoo rfl, List.forall_mem_cons.2 ⟨hfoo rfl, by simp⟩⟩
  refine ⟨rfl, ?_, fun query hquery => ⟨fun r hr _ => hknown r hr, ?_, .inr ⟨?_, ?_⟩⟩⟩
  · rw [finds_mixed]
    decide
  · have hvisible : ∀ query ∈ requests, ∀ r ∈ [foo "" "i386", foo "" "x86_64"],
        (Fetch.Handle.kept catalogue.decl r).satisfies query = true →
          Fetch.JsonIndex.keeps catalogue.decl query r = true := by decide
    rw [records_mixed]
    exact hvisible query (mem_requests hquery)
  · rintro ⟨x, hx, -⟩
    cases hx
  · have hapart : ∀ query ∈ requests, ∀ query' ∈ requests,
        (∃ x ∈ [foo "pypi" "i386", foo "pypi" "x86_64"],
          x.satisfies query = true ∧ x.satisfies query' = true) →
        ∀ y ∈ [foo "pypi" "i386", foo "pypi" "x86_64"],
          y.satisfies query = true → y.satisfies query' = true := by decide
    intro query' hquery'
    rw [finds_mixed]
    exact hapart query (mem_requests hquery) query' (mem_requests hquery')

/-- The first plan asks for both packages, the second one has both from memory. -/
theorem two_architectures_planned_again :
    let options : Plan.Options := { preferArchitecture := "x86_64" }
    let first := (fresh pypi options).serve mixed requests
    let second := (fresh first.1.index options).serve mixed requests
    (∀ p ∈ pypi.providers, p.Orderly mixed (p.Serves (Asked mixed pypi requests)) "x86_64") ∧
      second.2 = first.2 ∧ second.1.plan = first.1.plan := by
  intro options
  have horderly : ∀ p ∈ pypi.providers,
      p.Orderly mixed (p.Serves (Asked mixed pypi requests)) "x86_64" := by
    intro p hp
    obtain rfl := List.mem_singleton.1 hp
    exact orderly_catalogue
  exact ⟨horderly, planning_is_repeatable mixed pypi options requests horderly⟩

/-- The file has a package with an alias that does not say its distribution. -/
def nicknamed : Site :=
  siteOf "\x7b\"name\":\x7b\"name\":\"bar\"\x7d,\"aliases\":[\x7b\"name\":\"foo\"\x7d]\x7d"

/-- The source does not find the package by its alias, but when the package is asked for by its name
it is remembered with the distribution on the alias. So the second plan finds it by its alias. -/
theorem alias_found_only_later :
    ¬ ∀ (site : Site) (ix : Index) (options : Plan.Options) (queries : List Package.Name),
      (∀ f ∈ ix.fetchers, f.source = Fetch.JsonIndex.source) →
      (∀ p ∈ ix.providers, p.source = Fetch.JsonIndex.source) →
        let first := (fresh ix options).serve site queries
        let second := (fresh first.1.index options).serve site queries
        second.2 = first.2 ∧ second.1.plan.packages = first.1.plan.packages ∧
          second.1.plan.edges = first.1.plan.edges := by
  intro h
  have hproviders : ∀ p ∈ pypi.providers, p.source = Fetch.JsonIndex.source := by
    intro p hp
    obtain rfl := List.mem_singleton.1 hp
    rfl
  have hedges := (h nicknamed pypi {} [.parse "pypi/foo", .parse "pypi/bar"]
    (fun f hf => nomatch hf) hproviders).2.2
  revert hedges
  decide +kernel

end Planner

end Depot
