import Depot.Plan.Resolve

/-!
# Courses of resolution

`Planner.Course` describes the resolutions that come to a good end, without a bound for their depth:
a request is answered with what is registered (`reuse`) or with an entry that is found (`choose`),
and groups are met one after the other (`done`, `skip`, `one`). `course_of_resolve` says that every
request that `Planner.resolve` answers runs such a course, so that a fact about answered requests is
shown by induction on courses.

A course says which edges it records, each with the plan that it is added to (`Recording`).
`Planner.recordings` computes them.
-/

namespace Depot

namespace Planner

open Plan (Resolution)

/-- An edge with the plan as it was when the edge was recorded. -/
structure Recording where
  plan : Plan
  parent : Option Index.Entry
  child : Index.Entry
  deriving DecidableEq

/-- The edge that is recorded. -/
def Recording.edge (r : Recording) : Option Index.Entry × Index.Entry := (r.parent, r.child)

/-! ## What a resolution records -/

/-- What is recorded for the alternatives of a group. -/
def recordOptions (resolve : Step) (record : Package.Name → Planner → List Recording) :
    List Package.Name → Planner → List Recording
  | [], _ => []
  | option :: rest, s =>
    match resolve option s with
    | (t, .ok (.notFound _)) => recordOptions resolve record rest t
    | _ => record option s

/-- What is recorded for groups. -/
def recordGroups (resolve : Step) (record : Package.Name → Planner → List Recording) :
    List (List Package.Name) → Planner → List Recording
  | [], _ => []
  | group :: rest, s =>
    let options := kept s.plan.options group
    if options.isEmpty && !group.isEmpty then recordGroups resolve record rest s
    else
      recordOptions resolve record options s ++
        match tryOptions resolve options s with
        | (t, .ok (.met _)) => recordGroups resolve record rest t
        | _ => []

/-- The plan of a chosen entry that has passed the checks, before its groups. -/
def takeUp (s : Planner) (parent : Option Index.Entry) (e : Index.Entry) : Planner :=
  ((s.connect parent e).introduce e).pick e

/-- What is recorded while a request is resolved, in order. -/
def recordings (site : Site) :
    (depth : Nat) → Option Index.Entry → Package.Name → Planner → List Recording
  | 0, _, _, _ => []
  | depth + 1, parent, query, s =>
    match s.plan.installedEntry? query with
    | some e => [⟨s.plan, parent, e⟩]
    | none =>
      match s.index.search site query 0 with
      | (_, .error _) => []
      | (index, .ok results) =>
        match Plan.choose? s.plan.options query results with
        | none => []
        | some e =>
          ⟨s.plan, parent, e⟩ ::
            recordGroups (resolve site depth (some e)) (recordings site depth (some e))
              e.package.depends (({ s with index } : Planner).takeUp parent e)

/-! ## Courses -/

/-- Nothing is registered for a query and a search finds nothing. Looking has changed at most the
index. -/
structure Lacks (site : Site) (query : Package.Name) (s t : Planner) : Prop where
  unregistered : s.plan.installedEntry? query = none
  unfound : s.index.search site query 0 = (t.index, .ok [])
  plan_eq : t.plan = s.plan

/-- All these alternatives lack, one after the other. -/
inductive Passes (site : Site) : List Package.Name → Planner → Planner → Prop where
  | nil {s : Planner} : Passes site [] s s
  | cons {option : Package.Name} {rest : List Package.Name} {s t u : Planner}
      (hlacks : Lacks site option s t) (hrest : Passes site rest t u) :
      Passes site (option :: rest) s u

/-- What a resolution has to do. -/
inductive Goal where
  /-- Answer the request of a parent. -/
  | answer (parent : Option Index.Entry) (query : Package.Name)
  /-- Meet groups of an entry. -/
  | meet (e : Index.Entry) (groups : List (List Package.Name))

/-- How a resolution reaches its goal: from which planner to which one, with the entries that it
chooses and the edges that it records. -/
inductive Course (site : Site) :
    Goal → Planner → List Index.Entry → List Recording → Planner → Prop where
  | reuse {parent : Option Index.Entry} {query : Package.Name} {s : Planner} {e : Index.Entry}
      (hregistered : s.plan.installedEntry? query = some e) :
      Course site (.answer parent query) s [] [⟨s.plan, parent, e⟩] (s.connect parent e)
  | choose {parent : Option Index.Entry} {query : Package.Name} {s t : Planner} {index : Index}
      {results : List Index.Entry} {e : Index.Entry} {added : List Index.Entry}
      {journal : List Recording}
      (hunregistered : s.plan.installedEntry? query = none)
      (hsearch : s.index.search site query 0 = (index, .ok results))
      (hchoose : Plan.choose? s.plan.options query results = some e)
      (hconflict : conflictOf? ((s.connect parent e).introduce e).plan e = none)
      (hmeet : Course site (.meet e e.package.depends)
        (({ s with index } : Planner).takeUp parent e) added journal t) :
      Course site (.answer parent query) s (e :: added) (⟨s.plan, parent, e⟩ :: journal)
        (t.install e)
  | done {e : Index.Entry} {s : Planner} : Course site (.meet e []) s [] [] s
  | skip {e : Index.Entry} {group : List Package.Name} {rest : List (List Package.Name)}
      {s t : Planner} {added : List Index.Entry} {journal : List Recording}
      (hgroup : group ≠ []) (hkept : kept s.plan.options group = [])
      (hrest : Course site (.meet e rest) s added journal t) :
      Course site (.meet e (group :: rest)) s added journal t
  | one {e : Index.Entry} {group passed others : List Package.Name} {option : Package.Name}
      {rest : List (List Package.Name)} {s s₁ s₂ t : Planner} {more added : List Index.Entry}
      {first journal : List Recording}
      (hkept : kept s.plan.options group = passed ++ option :: others)
      (hpasses : Passes site passed s s₁)
      (hone : Course site (.answer (some e) option) s₁ more first s₂)
      (hrest : Course site (.meet e rest) s₂ added journal t) :
      Course site (.meet e (group :: rest)) s (more ++ added) (first ++ journal) t

theorem Passes.plan_eq {site : Site} {options : List Package.Name} {s t : Planner}
    (h : Passes site options s t) : t.plan = s.plan := by
  induction h with
  | nil => rfl
  | cons hlacks _ ih => rw [ih, hlacks.plan_eq]

theorem Passes.unregistered {site : Site} {options : List Package.Name} {s t : Planner}
    (h : Passes site options s t) : ∀ option ∈ options, s.plan.installedEntry? option = none := by
  induction h with
  | nil => simp
  | cons hlacks _ ih =>
    rw [hlacks.plan_eq] at ih
    exact List.forall_mem_cons.2 ⟨hlacks.unregistered, ih⟩

/-! ## Requests without a candidate -/

theorem tryOptions_broken {resolve : Step} {options : List Package.Name} {s t : Planner}
    {r : Resolution} (h : tryOptions resolve options s = (t, .ok (.broken r))) :
    (∀ added, r ≠ .resolved added) ∧ ∀ query, r ≠ .notFound query := by
  induction options generalizing s with
  | nil => simp [tryOptions] at h
  | cons option rest ih =>
    simp only [tryOptions] at h
    split at h
    · simp at h
    · simp at h
    · exact ih h
    · next hresolved hnotFound _ =>
      simp only [Prod.mk.injEq, Except.ok.injEq, Attempt.broken.injEq] at h
      obtain ⟨rfl, rfl⟩ := h
      exact ⟨hresolved, hnotFound⟩

theorem meetGroups_ne_notFound {resolve : Step} {package : Package.Name}
    {groups : List (List Package.Name)} {added : List Index.Entry} {s t : Planner}
    {query : Package.Name} :
    meetGroups resolve package groups added s ≠ (t, .ok (.notFound query)) := by
  induction groups generalizing added s with
  | nil => simp [meetGroups]
  | cons group rest ih =>
    simp only [meetGroups]
    split
    · exact ih
    · split
      · simp
      · exact ih
      · simp
      · next htry =>
        intro h
        simp only [Prod.mk.injEq, Except.ok.injEq] at h
        exact (tryOptions_broken htry).2 _ h.2

theorem take_ne_notFound {resolve : Step} {parent : Option Index.Entry} {e : Index.Entry}
    {s t : Planner} {query : Package.Name} :
    take resolve parent e s ≠ (t, .ok (.notFound query)) := by
  simp only [take]
  split
  · simp
  · split
    · simp
    · exact meetGroups_ne_notFound

theorem choose?_eq_none {o : Plan.Options} {query : Package.Name} {results : List Index.Entry}
    (h : Plan.choose? o query results = none) : results = [] := by
  unfold Plan.choose? at h
  split at h
  · rfl
  · simp at h
  · split at h <;> simp at h

/-- A request without a candidate leaves no trace in the plan. -/
theorem lacks_of_resolve {site : Site} {depth : Nat} {parent : Option Index.Entry}
    {query missing : Package.Name} {s t : Planner}
    (h : resolve site depth parent query s = (t, .ok (.notFound missing))) :
    missing = query ∧ Lacks site query s t := by
  cases depth with
  | zero => simp [resolve] at h
  | succ depth =>
    simp only [resolve] at h
    split at h
    · simp at h
    · next hnone =>
      split at h
      · simp at h
      · next hsearch =>
        split at h
        · next hchoose =>
          obtain rfl := choose?_eq_none hchoose
          simp only [Prod.mk.injEq, Except.ok.injEq, Resolution.notFound.injEq] at h
          obtain ⟨rfl, rfl⟩ := h
          exact ⟨rfl, hnone, hsearch, rfl⟩
        · exact absurd h take_ne_notFound

/-! ## Answered requests run a course -/

section

variable {site : Site} {resolve : Step} {record : Package.Name → Planner → List Recording}
  (hlacks : ∀ {query missing : Package.Name} {s t : Planner},
    resolve query s = (t, .ok (.notFound missing)) → Lacks site query s t)

include hlacks

variable (record) in
/-- The alternative that meets a group comes after alternatives that lack. -/
theorem tryOptions_met {options : List Package.Name} {s t : Planner} {more : List Index.Entry}
    (h : tryOptions resolve options s = (t, .ok (.met more))) :
    ∃ passed option others s₁, options = passed ++ option :: others ∧ Passes site passed s s₁ ∧
      resolve option s₁ = (t, .ok (.resolved more)) ∧
      recordOptions resolve record options s = record option s₁ := by
  induction options generalizing s with
  | nil => simp [tryOptions] at h
  | cons option rest ih =>
    simp only [tryOptions] at h
    simp only [recordOptions]
    split at h
    · simp at h
    · next hresolve =>
      simp only [Prod.mk.injEq, Except.ok.injEq, Attempt.met.injEq] at h
      obtain ⟨rfl, rfl⟩ := h
      exact ⟨[], option, rest, s, rfl, .nil, hresolve, by rw [hresolve]⟩
    · next hresolve =>
      obtain ⟨passed, option', others, s₁, rfl, hpasses, hone, hrecord⟩ := ih h
      refine ⟨option :: passed, option', others, s₁, rfl, .cons (hlacks hresolve) hpasses, hone, ?_⟩
      rw [hresolve]
      exact hrecord
    · simp at h

theorem course_of_meetGroups {e : Index.Entry}
    (hcourse : ∀ {query : Package.Name} {s t : Planner} {added : List Index.Entry},
      resolve query s = (t, .ok (.resolved added)) →
        Course site (.answer (some e) query) s added (record query s) t)
    {groups : List (List Package.Name)} {before added : List Index.Entry} {s t : Planner}
    (h : meetGroups resolve e.name groups before s = (t, .ok (.resolved added))) :
    ∃ more, added = before ++ more ∧
      Course site (.meet e groups) s more (recordGroups resolve record groups s) t := by
  induction groups generalizing before s with
  | nil =>
    simp only [meetGroups, Prod.mk.injEq, Except.ok.injEq, Resolution.resolved.injEq] at h
    obtain ⟨rfl, rfl⟩ := h
    exact ⟨[], by simp, .done⟩
  | cons group rest ih =>
    simp only [meetGroups] at h
    simp only [recordGroups]
    split at h
    · next hskip =>
      obtain ⟨more, rfl, hrest⟩ := ih h
      rw [if_pos hskip]
      simp only [Bool.and_eq_true, List.isEmpty_iff, Bool.not_eq_true', List.isEmpty_eq_false_iff]
        at hskip
      exact ⟨more, rfl, .skip hskip.2 hskip.1 hrest⟩
    · next hskip =>
      rw [if_neg hskip]
      split at h
      · simp at h
      · next htry =>
        obtain ⟨passed, option, others, s₁, hkept, hpasses, hone, hrecord⟩ :=
          tryOptions_met record hlacks htry
        obtain ⟨more, rfl, hrest⟩ := ih h
        rw [htry, hrecord]
        exact ⟨_, by simp, .one hkept hpasses (hcourse hone) hrest⟩
      · simp at h
      · next htry =>
        simp only [Prod.mk.injEq, Except.ok.injEq] at h
        exact absurd h.2 ((tryOptions_broken htry).1 _)

end

/-- A request that is answered runs a course, which records what `recordings` says. -/
theorem course_of_resolve {site : Site} {depth : Nat} {parent : Option Index.Entry}
    {query : Package.Name} {s t : Planner} {added : List Index.Entry}
    (h : resolve site depth parent query s = (t, .ok (.resolved added))) :
    Course site (.answer parent query) s added (recordings site depth parent query s) t := by
  induction depth generalizing parent query s t added with
  | zero => simp [resolve] at h
  | succ depth ih =>
    rw [resolve] at h
    rw [recordings]
    cases hregistered : s.plan.installedEntry? query with
    | some e =>
      simp only [hregistered, Prod.mk.injEq, Except.ok.injEq, Resolution.resolved.injEq] at h ⊢
      obtain ⟨rfl, rfl⟩ := h
      exact .reuse hregistered
    | none =>
      simp only [hregistered] at h ⊢
      rcases hsearch : s.index.search site query 0 with ⟨index, failure | results⟩
      · simp [hsearch] at h
      · simp only [hsearch] at h ⊢
        cases hchoose : Plan.choose? s.plan.options query results with
        | none => simp [hchoose] at h
        | some e =>
          simp only [hchoose, take] at h ⊢
          split at h
          · simp at h
          · next hconflict =>
            split at h
            · next u added' hmeet =>
              simp only [Prod.mk.injEq, Except.ok.injEq, Resolution.resolved.injEq] at h
              obtain ⟨rfl, rfl⟩ := h
              obtain ⟨more, rfl, hcourse⟩ :=
                course_of_meetGroups (fun h => (lacks_of_resolve h).2) ih hmeet
              exact .choose hregistered hsearch hchoose hconflict hcourse
            · next hfailure => exact absurd h (hfailure _ _)

end Planner

end Depot
