import Mathlib.Logic.Relation
import Depot.Proofs.Planner.Session

/-!
# How resolution breaks down

`Planner.Breakdown` describes the resolutions that end with a conflict or without a candidate for a
group, as `Planner.Course` describes those that come to a good end: what breaks down is a new entry
(`clash`) or a group of which no alternative is left (`unmet`), and what it breaks down in are the
groups that come before (`skip`, `later`), the alternative that is tried (`here`) and the entry that
needs it (`inside`). `breakdown_of_resolve` says that every request that `Planner.resolve` ends so
runs such a breakdown.

Nothing of what happens behind the place where it begins is undone or done again, so the beginning
says what is wrong (`Breakdown.beginning`). Up to there a resolution has gone on as it does when all
goes well (`Advances`).
-/

namespace Depot

namespace Planner

open Plan (Resolution)

/-- The ends that are neither an answer nor the lack of a candidate for the request itself. -/
def Broken (r : Resolution) : Prop :=
  (∀ added, r ≠ .resolved added) ∧ ∀ query, r ≠ .notFound query

/-- How a resolution misses its goal: from which planner to which one, with the entries that it has
picked on the way and what it comes to. -/
inductive Breakdown (site : Site) :
    Goal → Planner → List Index.Entry → Resolution → Planner → Prop where
  | clash {parent : Option Index.Entry} {query : Package.Name} {s : Planner} {index : Index}
      {results : List Index.Entry} {e : Index.Entry} {package other : Package.Name}
      (hunregistered : s.plan.installedEntry? query = none)
      (hsearch : s.index.search site query 0 = (index, .ok results))
      (hchoose : Plan.choose? s.plan.options query results = some e)
      (hconflict : conflictOf? ((s.connect parent e).introduce e).plan e = some (package, other)) :
      Breakdown site (.answer parent query) s [] (.conflict package other)
        ((({ s with index } : Planner).connect parent e).introduce e)
  | inside {parent : Option Index.Entry} {query : Package.Name} {s t : Planner} {index : Index}
      {results : List Index.Entry} {e : Index.Entry} {picked : List Index.Entry} {r : Resolution}
      (hunregistered : s.plan.installedEntry? query = none)
      (hsearch : s.index.search site query 0 = (index, .ok results))
      (hchoose : Plan.choose? s.plan.options query results = some e)
      (hconflict : conflictOf? ((s.connect parent e).introduce e).plan e = none)
      (hmeet : Breakdown site (.meet e e.package.depends)
        (({ s with index } : Planner).takeUp parent e) picked r t) :
      Breakdown site (.answer parent query) s (e :: picked) r t
  | skip {e : Index.Entry} {group : List Package.Name} {rest : List (List Package.Name)}
      {s t : Planner} {picked : List Index.Entry} {r : Resolution}
      (hgroup : group ≠ []) (hkept : kept s.plan.options group = [])
      (hrest : Breakdown site (.meet e rest) s picked r t) :
      Breakdown site (.meet e (group :: rest)) s picked r t
  | later {e : Index.Entry} {group passed others : List Package.Name} {option : Package.Name}
      {rest : List (List Package.Name)} {s s₁ s₂ t : Planner} {more picked : List Index.Entry}
      {journal : List Recording} {r : Resolution}
      (hkept : kept s.plan.options group = passed ++ option :: others)
      (hpasses : Passes site passed s s₁)
      (hone : Course site (.answer (some e) option) s₁ more journal s₂)
      (hrest : Breakdown site (.meet e rest) s₂ picked r t) :
      Breakdown site (.meet e (group :: rest)) s (more ++ picked) r t
  | here {e : Index.Entry} {group passed others : List Package.Name} {option : Package.Name}
      {rest : List (List Package.Name)} {s s₁ t : Planner} {picked : List Index.Entry}
      {r : Resolution}
      (hkept : kept s.plan.options group = passed ++ option :: others)
      (hpasses : Passes site passed s s₁)
      (hone : Breakdown site (.answer (some e) option) s₁ picked r t) :
      Breakdown site (.meet e (group :: rest)) s picked r t
  | unmet {e : Index.Entry} {group : List Package.Name} {rest : List (List Package.Name)}
      {s t : Planner}
      (hgroup : kept s.plan.options group = [] → group = [])
      (hpasses : Passes site (kept s.plan.options group) s t) :
      Breakdown site (.meet e (group :: rest)) s [] (.noCandidate e.name group) t

/-! ## Broken requests run a breakdown -/

section

variable {site : Site} {resolve : Step}
  (hlacks : ∀ {query missing : Package.Name} {s t : Planner},
    resolve query s = (t, .ok (.notFound missing)) → Lacks site query s t)

include hlacks

/-- A group is unmet when all its alternatives lack. -/
theorem passes_of_tryOptions {options : List Package.Name} {s t : Planner}
    (h : tryOptions resolve options s = (t, .ok .unmet)) : Passes site options s t := by
  induction options generalizing s with
  | nil =>
    obtain ⟨rfl, -⟩ := Prod.mk.inj h
    exact .nil
  | cons option rest ih =>
    simp only [tryOptions] at h
    split at h
    · simp at h
    · simp at h
    · next hresolve => exact .cons (hlacks hresolve) (ih h)
    · simp at h

/-- The alternative that a group breaks down at comes after alternatives that lack. -/
theorem tryOptions_broken_at {options : List Package.Name} {s t : Planner} {r : Resolution}
    (h : tryOptions resolve options s = (t, .ok (.broken r))) :
    ∃ passed option others s₁, options = passed ++ option :: others ∧ Passes site passed s s₁ ∧
      resolve option s₁ = (t, .ok r) := by
  induction options generalizing s with
  | nil => simp [tryOptions] at h
  | cons option rest ih =>
    simp only [tryOptions] at h
    split at h
    · simp at h
    · simp at h
    · next hresolve =>
      obtain ⟨passed, option', others, s₁, rfl, hpasses, hone⟩ := ih h
      exact ⟨option :: passed, option', others, s₁, rfl, .cons (hlacks hresolve) hpasses, hone⟩
    · next hresolve =>
      simp only [Prod.mk.injEq, Except.ok.injEq, Attempt.broken.injEq] at h
      obtain ⟨rfl, rfl⟩ := h
      exact ⟨[], option, rest, s, rfl, .nil, hresolve⟩

theorem breakdown_of_meetGroups {e : Index.Entry}
    {record : Package.Name → Planner → List Recording}
    (hcourse : ∀ {query : Package.Name} {s t : Planner} {added : List Index.Entry},
      resolve query s = (t, .ok (.resolved added)) →
        Course site (.answer (some e) query) s added (record query s) t)
    (hbreakdown : ∀ {query : Package.Name} {s t : Planner} {r : Resolution},
      resolve query s = (t, .ok r) → Broken r →
        ∃ picked, Breakdown site (.answer (some e) query) s picked r t)
    {groups : List (List Package.Name)} {before : List Index.Entry} {s t : Planner}
    {r : Resolution} (h : meetGroups resolve e.name groups before s = (t, .ok r))
    (hr : Broken r) : ∃ picked, Breakdown site (.meet e groups) s picked r t := by
  induction groups generalizing before s with
  | nil =>
    simp only [meetGroups, Prod.mk.injEq, Except.ok.injEq] at h
    exact absurd h.2.symm (hr.1 before)
  | cons group rest ih =>
    simp only [meetGroups] at h
    split at h
    · next hskip =>
      simp only [Bool.and_eq_true, List.isEmpty_iff, Bool.not_eq_true', List.isEmpty_eq_false_iff]
        at hskip
      obtain ⟨picked, hrest⟩ := ih h
      exact ⟨picked, .skip hskip.2 hskip.1 hrest⟩
    · next hskip =>
      split at h
      · simp at h
      · next htry =>
        obtain ⟨passed, option, others, s₁, hkept, hpasses, hone, -⟩ :=
          tryOptions_met record hlacks htry
        obtain ⟨picked, hrest⟩ := ih h
        exact ⟨_, .later hkept hpasses (hcourse hone) hrest⟩
      · next htry =>
        simp only [Prod.mk.injEq, Except.ok.injEq] at h
        obtain ⟨rfl, rfl⟩ := h
        refine ⟨[], .unmet (fun hnone => ?_) (passes_of_tryOptions hlacks htry)⟩
        simpa [hnone] using hskip
      · next htry =>
        simp only [Prod.mk.injEq, Except.ok.injEq] at h
        obtain ⟨rfl, rfl⟩ := h
        obtain ⟨passed, option, others, s₁, hkept, hpasses, hone⟩ :=
          tryOptions_broken_at hlacks htry
        obtain ⟨picked, hbroken⟩ := hbreakdown hone hr
        exact ⟨picked, .here hkept hpasses hbroken⟩

end

/-- A request that ends with a conflict or without a candidate for a group runs a breakdown. -/
theorem breakdown_of_resolve {site : Site} {depth : Nat} {parent : Option Index.Entry}
    {query : Package.Name} {s t : Planner} {r : Resolution}
    (h : resolve site depth parent query s = (t, .ok r)) (hr : Broken r) :
    ∃ picked, Breakdown site (.answer parent query) s picked r t := by
  induction depth generalizing parent query s t r with
  | zero => simp [resolve] at h
  | succ depth ih =>
    rw [resolve] at h
    cases hregistered : s.plan.installedEntry? query with
    | some e =>
      simp only [hregistered, Prod.mk.injEq, Except.ok.injEq] at h
      exact absurd h.2.symm (hr.1 [])
    | none =>
      simp only [hregistered] at h
      rcases hsearch : s.index.search site query 0 with ⟨index, failure | results⟩
      · simp [hsearch] at h
      · simp only [hsearch] at h
        cases hchoose : Plan.choose? s.plan.options query results with
        | none =>
          simp only [hchoose, Prod.mk.injEq, Except.ok.injEq] at h
          exact absurd h.2.symm (hr.2 query)
        | some e =>
          simp only [hchoose, take] at h
          split at h
          · next hconflict =>
            simp only [Prod.mk.injEq, Except.ok.injEq] at h
            obtain ⟨rfl, rfl⟩ := h
            exact ⟨[], .clash hregistered hsearch hchoose hconflict⟩
          · next hconflict =>
            split at h
            · next added _ =>
              simp only [Prod.mk.injEq, Except.ok.injEq] at h
              exact absurd h.2.symm (hr.1 added)
            · obtain ⟨picked, hmeet⟩ := breakdown_of_meetGroups
                (fun h => (lacks_of_resolve h).2) course_of_resolve ih h hr
              exact ⟨e :: picked, .inside hregistered hsearch hchoose hconflict hmeet⟩

/-! ## Up to the beginning -/

/-- Some searches lead from one index to the other. -/
def Searched (site : Site) : Index → Index → Prop :=
  Relation.ReflTransGen fun ix ix' => ∃ query, ix' = (ix.search site query 0).1

/-- A resolution has gone on from one planner to another and has picked these entries by now. Its
index has been searched, the lists of its plan have grown, and the tables hold what was picked if
they did so before. -/
structure Advances (site : Site) (s : Planner) (picked : List Index.Entry) (t : Planner) :
    Prop where
  grows : s.plan.Grows t.plan
  picked : t.plan.picked = s.plan.picked ++ picked
  searched : Searched site s.index t.index
  registered : s.plan.Registered → t.plan.Registered

namespace Advances

variable {site : Site} {s t u : Planner} {picked more : List Index.Entry}

theorem refl (site : Site) (s : Planner) : Advances site s [] s :=
  ⟨.refl _, (List.append_nil _).symm, .refl, id⟩

theorem trans (h : Advances site s picked t) (h' : Advances site t more u) :
    Advances site s (picked ++ more) u where
  grows := h.grows.trans h'.grows
  picked := by rw [h'.picked, h.picked, List.append_assoc]
  searched := Relation.ReflTransGen.trans h.searched h'.searched
  registered := h'.registered ∘ h.registered

theorem of_search {query : Package.Name} {index : Index} {result : Outcome (List Index.Entry)}
    (h : s.index.search site query 0 = (index, result)) :
    Advances site s [] { s with index } :=
  { refl site s with searched := .single ⟨query, (congrArg Prod.fst h).symm⟩ }

theorem takeUp (site : Site) (s : Planner) (parent : Option Index.Entry) (e : Index.Entry) :
    Advances site s [e] (s.takeUp parent e) where
  grows := ((grows_connect s parent e).trans (grows_introduce _ e)).trans (grows_pick _ e)
  picked := takeUp_picked s parent e
  searched := .refl
  registered := fun hs => registered_takeUp hs parent e

end Advances

theorem Passes.advances {site : Site} {options : List Package.Name} {s t : Planner}
    (h : Passes site options s t) : Advances site s [] t := by
  induction h with
  | nil => exact .refl site _
  | @cons option _ s t _ hlacks _ ih =>
    have hfirst : Advances site s [] { s with index := t.index } := .of_search hlacks.unfound
    rw [show ({ s with index := t.index } : Planner) = t by rw [← hlacks.plan_eq]] at hfirst
    exact hfirst.trans ih

theorem Course.advances {site : Site} {goal : Goal} {s t : Planner} {added : List Index.Entry}
    {journal : List Recording} (h : Course site goal s added journal t) :
    Advances site s added t := by
  refine ⟨h.adds.grows, h.adds.picked, ?_, h.registered⟩
  induction h with
  | reuse => exact .refl
  | choose _ hsearch _ _ _ ih => exact (Advances.of_search hsearch).searched.trans ih
  | done => exact .refl
  | skip _ _ _ ih => exact ih
  | one _ hpasses _ _ ihone ihrest => exact (hpasses.advances.searched.trans ihone).trans ihrest

/-! ## The beginning -/

/-- The groups that a goal is about, with their entry. -/
def Goal.Lists : Goal → Index.Entry → List Package.Name → Prop
  | .answer _ _, _, _ => False
  | .meet e groups, e', group => e' = e ∧ group ∈ groups

/-- The planner `u` is the one where a breakdown begins: an entry is introduced that there is a
conflict with, or all alternatives that count of a group lack. -/
inductive Begins (site : Site) (goal : Goal) (picked : List Index.Entry) (u : Planner) :
    Resolution → Planner → Prop where
  | clash {parent : Option Index.Entry} {newcomer : Index.Entry} {package other : Package.Name}
      (hconflict : conflictOf? ((u.connect parent newcomer).introduce newcomer).plan newcomer =
        some (package, other)) :
      Begins site goal picked u (.conflict package other)
        ((u.connect parent newcomer).introduce newcomer)
  | unmet {e : Index.Entry} {group : List Package.Name} {t : Planner}
      (hgroup : (e ∈ picked ∧ group ∈ e.package.depends) ∨ goal.Lists e group)
      (hpasses : Passes site (kept u.plan.options group) u t) :
      Begins site goal picked u (.noCandidate e.name group) t

/-- What is listed by the goal further in is listed by the goal further out, or belongs to an entry
that is picked between the two. -/
theorem Begins.outward {site : Site} {goal goal' : Goal} {picked picked' : List Index.Entry}
    {u t : Planner} {r : Resolution} (h : Begins site goal picked u r t) (hsub : picked ⊆ picked')
    (hgoal : ∀ e group, goal.Lists e group →
      (e ∈ picked' ∧ group ∈ e.package.depends) ∨ goal'.Lists e group) :
    Begins site goal' picked' u r t := by
  cases h with
  | clash hconflict => exact .clash hconflict
  | unmet hgroup hpasses =>
    refine .unmet ?_ hpasses
    rcases hgroup with ⟨he, hgroup⟩ | hlists
    · exact .inl ⟨hsub he, hgroup⟩
    · exact hgoal _ _ hlists

theorem Breakdown.beginning {site : Site} {goal : Goal} {s t : Planner}
    {picked : List Index.Entry} {r : Resolution} (h : Breakdown site goal s picked r t) :
    ∃ u, Advances site s picked u ∧ Begins site goal picked u r t := by
  induction h with
  | clash _ hsearch _ hconflict => exact ⟨_, .of_search hsearch, .clash hconflict⟩
  | @inside parent _ s _ index _ e _ _ _ hsearch _ _ _ ih =>
    obtain ⟨u, hadvances, hbegins⟩ := ih
    refine ⟨u, ((Advances.of_search hsearch).trans (.takeUp site _ parent e)).trans hadvances,
      hbegins.outward (List.subset_cons_self _ _) ?_⟩
    -- further out the group is no longer listed, but its entry is among those picked
    rintro _ group ⟨rfl, hgroup⟩
    exact .inl ⟨List.mem_cons_self, hgroup⟩
  | skip _ _ _ ih =>
    obtain ⟨u, hadvances, hbegins⟩ := ih
    refine ⟨u, hadvances, hbegins.outward (List.Subset.refl _) ?_⟩
    rintro _ group ⟨rfl, hgroup⟩
    exact .inr ⟨rfl, List.mem_cons_of_mem _ hgroup⟩
  | later _ hpasses hone _ ih =>
    obtain ⟨u, hadvances, hbegins⟩ := ih
    refine ⟨u, (hpasses.advances.trans hone.advances).trans hadvances,
      hbegins.outward (List.subset_append_right _ _) ?_⟩
    rintro _ group ⟨rfl, hgroup⟩
    exact .inr ⟨rfl, List.mem_cons_of_mem _ hgroup⟩
  | here _ hpasses _ ih =>
    obtain ⟨u, hadvances, hbegins⟩ := ih
    exact ⟨u, hpasses.advances.trans hadvances,
      hbegins.outward (List.Subset.refl _) fun _ _ hlists => hlists.elim⟩
  | unmet _ hpasses => exact ⟨_, .refl site _, .unmet (.inr ⟨rfl, List.mem_cons_self⟩) hpasses⟩

end Planner

end Depot
