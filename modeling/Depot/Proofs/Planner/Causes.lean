import Depot.Proofs.Index.Search
import Depot.Proofs.Planner.Breakdown
import Depot.Proofs.Planner.Declared

/-!
# What a failure says

The three failures of a request that speak about packages each name their cause. A package that is
not found is the one that was asked for; a group without a candidate belongs to an entry that was
picked for the request, and all its alternatives that count were tried in vain (`Uncovered`); and a
conflict is one that a package declares which is there or on the way (`Contested`). Other failures
come from outside or from the bound for the depth and speak of no packages
(`isAboutPackages_eq_false_of_resolve`).
-/

namespace Depot

namespace Planner

open Plan (Resolution)

/-! ## Failures about something else -/

/-- A resolution that is cut short says nothing about packages. -/
theorem isAboutPackages_eq_false_of_resolve {site : Site} {depth : Nat}
    {parent : Option Index.Entry} {query : Package.Name} {s t : Planner} {f : Failure}
    (h : resolve site depth parent query s = (t, .error f)) : isAboutPackages f = false := by
  have hstable : Stable site fun _ => True := ⟨id, id, id, fun _ _ => trivial, id⟩
  refine hstable.cut_resolve (F := (isAboutPackages · = false)) rfl
    (fun {s query f} _ hsearch => ?_) trivial (congrArg Prod.snd h)
  obtain ⟨fetcher, reason, rfl⟩ := Index.fetchFailed_of_search hsearch
  rfl

/-! ## Causes -/

/-- How a conflict of a package stands against a new entry. -/
inductive Clashes (p : Plan) (newcomer : Index.Entry) (option : Package.Name) :
    Index.Entry → Prop where
  /-- The new entry declares it against the version that is registered. -/
  | own {version : String} (hversion : p.installedVersion? option = some version)
      (haccepts : Version.satisfies version option.version = true) :
      Clashes p newcomer option newcomer
  /-- Another entry that is picked declares it against the new entry. -/
  | declared {other : Index.Entry} (hother : other ∈ p.picked)
      (horigin : other.origin ≠ newcomer.origin) (haccepts : newcomer.satisfies option = true) :
      Clashes p newcomer option other

theorem clashes_of_conflictOf? {p : Plan} {e : Index.Entry} {package option : Package.Name}
    (h : conflictOf? p e = some (package, option)) :
    ∃ q, q.name = package ∧ option ∈ q.package.conflicts.flatten ∧ Clashes p e option q := by
  unfold conflictOf? at h
  split at h
  · next hown =>
    simp only [Option.some.injEq, Prod.mk.injEq] at h
    obtain ⟨rfl, rfl⟩ := h
    have haccepts := List.find?_some hown
    split at haccepts
    · next hversion =>
      exact ⟨e, rfl, List.mem_of_find?_eq_some hown, .own hversion haccepts⟩
    · cases haccepts
  · obtain ⟨q, hq, hfind⟩ := List.exists_of_findSome?_eq_some h
    obtain ⟨hpicked, horigin⟩ := List.mem_filter.1 hq
    obtain ⟨option', hoption, heq⟩ := Option.map_eq_some_iff.1 hfind
    simp only [Prod.mk.injEq] at heq
    obtain ⟨rfl, rfl⟩ := heq
    exact ⟨q, rfl, List.mem_of_find?_eq_some hoption,
      .declared hpicked (bne_iff_ne.1 horigin) (List.find?_some hoption)⟩

/-- Why a request that has led from `s` to `t` is left without a candidate for a group: an entry
that was picked on the way depends on just this group, and its alternatives that count are not
registered and have no candidates. They were tried in the end, one after the other. -/
structure Uncovered (site : Site) (s t : Planner) (package : Package.Name)
    (group : List Package.Name) : Prop where
  needed : ∃ picked, t.plan.picked = s.plan.picked ++ picked ∧
    ∃ e ∈ picked, e.name = package ∧ group ∈ e.package.depends
  tried : ∃ u, u.plan = t.plan ∧ Searched site s.index u.index ∧
    Passes site (kept s.plan.options group) u t
  unregistered : ∀ option ∈ kept s.plan.options group, t.plan.lookupKey? option = none

/-- Why a request that has led from `s` to `t` comes to a conflict: the last edge leads to a new
entry, and the new entry or a package that is installed or was picked on the way declares it. -/
def Contested (s t : Planner) (package option : Package.Name) : Prop :=
  ∃ picked newcomer q, t.plan.picked = s.plan.picked ++ picked ∧
    (∃ parent edges, s.plan.edges <+: edges ∧ t.plan.edges = edges ++ [(parent, newcomer)]) ∧
    (q ∈ s.plan.packages ∨ q ∈ picked ∨ q = newcomer) ∧ q.name = package ∧
    option ∈ q.package.conflicts.flatten ∧ Clashes t.plan newcomer option q

theorem Breakdown.uncovered {site : Site} {parent : Option Index.Entry} {query : Package.Name}
    {s t : Planner} {picked : List Index.Entry} {package : Package.Name}
    {group : List Package.Name}
    (h : Breakdown site (.answer parent query) s picked (.noCandidate package group) t)
    (hs : s.plan.Registered) : Uncovered site s t package group := by
  obtain ⟨u, hadvances, hbegins⟩ := h.beginning
  cases hbegins with
  | @unmet e _ _ hgroup hpasses =>
    rw [hadvances.grows.options] at hpasses
    have hplan := hpasses.plan_eq
    refine ⟨⟨picked, by rw [hplan, hadvances.picked], ?_⟩,
      ⟨u, hplan.symm, hadvances.searched, hpasses⟩, ?_⟩
    · rcases hgroup with ⟨he, hgroup⟩ | hlists
      · exact ⟨e, he, rfl, hgroup⟩
      · exact hlists.elim
    · intro option hoption
      rw [hplan]
      exact (Plan.Holds.lookupKey?_eq_none_iff (hadvances.registered hs) option).2
        (hpasses.unregistered option hoption)

theorem Breakdown.contested {site : Site} {goal : Goal} {s t : Planner}
    {picked : List Index.Entry} {package option : Package.Name}
    (h : Breakdown site goal s picked (.conflict package option) t)
    (hs : ∀ e ∈ s.plan.picked, e ∈ s.plan.packages) : Contested s t package option := by
  obtain ⟨u, hadvances, hbegins⟩ := h.beginning
  cases hbegins with
  | @clash parent newcomer _ _ hconflict =>
    obtain ⟨q, hname, hoption, hclashes⟩ := clashes_of_conflictOf? hconflict
    refine ⟨picked, newcomer, q, hadvances.picked,
      ⟨parent, u.plan.edges, hadvances.grows.edges, rfl⟩, ?_, hname, hoption, hclashes⟩
    cases hclashes with
    | own => exact .inr (.inr rfl)
    | declared hother =>
      have hmem : q ∈ s.plan.picked ++ picked := hadvances.picked ▸ hother
      exact (List.mem_append.1 hmem).imp (hs q) .inl

/-- A request after others that fails for want of a package was itself for that package, of which
nothing is registered and a search finds nothing. One that fails for want of a candidate has picked
an entry of the package that is named, which depends on just the group that is named, and no
alternative of it that counts is registered or has a candidate. One that fails for a conflict has
come to a new entry, and the package that is named declares the conflict: one that is installed, one
that was picked on the way, or the new entry itself. -/
theorem failures_name_their_cause {s : Planner} {journal : List Recording}
    (h : Session s journal) {site : Site} {depth : Nat} {query : Package.Name} {f : Failure}
    (hfails : (s.addWithin site depth query).2 = .error f) :
    (∀ missing, f = .packageNotFound missing →
        missing = query ∧ s.plan.lookupKey? query = none ∧
          (s.index.search site query 0).2 = .ok []) ∧
      (∀ package group, f = .noCandidate package group →
        Uncovered site s (resolve site depth none query s).1 package group) ∧
      ∀ package option, f = .conflict package option →
        Contested s (resolve site depth none query s).1 package option := by
  simp only [addWithin] at hfails
  rcases hresolve : resolve site depth none query s with ⟨t, f' | r⟩
  · -- cut short, so that the failure is none of the three
    have hother := isAboutPackages_eq_false_of_resolve hresolve
    simp only [hresolve, Except.error.injEq] at hfails
    subst hfails
    refine ⟨fun _ hf => ?_, fun _ _ hf => ?_, fun _ _ hf => ?_⟩ <;>
    · rw [hf] at hother
      cases hother
  · cases r with
    | resolved added => simp [hresolve] at hfails
    | notFound missing =>
      obtain ⟨rfl, hlacks⟩ := lacks_of_resolve hresolve
      simp only [hresolve, Resolution.outcome, Except.error.injEq] at hfails
      subst hfails
      refine ⟨fun other hother => ?_, by simp, by simp⟩
      obtain rfl := Failure.packageNotFound.inj hother
      exact ⟨rfl, (Plan.Holds.lookupKey?_eq_none_iff h.registered _).2 hlacks.unregistered,
        congrArg Prod.snd hlacks.unfound⟩
    | conflict package option =>
      obtain ⟨picked, hbreakdown⟩ := breakdown_of_resolve hresolve ⟨by simp, by simp⟩
      simp only [hresolve, Resolution.outcome, Except.error.injEq] at hfails
      subst hfails
      refine ⟨by simp, by simp, fun package' option' hsame => ?_⟩
      obtain ⟨rfl, rfl⟩ := Failure.conflict.inj hsame
      exact hbreakdown.contested fun e he => h.perm.mem_iff.2 he
    | noCandidate package group =>
      obtain ⟨picked, hbreakdown⟩ := breakdown_of_resolve hresolve ⟨by simp, by simp⟩
      simp only [hresolve, Resolution.outcome, Except.error.injEq] at hfails
      subst hfails
      refine ⟨by simp, fun package' group' hsame => ?_, by simp⟩
      obtain ⟨rfl, rfl⟩ := Failure.noCandidate.inj hsame
      exact hbreakdown.uncovered h.registered

/-- The suite comes to a conflict that the application declares, which was picked for it and is not
installed. An application is left without a candidate for the missing one of its dependencies after
its tool is installed, and the missing package itself is not found. -/
theorem three_failures_explained :
    Contested (fresh desktop {}) (resolve {} 3 none (.parse "suite") (fresh desktop {})).1
        desktop.entries[0].name ⟨"alpine", "lib", "<2", "", false⟩ ∧
      Uncovered {} stocked (resolve {} 3 none (.parse "app") stocked).1
        unfinished.entries[2].name [⟨"alpine", "missing", "", "", false⟩] ∧
      stocked.plan.lookupKey? (.parse "missing") = none ∧
      (stocked.index.search {} (.parse "missing") 0).2 = .ok [] := by
  have hdesktop : Session (fresh desktop {}) [] := .fresh desktop {}
  have hlib : ((fresh unfinished {}).addWithin {} 3 (.parse "lib")).2 =
      .ok [unfinished.entries[0]] := by rfl
  have hstocked : Session stocked _ :=
    (Session.fresh unfinished {}).answered {} 3 (.parse "lib") hlib
  have hsuite : ((fresh desktop {}).addWithin {} 3 (.parse "suite")).2 =
      .error (.conflict desktop.entries[0].name ⟨"alpine", "lib", "<2", "", false⟩) := by rfl
  have happ : (stocked.addWithin {} 3 (.parse "app")).2 =
      .error (.noCandidate unfinished.entries[2].name
        [⟨"alpine", "missing", "", "", false⟩]) := by rfl
  have hmissing : (stocked.addWithin {} 3 (.parse "missing")).2 =
      .error (.packageNotFound (.parse "missing")) := by rfl
  obtain ⟨-, hunregistered, hunfound⟩ :=
    (failures_name_their_cause hstocked hmissing).1 _ rfl
  exact ⟨(failures_name_their_cause hdesktop hsuite).2.2 _ _ rfl,
    (failures_name_their_cause hstocked happ).2.1 _ _ rfl, hunregistered, hunfound⟩

end Planner

end Depot
