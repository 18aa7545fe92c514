import Depot.Proofs.Planner.Session

/-!
# Conflicts with later entries

A candidate is compared with the conflicts of everything picked before it, and that comparison is
the full one: distribution, version and architecture count, and so do aliases
(`declaredConflict?_eq_none_iff`). Only a candidate that passes is picked, so in the list of picked
entries each one tolerates all that follow it. Every single change of a resolution keeps this
(`stable_tolerates`), whatever is still waiting for its dependencies and however the resolution ends
(`declared_conflicts_bind_later`).
-/

namespace Depot

/-- No option among the conflicts of an entry accepts a name or an alias of another one. An entry
does not conflict with itself. -/
def Index.Entry.Tolerates (p q : Index.Entry) : Prop :=
  p.origin ≠ q.origin →
    ∀ option ∈ p.package.conflicts.flatten, ∀ name ∈ q.package.names, name.satisfies option = false

namespace Plan

theorem satisfies_eq_false_iff {e : Index.Entry} {query : Package.Name} :
    e.satisfies query = false ↔ ∀ name ∈ e.package.names, name.satisfies query = false := by
  simp only [Index.Entry.satisfies, Package.satisfies, List.any_eq_false, Bool.not_eq_true]

/-- The reverse check refuses a candidate just when an entry picked before does not tolerate it. -/
theorem declaredConflict?_eq_none_iff {p : Plan} {e : Index.Entry} :
    p.declaredConflict? e = none ↔ ∀ other ∈ p.picked, other.Tolerates e := by
  simp only [declaredConflict?, List.findSome?_eq_none_iff, List.mem_filter, bne_iff_ne, ne_eq,
    Option.map_eq_none_iff, List.find?_eq_none, Bool.not_eq_true, and_imp]
  constructor
  · intro hnone other hother horigin option hoption
    exact satisfies_eq_false_iff.1 (hnone other hother horigin option hoption)
  · intro htolerates other hother horigin option hoption
    exact satisfies_eq_false_iff.2 (htolerates other hother horigin option hoption)

end Plan

namespace Planner

/-- Each picked entry tolerates those that were picked after it. -/
theorem stable_tolerates (site : Site) :
    Stable site fun s => s.plan.picked.Pairwise Index.Entry.Tolerates where
  search := id
  connect := id
  introduce := id
  pick := by
    intro s e hs hconflict
    have hpassed := Plan.declaredConflict?_eq_none_iff.1 (conflictOf?_eq_none_iff.1 hconflict).2
    rw [pick_picked, List.pairwise_append]
    refine ⟨hs, List.pairwise_singleton _ e, ?_⟩
    intro other hother last hlast
    obtain rfl := List.mem_singleton.1 hlast
    exact hpassed other hother
  install := id

theorem Session.tolerates {s : Planner} {journal : List Recording} (h : Session s journal) :
    s.plan.picked.Pairwise Index.Entry.Tolerates :=
  h.of_stable (P := fun p => p.picked.Pairwise Index.Entry.Tolerates) (fun _ => .nil)
    stable_tolerates (fun _ hp => hp)

/-- The conflicts of a picked entry accept no name of another entry that is picked later: not in a
session, and not where a further request leaves off, be it answered, refused or cut short at some
depth with entries that wait for their dependencies. The reverse check refuses no other
candidate. -/
theorem declared_conflicts_bind_later {s : Planner} {journal : List Recording}
    (h : Session s journal) :
    s.plan.picked.Pairwise Index.Entry.Tolerates ∧
      (∀ site depth parent query,
        (resolve site depth parent query s).1.plan.picked.Pairwise Index.Entry.Tolerates) ∧
      ∀ parent e, ((s.connect parent e).introduce e).plan.declaredConflict? e = none ↔
        ∀ p ∈ s.plan.picked, p.Tolerates e := by
  refine ⟨h.tolerates, ?_, ?_⟩
  · intro site depth parent query
    exact (stable_tolerates site).resolve h.tolerates
  · intro parent e
    exact Plan.declaredConflict?_eq_none_iff

/-! ### An entry that waits for a dependency -/

/-- An application that needs a library and conflicts with its old versions, a package that provides
such a version, and a suite that asks for both. -/
def desktop : Index :=
  shelf [{ name := ⟨"alpine", "app", "1", "", false⟩
           conflicts := [[⟨"alpine", "lib", "<2", "", false⟩]]
           depends := [[⟨"alpine", "lib", "", "", false⟩]] },
    { name := ⟨"alpine", "lib", "3", "", false⟩ },
    { name := ⟨"alpine", "legacy", "1", "", false⟩
      aliases := [⟨"alpine", "lib", "1", "", false⟩] },
    { name := ⟨"alpine", "suite", "1", "", false⟩
      depends := [[⟨"alpine", "app", "", "", false⟩], [⟨"alpine", "legacy", "", "", false⟩]] }]

/-- The planner after requests for the suite, which is refused, and for the application. -/
def withLibrary : Planner := ((fresh desktop {}).serve {} [.parse "suite", .parse "app"]).1

/-- The library is picked while the application waits for it, and is tolerated. The package with the
old version is not: the request for the suite leaves off with the application and the library picked
for the suite. -/
theorem waiting_app_tolerates_library :
    (withLibrary.plan.picked = [desktop.entries[0], desktop.entries[1]] ∧
        withLibrary.plan.packages = [desktop.entries[1], desktop.entries[0]] ∧
        desktop.entries[0].Tolerates desktop.entries[1]) ∧
      ¬desktop.entries[0].Tolerates desktop.entries[2] ∧
      ∃ t : Planner, t.plan.picked =
          [desktop.entries[3], desktop.entries[0], desktop.entries[1]] ∧
        t.plan.picked.Pairwise Index.Entry.Tolerates ∧
        resolve {} 3 none (.parse "suite") (fresh desktop {}) =
          (t, .ok (.conflict desktop.entries[0].name ⟨"alpine", "lib", "<2", "", false⟩)) := by
  obtain ⟨journal, hsession⟩ :=
    (Session.fresh desktop {}).serve {} [.parse "suite", .parse "app"]
  obtain ⟨htolerates, -, hcheck⟩ := declared_conflicts_bind_later hsession
  have hpicked : withLibrary.plan.picked = [desktop.entries[0], desktop.entries[1]] := by decide
  have hcandidate := hcheck none desktop.entries[2]
  refine ⟨⟨hpicked, by decide, ?_⟩, ?_, ?_⟩
  · have hpair : withLibrary.plan.picked.Pairwise Index.Entry.Tolerates := htolerates
    rw [hpicked] at hpair
    exact List.rel_of_pairwise_cons hpair (List.mem_singleton_self _)
  · intro htolerated
    have hpassed := hcandidate.2 fun p hp => ?_
    · exact absurd hpassed (by decide)
    · change p ∈ withLibrary.plan.picked at hp
      rw [hpicked] at hp
      simp only [List.mem_cons, List.not_mem_nil, or_false] at hp
      rcases hp with rfl | rfl
      · exact htolerated
      · -- the library declares no conflicts
        intro _ option hoption
        cases hoption
  · have hsuite := (declared_conflicts_bind_later (Session.fresh desktop {})).2.1 {} 3 none
      (.parse "suite")
    exact ⟨_, by decide, hsuite, rfl⟩

end Planner

end Depot
