import Depot.Proofs.Planner.Symmetry

/-!
# Conflicts with own names

When an entry is checked, its name is registered and its aliases are not yet. So a package never
conflicts with its own aliases, but it does with its own name: where it needs nothing else and is
the only result of a search, a request for it on an empty plan is refused just when one of its
conflicts excludes its name (`refused_for_own_name_iff`). Such packages exist
(`own_name_conflicts`).
-/

namespace Depot

namespace Planner

open Plan (Excludes atCheck)

section

variable {site : Site} {index : Index} (options : Plan.Options) {query : Package.Name}
  {e : Index.Entry}

/-- On an empty plan the conflict of an entry is its first one that excludes its own name. -/
theorem conflictOf?_fresh :
    conflictOf? (((fresh index options).connect none e).introduce e).plan e =
      (e.package.conflicts.flatten.find? fun option => Excludes option e.name).map
        fun option => (e.name, option) := by
  have hholds : (((fresh index options).connect none e).introduce e).plan.Holds (atCheck [] e) :=
    holds_introduce (Plan.Holds.empty options) none e
  have hdeclared :
      (((fresh index options).connect none e).introduce e).plan.declaredConflict? e = none := rfl
  simp only [conflictOf?, Plan.ownConflict?_eq hholds, hdeclared, Plan.sees_own_iff]
  cases e.package.conflicts.flatten.find? fun option => Excludes option e.name <;> rfl

/-- On an empty plan a request with a single result, which needs nothing else, comes to the first
conflict of the result that excludes its own name, or else to the result. -/
theorem add_of_single (hleaf : e.package.depends = [])
    (hsearch : (index.search site query 0).2 = .ok [e]) :
    ((fresh index options).add site query).2 =
      match e.package.conflicts.flatten.find? fun option => Excludes option e.name with
      | some option => .error (.conflict e.name option)
      | none => .ok [e] := by
  have hfound : (fresh index options).index.search site query 0 =
      ((index.search site query 0).1, .ok [e]) := Prod.ext rfl hsearch
  rw [add_leaf (installedEntry?_fresh index options query) hfound rfl hleaf, conflictOf?_fresh]
  cases e.package.conflicts.flatten.find? fun option => Excludes option e.name <;> rfl

/-- A request on an empty plan whose only result needs nothing else is refused just when a conflict
of the package excludes its name, and the refusal names the package and such a conflict. Otherwise
the request is answered with the package. The aliases of the package play no part in this. -/
theorem refused_for_own_name_iff (hleaf : e.package.depends = [])
    (hsearch : (index.search site query 0).2 = .ok [e]) :
    (Refused ((fresh index options).add site query).2 ↔
        ∃ option ∈ e.package.conflicts.flatten, Excludes option e.name) ∧
      (∀ package other,
        ((fresh index options).add site query).2 = .error (.conflict package other) →
          package = e.name ∧ other ∈ e.package.conflicts.flatten ∧ Excludes other e.name) ∧
      (¬Refused ((fresh index options).add site query).2 →
        ((fresh index options).add site query).2 = .ok [e]) := by
  have hanswer := add_of_single options hleaf hsearch
  cases hfirst : e.package.conflicts.flatten.find? fun option => Excludes option e.name with
  | some option =>
    rw [hfirst] at hanswer
    have hoption := List.mem_of_find?_eq_some hfirst
    have hexcludes : Excludes option e.name := by simpa using List.find?_some hfirst
    have hrefused : Refused ((fresh index options).add site query).2 := ⟨_, _, hanswer⟩
    refine ⟨iff_of_true hrefused ⟨option, hoption, hexcludes⟩, ?_, fun hnot => absurd hrefused hnot⟩
    intro package other hconflict
    rw [hanswer] at hconflict
    cases hconflict
    exact ⟨rfl, hoption, hexcludes⟩
  | none =>
    rw [hfirst] at hanswer
    have hnone : ¬∃ option ∈ e.package.conflicts.flatten, Excludes option e.name := by
      simpa only [List.find?_eq_none, decide_eq_true_eq, not_exists, not_and] using hfirst
    have hconflict : ∀ package other,
        ((fresh index options).add site query).2 ≠ .error (.conflict package other) := by
      intro package other hconflict
      rw [hanswer] at hconflict
      cases hconflict
    exact ⟨iff_of_false (fun ⟨package, other, hrefused⟩ => hconflict package other hrefused) hnone,
      fun package other hrefused => absurd hrefused (hconflict package other), fun _ => hanswer⟩

end

/-! ### Two providers of a service -/

/-- Two providers of a service that tolerate no other one. The conflicts of the first one accept its
aliases, those of the second one its own name, too. -/
def rivals : Index :=
  shelf [{ name := ⟨"alpine", "postfix", "3", "", false⟩
           aliases := [⟨"alpine", "smtp", "3", "", false⟩, ⟨"debian", "postfix", "1", "", false⟩]
           conflicts := [[⟨"alpine", "smtp", "", "", false⟩, ⟨"", "smtp", "", "", false⟩],
             [⟨"debian", "postfix", "", "", false⟩, ⟨"", "postfix", "<2", "", false⟩]] },
    { name := ⟨"alpine", "exim", "4", "", false⟩
      aliases := [⟨"alpine", "smtp", "4", "", false⟩]
      conflicts := [[⟨"alpine", "smtp", "", "", false⟩], [⟨"alpine", "exim", "", "", false⟩]] }]

/-- The second provider is refused for its own name. -/
theorem own_name_conflicts :
    ¬∀ site index options query (e : Index.Entry), e.package.depends = [] →
      (index.search site query 0).2 = .ok [e] →
      ¬Refused ((fresh index options).add site query).2 := by
  intro hnever
  exact hnever {} rivals {} (.parse "exim") rivals.entries[1] rfl (by rfl) ⟨_, _, rfl⟩

/-- The first provider is answered, although its conflicts accept both of its aliases and one of
them refers to its name, in earlier versions. The second one is refused with the conflict that
excludes its name, and not with the one for its alias that stands before it. -/
theorem own_aliases_tolerated :
    ((fresh rivals {}).add {} (.parse "postfix")).2 = .ok [rivals.entries[0]] ∧
      ((fresh rivals {}).add {} (.parse "exim")).2 =
        .error (.conflict rivals.entries[1].name ⟨"alpine", "exim", "", "", false⟩) := by
  have hpostfix : (rivals.search {} (.parse "postfix") 0).2 = .ok [rivals.entries[0]] := by rfl
  have hexim : (rivals.search {} (.parse "exim") 0).2 = .ok [rivals.entries[1]] := by rfl
  constructor
  · obtain ⟨hrefused, -, hanswered⟩ := refused_for_own_name_iff {} rfl hpostfix
    exact hanswered (mt hrefused.1 (by decide))
  · obtain ⟨hrefused, hnamed, -⟩ := refused_for_own_name_iff {} rfl hexim
    obtain ⟨package, other, hconflict⟩ := hrefused.2 (by decide)
    obtain ⟨rfl, hother, hexcludes⟩ := hnamed package other hconflict
    have honly : ∀ option ∈ rivals.entries[1].package.conflicts.flatten,
        Excludes option rivals.entries[1].name → option = ⟨"alpine", "exim", "", "", false⟩ := by
      decide
    rw [hconflict, honly other hother hexcludes]

end Planner

end Depot
