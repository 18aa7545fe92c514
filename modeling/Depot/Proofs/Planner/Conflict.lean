import Depot.Proofs.Index.Search
import Depot.Proofs.Planner.Session

/-!
# Conflicts with earlier entries

A new entry is checked against what its own conflicts see in the tables, and these show one
registration for a short name and one short name for a bare name. The check is exact for what is
seen (`ownConflict?_eq_none_iff`), and everything picked has passed it (`Session.passed`). So an
earlier entry that a conflict accepts goes unnoticed just when the name that matches is hidden
behind another registration (`earlier_conflicts_hidden`), and it can be
(`overwritten_alias_unnoticed`).
-/

namespace Depot

namespace Plan

/-- The look-up of an option sees a version that the option accepts. -/
def Sees (rs : List Registration) (option : Package.Name) : Prop :=
  ∃ r, seen? rs option = some r ∧ Version.satisfies r.name.version option.version = true

instance (rs : List Registration) (option : Package.Name) : Decidable (Sees rs option) :=
  decidable_of_iff
    ((seen? rs option).any (fun r => Version.satisfies r.name.version option.version) = true)
    (Option.any_eq_true _ _)

/-- The look-up of an option does not come to a registration. It sees another one, of which it does
not accept the version, or, which takes an option without a name, nothing. -/
def Hidden (rs : List Registration) (option : Package.Name) (r : Registration) : Prop :=
  (option.name = "" ∧ seen? rs option = none) ∨
    ∃ other, seen? rs option = some other ∧ other ≠ r ∧
      Version.satisfies other.name.version option.version = false

/-- An option excludes what is registered under a name: it refers to the name and accepts its
version. -/
def Excludes (option name : Package.Name) : Prop :=
  option.RefersTo name ∧ Version.satisfies name.version option.version = true

instance (option name : Package.Name) : Decidable (Excludes option name) :=
  inferInstanceAs (Decidable (_ ∧ _))

/-- What is registered when an entry is checked: what was picked before and its own name. -/
def atCheck (before : List Index.Entry) (e : Index.Entry) : List Registration :=
  registrations before ++ [⟨e.name, e⟩]

/-! ## What the check sees -/

theorem ownConflict?_eq {p : Plan} {rs : List Registration} (h : p.Holds rs) (e : Index.Entry) :
    p.ownConflict? e = e.package.conflicts.flatten.find? fun option => Sees rs option := by
  unfold ownConflict?
  congr 1
  funext option
  rw [h.installedVersion?]
  cases hseen : seen? rs option <;> simp [Sees, hseen]

theorem ownConflict?_eq_none_iff {p : Plan} {rs : List Registration} (h : p.Holds rs)
    (e : Index.Entry) :
    p.ownConflict? e = none ↔ ∀ option ∈ e.package.conflicts.flatten, ¬Sees rs option := by
  simp only [ownConflict?_eq h, List.find?_eq_none, decide_eq_true_eq]

/-- On an empty plan an option sees the name of the entry that is checked, and nothing else. -/
theorem sees_own_iff {option : Package.Name} {e : Index.Entry} :
    Sees (atCheck [] e) option ↔ Excludes option e.name := by
  have hown : atCheck [] e = [⟨e.name, e⟩] := rfl
  rw [hown]
  constructor
  · rintro ⟨r, hseen, haccepts⟩
    obtain rfl := List.mem_singleton.1 (mem_of_seen? hseen)
    obtain ⟨r, hr, hrefers⟩ := exists_seen?_iff.1 ⟨_, hseen⟩
    obtain rfl := List.mem_singleton.1 hr
    exact ⟨hrefers, haccepts⟩
  · rintro ⟨hrefers, haccepts⟩
    obtain ⟨r, hseen⟩ := exists_seen?_iff.2 ⟨⟨e.name, e⟩, List.mem_singleton_self _, hrefers⟩
    obtain rfl := List.mem_singleton.1 (mem_of_seen? hseen)
    exact ⟨_, hseen, haccepts⟩

/-- What an option accepts but does not see is hidden from it. -/
theorem hidden_of_not_sees {rs : List Registration} {r : Registration} {option : Package.Name}
    (hr : r ∈ rs) (hsatisfies : r.name.satisfies option = true) (hunseen : ¬Sees rs option) :
    Hidden rs option r := by
  have hversion : Version.satisfies r.name.version option.version = true := by
    simp only [Package.Name.satisfies, Bool.and_eq_true] at hsatisfies
    exact hsatisfies.2
  cases hseen : seen? rs option with
  | none =>
    by_cases hname : option.name = ""
    · exact .inl ⟨hname, hseen⟩
    · obtain ⟨other, hother⟩ :=
        seen?_of_asksFor hr (Package.Name.asksFor_of_satisfies hname hsatisfies)
      rw [hseen] at hother
      cases hother
  | some other =>
    right
    have hrefused : ¬Version.satisfies other.name.version option.version = true :=
      fun haccepted => hunseen ⟨other, hseen, haccepted⟩
    refine ⟨other, hseen, ?_, Bool.eq_false_iff.2 hrefused⟩
    rintro rfl
    exact hrefused hversion

end Plan

namespace Planner

open Plan (Sees Hidden atCheck registrations)

/-! ## Everything picked has passed -/

/-- Each of these entries has passed the check of its own conflicts, picked in this order after
others. -/
def Passed (before added : List Index.Entry) : Prop :=
  InTurn id
    (fun before e => ∀ option ∈ e.package.conflicts.flatten, ¬Sees (atCheck before e) option)
    before added

theorem Course.passed {site : Site} {goal : Goal} {s t : Planner} {added : List Index.Entry}
    {journal : List Recording} (h : Course site goal s added journal t)
    (hs : s.plan.Registered) : Passed s.plan.picked added := by
  induction h with
  | reuse => trivial
  | @choose parent _ s t _ _ e _ _ _ _ _ hconflict _ ih =>
    have hrest := ih (registered_takeUp hs parent e)
    rw [takeUp_picked] at hrest
    exact ⟨(Plan.ownConflict?_eq_none_iff (holds_introduce hs parent e) e).1
      (conflictOf?_eq_none_iff.1 hconflict).1, hrest⟩
  | done => trivial
  | skip _ _ _ ih => exact ih hs
  | one _ hpasses hone _ ihone ihrest =>
    rw [← hpasses.plan_eq] at hs ⊢
    have hrest := ihrest (hone.registered hs)
    rw [hone.adds.picked] at hrest
    refine inTurn_append_iff.2 ⟨ihone hs, ?_⟩
    rwa [List.map_id]

theorem Session.passed {s : Planner} {journal : List Recording} (h : Session s journal) :
    Passed [] s.plan.picked := by
  refine h.induct (P := fun p _ => Passed [] p.picked) ?_ ?_ ?_
  · exact fun _ => trivial
  · intro s t _ _ _ _ _ hsession hs hcourse
    rw [hcourse.adds.picked]
    refine inTurn_append_iff.2 ⟨hs, ?_⟩
    rw [List.map_id, List.nil_append]
    exact hcourse.passed hsession.registered
  · exact fun _ hp => hp

/-! ## Conflicts that go unnoticed -/

/-- No entry has a conflict with another one that was picked before it, except when the name that
the conflict accepts is hidden. When a candidate is checked, such conflicts do not count: the check
finds nothing just when no conflict of the candidate sees a version that it accepts. -/
theorem earlier_conflicts_hidden {s : Planner} {journal : List Recording}
    (h : Session s journal) :
    ((∀ front p back, s.plan.picked = front ++ p :: back → ∀ q ∈ front, q ≠ p →
          ∀ option ∈ p.package.conflicts.flatten, q.satisfies option = false) ↔
        ∀ front p back, s.plan.picked = front ++ p :: back → ∀ q ∈ front, q ≠ p →
          ∀ option ∈ p.package.conflicts.flatten, ∀ name ∈ q.package.names,
            name.satisfies option = true → ¬Hidden (atCheck front p) option ⟨name, q⟩) ∧
      ∀ parent e, ((s.connect parent e).introduce e).plan.ownConflict? e = none ↔
        ∀ option ∈ e.package.conflicts.flatten, ¬Sees (atCheck s.plan.picked e) option := by
  refine ⟨⟨?_, ?_⟩, fun parent e => ?_⟩
  · intro hnone front p back hpicked q hq hne option hoption name hname hsatisfies
    have hmatch : q.satisfies option = true := Index.Entry.satisfies_iff.2 ⟨name, hname, hsatisfies⟩
    rw [hnone front p back hpicked q hq hne option hoption] at hmatch
    cases hmatch
  · intro hnotHidden front p back hpicked q hq hne option hoption
    rw [Bool.eq_false_iff]
    intro hmatch
    obtain ⟨name, hname, hsatisfies⟩ := Index.Entry.satisfies_iff.1 hmatch
    -- the option saw nothing that it accepts, although the name was registered by then
    have hpassed := (hpicked ▸ h.passed).at_split option hoption
    rw [List.nil_append, List.map_id] at hpassed
    have hregistered : ⟨name, q⟩ ∈ atCheck front p :=
      List.mem_append_left _ (Plan.mem_registrations_iff.2 ⟨hq, hname⟩)
    exact hnotHidden front p back hpicked q hq hne option hoption name hname hsatisfies
      (Plan.hidden_of_not_sees hregistered hsatisfies hpassed)
  · exact Plan.ownConflict?_eq_none_iff (holds_introduce h.registered parent e) e

/-! ### An alias that another package has replaced -/

/-- Two packages under one alias, in different versions, and one that conflicts with the first
version. -/
def mailers : Index :=
  shelf [{ name := ⟨"alpine", "postfix", "1", "", false⟩
           aliases := [⟨"alpine", "smtp", "3", "", false⟩] },
    { name := ⟨"alpine", "nullmailer", "1", "", false⟩
      aliases := [⟨"alpine", "smtp", "1", "", false⟩] },
    { name := ⟨"alpine", "exim", "1", "", false⟩
      conflicts := [[⟨"alpine", "smtp", "3", "", false⟩]] }]

/-- The planner after requests for the three packages. -/
def threeMailers : Planner :=
  ((fresh mailers {}).serve {} [.parse "postfix", .parse "nullmailer", .parse "exim"]).1

/-- The conflict with the first package is missed, because the alias leads to the second one. -/
theorem overwritten_alias_unnoticed :
    ¬∀ s journal, Session s journal → ∀ front p back, s.plan.picked = front ++ p :: back →
      ∀ q ∈ front, q ≠ p → q ∈ s.plan.packages → p ∈ s.plan.packages →
        ∀ option ∈ p.package.conflicts.flatten, q.satisfies option = false := by
  intro hnone
  obtain ⟨journal, hsession⟩ := (Session.fresh mailers {}).serve {} _
  have hsatisfies := hnone threeMailers journal hsession [mailers.entries[0], mailers.entries[1]]
    mailers.entries[2] [] (by decide) mailers.entries[0] (by decide) (by decide) (by decide)
    (by decide) ⟨"alpine", "smtp", "3", "", false⟩ (by decide)
  exact absurd hsatisfies (by decide)

/-- The name that the conflict accepts is hidden, so that the candidate passes. -/
theorem overwritten_alias_hidden :
    (∃ journal, Session threeMailers journal) ∧
      (∃ front p back, threeMailers.plan.picked = front ++ p :: back ∧ ∃ q ∈ front, q ≠ p ∧
        ∃ option ∈ p.package.conflicts.flatten, ∃ name ∈ q.package.names,
          name.satisfies option = true ∧ Hidden (atCheck front p) option ⟨name, q⟩) ∧
      ¬Sees (atCheck threeMailers.plan.picked mailers.entries[2])
        ⟨"alpine", "smtp", "3", "", false⟩ := by
  obtain ⟨journal, hsession⟩ := (Session.fresh mailers {}).serve {} _
  obtain ⟨hexact, hcheck⟩ := earlier_conflicts_hidden hsession
  refine ⟨⟨journal, hsession⟩, ?_, ?_⟩
  · refine Classical.byContradiction fun hnotHidden => ?_
    have hnone := hexact.2 fun front p back hpicked q hq hne option hoption name hname hsatisfies
      hhidden => hnotHidden ⟨front, p, back, hpicked, q, hq, hne, option, hoption, name, hname,
        hsatisfies, hhidden⟩
    have hsatisfies := hnone [mailers.entries[0], mailers.entries[1]] mailers.entries[2] []
      (by decide) mailers.entries[0] (by decide) (by decide)
      ⟨"alpine", "smtp", "3", "", false⟩ (by decide)
    exact absurd hsatisfies (by decide)
  · exact (hcheck none mailers.entries[2]).1 (by decide) _ (by decide)

end Planner

end Depot
