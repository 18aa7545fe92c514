import Depot.Proofs.Planner.Order

/-!
# What an answered request adds

An answered request makes the lists of a plan longer and changes nothing of what they held. Of the
edges that it records exactly the first one has no parent (`Course.rooted`), and from there the
recorded edges lead to everything that it chooses (`Course.needed`). So the edges of a session lead
from its requests to everything that is installed (`Session.needed`); nothing is there that no
request needed.
-/

namespace Depot

namespace Planner

/-- The edges lead to an entry from one that a parent asked for; without a parent, from one that a
request from outside asked for. -/
def Needed (edges : List (Option Index.Entry × Index.Entry)) (parent : Option Index.Entry)
    (e : Index.Entry) : Prop :=
  ∃ child, (parent, child) ∈ edges ∧ Leads edges child e

/-- Where the edges recorded for a goal start: for a request, the first one from its parent and all
others from entries; for groups, all of them from entries. -/
def Goal.Rooted : Goal → List (Option Index.Entry × Index.Entry) → Prop
  | .answer parent _, edges =>
    ∃ child rest, edges = (parent, child) :: rest ∧ ∀ edge ∈ rest, edge.1 ≠ none
  | .meet _ _, edges => ∀ edge ∈ edges, edge.1 ≠ none

variable {edges more : List (Option Index.Entry × Index.Entry)} {parent : Option Index.Entry}
  {e : Index.Entry}

theorem Needed.mono (h : Needed edges parent e) (hsub : edges ⊆ more) : Needed more parent e := by
  obtain ⟨child, hchild, hleads⟩ := h
  exact ⟨child, hsub hchild, hleads.mono hsub⟩

/-- What an entry needs is needed by whoever asked for the entry. -/
theorem Needed.leads {a : Index.Entry} (h : Needed edges (some a) e) : Leads edges a e := by
  obtain ⟨child, hchild, hleads⟩ := h
  exact hleads.head hchild

/-! ## Courses -/

namespace Course

variable {site : Site} {goal : Goal} {s t : Planner} {added : List Index.Entry}
  {journal : List Recording}

theorem rooted (h : Course site goal s added journal t) :
    goal.Rooted (journal.map Recording.edge) := by
  induction h with
  | @reuse parent _ _ e _ => exact ⟨e, [], rfl, by simp⟩
  | @choose parent _ _ _ _ _ e _ journal _ _ _ _ _ ih =>
    exact ⟨e, journal.map Recording.edge, rfl, ih⟩
  | done => simp [Goal.Rooted]
  | skip _ _ _ ih => exact ih
  | one _ _ _ _ ihone ihrest =>
    obtain ⟨child, rest, hfirst, hrooted⟩ := ihone
    rw [List.map_append, hfirst]
    intro edge hedge
    rcases List.mem_append.1 hedge with hedge | hedge
    · rcases List.mem_cons.1 hedge with rfl | hedge
      · simp
      · exact hrooted edge hedge
    · exact ihrest edge hedge

theorem needed (h : Course site goal s added journal t) :
    ∀ e ∈ added, Needed (journal.map Recording.edge) goal.parent e := by
  induction h with
  | reuse => simp
  | @choose parent _ s _ _ _ e _ journal _ _ _ _ _ ih =>
    have hself : (parent, e) ∈ ((⟨s.plan, parent, e⟩ :: journal).map Recording.edge) :=
      List.mem_cons_self
    intro e' he'
    rcases List.mem_cons.1 he' with rfl | he'
    · exact ⟨e', hself, .refl⟩
    · exact ⟨e, hself, ((ih e' he').mono (List.subset_cons_self _ _)).leads⟩
  | done => simp
  | skip _ _ _ ih => exact ih
  | one _ _ _ _ ihone ihrest =>
    rw [List.map_append]
    intro e' he'
    rcases List.mem_append.1 he' with he' | he'
    · exact (ihone e' he').mono (List.subset_append_left _ _)
    · exact (ihrest e' he').mono (List.subset_append_right _ _)

end Course

/-! ## Sessions -/

theorem Session.needed {s : Planner} {journal : List Recording} (h : Session s journal) :
    ∀ e ∈ s.plan.packages, Needed s.plan.edges none e := by
  have hpicked : ∀ e ∈ s.plan.picked, Needed s.plan.edges none e := by
    refine h.induct (P := fun p _ => ∀ e ∈ p.picked, Needed p.edges none e) ?_ ?_ ?_
    · simp
    · intro s t _ _ _ _ added _ hs hcourse e he
      have hadds := hcourse.adds
      rw [hadds.picked] at he
      rw [hadds.edges]
      rcases List.mem_append.1 he with he | he
      · exact (hs e he).mono (List.subset_append_left _ _)
      · exact (hcourse.needed e he).mono (List.subset_append_right _ _)
    · exact fun _ hp => hp
  exact fun e he => hpicked e (h.perm.mem_iff.1 he)

/-- An answered request puts what it carries behind what was picked, in that order, and behind what
was installed, in some order. Of the edges that it adds exactly the first one has no parent, and
from there they lead to everything that it carries. Afterwards, as before, the edges lead from
requests to everything installed. -/
theorem answered_request_adds_what_it_needs {s : Planner} {journal : List Recording}
    (h : Session s journal) {site : Site} {depth : Nat} {query : Package.Name}
    {added : List Index.Entry} (hanswer : (s.addWithin site depth query).2 = .ok added) :
    (∃ installed, (s.addWithin site depth query).1.plan.packages = s.plan.packages ++ installed ∧
        installed.Perm added) ∧
      (s.addWithin site depth query).1.plan.picked = s.plan.picked ++ added ∧
      (∃ child rest, (s.addWithin site depth query).1.plan.edges =
            s.plan.edges ++ (none, child) :: rest ∧
          (∀ edge ∈ rest, edge.1 ≠ none) ∧
          ∀ e ∈ added, Leads ((none, child) :: rest) child e) ∧
      ∀ e ∈ (s.addWithin site depth query).1.plan.packages,
        Needed (s.addWithin site depth query).1.plan.edges none e := by
  have hafter := h.answered site depth query hanswer
  have hcourse := course_of_answered hanswer
  have hadds := hcourse.adds
  obtain ⟨child, rest, hedges, hrooted⟩ := hcourse.rooted
  refine ⟨hadds.packages, hadds.picked, ⟨child, rest, hedges ▸ hadds.edges, hrooted, ?_⟩,
    hafter.needed⟩
  intro e he
  -- the one edge without a parent is the first one
  obtain ⟨child', hchild', hleads⟩ := hcourse.needed e he
  rw [hedges] at hchild' hleads
  rcases List.mem_cons.1 hchild' with heq | hrest
  · obtain ⟨-, rfl⟩ := Prod.mk.inj heq
    exact hleads
  · exact absurd rfl (hrooted _ hrest)

/-- A request for one of two packages that need each other, after one for an application: the edges
lead to the other one from the package that was asked for, and to the application as before. -/
theorem cycle_added_behind_chain :
    ∃ child rest,
      (withChain.addWithin {} 10 (.parse "ping")).1.plan.edges =
          withChain.plan.edges ++ (none, child) :: rest ∧
        (∀ edge ∈ rest, edge.1 ≠ none) ∧
        Leads ((none, child) :: rest) child entangled.entries[3] ∧
        (withChain.addWithin {} 10 (.parse "ping")).1.plan.picked =
          withChain.plan.picked ++ [entangled.entries[2], entangled.entries[3]] ∧
        (∃ installed,
          (withChain.addWithin {} 10 (.parse "ping")).1.plan.packages =
              withChain.plan.packages ++ installed ∧
            installed.Perm [entangled.entries[2], entangled.entries[3]]) ∧
        Needed (withChain.addWithin {} 10 (.parse "ping")).1.plan.edges none
          entangled.entries[0] := by
  obtain ⟨_, hsession⟩ := (Session.fresh entangled {}).serve {} [.parse "app"]
  have hanswer : (withChain.addWithin {} 10 (.parse "ping")).2 =
      .ok [entangled.entries[2], entangled.entries[3]] := by decide
  obtain ⟨hpackages, hpicked, ⟨child, rest, hedges, hrooted, hleads⟩, hneeded⟩ :=
    answered_request_adds_what_it_needs hsession hanswer
  exact ⟨child, rest, hedges, hrooted, hleads _ (by simp), hpicked, hpackages,
    hneeded _ (by decide)⟩

end Planner

end Depot
