import Depot.Proofs.Index.Search
import Depot.Proofs.Planner.Session

/-!
# Dependencies of installed entries

Every group of every installed entry is met: nothing of it counts, or an edge leads from the entry
to an installed one that answers an alternative of the group (`Met`). What is installed was picked,
a picked entry meets its groups one by one (`Course.met`), and the children of all edges are picked
(`Course.child_mem_picked`).
-/

namespace Depot

namespace Planner

/-- The recorded edge answers a query of a parent: its child satisfies the query, or it was the
entry registered for the query when the edge was recorded. -/
def Recording.Answers (r : Recording) (parent : Option Index.Entry) (query : Package.Name) : Prop :=
  r.parent = parent ∧
    (r.child.satisfies query = true ∨ r.plan.installedEntry? query = some r.child)

/-- A group of an entry of which nothing counts, although it is not empty, or one with an
alternative that an edge answers. -/
def Met (o : Plan.Options) (journal : List Recording) (e : Index.Entry)
    (group : List Package.Name) : Prop :=
  (group ≠ [] ∧ kept o group = []) ∨
    ∃ option ∈ kept o group, ∃ r ∈ journal, r.Answers (some e) option

/-- What the edges show of a goal that is reached. -/
def Goal.Reached (o : Plan.Options) (journal : List Recording) : Goal → Prop
  | .answer parent query => ∃ r ∈ journal, r.Answers parent query
  | .meet e groups => ∀ group ∈ groups, Met o journal e group

theorem Met.mono {o : Plan.Options} {journal later : List Recording} {e : Index.Entry}
    {group : List Package.Name} (h : Met o journal e group) (hsub : journal ⊆ later) :
    Met o later e group := by
  rcases h with h | ⟨option, hoption, r, hr, hanswers⟩
  · exact .inl h
  · exact .inr ⟨option, hoption, r, hsub hr, hanswers⟩

/-- Nothing of a group counts just when recommended alternatives are left out and it has no
others. -/
theorem kept_eq_nil_iff {o : Plan.Options} {group : List Package.Name} (hgroup : group ≠ []) :
    kept o group = [] ↔
      o.excludeRecommends = true ∧ ∀ option ∈ group, option.recommended = true := by
  simp only [kept, List.filter_eq_nil_iff, Bool.not_eq_true', Bool.not_eq_false, Bool.and_eq_true]
  constructor
  · intro h
    obtain ⟨option, hoption⟩ := List.exists_mem_of_ne_nil group hgroup
    exact ⟨(h option hoption).2, fun option hoption => (h option hoption).1⟩
  · exact fun h option hoption => ⟨h.2 option hoption, h.1⟩

namespace Course

variable {site : Site} {goal : Goal} {s t : Planner} {added : List Index.Entry}
  {journal : List Recording}

theorem met (h : Course site goal s added journal t) :
    goal.Reached s.plan.options journal ∧
      ∀ e ∈ added, ∀ group ∈ e.package.depends, Met s.plan.options journal e group := by
  induction h with
  | reuse hregistered =>
    exact ⟨⟨_, List.mem_singleton_self _, rfl, .inr hregistered⟩, by simp⟩
  | @choose parent query s t index results e added journal _ hsearch hchoose _ _ ih =>
    obtain ⟨hgroups, hadded⟩ := ih
    rw [takeUp_options] at hgroups hadded
    have hsub : journal ⊆ ⟨s.plan, parent, e⟩ :: journal := List.subset_cons_self _ _
    have hsatisfies : e.satisfies query = true := satisfies_of_choose? hsearch hchoose
    refine ⟨⟨_, List.mem_cons_self, rfl, .inl hsatisfies⟩, fun e' he' group hgroup => ?_⟩
    rcases List.mem_cons.1 he' with rfl | he'
    · exact (hgroups group hgroup).mono hsub
    · exact (hadded e' he' group hgroup).mono hsub
  | done => exact ⟨by simp [Goal.Reached], by simp⟩
  | skip hgroup hkept _ ih =>
    obtain ⟨hrest, hadded⟩ := ih
    refine ⟨fun group' hgroup' => ?_, hadded⟩
    rcases List.mem_cons.1 hgroup' with rfl | hgroup'
    · exact .inl ⟨hgroup, hkept⟩
    · exact hrest group' hgroup'
  | @one e group passed others option rest s s₁ s₂ t more added first journal hkept hpasses hone _
      ihone ihrest =>
    obtain ⟨⟨r, hr, hanswers⟩, hmore⟩ := ihone
    obtain ⟨hrest, hadded⟩ := ihrest
    rw [hone.adds.options, hpasses.plan_eq] at hrest hadded
    rw [hpasses.plan_eq] at hmore
    have hfirst : first ⊆ first ++ journal := List.subset_append_left _ _
    have hjournal : journal ⊆ first ++ journal := List.subset_append_right _ _
    refine ⟨fun group' hgroup' => ?_, fun e' he' group' hgroup' => ?_⟩
    · rcases List.mem_cons.1 hgroup' with rfl | hgroup'
      · exact .inr ⟨option, by simp [hkept], r, hfirst hr, hanswers⟩
      · exact (hrest group' hgroup').mono hjournal
    · rcases List.mem_append.1 he' with he' | he'
      · exact (hmore e' he' group' hgroup').mono hfirst
      · exact (hadded e' he' group' hgroup').mono hjournal

/-- Every recorded edge leads to a picked entry. -/
theorem child_mem_picked (h : Course site goal s added journal t) (hs : s.plan.Registered) :
    ∀ r ∈ journal, r.child ∈ t.plan.picked := by
  induction h with
  | reuse hregistered =>
    simp only [List.mem_singleton, forall_eq]
    exact hs.mem_picked hregistered
  | @choose parent _ s t _ _ e added journal _ _ _ _ hmeet ih =>
    intro r hr
    rcases List.mem_cons.1 hr with rfl | hr
    · show e ∈ t.plan.picked
      rw [hmeet.adds.picked, takeUp_picked]
      simp
    · exact ih (registered_takeUp hs parent e) r hr
  | done => simp
  | skip _ _ _ ih => exact ih hs
  | one _ hpasses hone hrest ihone ihrest =>
    rw [← hpasses.plan_eq] at hs
    intro r hr
    rcases List.mem_append.1 hr with hr | hr
    · rw [hrest.adds.picked]
      exact List.mem_append_left _ (ihone hs r hr)
    · exact ihrest (hone.registered hs) r hr

end Course

namespace Session

variable {s : Planner} {journal : List Recording}

theorem met (h : Session s journal) :
    ∀ e ∈ s.plan.picked, ∀ group ∈ e.package.depends, Met s.plan.options journal e group := by
  refine h.induct (P := fun p journal =>
    ∀ e ∈ p.picked, ∀ group ∈ e.package.depends, Met p.options journal e group) ?_ ?_ ?_
  · simp
  · intro s t before journal _ _ added _ hs hcourse e he group hgroup
    have hadds := hcourse.adds
    rw [hadds.options]
    rw [hadds.picked] at he
    rcases List.mem_append.1 he with he | he
    · exact (hs e he group hgroup).mono (List.subset_append_left _ _)
    · exact (hcourse.met.2 e he group hgroup).mono (List.subset_append_right _ _)
  · exact fun _ hp => hp

theorem child_mem_picked (h : Session s journal) : ∀ r ∈ journal, r.child ∈ s.plan.picked := by
  refine h.induct (P := fun p journal => ∀ r ∈ journal, r.child ∈ p.picked) ?_ ?_ ?_
  · simp
  · intro s t _ _ _ _ _ hsession hs hcourse r hr
    rcases List.mem_append.1 hr with hr | hr
    · rw [hcourse.adds.picked]
      exact List.mem_append_left _ (hs r hr)
    · exact hcourse.child_mem_picked hsession.registered r hr
  · exact fun _ hp => hp

end Session

/-- Every group of an installed entry has only recommended alternatives while those are left out, or
an edge from the entry to an installed one answers an alternative of it that counts: the installed
one satisfies the alternative, or it was what the alternative saw when the edge was recorded, with
the edges before it. An empty group is never met. -/
theorem groups_of_installed_met {s : Planner} {journal : List Recording} (h : Session s journal)
    {e : Index.Entry} (he : e ∈ s.plan.packages) :
    [] ∉ e.package.depends ∧
      ∀ group ∈ e.package.depends,
        (group ≠ [] ∧ s.plan.options.excludeRecommends = true ∧
            ∀ option ∈ group, option.recommended = true) ∨
          ∃ option ∈ kept s.plan.options group, ∃ front r back,
            journal = front ++ r :: back ∧ r.plan.edges = front.map Recording.edge ∧
              r.parent = some e ∧ (some e, r.child) ∈ s.plan.edges ∧
              r.child ∈ s.plan.packages ∧
              (r.child.satisfies option = true ∨
                r.plan.installedEntry? option = some r.child) := by
  have hmet := h.met e (h.perm.mem_iff.1 he)
  refine ⟨fun hnil => ?_, fun group hgroup => ?_⟩
  · rcases hmet [] hnil with ⟨hne, -⟩ | ⟨option, hoption, -⟩
    · exact hne rfl
    · simp [kept] at hoption
  · rcases hmet group hgroup with ⟨hne, hkept⟩ | ⟨option, hoption, r, hr, hparent, hanswers⟩
    · exact .inl ⟨hne, (kept_eq_nil_iff hne).1 hkept⟩
    · right
      obtain ⟨front, back, hjournal⟩ := List.append_of_mem hr
      have htimed : r.plan.edges = [] ++ front.map Recording.edge :=
        InTurn.at_split (hjournal ▸ h.timed)
      have hedge : (some e, r.child) ∈ s.plan.edges := by
        rw [h.edges_eq]
        exact List.mem_map.2 ⟨r, hr, by rw [Recording.edge, hparent]⟩
      have hchild : r.child ∈ s.plan.packages := h.perm.mem_iff.2 (h.child_mem_picked r hr)
      exact ⟨option, hoption, front, r, back, hjournal, htimed, hparent, hedge, hchild, hanswers⟩

/-! ### A dependency that an earlier version meets -/

/-- A library, and an application that asks for a later version of it. -/
def outdated : Index :=
  shelf [{ name := ⟨"alpine", "lib", "1", "", false⟩ },
    { name := ⟨"alpine", "app", "1", "", false⟩
      depends := [[⟨"alpine", "lib", "2", "", false⟩]] }]

/-- The planner after requests for the library and for the application. -/
def withApp : Planner := ((fresh outdated {}).serve {} [.parse "lib", .parse "app"]).1

/-- The application is installed on the edge to the library that was there, although that one does
not satisfy what it asks for. -/
theorem outdated_group_met :
    ∃ journal, Session withApp journal ∧ outdated.entries[1] ∈ withApp.plan.packages ∧
      ∃ r ∈ journal, r.parent = some outdated.entries[1] ∧ r.child ∈ withApp.plan.packages ∧
        r.child.satisfies ⟨"alpine", "lib", "2", "", false⟩ = false ∧
        r.plan.installedEntry? ⟨"alpine", "lib", "2", "", false⟩ = some r.child := by
  obtain ⟨journal, hsession⟩ :=
    (Session.fresh outdated {}).serve {} [.parse "lib", .parse "app"]
  have hmem : outdated.entries[1] ∈ withApp.plan.packages := by decide
  refine ⟨_, hsession, hmem, ?_⟩
  have hmet := (groups_of_installed_met hsession hmem).2
    [⟨"alpine", "lib", "2", "", false⟩] (by decide)
  rcases hmet with ⟨-, hexclude, -⟩ | ⟨option, hoption, front, r, back, hjournal, -, hparent,
    hedge, hchild, hanswers⟩
  · exact absurd hexclude (by decide)
  · obtain rfl : option = ⟨"alpine", "lib", "2", "", false⟩ :=
      List.mem_singleton.1 (List.mem_filter.1 hoption).1
    have hlib : ∀ edge ∈ withApp.plan.edges, edge.1 = some outdated.entries[1] →
        edge.2.satisfies ⟨"alpine", "lib", "2", "", false⟩ = false := by decide
    have hunsatisfied := hlib _ hedge rfl
    rw [hunsatisfied] at hanswers
    exact ⟨r, hjournal ▸ List.mem_append_right _ List.mem_cons_self, hparent, hchild, hunsatisfied,
      hanswers.resolve_left Bool.false_ne_true⟩

end Planner

end Depot
