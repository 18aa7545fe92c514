import Depot.Proofs.Planner.Registry
import Depot.Proofs.Planner.Rollback

/-!
# Sessions

A session is what requests from outside make of an empty plan, some of them answered and some
refused (`Planner.Session`). It knows every edge of the plan with the plan as it was when the edge
was recorded. An answered request adds to the plan what its course says (`Course.adds`) and a
refused one leaves it alone, so a property of sessions is shown for the empty plan and for one
course at a time (`Session.induct`). In a session the tables hold what was picked, everything picked
is installed, and the edges are those that were recorded, each at its time (`Session.registered`,
`Session.perm`, `Session.edges_eq`, `Session.timed`).
-/

namespace Depot

namespace Planner

/-! ## What a course adds -/

/-- The plan `q` has what `p` has, these picked entries, installed in some order, and these
edges. -/
structure Adds (p q : Plan) (added : List Index.Entry) (journal : List Recording) : Prop where
  options : q.options = p.options
  baseImage : q.baseImage = p.baseImage
  picked : q.picked = p.picked ++ added
  packages : ∃ installed, q.packages = p.packages ++ installed ∧ installed.Perm added
  edges : q.edges = p.edges ++ journal.map Recording.edge

namespace Adds

variable {p q r : Plan} {added more : List Index.Entry} {journal later : List Recording}

theorem refl (p : Plan) : Adds p p [] [] :=
  ⟨rfl, rfl, by simp, ⟨[], by simp, .nil⟩, by simp⟩

theorem trans (h : Adds p q added journal) (h' : Adds q r more later) :
    Adds p r (added ++ more) (journal ++ later) := by
  obtain ⟨installed, hpackages, hperm⟩ := h.packages
  obtain ⟨installed', hpackages', hperm'⟩ := h'.packages
  refine ⟨h'.options.trans h.options, h'.baseImage.trans h.baseImage, ?_,
    ⟨installed ++ installed', ?_, hperm.append hperm'⟩, ?_⟩
  · rw [h'.picked, h.picked, List.append_assoc]
  · rw [hpackages', hpackages, List.append_assoc]
  · rw [h'.edges, h.edges, List.map_append, List.append_assoc]

theorem grows (h : Adds p q added journal) : p.Grows q where
  options := h.options
  baseImage := h.baseImage
  picked := h.picked ▸ List.prefix_append _ _
  packages := by
    obtain ⟨installed, hpackages, -⟩ := h.packages
    exact hpackages ▸ List.prefix_append _ _
  edges := h.edges ▸ List.prefix_append _ _

theorem mem_packages (h : Adds p q added journal) {e : Index.Entry} (he : e ∈ added) :
    e ∈ q.packages := by
  obtain ⟨installed, hpackages, hperm⟩ := h.packages
  rw [hpackages]
  exact List.mem_append_right _ (hperm.mem_iff.2 he)

end Adds

section

variable (s : Planner) (parent : Option Index.Entry) (e : Index.Entry)

theorem takeUp_options : (s.takeUp parent e).plan.options = s.plan.options := pick_options _ e

theorem takeUp_baseImage : (s.takeUp parent e).plan.baseImage = s.plan.baseImage :=
  pick_baseImage _ e

theorem takeUp_picked : (s.takeUp parent e).plan.picked = s.plan.picked ++ [e] := pick_picked _ e

theorem takeUp_packages : (s.takeUp parent e).plan.packages = s.plan.packages := pick_packages _ e

theorem takeUp_edges : (s.takeUp parent e).plan.edges = s.plan.edges ++ [(parent, e)] :=
  pick_edges _ e

end

theorem Course.adds {site : Site} {goal : Goal} {s t : Planner} {added : List Index.Entry}
    {journal : List Recording} (h : Course site goal s added journal t) :
    Adds s.plan t.plan added journal := by
  induction h with
  | reuse => exact { Adds.refl _ with edges := rfl }
  | @choose parent _ s t _ _ e _ _ _ _ _ _ _ ih =>
    obtain ⟨hoptions, himage, hpicked, ⟨installed, hpackages, hperm⟩, hedges⟩ := ih
    rw [takeUp_options] at hoptions
    rw [takeUp_baseImage] at himage
    rw [takeUp_picked, List.append_assoc] at hpicked
    rw [takeUp_packages] at hpackages
    rw [takeUp_edges, List.append_assoc] at hedges
    refine ⟨hoptions, himage, hpicked, ⟨installed ++ [e], ?_, ?_⟩, hedges⟩
    · simp only [install, hpackages, List.append_assoc]
    · exact (List.perm_append_singleton e installed).trans (hperm.cons e)
  | done => exact Adds.refl _
  | skip _ _ _ ih => exact ih
  | one _ hpasses _ _ ihone ihrest =>
    rw [hpasses.plan_eq] at ihone
    exact ihone.trans ihrest

/-- An answered request is a course. -/
theorem course_of_answered {site : Site} {depth : Nat} {query : Package.Name} {s : Planner}
    {added : List Index.Entry} (h : (s.addWithin site depth query).2 = .ok added) :
    Course site (.answer none query) s added (recordings site depth none query s)
      (s.addWithin site depth query).1 :=
  course_of_resolve (resolve_of_answered h)

/-! ## What holds of each element in its turn -/

/-- Each element has a property that depends on what was there when its turn came: the images of the
elements before it, after those in `before`. -/
def InTurn {α β : Type} (f : α → β) (P : List β → α → Prop) : List β → List α → Prop
  | _, [] => True
  | before, a :: rest => P before a ∧ InTurn f P (before ++ [f a]) rest

section

variable {α β : Type} {f : α → β} {P : List β → α → Prop} {before : List β}

theorem inTurn_append_iff {l l' : List α} :
    InTurn f P before (l ++ l') ↔ InTurn f P before l ∧ InTurn f P (before ++ l.map f) l' := by
  induction l generalizing before with
  | nil => simp [InTurn]
  | cons a rest ih => simp [InTurn, ih, and_assoc]

theorem InTurn.at_split {front back : List α} {a : α}
    (h : InTurn f P before (front ++ a :: back)) : P (before ++ front.map f) a :=
  (inTurn_append_iff.1 h).2.1

end

/-! ## When an edge was recorded -/

/-- Every recording has the edges that were there, `edges`, and those recorded before it. -/
def Timed (edges : List (Option Index.Entry × Index.Entry)) (journal : List Recording) : Prop :=
  InTurn Recording.edge (fun edges r => r.plan.edges = edges) edges journal

theorem Course.timed {site : Site} {goal : Goal} {s t : Planner} {added : List Index.Entry}
    {journal : List Recording} (h : Course site goal s added journal t) :
    Timed s.plan.edges journal := by
  induction h with
  | reuse => exact ⟨rfl, trivial⟩
  | choose _ _ _ _ _ ih =>
    rw [takeUp_edges] at ih
    exact ⟨rfl, ih⟩
  | done => trivial
  | skip _ _ _ ih => exact ih
  | one _ hpasses hone _ ihone ihrest =>
    rw [hone.adds.edges, hpasses.plan_eq] at ihrest
    rw [hpasses.plan_eq] at ihone
    exact inTurn_append_iff.2 ⟨ihone, ihrest⟩

/-! ## Sessions -/

/-- The planners that requests from outside lead to, with the edges of the plan as they were
recorded. In between the index may become another one and the base image may be set. -/
inductive Session : Planner → List Recording → Prop where
  | fresh (index : Index) (options : Plan.Options) : Session (fresh index options) []
  | answered {s : Planner} {journal : List Recording} (h : Session s journal) (site : Site)
      (depth : Nat) (query : Package.Name) {added : List Index.Entry}
      (hanswer : (s.addWithin site depth query).2 = .ok added) :
      Session (s.addWithin site depth query).1 (journal ++ recordings site depth none query s)
  | refused {s : Planner} {journal : List Recording} (h : Session s journal) (site : Site)
      (depth : Nat) (query : Package.Name) {e : Failure}
      (hanswer : (s.addWithin site depth query).2 = .error e) :
      Session (s.addWithin site depth query).1 journal
  | reindexed {s : Planner} {journal : List Recording} (h : Session s journal) (index : Index) :
      Session { s with index } journal
  | based {s : Planner} {journal : List Recording} (h : Session s journal)
      (image : Option String) :
      Session { s with plan := { s.plan with baseImage := image } } journal

namespace Session

variable {s : Planner} {journal : List Recording}

/-- What holds of the empty plan, is kept by every course and does not look at the base image holds
of every session. -/
theorem induct {P : Plan → List Recording → Prop}
    (hfresh : ∀ options : Plan.Options, P { options } [])
    (hcourse : ∀ {s t : Planner} {before journal : List Recording} {site : Site}
      {query : Package.Name} {added : List Index.Entry}, Session s before → P s.plan before →
        Course site (.answer none query) s added journal t → P t.plan (before ++ journal))
    (himage : ∀ {p : Plan} {journal : List Recording} (image : Option String), P p journal →
      P { p with baseImage := image } journal)
    (h : Session s journal) : P s.plan journal := by
  induction h with
  | fresh _ options => exact hfresh options
  | answered h _ _ _ hanswer ih => exact hcourse h ih (course_of_answered hanswer)
  | refused _ _ _ _ hanswer ih => rwa [addWithin_error hanswer]
  | reindexed _ _ ih => exact ih
  | based _ image ih => exact himage image ih

/-- What holds of the empty plan, is kept by every single change and does not look at the base image
holds of every session. -/
theorem of_stable {P : Plan → Prop} (hfresh : ∀ options : Plan.Options, P { options })
    (hstable : ∀ site : Site, Stable site fun t => P t.plan)
    (himage : ∀ {p : Plan} (image : Option String), P p → P { p with baseImage := image })
    (h : Session s journal) : P s.plan := by
  induction h with
  | fresh _ options => exact hfresh options
  | @answered s _ _ site depth query _ hanswer ih =>
    have hresult : P (resolve site depth none query s).1.plan := (hstable site).resolve ih
    rwa [resolve_of_answered hanswer] at hresult
  | refused _ _ _ _ hanswer ih => rwa [addWithin_error hanswer]
  | reindexed _ _ ih => exact ih
  | based _ image ih => exact himage image ih

theorem registered (h : Session s journal) : s.plan.Registered := by
  refine h.induct (P := fun p _ => p.Registered) ?_ ?_ ?_
  · exact fun options => Plan.Holds.empty options
  · exact fun _ hs hcourse => hcourse.registered hs
  · exact fun _ hp => Plan.Holds.mk hp.installed hp.installedEntries hp.bareNames

/-- In a session everything picked is installed. -/
theorem perm (h : Session s journal) : s.plan.packages.Perm s.plan.picked := by
  refine h.induct (P := fun p _ => p.packages.Perm p.picked) ?_ ?_ ?_
  · exact fun _ => .nil
  · intro s t _ _ _ _ _ _ hs hcourse
    have hadds := hcourse.adds
    obtain ⟨installed, hpackages, hperm⟩ := hadds.packages
    rw [hpackages, hadds.picked]
    exact hs.append hperm
  · exact fun _ hp => hp

theorem edges_eq (h : Session s journal) : s.plan.edges = journal.map Recording.edge := by
  refine h.induct (P := fun p journal => p.edges = journal.map Recording.edge) ?_ ?_ ?_
  · exact fun _ => rfl
  · intro s t before _ _ _ _ _ hs hcourse
    rw [hcourse.adds.edges, hs, List.map_append]
  · exact fun _ hp => hp

theorem timed (h : Session s journal) : Timed [] journal := by
  refine h.induct (P := fun _ journal => Timed [] journal) ?_ ?_ ?_
  · exact fun _ => trivial
  · intro s t before _ _ _ _ hsession hs hcourse
    have htimed := hcourse.timed
    rw [hsession.edges_eq] at htimed
    exact inTurn_append_iff.2 ⟨hs, htimed⟩
  · exact fun _ hp => hp

/-- Whatever becomes of a request, it leads from a session to a session. -/
theorem addWithin (h : Session s journal) (site : Site) (depth : Nat) (query : Package.Name) :
    ∃ later, Session (s.addWithin site depth query).1 (journal ++ later) := by
  cases hanswer : (s.addWithin site depth query).2 with
  | ok added => exact ⟨_, h.answered site depth query hanswer⟩
  | error e => exact ⟨[], by simpa using h.refused site depth query hanswer⟩

/-- Whatever becomes of the requests of a sequence, they lead from a session to a session. -/
theorem serve (h : Session s journal) (site : Site) (queries : List Package.Name) :
    ∃ later, Session (s.serve site queries).1 (journal ++ later) := by
  induction queries generalizing s journal with
  | nil => exact ⟨[], by rwa [List.append_nil]⟩
  | cons query rest ih =>
    obtain ⟨first, hfirst⟩ := h.addWithin site (depthBound s.index) query
    obtain ⟨later, hlater⟩ := ih hfirst
    exact ⟨first ++ later, List.append_assoc .. ▸ hlater⟩

end Session

end Planner

end Depot
