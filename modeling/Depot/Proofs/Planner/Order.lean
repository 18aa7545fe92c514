import Mathlib.Data.List.Basic
import Mathlib.Logic.Relation
import Depot.Proofs.Planner.Closure

/-!
# The order of installation

While a request is resolved, what is picked but not installed yet is on the way to the request: the
edges lead from it to the entry that asks (`Led`). So when an edge leads to an entry that was
registered before, that entry is installed already, and comes before the one that asks, or the two
are on a cycle (`Course.inOrder`). Once everything is installed, this holds of all edges
(`Session.inOrder`, `dependencies_before_dependents`).
-/

namespace Depot

namespace Planner

/-- The edges lead from one entry to another in some steps or in none. -/
def Leads (edges : List (Option Index.Entry × Index.Entry)) : Index.Entry → Index.Entry → Prop :=
  Relation.ReflTransGen fun a b => (some a, b) ∈ edges

/-- One entry occurs in a list before the other one does. -/
def Before (l : List Index.Entry) (a b : Index.Entry) : Prop :=
  ∃ front back, l = front ++ back ∧ a ∈ front ∧ b ∈ back

/-- The place of the first occurrence in a list. -/
def firstPlace (l : List Index.Entry) (e : Index.Entry) : Nat := l.idxOf e

/-- The place of the last occurrence in a list that has one. -/
def lastPlace (l : List Index.Entry) (e : Index.Entry) : Nat := l.length - 1 - l.reverse.idxOf e

/-- What is picked is installed or leads to the entry that asks. -/
def Led (parent : Option Index.Entry) (p : Plan) : Prop :=
  ∀ e ∈ p.picked, e ∈ p.packages ∨ ∃ a, parent = some a ∧ Leads p.edges e a

/-- An edge from `a` to `b` agrees with the order of installation, or the two are on a cycle. -/
def InOrder (p : Plan) (a b : Index.Entry) : Prop := Before p.packages b a ∨ Leads p.edges b a

/-- The entry that a goal is pursued for. -/
def Goal.parent : Goal → Option Index.Entry
  | .answer parent _ => parent
  | .meet e _ => some e

/-! ## Places -/

theorem Before.append {l : List Index.Entry} {a b : Index.Entry} (h : Before l a b)
    (more : List Index.Entry) : Before (l ++ more) a b := by
  obtain ⟨front, back, rfl, ha, hb⟩ := h
  exact ⟨front, back ++ more, List.append_assoc .., ha, List.mem_append_left _ hb⟩

theorem before_concat {l : List Index.Entry} {a : Index.Entry} (h : a ∈ l) (b : Index.Entry) :
    Before (l ++ [b]) a b :=
  ⟨l, [b], rfl, h, List.mem_singleton_self b⟩

theorem Before.firstPlace_lt {l : List Index.Entry} {a b : Index.Entry} (h : Before l a b) :
    firstPlace l a < lastPlace l b := by
  obtain ⟨front, back, rfl, ha, hb⟩ := h
  have hfront : front.idxOf a < front.length := List.idxOf_lt_length_of_mem ha
  have hback : back.reverse.idxOf b < back.reverse.length :=
    List.idxOf_lt_length_of_mem (List.mem_reverse.2 hb)
  rw [List.length_reverse] at hback
  simp only [firstPlace, lastPlace, List.reverse_append, List.length_append]
  rw [List.idxOf_append_of_mem ha, List.idxOf_append_of_mem (List.mem_reverse.2 hb)]
  omega

/-- In a list without repetitions, each element has one place. -/
theorem Before.lt_of_nodup {l : List Index.Entry} {i j : Nat} {hi : i < l.length}
    {hj : j < l.length} (h : Before l l[i] l[j]) (hnodup : l.Nodup) : i < j := by
  have hplace := hnodup.idxOf_getElem
  obtain ⟨front, back, rfl, ha, hb⟩ := h
  have hfront := List.idxOf_lt_length_of_mem ha
  have hnotMem : (front ++ back)[j] ∉ front := fun hb' =>
    (List.nodup_append.1 hnodup).2.2 _ hb' _ hb rfl
  have hsame : (front ++ back).idxOf (front ++ back)[i] = front.idxOf (front ++ back)[i] :=
    List.idxOf_append_of_mem ha
  rw [← hsame, hplace i hi] at hfront
  have hback := hplace j hj
  rw [List.idxOf_append_of_notMem hnotMem] at hback
  omega

/-! ## Growing -/

theorem Leads.mono {edges more : List (Option Index.Entry × Index.Entry)} {a b : Index.Entry}
    (h : Leads edges a b) (hsub : edges ⊆ more) : Leads more a b :=
  Relation.ReflTransGen.mono (fun _ _ hedge => hsub hedge) _ _ h

theorem InOrder.grows {p q : Plan} {a b : Index.Entry} (h : InOrder p a b) (hgrows : p.Grows q) :
    InOrder q a b := by
  obtain ⟨more, hmore⟩ := hgrows.packages
  rcases h with hbefore | hleads
  · left
    rw [← hmore]
    exact hbefore.append more
  · exact .inr (hleads.mono hgrows.edges.subset)

/-- What a course picks is installed when it ends. -/
theorem Adds.led {p q : Plan} {added : List Index.Entry} {journal : List Recording}
    {parent : Option Index.Entry} (h : Adds p q added journal) (hled : Led parent p) :
    Led parent q := by
  intro e he
  rw [h.picked] at he
  rcases List.mem_append.1 he with he | he
  · rcases hled e he with hinstalled | ⟨a, hparent, hleads⟩
    · exact .inl (h.grows.packages.subset hinstalled)
    · exact .inr ⟨a, hparent, hleads.mono h.grows.edges.subset⟩
  · exact .inl (h.mem_packages he)

/-- An entry that is taken up leads to itself, and what leads to its parent leads to it. -/
theorem led_takeUp {s : Planner} {parent : Option Index.Entry} (h : Led parent s.plan)
    (e : Index.Entry) : Led (some e) (s.takeUp parent e).plan := by
  intro e' he'
  rw [takeUp_picked] at he'
  rw [takeUp_packages, takeUp_edges]
  rcases List.mem_append.1 he' with he' | he'
  · rcases h e' he' with hinstalled | ⟨a, rfl, hleads⟩
    · exact .inl hinstalled
    · have hedge : (some a, e) ∈ s.plan.edges ++ [(some a, e)] := by simp
      exact .inr ⟨e, rfl, (hleads.mono (List.subset_append_left _ _)).tail hedge⟩
  · obtain rfl := List.mem_singleton.1 he'
    exact .inr ⟨e', rfl, .refl⟩

/-! ## Courses -/

namespace Course

variable {site : Site} {goal : Goal} {s t : Planner} {added : List Index.Entry}
  {journal : List Recording}

/-- An edge that a course records is in order, or it starts from the entry that the goal is pursued
for. That one comes after everything installed so far. -/
theorem inOrder (h : Course site goal s added journal t) (hregistered : s.plan.Registered)
    (hled : Led goal.parent s.plan) :
    ∀ r ∈ journal, ∀ a, r.parent = some a →
      InOrder t.plan a r.child ∨ (goal.parent = some a ∧ r.child ∈ t.plan.packages) := by
  induction h with
  | @reuse parent query s e hreuse =>
    simp only [List.mem_singleton, forall_eq]
    intro a hparent
    rcases hled e (hregistered.mem_picked hreuse) with hinstalled | ⟨a', hparent', hleads⟩
    · exact .inr ⟨hparent, hinstalled⟩
    · -- the entry is still in progress, so the new edge closes a cycle
      obtain rfl := Option.some.inj (hparent'.symm.trans hparent)
      exact .inl (.inr (hleads.mono (List.subset_append_left _ _)))
  | @choose parent _ s t _ _ e _ _ _ _ _ _ _ ih =>
    intro r hr a hparent
    rcases List.mem_cons.1 hr with rfl | hr
    · exact .inr ⟨hparent, List.mem_append_right _ (List.mem_singleton_self e)⟩
    · left
      rcases ih (registered_takeUp hregistered parent e) (led_takeUp hled e) r hr a hparent with
        hinorder | ⟨hgoal, hinstalled⟩
      · exact hinorder.grows (grows_install t e)
      · -- an edge from the new entry is in order as soon as that one is installed
        obtain rfl := Option.some.inj hgoal
        exact .inl (before_concat hinstalled e)
  | done => simp
  | skip _ _ _ ih => exact ih hregistered hled
  | @one e _ _ _ _ _ s s₁ s₂ t _ _ _ _ _ hpasses hone hrest ihone ihrest =>
    rw [← hpasses.plan_eq] at hregistered hled
    intro r hr a hparent
    rcases List.mem_append.1 hr with hr | hr
    · rcases ihone hregistered hled r hr a hparent with hinorder | ⟨hgoal, hinstalled⟩
      · exact .inl (hinorder.grows hrest.adds.grows)
      · exact .inr ⟨hgoal, hrest.adds.grows.packages.subset hinstalled⟩
    · exact ihrest (hone.registered hregistered) (hone.adds.led hled) r hr a hparent

theorem parent_mem_picked (h : Course site goal s added journal t) :
    ∀ r ∈ journal, ∀ a, r.parent = some a → a ∈ t.plan.picked ∨ goal.parent = some a := by
  induction h with
  | reuse =>
    simp only [List.mem_singleton, forall_eq]
    exact fun a hparent => .inr hparent
  | @choose parent _ s t _ _ e _ _ _ _ _ _ hmeet ih =>
    intro r hr a hparent
    rcases List.mem_cons.1 hr with rfl | hr
    · exact .inr hparent
    · left
      rcases ih r hr a hparent with hpicked | hgoal
      · exact hpicked
      · obtain rfl := Option.some.inj hgoal
        show e ∈ t.plan.picked
        rw [hmeet.adds.picked, takeUp_picked]
        simp
  | done => simp
  | skip _ _ _ ih => exact ih
  | one _ _ _ hrest ihone ihrest =>
    intro r hr a hparent
    rcases List.mem_append.1 hr with hr | hr
    · exact (ihone r hr a hparent).imp (hrest.adds.grows.picked.subset ·) id
    · exact ihrest r hr a hparent

end Course

/-! ## Sessions -/

namespace Session

variable {s : Planner} {journal : List Recording}

theorem led (h : Session s journal) : Led none s.plan :=
  fun _ he => .inl (h.perm.mem_iff.2 he)

theorem inOrder (h : Session s journal) :
    ∀ r ∈ journal, ∀ a, r.parent = some a → InOrder s.plan a r.child := by
  refine h.induct (P := fun p journal =>
    ∀ r ∈ journal, ∀ a, r.parent = some a → InOrder p a r.child) ?_ ?_ ?_
  · simp
  · intro s t before _ _ _ _ hsession hs hcourse r hr a hparent
    rcases List.mem_append.1 hr with hr | hr
    · exact (hs r hr a hparent).grows hcourse.adds.grows
    · rcases hcourse.inOrder hsession.registered hsession.led r hr a hparent with
        hinorder | ⟨hgoal, -⟩
      · exact hinorder
      · cases hgoal
  · exact fun _ hp => hp

theorem parent_mem_picked (h : Session s journal) :
    ∀ r ∈ journal, ∀ a, r.parent = some a → a ∈ s.plan.picked := by
  refine h.induct (P := fun p journal => ∀ r ∈ journal, ∀ a, r.parent = some a → a ∈ p.picked)
    ?_ ?_ ?_
  · simp
  · intro s t before _ _ _ _ _ hs hcourse r hr a hparent
    rcases List.mem_append.1 hr with hr | hr
    · exact hcourse.adds.grows.picked.subset (hs r hr a hparent)
    · rcases hcourse.parent_mem_picked r hr a hparent with hpicked | hgoal
      · exact hpicked
      · cases hgoal
  · exact fun _ hp => hp

end Session

/-- Where an edge leads from one installed entry to another, the first place of the one it leads to
is before the last place of the one it starts from, or the edges lead back. So without cycles the
dependencies of every entry come first, and no entry comes before one that it depends on when each
is installed once. -/
theorem dependencies_before_dependents {s : Planner} {journal : List Recording}
    (h : Session s journal) :
    (∀ p c, (some p, c) ∈ s.plan.edges →
        p ∈ s.plan.packages ∧ c ∈ s.plan.packages ∧
          (firstPlace s.plan.packages c < lastPlace s.plan.packages p ∨
            Leads s.plan.edges c p)) ∧
      ((∀ p c, (some p, c) ∈ s.plan.edges → ¬Leads s.plan.edges c p) →
        (∀ p c, (some p, c) ∈ s.plan.edges →
            firstPlace s.plan.packages c < lastPlace s.plan.packages p) ∧
          (s.plan.packages.Nodup →
            s.plan.packages.Pairwise fun a b => (some a, b) ∉ s.plan.edges)) := by
  have hplace : ∀ p c, (some p, c) ∈ s.plan.edges → p ∈ s.plan.packages ∧ c ∈ s.plan.packages ∧
      InOrder s.plan p c := by
    intro p c hedge
    rw [h.edges_eq] at hedge
    obtain ⟨r, hr, hrecorded⟩ := List.mem_map.1 hedge
    obtain ⟨hparent, rfl⟩ := Prod.mk.inj hrecorded
    exact ⟨h.perm.mem_iff.2 (h.parent_mem_picked r hr p hparent),
      h.perm.mem_iff.2 (h.child_mem_picked r hr), h.inOrder r hr p hparent⟩
  refine ⟨fun p c hedge => ?_, fun hacyclic => ⟨fun p c hedge => ?_, fun hnodup => ?_⟩⟩
  · obtain ⟨hp, hc, hinorder⟩ := hplace p c hedge
    exact ⟨hp, hc, hinorder.imp_left Before.firstPlace_lt⟩
  · obtain ⟨-, -, hinorder⟩ := hplace p c hedge
    exact (hinorder.resolve_right (hacyclic p c hedge)).firstPlace_lt
  · rw [List.pairwise_iff_getElem]
    intro i j hi hj hij hedge
    obtain ⟨-, -, hinorder⟩ := hplace _ _ hedge
    have hji : j < i := (hinorder.resolve_right (hacyclic _ _ hedge)).lt_of_nodup hnodup
    omega

/-! ### A chain and a cycle -/

/-- An application that needs a library, and two packages that need each other. -/
def entangled : Index :=
  shelf [{ name := ⟨"alpine", "lib", "1", "", false⟩ },
    { name := ⟨"alpine", "app", "1", "", false⟩
      depends := [[⟨"alpine", "lib", "", "", false⟩]] },
    { name := ⟨"alpine", "ping", "1", "", false⟩
      depends := [[⟨"alpine", "pong", "", "", false⟩]] },
    { name := ⟨"alpine", "pong", "1", "", false⟩
      depends := [[⟨"alpine", "ping", "", "", false⟩]] }]

/-- The planner after a request for the application. -/
def withChain : Planner := ((fresh entangled {}).serve {} [.parse "app"]).1

/-- The planner after a further request for one of the two. -/
def withCycle : Planner := ((fresh entangled {}).serve {} [.parse "app", .parse "ping"]).1

theorem withChain_acyclic :
    ∀ p c, (some p, c) ∈ withChain.plan.edges → ¬Leads withChain.plan.edges c p := by
  intro p c hedge hleads
  -- the one edge leads from the application to the library, where nothing starts
  have hends : ∀ edge ∈ withChain.plan.edges,
      edge.1 ≠ some edge.2 ∧
        ∀ next ∈ withChain.plan.edges, edge.1 = none ∨ next.1 ≠ some edge.2 := by decide
  obtain ⟨hne, hnext⟩ := hends _ hedge
  rcases hleads.cases_head with rfl | ⟨_, hfurther, -⟩
  · exact hne rfl
  · rcases hnext _ hfurther with hnone | hstart
    · cases hnone
    · exact hstart rfl

/-- The chain is installed in the order of its edges. Of the two that need each other, the one that
was asked for comes last, so that the other one's edge to it is against the order. -/
theorem chain_and_cycle_order :
    (withChain.plan.packages.Nodup ∧
        withChain.plan.packages.Pairwise fun a b => (some a, b) ∉ withChain.plan.edges) ∧
      ((some entangled.entries[3], entangled.entries[2]) ∈ withCycle.plan.edges ∧
        ¬firstPlace withCycle.plan.packages entangled.entries[2] <
          lastPlace withCycle.plan.packages entangled.entries[3] ∧
        Leads withCycle.plan.edges entangled.entries[2] entangled.entries[3]) := by
  obtain ⟨_, hsession⟩ := (Session.fresh entangled {}).serve {} [.parse "app"]
  obtain ⟨_, hsession'⟩ := (Session.fresh entangled {}).serve {} [.parse "app", .parse "ping"]
  have hnodup : withChain.plan.packages.Nodup := by decide
  have hchain := (dependencies_before_dependents hsession).2 withChain_acyclic
  have hedge : (some entangled.entries[3], entangled.entries[2]) ∈ withCycle.plan.edges := by decide
  have hcycle := (dependencies_before_dependents hsession').1 _ _ hedge
  have hlast : ¬firstPlace withCycle.plan.packages entangled.entries[2] <
      lastPlace withCycle.plan.packages entangled.entries[3] := by decide
  exact ⟨⟨hnodup, hchain.2 hnodup⟩, hedge, hlast, hcycle.2.2.resolve_left hlast⟩

end Planner

end Depot
