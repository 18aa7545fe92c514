import Depot.Proofs.Index.Search
import Depot.Proofs.Planner.Closure

/-!
# Names that are installed more than once

Whether something is there already is decided by what the request asks for, before any search. So a
request that refers to a name of something picked adds an edge and nothing else
(`add_of_refersTo`), and every entry is chosen for a request that saw nothing of what was picked
before (`Course.chosenFor`, `chosenFor_serve`). The name of the entry that is chosen plays no part
in this.
A distribution and name come up twice when a request reaches the second entry by one of its aliases
or without a name (`repeats_asked_otherwise`), and they do (`library_installed_twice`).
-/

namespace Depot

namespace Planner

open Plan (registrations seen?)

/-- What a goal asks for at the outset. -/
def Goal.Asks : Goal → Package.Name → Prop
  | .answer _ query => fun asked => asked = query
  | .meet _ groups => fun asked => asked ∈ groups.flatten

/-- An entry was chosen for one of these requests, which saw nothing of what was picked before. -/
def ChosenFor (asked : Package.Name → Prop) (before : List Index.Entry) (e : Index.Entry) : Prop :=
  ∃ query, asked query ∧ seen? (registrations before) query = none ∧ e.satisfies query = true

/-- A request from outside, or one of an entry that was picked. -/
def Requested (queries : List Package.Name) (picked : List Index.Entry) (query : Package.Name) :
    Prop :=
  query ∈ queries ∨ ∃ e ∈ picked, query ∈ e.package.depends.flatten

/-- The planner that requests lead to from an empty plan. -/
def reached (site : Site) (index : Index) (options : Plan.Options) (queries : List Package.Name) :
    Planner :=
  ((fresh index options).serve site queries).1

/-- Two entries have the same distribution and the same name. -/
def SameShort (p q : Index.Entry) : Prop :=
  p.name.distribution = q.name.distribution ∧ p.name.name = q.name.name

instance (p q : Index.Entry) : Decidable (SameShort p q) := inferInstanceAs (Decidable (_ ∧ _))

/-- A request that does not go by the name of an entry when these were picked before: it has no
name, or it asks for an alias of the entry and for no name that is there. -/
def AsksOtherwise (query : Package.Name) (before : List Index.Entry) (q : Index.Entry) : Prop :=
  query.name = "" ∨ ∃ other ∈ q.package.aliases, query.AsksFor other ∧
    ∀ e ∈ before, ∀ name ∈ e.package.names, ¬query.AsksFor name

/-! ## Requests for what is there -/

theorem depthBound_eq_succ (ix : Index) : ∃ depth, depthBound ix = depth + 1 := by
  refine Nat.exists_eq_succ_of_ne_zero (Nat.pos_iff_ne_zero.1 ?_)
  unfold depthBound
  exact Nat.add_pos_left (Nat.mul_pos (by omega) (by omega)) _

theorem addWithin_reuse {site : Site} {depth : Nat} {query : Package.Name} {s : Planner}
    {e : Index.Entry} (h : s.plan.installedEntry? query = some e) :
    s.addWithin site (depth + 1) query = (s.connect none e, .ok []) := by
  simp only [addWithin, resolve, h]

theorem add_of_refersTo {s : Planner} (hs : s.plan.Registered) {r : Plan.Registration}
    (hr : r ∈ registrations s.plan.picked) {query : Package.Name} (hrefers : query.RefersTo r.name)
    (site : Site) : ∃ e ∈ s.plan.picked, s.add site query = (s.connect none e, .ok []) := by
  obtain ⟨other, hseen⟩ := Plan.exists_seen?_iff.2 ⟨r, hr, hrefers⟩
  have hentry : s.plan.installedEntry? query = some other.entry := by
    rw [Plan.Holds.installedEntry? hs, hseen, Option.map_some]
  obtain ⟨depth, hdepth⟩ := depthBound_eq_succ s.index
  refine ⟨other.entry, hs.mem_picked hentry, ?_⟩
  rw [add, hdepth]
  exact addWithin_reuse hentry

/-! ## What entries are chosen for -/

theorem ChosenFor.of_asksFor {asked : Package.Name → Prop} {before : List Index.Entry}
    {e : Index.Entry} (h : ChosenFor asked before e) :
    ∃ query, asked query ∧ e.satisfies query = true ∧
      ∀ p ∈ before, ∀ name ∈ p.package.names, ¬query.AsksFor name := by
  obtain ⟨query, hasked, hunseen, hsatisfies⟩ := h
  refine ⟨query, hasked, hsatisfies, fun p hp name hname hasks => ?_⟩
  obtain ⟨r, hseen⟩ :=
    Plan.seen?_of_asksFor (Plan.mem_registrations_iff.2 ⟨hp, hname⟩ : ⟨name, p⟩ ∈ _) hasks
  rw [hunseen] at hseen
  cases hseen

theorem Course.chosenFor {asked : Package.Name → Prop} {site : Site} {goal : Goal} {s t : Planner}
    {added : List Index.Entry} {journal : List Recording}
    (h : Course site goal s added journal t) (hs : s.plan.Registered)
    (hgoal : ∀ query, goal.Asks query → asked query)
    (hadded : ∀ e ∈ added, ∀ query ∈ e.package.depends.flatten, asked query) :
    InTurn id (ChosenFor asked) s.plan.picked added := by
  induction h with
  | reuse => trivial
  | @choose parent query s _ _ _ e _ _ hunregistered hsearch hchoose _ _ ih =>
    have hsatisfies : e.satisfies query = true := satisfies_of_choose? hsearch hchoose
    have hunseen : seen? (registrations s.plan.picked) query = none := by
      rwa [Plan.Holds.installedEntry? hs, Option.map_eq_none_iff] at hunregistered
    have hrest := ih (registered_takeUp hs parent e)
      (fun query hquery => hadded e List.mem_cons_self query hquery)
      (fun e' he' => hadded e' (List.mem_cons_of_mem e he'))
    rw [takeUp_picked] at hrest
    exact ⟨⟨query, hgoal query rfl, hunseen, hsatisfies⟩, hrest⟩
  | done => trivial
  | skip _ _ _ ih =>
    refine ih hs (fun query hquery => hgoal query ?_) hadded
    exact List.mem_append_right _ hquery
  | @one e group passed others option rest s _ _ _ _ _ _ _ hkept hpasses hone _ ihone ihrest =>
    rw [← hpasses.plan_eq] at hs ⊢
    have hoption : option ∈ group := by
      have hmem : option ∈ kept s.plan.options group := by simp [hkept]
      exact (List.mem_filter.1 hmem).1
    have hfirst := ihone hs
      (fun query hquery => hgoal query (hquery ▸ List.mem_append_left _ hoption))
      (fun e' he' => hadded e' (List.mem_append_left _ he'))
    have hrest := ihrest (hone.registered hs)
      (fun query hquery => hgoal query (List.mem_append_right _ hquery))
      (fun e' he' => hadded e' (List.mem_append_right _ he'))
    rw [hone.adds.picked] at hrest
    refine inTurn_append_iff.2 ⟨hfirst, ?_⟩
    rwa [List.map_id]

theorem chosenFor_serve {asked : Package.Name → Prop} {site : Site} {queries : List Package.Name}
    {s : Planner} {journal : List Recording} (h : Session s journal)
    (hs : InTurn id (ChosenFor asked) [] s.plan.picked)
    (hqueries : ∀ query ∈ queries, asked query)
    (hpicked : ∀ e ∈ (s.serve site queries).1.plan.picked,
      ∀ query ∈ e.package.depends.flatten, asked query) :
    InTurn id (ChosenFor asked) [] (s.serve site queries).1.plan.picked := by
  induction queries generalizing s journal with
  | nil => exact hs
  | cons query rest ih =>
    have hrest : ∀ query ∈ rest, asked query :=
      fun query hquery => hqueries query (List.mem_cons_of_mem _ hquery)
    rcases addWithin_cases site (depthBound s.index) query s with
      ⟨added, hresolve, hanswer⟩ | ⟨_, herror, hplan⟩
    · refine ih (h.answered site _ query hanswer) ?_ hrest hpicked
      have hcourse := course_of_resolve hresolve
      have hsub : ∀ e ∈ added, e ∈ (s.serve site (query :: rest)).1.plan.picked := by
        intro e he
        refine (grows_serve site rest (s.add site query).1).picked.subset ?_
        rw [add, hcourse.adds.picked]
        exact List.mem_append_right _ he
      rw [add, hcourse.adds.picked]
      refine inTurn_append_iff.2 ⟨hs, ?_⟩
      rw [List.map_id, List.nil_append]
      refine hcourse.chosenFor h.registered ?_ fun e he => hpicked e (hsub e he)
      rintro _ rfl
      exact hqueries _ List.mem_cons_self
    · refine ih (h.refused site _ query herror) ?_ hrest hpicked
      rwa [add, hplan]

/-! ## Repeated names -/

theorem pairwise_of_splits {α : Type} {R : α → α → Prop} {l : List α}
    (h : ∀ front a back, l = front ++ a :: back → ∀ b ∈ front, R b a) : l.Pairwise R := by
  induction l with
  | nil => exact .nil
  | cons b rest ih =>
    refine List.pairwise_cons.2 ⟨fun a ha => ?_, ih fun front a back hrest c hc => ?_⟩
    · obtain ⟨front, back, rfl⟩ := List.append_of_mem ha
      exact h (b :: front) a back rfl b List.mem_cons_self
    · exact h (b :: front) a back (by rw [hrest, List.cons_append]) c (List.mem_cons_of_mem b hc)

/-- The request for the later of two entries with one distribution and name does not go by that
name. -/
theorem ChosenFor.asksOtherwise {asked : Package.Name → Prop} {before : List Index.Entry}
    {p q : Index.Entry} (h : ChosenFor asked before q) (hp : p ∈ before) (hsame : SameShort p q) :
    ∃ query, asked query ∧ q.satisfies query = true ∧ AsksOtherwise query before q := by
  obtain ⟨query, hasked, hsatisfies, hnew⟩ := h.of_asksFor
  refine ⟨query, hasked, hsatisfies, ?_⟩
  by_cases hquery : query.name = ""
  · exact .inl hquery
  · right
    obtain ⟨name, hname, hmatch⟩ := Index.Entry.satisfies_iff.1 hsatisfies
    have hasks := Package.Name.asksFor_of_satisfies hquery hmatch
    rcases List.mem_cons.1 hname with rfl | hother
    · -- a request for the name of `q` would have seen `p`
      refine absurd ?_ (hnew p hp p.name List.mem_cons_self)
      exact ⟨hasks.1.trans hsame.2.symm, hasks.2.imp_right (·.trans hsame.1.symm)⟩
    · exact ⟨name, hother, hasks, hnew⟩

/-- A request that asks for a name of something picked adds an edge and nothing else. When two
entries of one distribution and name are picked, the later one was chosen for a request without a
name, or for one that asks for an alias of it and for no name that was there. So each distribution
and name is installed once, when all requests have names and the entries of one distribution and
name have the same aliases. -/
theorem repeats_asked_otherwise {site : Site} {index : Index} {options : Plan.Options}
    {queries : List Package.Name} {s : Planner} (hs : reached site index options queries = s) :
    (∀ p ∈ s.plan.picked, ∀ name ∈ p.package.names, ∀ query : Package.Name, query.AsksFor name →
        ∃ e ∈ s.plan.picked, s.add site query = (s.connect none e, .ok [])) ∧
      (∀ front q back, s.plan.picked = front ++ q :: back → ∀ p ∈ front, SameShort p q →
        ∃ query, Requested queries s.plan.picked query ∧ q.satisfies query = true ∧
          AsksOtherwise query front q) ∧
      ((∀ query, Requested queries s.plan.picked query → query.name ≠ "") →
        (∀ p ∈ s.plan.picked, ∀ q ∈ s.plan.picked, SameShort p q →
          ∀ other ∈ q.package.aliases, ∃ name ∈ p.package.names,
            other.distribution = name.distribution ∧ other.name = name.name) →
        (s.plan.packages.map fun e => (e.name.distribution, e.name.name)).Nodup) := by
  obtain ⟨journal, hsession⟩ := (Session.fresh index options).serve site queries
  rw [← reached, hs] at hsession
  have hchosen : InTurn id (ChosenFor (Requested queries s.plan.picked)) [] s.plan.picked := by
    subst hs
    exact chosenFor_serve (Session.fresh index options) trivial (fun _ hquery => .inl hquery)
      fun e he query hquery => .inr ⟨e, he, hquery⟩
  have hturn : ∀ front q back, s.plan.picked = front ++ q :: back →
      ChosenFor (Requested queries s.plan.picked) front q := by
    intro front q back hsplit
    rw [hsplit] at hchosen
    have hq := hchosen.at_split
    rwa [List.nil_append, List.map_id, ← hsplit] at hq
  refine ⟨?_, ?_, fun hnamed haliases => ?_⟩
  · intro p hp name hname query hasks
    have hregistered : ⟨name, p⟩ ∈ registrations s.plan.picked :=
      Plan.mem_registrations_iff.2 ⟨hp, hname⟩
    exact add_of_refersTo hsession.registered hregistered hasks.refersTo site
  · intro front q back hsplit p hp hsame
    exact (hturn front q back hsplit).asksOtherwise hp hsame
  · rw [(hsession.perm.map _).nodup_iff, List.Nodup, List.pairwise_map]
    refine pairwise_of_splits fun front q back hsplit p hp hshort => ?_
    have hsame : SameShort p q := Prod.mk.inj hshort
    have hmem : ∀ e ∈ front ++ q :: back, e ∈ s.plan.picked := fun e he => hsplit ▸ he
    obtain ⟨query, hasked, -, hname | ⟨other, hother, hasks, hnew⟩⟩ :=
      (hturn front q back hsplit).asksOtherwise hp hsame
    · exact hnamed query hasked hname
    · -- `p` has the alias, too, so the request would have seen it
      obtain ⟨name, hname, hdistribution, hbare⟩ :=
        haliases p (hmem p (List.mem_append_left _ hp)) q (hmem q (by simp)) hsame other hother
      refine hnew p hp name hname ⟨hasks.1.trans hbare, ?_⟩
      exact hasks.2.imp_right (·.trans hdistribution)

/-! ### A library in two versions -/

/-- Two versions of a library, the later one with an alias, and an application that asks for the
later one. -/
def libraries : Index :=
  shelf [{ name := ⟨"alpine", "lib", "1", "", false⟩ },
    { name := ⟨"alpine", "lib", "2", "", false⟩
      aliases := [⟨"alpine", "lib2", "2", "", false⟩] },
    { name := ⟨"alpine", "app", "1", "", false⟩
      depends := [[⟨"alpine", "lib", "2", "", false⟩]] }]

/-- After a request for the library and one for the alias, both versions are installed. -/
theorem library_installed_twice :
    ¬∀ site index options queries,
      ((reached site index options queries).plan.packages.map
        fun e => (e.name.distribution, e.name.name)).Nodup := by
  intro hnodup
  have htwice := hnodup {} libraries {} [.parse "alpine/lib", .parse "alpine/lib2"]
  exact absurd htwice (by decide)

/-- The later version is asked for by its alias. A request for a distribution alone installs the
first version as often as it is made. Asked for by name, the library is installed once, whatever the
version. -/
theorem library_repeated_by_alias :
    (∃ query ∈ [Package.Name.parse "alpine/lib", .parse "alpine/lib2"],
        libraries.entries[1].satisfies query = true ∧
          ¬query.AsksFor libraries.entries[0].name) ∧
      (reached {} libraries {} [.parse "alpine/", .parse "alpine/"]).plan.packages =
        [libraries.entries[0], libraries.entries[0]] ∧
      (reached {} libraries {} [.parse "alpine/lib", .parse "alpine/app"]).plan.packages =
        [libraries.entries[0], libraries.entries[2]] ∧
      ((reached {} libraries {} [.parse "alpine/lib", .parse "alpine/app"]).plan.packages.map
        fun e => (e.name.distribution, e.name.name)).Nodup := by
  refine ⟨?_, by decide, by decide, ?_⟩
  · obtain ⟨-, hrepeat, -⟩ := repeats_asked_otherwise
      (rfl : reached {} libraries {} [.parse "alpine/lib", .parse "alpine/lib2"] = _)
    obtain ⟨query, hrequested, hsatisfies, hother⟩ := hrepeat [libraries.entries[0]]
      libraries.entries[1] [] (by decide) libraries.entries[0] (by decide) ⟨rfl, rfl⟩
    have hquery : query ∈ [Package.Name.parse "alpine/lib", .parse "alpine/lib2"] := by
      rcases hrequested with hquery | ⟨e, he, hquery⟩
      · exact hquery
      · -- neither version asks for anything
        have hnone : ∀ e ∈ (reached {} libraries {}
            [.parse "alpine/lib", .parse "alpine/lib2"]).plan.picked,
            e.package.depends.flatten = [] := by decide
        rw [hnone e he] at hquery
        cases hquery
    have hnamed : ∀ query ∈ [Package.Name.parse "alpine/lib", .parse "alpine/lib2"],
        query.name ≠ "" := by decide
    obtain ⟨_, -, -, hnew⟩ := hother.resolve_left (hnamed query hquery)
    exact ⟨query, hquery, hsatisfies,
      hnew _ (List.mem_singleton_self _) _ List.mem_cons_self⟩
  · obtain ⟨-, -, honce⟩ := repeats_asked_otherwise
      (rfl : reached {} libraries {} [.parse "alpine/lib", .parse "alpine/app"] = _)
    refine honce ?_ (by decide)
    rintro query (hquery | ⟨e, he, hquery⟩)
    · revert query
      decide
    · have hnamed : ∀ e ∈ (reached {} libraries {}
          [.parse "alpine/lib", .parse "alpine/app"]).plan.picked,
          ∀ query ∈ e.package.depends.flatten, query.name ≠ "" := by decide
      exact hnamed e he query hquery

end Planner

end Depot
