import Depot.Proofs.Planner.Repeats

/-!
# Requests that are made again

An answered request refers to a name of something that is picked then, unless it has no name itself
(`known_of_answered`). Names that are picked stay picked: later requests only add to them, and a
failed one takes back its own alone (`Later.picked`). What a name leads to can change, for another
package may take it over, but something is found under it. So the same request, made again at any
later time, adds an edge and nothing else (`answered_again`).
-/

namespace Depot

namespace Planner

open Plan (registrations)

/-- Something is picked under a name that the query refers to. -/
def Known (picked : List Index.Entry) (query : Package.Name) : Prop :=
  ∃ r ∈ registrations picked, query.RefersTo r.name

/-- What may become of a planner: requests are made, whatever they come to, and in between the index
may become another one and the base image may be set. -/
inductive Later (s : Planner) : Planner → Prop where
  | refl : Later s s
  | requested {t : Planner} (h : Later s t) (site : Site) (depth : Nat) (query : Package.Name) :
      Later s (t.addWithin site depth query).1
  | reindexed {t : Planner} (h : Later s t) (index : Index) : Later s { t with index }
  | based {t : Planner} (h : Later s t) (image : Option String) :
      Later s { t with plan := { t.plan with baseImage := image } }

/-! ## Later states -/

namespace Later

variable {s t : Planner}

theorem session (h : Later s t) {journal : List Recording} (hs : Session s journal) :
    ∃ later, Session t later := by
  induction h with
  | refl => exact ⟨journal, hs⟩
  | requested _ site depth query ih =>
    obtain ⟨later, ht⟩ := ih
    obtain ⟨more, hmore⟩ := ht.addWithin site depth query
    exact ⟨later ++ more, hmore⟩
  | reindexed _ index ih =>
    obtain ⟨later, ht⟩ := ih
    exact ⟨later, ht.reindexed index⟩
  | based _ image ih =>
    obtain ⟨later, ht⟩ := ih
    exact ⟨later, ht.based image⟩

/-- What is picked stays picked. -/
theorem picked (h : Later s t) : s.plan.picked <+: t.plan.picked := by
  induction h with
  | refl => exact List.prefix_rfl
  | requested _ site depth query ih => exact ih.trans (grows_addWithin site depth query _).picked
  | reindexed _ _ ih => exact ih
  | based _ _ ih => exact ih

theorem serve (h : Later s t) (site : Site) (queries : List Package.Name) :
    Later s (t.serve site queries).1 := by
  induction queries generalizing t with
  | nil => exact h
  | cons query rest ih => exact ih (h.requested site _ query)

end Later

/-! ## Known names -/

theorem Known.mono {picked more : List Index.Entry} {query : Package.Name} (h : Known picked query)
    (hmore : picked <+: more) : Known more query := by
  obtain ⟨rest, rfl⟩ := hmore
  obtain ⟨r, hr, hrefers⟩ := h
  rw [Known, Plan.registrations_append]
  exact ⟨r, List.mem_append_left _ hr, hrefers⟩

theorem Course.known {site : Site} {parent : Option Index.Entry} {query : Package.Name}
    {s t : Planner} {added : List Index.Entry} {journal : List Recording}
    (h : Course site (.answer parent query) s added journal t) (hs : s.plan.Registered)
    (hquery : query.name ≠ "") : Known t.plan.picked query := by
  have hadds := h.adds
  cases h with
  | reuse hregistered =>
    rw [Plan.Holds.installedEntry? hs, Option.map_eq_some_iff] at hregistered
    obtain ⟨r, hseen, -⟩ := hregistered
    exact Plan.exists_seen?_iff.1 ⟨r, hseen⟩
  | @choose _ _ _ u _ _ e _ _ _ hsearch hchoose _ _ =>
    have hsatisfies : e.satisfies query = true := satisfies_of_choose? hsearch hchoose
    obtain ⟨name, hname, hmatch⟩ := Index.Entry.satisfies_iff.1 hsatisfies
    have hpicked : e ∈ (u.install e).plan.picked := by
      rw [hadds.picked]
      exact List.mem_append_right _ List.mem_cons_self
    have hrefers := (Package.Name.asksFor_of_satisfies hquery hmatch).refersTo
    exact ⟨⟨name, e⟩, Plan.mem_registrations_iff.2 ⟨hpicked, hname⟩, hrefers⟩

theorem known_of_answered {site : Site} {depth : Nat} {query : Package.Name} {s : Planner}
    {added : List Index.Entry} (hs : s.plan.Registered) (hquery : query.name ≠ "")
    (hanswer : (s.addWithin site depth query).2 = .ok added) :
    Known (s.addWithin site depth query).1.plan.picked query :=
  (course_of_answered hanswer).known hs hquery

/-! ## The same request again -/

/-- A request with a name that was answered is answered at any later time of the plan, whatever was
requested in between and whether that failed or not: it adds an edge from outside to something that
is installed, and changes nothing else. -/
theorem answered_again {s t : Planner} {journal : List Recording} {site : Site} {depth : Nat}
    {query : Package.Name} {added : List Index.Entry} (h : Session s journal)
    (hquery : query.name ≠ "") (hanswer : (s.addWithin site depth query).2 = .ok added)
    (hlater : Later (s.addWithin site depth query).1 t) (site' : Site) :
    ∃ child ∈ t.plan.packages, t.add site' query = (t.connect none child, .ok []) := by
  obtain ⟨later, ht⟩ := hlater.session (h.answered site depth query hanswer)
  obtain ⟨r, hr, hrefers⟩ := (known_of_answered h.registered hquery hanswer).mono hlater.picked
  obtain ⟨child, hchild, hadd⟩ := add_of_refersTo ht.registered hr hrefers site'
  exact ⟨child, ht.perm.mem_iff.2 hchild, hadd⟩

/-! ### A service that is taken over -/

/-- Three packages that provide a service, of which the second one needs something that is
missing. -/
def relays : Index :=
  shelf [{ name := ⟨"alpine", "postfix", "3", "", false⟩
           aliases := [⟨"alpine", "smtp", "3", "", false⟩] },
    { name := ⟨"alpine", "sendmail", "8", "", false⟩
      aliases := [⟨"alpine", "smtp", "8", "", false⟩]
      depends := [[⟨"alpine", "missing", "", "", false⟩]] },
    { name := ⟨"alpine", "nullmailer", "2", "", false⟩
      aliases := [⟨"alpine", "smtp", "9", "", false⟩] }]

/-- The service in an early version, of any distribution. -/
def earlyService : Package.Name := ⟨"", "smtp", "<4", "", false⟩

/-- The planner after requests for the service and for the two other packages by name. -/
def takenOver : Planner :=
  (((fresh relays {}).add {} earlyService).1.serve {} [.parse "sendmail", .parse "nullmailer"]).1

/-- The service is answered with the first package. The second one fails after it has taken over the
alias, the third one takes it over for good, in a version that the request would not accept. Made
again, the request comes to the third package all the same. -/
theorem service_requested_again :
    ((fresh relays {}).add {} earlyService).2 = .ok [relays.entries[0]] ∧
      takenOver.plan.packages = [relays.entries[0], relays.entries[2]] ∧
      relays.entries[2].satisfies earlyService = false ∧
      takenOver.add {} earlyService = (takenOver.connect none relays.entries[2], .ok []) := by
  have hanswer : ((fresh relays {}).addWithin {} (depthBound relays) earlyService).2 =
      .ok [relays.entries[0]] := by rfl
  have hlater := (Later.refl (s := ((fresh relays {}).add {} earlyService).1)).serve {}
    [.parse "sendmail", .parse "nullmailer"]
  obtain ⟨child, -, hagain⟩ :=
    answered_again (Session.fresh relays {}) (by decide) hanswer hlater {}
  have hedge : (takenOver.add {} earlyService).1.plan.edges.getLast? =
      some (none, relays.entries[2]) := by decide
  have hchild : child = relays.entries[2] := by
    change (takenOver.add {} earlyService) = _ at hagain
    rw [hagain] at hedge
    simpa [connect] using hedge
  exact ⟨hanswer, by decide, by decide, hchild ▸ hagain⟩

end Planner

end Depot
