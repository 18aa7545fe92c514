import Depot.Proofs.Planner.Course
import Depot.Proofs.Planner.Frame

/-!
# What the tables of a plan hold

Picking an entry registers it under its name and then under its aliases. A short name leads to the
latest registration of it and a bare name to the short name of the earliest one, so what a query
sees is a function of the entries that were picked, in their order (`Plan.seen?`). A plan whose
tables say just that is `Plan.Registered`; courses of resolution keep it
(`Planner.Course.registered`).
-/

namespace Depot

/-- A query asks for a name: the two have the same bare name and, if the query has a distribution,
the same distribution. -/
def Package.Name.AsksFor (query name : Package.Name) : Prop :=
  query.name = name.name ∧ (query.distribution = "" ∨ query.distribution = name.distribution)

instance (query name : Package.Name) : Decidable (query.AsksFor name) :=
  inferInstanceAs (Decidable (_ ∧ _))

/-- A query finds what is registered under a name: the two have the same short name or, if the query
has no distribution, the same bare name. -/
def Package.Name.RefersTo (query name : Package.Name) : Prop :=
  if query.distribution = "" then query.name = name.name else query.short = name.short

instance (query name : Package.Name) : Decidable (query.RefersTo name) :=
  inferInstanceAs (Decidable (if query.distribution = "" then query.name = name.name
    else query.short = name.short))

theorem Package.Name.AsksFor.refersTo {query name : Package.Name} (h : query.AsksFor name) :
    query.RefersTo name := by
  obtain ⟨hname, hdistribution⟩ := h
  unfold Package.Name.RefersTo
  split
  · exact hname
  · next hnonempty =>
    rw [Package.Name.short, hdistribution.resolve_left hnonempty, hname, Package.Name.short]

/-- A query with a name asks for every name that satisfies it. -/
theorem Package.Name.asksFor_of_satisfies {query name : Package.Name} (hquery : query.name ≠ "")
    (h : name.satisfies query = true) : query.AsksFor name := by
  simp only [Package.Name.satisfies, Package.Name.partAccepts, Bool.and_eq_true, Bool.or_eq_true,
    beq_iff_eq, String.isEmpty_iff] at h
  obtain ⟨⟨⟨hdistribution, -⟩, hname⟩, -⟩ := h
  exact ⟨hname.resolve_left hquery, hdistribution⟩

namespace Plan

/-- An entry with one of its names, under which it is registered. -/
structure Registration where
  name : Package.Name
  entry : Index.Entry
  deriving DecidableEq

/-- What picking an entry registers, in order. -/
def registrationsOf (e : Index.Entry) : List Registration := e.package.names.map (⟨·, e⟩)

/-- What picking some entries one after the other registers. -/
def registrations (picked : List Index.Entry) : List Registration := picked.flatMap registrationsOf

/-- The latest registration of a short name. -/
def latest? (rs : List Registration) (key : String) : Option Registration :=
  rs.reverse.find? (·.name.short == key)

/-- The earliest registration of a bare name. -/
def earliest? (rs : List Registration) (name : String) : Option Registration :=
  rs.find? (·.name.name == name)

/-- The registration that a query sees: the latest one of its short name or, without a distribution,
of the short name that had its bare name first. -/
def seen? (rs : List Registration) (query : Package.Name) : Option Registration :=
  if query.distribution.isEmpty then
    (earliest? rs query.name).bind fun r => latest? rs r.name.short
  else latest? rs query.short

/-- The tables hold these registrations. -/
structure Holds (p : Plan) (rs : List Registration) : Prop where
  installed : ∀ key, p.installed.get? key = (latest? rs key).map (·.name.version)
  installedEntries : ∀ key, p.installedEntries.get? key = (latest? rs key).map (·.entry)
  bareNames : ∀ name, p.bareNames.get? name = (earliest? rs name).map (·.name.short)

/-- The tables hold what picking the picked entries registers. -/
def Registered (p : Plan) : Prop := p.Holds (registrations p.picked)

/-! ## Registrations as a list -/

@[simp] theorem registrations_append (front back : List Index.Entry) :
    registrations (front ++ back) = registrations front ++ registrations back :=
  List.flatMap_append

@[simp] theorem registrations_singleton (e : Index.Entry) :
    registrations [e] = registrationsOf e := by
  simp [registrations]

theorem mem_registrations_iff {picked : List Index.Entry} {r : Registration} :
    r ∈ registrations picked ↔ r.entry ∈ picked ∧ r.name ∈ r.entry.package.names := by
  simp only [registrations, registrationsOf, List.mem_flatMap, List.mem_map]
  constructor
  · rintro ⟨e, he, name, hname, rfl⟩
    exact ⟨he, hname⟩
  · rintro ⟨he, hname⟩
    exact ⟨r.entry, he, r.name, hname, rfl⟩

theorem latest?_concat (rs : List Registration) (r : Registration) (key : String) :
    latest? (rs ++ [r]) key = if key = r.name.short then some r else latest? rs key := by
  simp only [latest?, List.reverse_append, List.reverse_singleton, List.singleton_append,
    List.find?_cons]
  by_cases h : key = r.name.short
  · simp [h]
  · have hne : (r.name.short == key) = false := beq_eq_false_iff_ne.2 (Ne.symm h)
    simp [h, hne]

theorem earliest?_concat (rs : List Registration) (r : Registration) (name : String) :
    earliest? (rs ++ [r]) name =
      (earliest? rs name).or (if name = r.name.name then some r else none) := by
  rw [earliest?, List.find?_append]
  by_cases h : name = r.name.name
  · simp [earliest?, h]
  · have hne : (r.name.name == name) = false := beq_eq_false_iff_ne.2 (Ne.symm h)
    simp [earliest?, h, hne]

theorem seen?_nil (query : Package.Name) : seen? [] query = none := by
  unfold seen?
  split <;> rfl

theorem mem_of_latest? {rs : List Registration} {key : String} {r : Registration}
    (h : latest? rs key = some r) : r ∈ rs :=
  List.mem_reverse.1 (List.mem_of_find?_eq_some h)

theorem mem_of_seen? {rs : List Registration} {query : Package.Name} {r : Registration}
    (h : seen? rs query = some r) : r ∈ rs := by
  unfold seen? at h
  split at h
  · obtain ⟨_, -, hlatest⟩ := Option.bind_eq_some_iff.1 h
    exact mem_of_latest? hlatest
  · exact mem_of_latest? h

theorem latest?_isSome {rs : List Registration} {r : Registration} (h : r ∈ rs) :
    ∃ other, latest? rs r.name.short = some other :=
  Option.isSome_iff_exists.1
    (List.find?_isSome.2 ⟨r, List.mem_reverse.2 h, beq_self_eq_true _⟩)

theorem earliest?_isSome {rs : List Registration} {r : Registration} (h : r ∈ rs) :
    ∃ other, earliest? rs r.name.name = some other :=
  Option.isSome_iff_exists.1 (List.find?_isSome.2 ⟨r, h, beq_self_eq_true _⟩)

/-- A query sees something just when it refers to a registered name. -/
theorem exists_seen?_iff {rs : List Registration} {query : Package.Name} :
    (∃ r, seen? rs query = some r) ↔ ∃ r ∈ rs, query.RefersTo r.name := by
  by_cases hempty : query.distribution = ""
  · simp only [seen?, Package.Name.RefersTo, String.isEmpty_iff, if_pos hempty]
    constructor
    · rintro ⟨r, hseen⟩
      obtain ⟨first, hfirst, -⟩ := Option.bind_eq_some_iff.1 hseen
      have hname : first.name.name = query.name := by simpa using List.find?_some hfirst
      exact ⟨first, List.mem_of_find?_eq_some hfirst, hname.symm⟩
    · rintro ⟨r, hr, hname⟩
      obtain ⟨first, hfirst⟩ := earliest?_isSome hr
      rw [hname, hfirst]
      exact latest?_isSome (List.mem_of_find?_eq_some hfirst)
  · simp only [seen?, Package.Name.RefersTo, String.isEmpty_iff, if_neg hempty]
    constructor
    · rintro ⟨r, hseen⟩
      have hshort : r.name.short = query.short := by simpa using List.find?_some hseen
      exact ⟨r, mem_of_latest? hseen, hshort.symm⟩
    · rintro ⟨r, hr, hshort⟩
      rw [hshort]
      exact latest?_isSome hr

/-- A query that asks for a registered name sees something. -/
theorem seen?_of_asksFor {rs : List Registration} {r : Registration} {query : Package.Name}
    (hr : r ∈ rs) (h : query.AsksFor r.name) : ∃ other, seen? rs query = some other :=
  exists_seen?_iff.2 ⟨r, hr, h.refersTo⟩

/-! ## Registering -/

namespace Holds

variable {p : Plan} {rs : List Registration}

theorem empty (options : Options) : ({ options } : Plan).Holds [] :=
  ⟨fun _ => rfl, fun _ => rfl, fun _ => rfl⟩

theorem register (h : p.Holds rs) (e : Index.Entry) (name : Package.Name) :
    (p.register e name).Holds (rs ++ [⟨name, e⟩]) where
  installed key := by
    simp only [Plan.register, Table.get?_insert, latest?_concat, h.installed]
    split <;> rfl
  installedEntries key := by
    simp only [Plan.register, Table.get?_insert, latest?_concat, h.installedEntries]
    split <;> rfl
  bareNames bare := by
    simp only [Plan.register, Table.get?_insertNew, earliest?_concat, h.bareNames, Option.map_or]
    split <;> rfl

theorem foldl_register (h : p.Holds rs) (e : Index.Entry) (names : List Package.Name) :
    (names.foldl (Plan.register e) p).Holds (rs ++ names.map (⟨·, e⟩)) := by
  induction names generalizing p rs with
  | nil => simpa using h
  | cons name rest ih => simpa using ih (h.register e name)

/-! ## Looking -/

theorem lookupKey? (h : p.Holds rs) (query : Package.Name) :
    p.lookupKey? query =
      if query.distribution.isEmpty then (earliest? rs query.name).map (·.name.short)
      else if (latest? rs query.short).isSome then some query.short else none := by
  simp only [Plan.lookupKey?, Table.contains, h.bareNames, h.installed, Option.isSome_map]

theorem installedVersion? (h : p.Holds rs) (query : Package.Name) :
    p.installedVersion? query = (seen? rs query).map (·.name.version) := by
  simp only [Plan.installedVersion?, h.lookupKey?, seen?]
  split
  · cases earliest? rs query.name <;> simp [h.installed]
  · cases hlatest : latest? rs query.short <;> simp [h.installed, hlatest]

theorem installedEntry? (h : p.Holds rs) (query : Package.Name) :
    p.installedEntry? query = (seen? rs query).map (·.entry) := by
  simp only [Plan.installedEntry?, h.lookupKey?, seen?]
  split
  · cases earliest? rs query.name <;> simp [h.installedEntries]
  · cases hlatest : latest? rs query.short <;> simp [h.installedEntries, hlatest]

/-- A short name is found for a query just when an entry is. -/
theorem lookupKey?_eq_none_iff (h : p.Holds rs) (query : Package.Name) :
    p.lookupKey? query = none ↔ p.installedEntry? query = none := by
  rw [h.lookupKey?, h.installedEntry?, Option.map_eq_none_iff, seen?]
  split
  · cases hfirst : earliest? rs query.name with
    | none => simp
    | some r =>
      obtain ⟨other, hother⟩ := latest?_isSome (List.mem_of_find?_eq_some hfirst)
      simp [hother]
  · cases latest? rs query.short <;> simp

end Holds

theorem Registered.mem_picked {p : Plan} (h : p.Registered) {query : Package.Name}
    {e : Index.Entry} (he : p.installedEntry? query = some e) : e ∈ p.picked := by
  rw [Holds.installedEntry? h, Option.map_eq_some_iff] at he
  obtain ⟨r, hseen, rfl⟩ := he
  exact (mem_registrations_iff.1 (mem_of_seen? hseen)).1

end Plan

namespace Planner

theorem holds_introduce {s : Planner} {rs : List Plan.Registration} (h : s.plan.Holds rs)
    (parent : Option Index.Entry) (e : Index.Entry) :
    ((s.connect parent e).introduce e).plan.Holds (rs ++ [⟨e.name, e⟩]) := by
  have hconnect : (s.connect parent e).plan.Holds rs :=
    ⟨h.installed, h.installedEntries, h.bareNames⟩
  exact hconnect.register e e.name

theorem holds_takeUp {s : Planner} {rs : List Plan.Registration} (h : s.plan.Holds rs)
    (parent : Option Index.Entry) (e : Index.Entry) :
    (s.takeUp parent e).plan.Holds (rs ++ Plan.registrationsOf e) := by
  have hintroduce := holds_introduce h parent e
  have hpicked : ({ ((s.connect parent e).introduce e).plan with
      picked := ((s.connect parent e).introduce e).plan.picked ++ [e] } : Plan).Holds
      (rs ++ [⟨e.name, e⟩]) :=
    ⟨hintroduce.installed, hintroduce.installedEntries, hintroduce.bareNames⟩
  have haliases := hpicked.foldl_register e e.package.aliases
  rwa [List.append_assoc] at haliases

/-- On an empty plan nothing is registered. -/
theorem installedEntry?_fresh (index : Index) (options : Plan.Options) (query : Package.Name) :
    (fresh index options).plan.installedEntry? query = none := by
  have hempty : (fresh index options).plan.Holds [] := Plan.Holds.empty options
  rw [hempty.installedEntry?, Plan.seen?_nil, Option.map_none]

theorem registered_connect {s : Planner} (h : s.plan.Registered) (parent : Option Index.Entry)
    (e : Index.Entry) : (s.connect parent e).plan.Registered :=
  Plan.Holds.mk h.installed h.installedEntries h.bareNames

theorem registered_install {s : Planner} (h : s.plan.Registered) (e : Index.Entry) :
    (s.install e).plan.Registered :=
  Plan.Holds.mk h.installed h.installedEntries h.bareNames

theorem registered_takeUp {s : Planner} (h : s.plan.Registered) (parent : Option Index.Entry)
    (e : Index.Entry) : (s.takeUp parent e).plan.Registered := by
  have hpicked : (s.takeUp parent e).plan.picked = s.plan.picked ++ [e] := pick_picked _ e
  unfold Plan.Registered
  rw [hpicked, Plan.registrations_append, Plan.registrations_singleton]
  exact holds_takeUp h parent e

theorem Course.registered {site : Site} {goal : Goal} {s t : Planner} {added : List Index.Entry}
    {journal : List Recording} (h : Course site goal s added journal t)
    (hs : s.plan.Registered) : t.plan.Registered := by
  induction h with
  | reuse => exact registered_connect hs _ _
  | choose _ _ _ _ _ ih => exact registered_install (ih (registered_takeUp hs _ _)) _
  | done => exact hs
  | skip _ _ _ ih => exact ih hs
  | one _ hpasses _ _ ihone ihrest =>
    refine ihrest (ihone ?_)
    rwa [hpasses.plan_eq]

end Planner

end Depot
