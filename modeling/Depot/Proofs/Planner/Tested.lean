import Depot.Proofs.Planner.Choice
import Depot.Proofs.Planner.Closure
import Depot.Proofs.Planner.Depth

/-!
# Testing an index

A test asks for the name of every entry on an empty plan. Without providers no test changes what the
next one sees, and all of them are made unless one goes round without end (`testEach_eq`). So the
working entries are those for whose name there is a plan, and such a plan has the entry that is
preferred for the name, with all that it needs (`names_are_tested`). This may be another entry than
the tested one, which then counts as working although no plan has it (`substitute_tested`).
-/

namespace Depot

/-- Telling a tracker `n` times that one more is done. -/
theorem Progress.run_replicate_increment (p : Progress) (n : Nat) :
    p.run (List.replicate n (.increment 1)) =
      { p with position := p.position + UInt64.ofNat n } := by
  induction n generalizing p with
  | zero => simp [run]
  | succ n ih =>
    rw [List.replicate_succ, run, List.foldl_cons, ← run, ih, step, UInt64.ofNat_add]
    simp only [UInt64.add_assoc, UInt64.add_comm 1]
    rfl

namespace Planner

variable {site : Site} {options : Plan.Options} {index : Index} {e : Index.Entry}
  {name : Package.Name} {names : List Package.Name}

/-- The plan for a name alone. -/
def planFor (site : Site) (options : Plan.Options) (index : Index) (name : Package.Name) :
    Planner × Outcome (List Index.Entry) :=
  (fresh index options).add site name

/-- There is a plan for a name alone. -/
def works (site : Site) (options : Plan.Options) (index : Index) (name : Package.Name) : Bool :=
  (planFor site options index name).2.isOk

theorem planFor_index (hproviders : index.providers = []) :
    (planFor site options index name).1.index = index :=
  addWithin_index hproviders site _ name

/-- Without providers a plan fails over packages or goes round without end. -/
theorem isAboutPackages_of_planFor (hproviders : index.providers = []) {f : Failure}
    (hfails : (planFor site options index name).2 = .error f) (hends : f ≠ .tooDeep) :
    isAboutPackages f = true := by
  simp only [planFor, add, addWithin] at hfails
  split at hfails
  · cases hfails
  · next r _ _ =>
    cases r with
    | resolved added => cases hfails
    | notFound missing => exact Except.error.inj hfails ▸ rfl
    | conflict package other => exact Except.error.inj hfails ▸ rfl
    | noCandidate package group => exact Except.error.inj hfails ▸ rfl
  · next e hcut =>
    have hdeep : e = .tooDeep := eq_tooDeep_of_resolve hproviders (congrArg Prod.snd hcut)
    exact absurd ((Except.error.inj hfails).symm.trans hdeep) hends

/-- The names are tested one by one, and each counts as working or as broken. -/
theorem testEach_eq (hproviders : index.providers = [])
    (hends : ∀ name ∈ names, (planFor site options index name).2 ≠ .error .tooDeep)
    (tally : Tally) :
    testEach site options names index tally =
      (index, .ok ⟨tally.working + names.countP (works site options index),
        tally.broken + names.countP (!works site options index ·)⟩,
        List.replicate names.length (.increment 1)) := by
  induction names generalizing tally with
  | nil => rfl
  | cons name rest ih =>
    have hrest := ih fun name hname => hends name (List.mem_cons_of_mem _ hname)
    have hindex : (planFor site options index name).1.index = index := planFor_index hproviders
    have hfails := hends name List.mem_cons_self
    rw [testEach, ← planFor]
    rcases hplan : planFor site options index name with ⟨s, f | added⟩
    · replace hindex : s.index = index := by rwa [hplan] at hindex
      have habout : isAboutPackages f = true :=
        isAboutPackages_of_planFor hproviders (congrArg Prod.snd hplan) fun hdeep =>
          hfails (by rw [hplan, hdeep])
      have hbroken : works site options index name = false := by rw [works, hplan]; rfl
      simp [habout, hindex, hrest, hbroken, List.replicate_succ, Nat.add_assoc, Nat.add_comm 1]
    · replace hindex : s.index = index := by rwa [hplan] at hindex
      have hworks : works site options index name = true := by rw [works, hplan]; rfl
      simp [hindex, hrest, hworks, List.replicate_succ, Nat.add_assoc, Nat.add_comm 1]

theorem exists_added_of_works (h : works site options index name = true) :
    ∃ added, (planFor site options index name).2 = .ok added := by
  rw [works] at h
  cases hresult : (planFor site options index name).2 with
  | ok added => exact ⟨added, rfl⟩
  | error f =>
    rw [hresult] at h
    cases h

/-- A request for which nothing is registered is answered with the entry that is chosen for it. -/
theorem Course.exists_chosen {parent : Option Index.Entry} {query : Package.Name} {s t : Planner}
    {added : List Index.Entry} {journal : List Recording}
    (h : Course site (.answer parent query) s added journal t)
    (hunregistered : s.plan.installedEntry? query = none) :
    ∃ index results chosen, s.index.search site query 0 = (index, .ok results) ∧
      Plan.choose? s.plan.options query results = some chosen ∧ chosen ∈ added := by
  cases h with
  | reuse hregistered =>
    rw [hunregistered] at hregistered
    cases hregistered
  | choose _ hsearch hchoose => exact ⟨_, _, _, hsearch, hchoose, List.mem_cons_self⟩

/-- A plan for a name has the entry that is preferred among those that a search finds, and the edges
that it records lead from there to what the entry needs. -/
theorem exists_preferred (hproviders : index.providers = [])
    (hworks : works site options index name = true) :
    ∃ chosen ∈ index.scan name, ∃ journal, options.Prefers name (index.scan name) chosen ∧
      chosen ∈ (planFor site options index name).1.plan.packages ∧
      Session (planFor site options index name).1 journal ∧
      ∀ group ∈ chosen.package.depends, Met options journal chosen group := by
  obtain ⟨added, hadded⟩ := exists_added_of_works hworks
  have hcourse := course_of_answered hadded
  have hscan : index.search site name 0 = (index, .ok (index.scan name)) :=
    Index.search_eq_scan hproviders site name 0
  obtain ⟨_, _, chosen, hsearch, hchoose, hmem⟩ :=
    hcourse.exists_chosen (installedEntry?_fresh index options name)
  obtain rfl := Except.ok.inj (congrArg Prod.snd (hsearch.symm.trans hscan))
  exact ⟨chosen, mem_of_choose? hchoose, _, Plan.choose?_eq_some_iff.1 hchoose,
    hcourse.adds.mem_packages hmem,
    (Session.fresh index options).answered site _ name hadded, hcourse.met.2 chosen hmem⟩

/-- When all alternatives of the index have names, no plan goes round without end. -/
theorem planFor_ne_tooDeep (hproviders : index.providers = [])
    (hnamed : ∀ e ∈ index.entries, ∀ group ∈ e.package.depends, ∀ option ∈ group,
      option.name ≠ "") : (planFor site options index name).2 ≠ .error .tooDeep := by
  obtain ⟨t, r, hresult⟩ := exists_end_of_named (s := fresh index options)
    (Plan.Holds.empty options) hproviders hnamed site none name
  exact add_ne_tooDeep (hresult _ (nestingBound_le_depthBound index))

theorem names_eq (index : Index) : index.names = index.entries.map (·.name) := by
  rw [Index.names, Index.packages, List.map_map]
  rfl

/-- Without providers, and if no plan for a name goes round without end, a test of an index changes
nothing and counts every entry once: as working, if there is a plan for its name, and else as
broken. The tracker is told the number of entries and gets on by it. A plan for the name of an entry
has the one that is preferred for this name, with all that it needs; where no other entry goes by
the name, that is the tested one. -/
theorem names_are_tested (hproviders : index.providers = [])
    (hends : ∀ e ∈ index.entries, (planFor site options index e.name).2 ≠ .error .tooDeep) :
    ∃ tally events, testAll site options index =
        (index, .ok tally, .length (UInt64.ofNat index.count) :: events ++ [.finish tally.text]) ∧
      tally.working + tally.broken = index.count ∧
      (∀ p : Progress,
        p.run events = { p with position := p.position + UInt64.ofNat index.count }) ∧
      tally.working = index.entries.countP (fun e => works site options index e.name) ∧
      ∀ e ∈ index.entries, works site options index e.name = true →
        ∃ chosen journal, options.Prefers e.name (index.scan e.name) chosen ∧
          ((∀ other ∈ index.entries, other.satisfies e.name = true → other = e) → chosen = e) ∧
          chosen ∈ (planFor site options index e.name).1.plan.packages ∧
          Session (planFor site options index e.name).1 journal ∧
          ∀ group ∈ chosen.package.depends, Met options journal chosen group := by
  have hnames : ∀ name ∈ index.names, (planFor site options index name).2 ≠ .error .tooDeep := by
    intro name hname
    rw [names_eq] at hname
    obtain ⟨e, he, rfl⟩ := List.mem_map.1 hname
    exact hends e he
  have hcount : index.names.length = index.count := by rw [names_eq, List.length_map, Index.count]
  have htested := testEach_eq hproviders hnames {}
  refine ⟨⟨index.names.countP (works site options index),
    index.names.countP (!works site options index ·)⟩,
    List.replicate index.count (.increment 1), ?_, ?_, fun p => p.run_replicate_increment _, ?_,
    fun e _ hworks => ?_⟩
  · simp only [testAll, htested, hcount, Nat.zero_add]
  · rw [← hcount, List.length_eq_countP_add_countP (works site options index)]
    simp
  · rw [names_eq, List.countP_map]
    rfl
  · obtain ⟨chosen, hscan, journal, hprefers, hmem, hsession, hmet⟩ :=
      exists_preferred hproviders hworks
    exact ⟨chosen, journal, hprefers, fun hsole =>
      hsole chosen (Index.mem_entries_of_scan hscan) (Index.satisfies_of_scan hscan), hmem,
      hsession, hmet⟩

/-! ### A substitute in front of a package -/

/-- A mail server that also goes by the name of a package behind it, which needs something that is
not there. -/
def standIn : Index :=
  shelf [{ name := ⟨"alpine", "postfix", "1", "", false⟩
           aliases := [⟨"alpine", "mta", "1", "", false⟩] },
    { name := ⟨"alpine", "mta", "1", "", false⟩
      depends := [[⟨"alpine", "missing", "", "", false⟩]] }]

/-- A package whose one dependency may be anything, and is met by the package itself. -/
def endless : Index :=
  shelf [{ name := ⟨"alpine", "loop", "1", "", false⟩, depends := [[⟨"", "", "", "", false⟩]] }]

/-- Both entries count as working, and the plan for the name of the second one has the first. -/
theorem names_are_tested_standIn :
    ∃ events tally, (testAll {} {} standIn).2 = (.ok tally, events) ∧
      tally.working + tally.broken = 2 ∧
      ∃ chosen, ({} : Plan.Options).Prefers standIn.entries[1].name
          (standIn.scan standIn.entries[1].name) chosen ∧
        chosen ∈ (planFor {} {} standIn standIn.entries[1].name).1.plan.packages := by
  have hnamed : ∀ e ∈ standIn.entries, ∀ group ∈ e.package.depends, ∀ option ∈ group,
      option.name ≠ "" := by decide
  obtain ⟨tally, events, hall, hcount, -, -, hplans⟩ :=
    @names_are_tested {} {} standIn rfl fun _ _ => planFor_ne_tooDeep rfl hnamed
  have hworks : works {} {} standIn standIn.entries[1].name = true := by decide
  obtain ⟨chosen, -, hprefers, -, hmem, -⟩ := hplans _ (by decide) hworks
  exact ⟨_, tally, congrArg Prod.snd hall, hcount, chosen, hprefers, hmem⟩

/-- An entry counts as working although the plan for its name does not have it and what it needs is
not there, and a test may go round without end. -/
theorem substitute_tested :
    (testAll {} {} standIn).2.1 = .ok ⟨2, 0⟩ ∧
      standIn.entries[1] ∉
        (planFor {} {} standIn standIn.entries[1].name).1.plan.packages ∧
      standIn.entries[1].package.depends = [[⟨"alpine", "missing", "", "", false⟩]] ∧
      standIn.scan ⟨"alpine", "missing", "", "", false⟩ = [] ∧
      (testAll {} {} endless).2.1 = .error .tooDeep := by
  decide

end Planner

end Depot
