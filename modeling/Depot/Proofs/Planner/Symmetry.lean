import Mathlib.Logic.Basic
import Depot.Proofs.Planner.Conflict
import Depot.Proofs.Planner.Declared
import Depot.Proofs.Planner.Repeats
import Depot.Proofs.Text.Joined

/-!
# Conflicts of two packages in either order

Of two packages that need nothing else, the second one is refused when a conflict of it sees a
version of the first one that it accepts, or when a conflict of the first one accepts a name of it
(`second_refused_iff`). What an option sees is the version of one registration, without the
architecture, while the comparison with all names takes every part into account. Where both come to
the same, whether two packages go together does not depend on which is asked for first
(`refused_in_either_order`); otherwise it can (`architecture_decides_by_order`).
-/

namespace Depot

/-- The distribution is without a slash, so that the short name tells the two parts of the name. -/
def Package.Name.Plain (n : Package.Name) : Prop := '/' ∉ n.distribution.toList

instance (n : Package.Name) : Decidable n.Plain :=
  inferInstanceAs (Decidable ('/' ∉ n.distribution.toList))

theorem short_inj {a b : Package.Name} (ha : a.Plain) (hb : b.Plain) (h : a.short = b.short) :
    a.distribution = b.distribution ∧ a.name = b.name :=
  (Text.join_inj_left rfl ha hb).1 h

namespace Plan

/-! ## What an option sees among plain names -/

/-- Among plain names a query sees a name that it asks for. -/
theorem asksFor_of_seen? {rs : List Registration} {query : Package.Name} {r : Registration}
    (hquery : query.Plain) (hrs : ∀ r ∈ rs, r.name.Plain) (h : seen? rs query = some r) :
    query.AsksFor r.name := by
  have hr : r.name.Plain := hrs r (mem_of_seen? h)
  unfold seen? at h
  split at h
  · next hempty =>
    obtain ⟨first, hfirst, hlatest⟩ := Option.bind_eq_some_iff.1 h
    have hbare : first.name.name = query.name := by
      simpa using List.find?_some hfirst
    have hshort : r.name.short = first.name.short := by
      simpa using List.find?_some hlatest
    have hfirst' : first.name.Plain := hrs first (List.mem_of_find?_eq_some hfirst)
    refine ⟨hbare.symm.trans (short_inj hr hfirst' hshort).2.symm, .inl ?_⟩
    exact String.isEmpty_iff.1 hempty
  · have hshort : r.name.short = query.short := by
      simpa using List.find?_some h
    obtain ⟨hdistribution, hname⟩ := short_inj hr hquery hshort
    exact ⟨hname.symm, .inr hdistribution.symm⟩

/-- Where all names that an option asks for have one version, the option sees a version that it
accepts just when one of these names has such a version. -/
theorem sees_iff {rs : List Registration} {option : Package.Name} (hoption : option.Plain)
    (hrs : ∀ r ∈ rs, r.name.Plain)
    (hversion : ∀ a ∈ rs, ∀ b ∈ rs, option.AsksFor a.name → option.AsksFor b.name →
      a.name.version = b.name.version) :
    Sees rs option ↔ ∃ r ∈ rs, option.AsksFor r.name ∧
      Version.satisfies r.name.version option.version = true := by
  constructor
  · rintro ⟨r, hseen, haccepts⟩
    exact ⟨r, mem_of_seen? hseen, asksFor_of_seen? hoption hrs hseen, haccepts⟩
  · rintro ⟨r, hr, hasks, haccepts⟩
    obtain ⟨other, hseen⟩ := seen?_of_asksFor hr hasks
    refine ⟨other, hseen, ?_⟩
    rwa [hversion other (mem_of_seen? hseen) r hr (asksFor_of_seen? hoption hrs hseen) hasks]

end Plan

namespace Planner

open Plan (Sees atCheck registrations registrationsOf seen?)

/-- What a second request comes to after a first one, on an empty plan. -/
def secondAnswer (site : Site) (index : Index) (options : Plan.Options)
    (first second : Package.Name) : Outcome (List Index.Entry) :=
  (((fresh index options).add site first).1.add site second).2

/-- The answer to a request that is refused because of a conflict. -/
def Refused (answer : Outcome (List Index.Entry)) : Prop :=
  ∃ package other, answer = .error (.conflict package other)

/-- On an empty plan a request comes to this entry, which needs nothing else. -/
structure Alone (site : Site) (index : Index) (options : Plan.Options) (query : Package.Name)
    (e : Index.Entry) : Prop where
  leaf : e.package.depends = []
  answer : ((fresh index options).add site query).2 = .ok [e]

/-- A query that has a name, and a distribution without a slash if any. -/
def Specific (query : Package.Name) : Prop := query.name ≠ "" ∧ query.Plain

/-- An option tells of an entry by the version alone: all names of it that the option asks for have
one version, and an architecture that the option accepts. -/
structure Clear (option : Package.Name) (e : Index.Entry) : Prop where
  specific : Specific option
  architecture : ∀ name ∈ e.package.names, option.AsksFor name →
    Package.Name.partAccepts option.architecture name.architecture = true
  version : ∀ a ∈ e.package.names, ∀ b ∈ e.package.names, option.AsksFor a → option.AsksFor b →
    a.version = b.version

/-- Two entries have no bare name in common. -/
def ShareNoName (p q : Index.Entry) : Prop :=
  ∀ a ∈ p.package.names, ∀ b ∈ q.package.names, a.name ≠ b.name

instance (p q : Index.Entry) : Decidable (ShareNoName p q) :=
  inferInstanceAs (Decidable (∀ a ∈ p.package.names, ∀ b ∈ q.package.names, a.name ≠ b.name))

/-! ## A request that comes to a single entry -/

section

variable {site : Site} {index : Index} {options : Plan.Options} {query : Package.Name}
  {e : Index.Entry}

/-- How a request on an empty plan comes to a single entry. -/
theorem Alone.course (h : Alone site index options query e) (hproviders : index.providers = []) :
    ((fresh index options).add site query).1 =
        ((fresh index options).takeUp none e).install e ∧
      Plan.choose? options query (index.scan query) = some e ∧
      ∀ option ∈ e.package.conflicts.flatten, ¬Sees (atCheck [] e) option := by
  have hanswer : ((fresh index options).addWithin site (depthBound index) query).2 = .ok [e] :=
    h.answer
  have hcourse := course_of_answered hanswer
  change ((fresh index options).addWithin site (depthBound index) query).1 = _ ∧ _
  generalize ((fresh index options).addWithin site (depthBound index) query).1 = t at hcourse ⊢
  generalize recordings site (depthBound index) none query (fresh index options) = journal
    at hcourse
  cases hcourse with
  | @choose _ _ _ u _ _ _ _ _ _ hsearch hchoose hconflict hmeet =>
    have hscan := hsearch.symm.trans (Index.search_eq_scan hproviders site query 0)
    obtain ⟨rfl, hresults⟩ := Prod.mk.inj hscan
    obtain rfl := Except.ok.inj hresults
    rw [h.leaf] at hmeet
    cases hmeet
    refine ⟨rfl, hchoose, ?_⟩
    exact (Plan.ownConflict?_eq_none_iff
      (holds_introduce (Plan.Holds.empty options) none e) e).1
        (conflictOf?_eq_none_iff.1 hconflict).1

/-- A request that chooses an entry without dependencies comes to this entry or to its conflict. -/
theorem add_leaf {s : Planner} {found : Index} {results : List Index.Entry}
    (hunregistered : s.plan.installedEntry? query = none)
    (hsearch : s.index.search site query 0 = (found, .ok results))
    (hchoose : Plan.choose? s.plan.options query results = some e)
    (hleaf : e.package.depends = []) :
    (s.add site query).2 =
      match conflictOf? ((s.connect none e).introduce e).plan e with
      | some (package, other) => .error (.conflict package other)
      | none => .ok [e] := by
  obtain ⟨depth, hdepth⟩ := depthBound_eq_succ s.index
  have hconflict : conflictOf? ((({ s with index := found } : Planner).connect none e).introduce
      e).plan e = conflictOf? ((s.connect none e).introduce e).plan e := rfl
  simp only [add, hdepth, addWithin, resolve_of_chosen hunregistered hsearch hchoose, take, hleaf,
    meetGroups, hconflict]
  cases conflictOf? ((s.connect none e).introduce e).plan e with
  | none => rfl
  | some conflict => rfl

/-- A later request that would choose the entry is refused just when nothing is registered for it
and the entry has a conflict with what is picked. -/
theorem add_refused_iff {s : Planner} {rs : List Plan.Registration} (hrs : s.plan.Holds rs)
    (hproviders : s.index.providers = [])
    (hchoose : Plan.choose? s.plan.options query (s.index.scan query) = some e)
    (hleaf : e.package.depends = []) :
    Refused (s.add site query).2 ↔ seen? rs query = none ∧
      ((∃ option ∈ e.package.conflicts.flatten, Sees (rs ++ [⟨e.name, e⟩]) option) ∨
        ∃ p ∈ s.plan.picked, ¬p.Tolerates e) := by
  have hunseen : s.plan.installedEntry? query = none ↔ seen? rs query = none := by
    rw [hrs.installedEntry?, Option.map_eq_none_iff]
  have hpasses : conflictOf? ((s.connect none e).introduce e).plan e = none ↔
      ¬((∃ option ∈ e.package.conflicts.flatten, Sees (rs ++ [⟨e.name, e⟩]) option) ∨
        ∃ p ∈ s.plan.picked, ¬p.Tolerates e) := by
    rw [conflictOf?_eq_none_iff, Plan.ownConflict?_eq_none_iff (holds_introduce hrs none e) e,
      Plan.declaredConflict?_eq_none_iff, not_or]
    have hpicked : ((s.connect none e).introduce e).plan.picked = s.plan.picked := rfl
    simp only [hpicked, not_exists, not_and, not_not]
  rw [← hunseen, ← not_iff_comm.1 hpasses.symm]
  cases hregistered : s.plan.installedEntry? query with
  | some old =>
    obtain ⟨depth, hdepth⟩ := depthBound_eq_succ s.index
    simp [add, hdepth, addWithin_reuse hregistered, Refused]
  | none =>
    have hsearch := Index.search_eq_scan hproviders site query 0
    rw [add_leaf hregistered hsearch hchoose hleaf]
    cases conflictOf? ((s.connect none e).introduce e).plan e with
    | none => simp [Refused]
    | some conflict => simp [Refused]

end

/-! ## Two requests -/

section

variable {site : Site} {index : Index} {options : Plan.Options} {first second : Package.Name}
  {p q : Index.Entry} (hproviders : index.providers = [])
  (hp : Alone site index options first p) (hq : Alone site index options second q)

include hproviders hp hq

theorem second_refused_iff :
    Refused (secondAnswer site index options first second) ↔
      seen? (registrationsOf p) second = none ∧
        ((∃ option ∈ q.package.conflicts.flatten, Sees (atCheck [p] q) option) ∨
          ¬p.Tolerates q) := by
  obtain ⟨hfirst, -, -⟩ := hp.course hproviders
  obtain ⟨-, hchoose, -⟩ := hq.course hproviders
  have hfresh : (fresh index options).plan.Registered := Plan.Holds.empty options
  have hpicked : (((fresh index options).takeUp none p).install p).plan.picked = [p] :=
    takeUp_picked (fresh index options) none p
  have hrs := registered_install (registered_takeUp hfresh none p) p
  rw [Plan.Registered, hpicked] at hrs
  have hsecond : Plan.choose? (((fresh index options).takeUp none p).install p).plan.options second
      ((((fresh index options).takeUp none p).install p).index.scan second) = some q := by
    have hoptions : (((fresh index options).takeUp none p).install p).plan.options = options :=
      takeUp_options (fresh index options) none p
    rw [hoptions]
    exact hchoose
  rw [secondAnswer, hfirst, add_refused_iff hrs hproviders hsecond hq.leaf, hpicked]
  simp only [Plan.registrations_singleton, atCheck, List.mem_singleton, exists_eq_left]

end

/-! ## Where the order does not matter -/

theorem Clear.satisfies_iff {option : Package.Name} {e : Index.Entry} (h : Clear option e) :
    e.satisfies option = true ↔ ∃ name ∈ e.package.names, option.AsksFor name ∧
      Version.satisfies name.version option.version = true := by
  rw [Index.Entry.satisfies_iff]
  constructor
  · rintro ⟨name, hname, hsatisfies⟩
    have hasks := Package.Name.asksFor_of_satisfies h.specific.1 hsatisfies
    simp only [Package.Name.satisfies, Bool.and_eq_true] at hsatisfies
    exact ⟨name, hname, hasks, hsatisfies.2⟩
  · rintro ⟨name, hname, hasks, hversion⟩
    refine ⟨name, hname, ?_⟩
    have harchitecture := h.architecture name hname hasks
    obtain ⟨hbare, hdistribution⟩ := hasks
    have hparts : Package.Name.partAccepts option.distribution name.distribution = true ∧
        Package.Name.partAccepts option.name name.name = true := by
      simp only [Package.Name.partAccepts, Bool.or_eq_true, beq_iff_eq, String.isEmpty_iff]
      exact ⟨hdistribution, .inr hbare⟩
    simp only [Package.Name.satisfies, Bool.and_eq_true]
    exact ⟨⟨⟨hparts.1, harchitecture⟩, hparts.2⟩, hversion⟩

/-- Where names are plain and not shared, a conflict that does not concern the candidate itself sees
a version that it accepts just when it accepts a name of the entry that is there. -/
theorem Clear.sees_iff {option : Package.Name} {p q : Index.Entry} (h : Clear option p)
    (hplain : ∀ name ∈ p.package.names ++ q.package.names, name.Plain) (hshare : ShareNoName p q)
    (hown : ¬Sees (atCheck [] q) option) :
    Sees (atCheck [p] q) option ↔ p.satisfies option = true := by
  have hname : q.name ∈ q.package.names := List.mem_cons_self
  have hmem : ∀ r ∈ atCheck [p] q,
      (r.name ∈ p.package.names ∧ r.entry = p) ∨ r = ⟨q.name, q⟩ := by
    intro r hr
    rcases List.mem_append.1 hr with hr | hr
    · obtain ⟨hentry, hnames⟩ := Plan.mem_registrations_iff.1 hr
      obtain rfl := List.mem_singleton.1 hentry
      exact .inl ⟨hnames, rfl⟩
    · exact .inr (List.mem_singleton.1 hr)
  have hregistered : ∀ name ∈ p.package.names, ⟨name, p⟩ ∈ atCheck [p] q := fun name hmem =>
    List.mem_append_left _ (Plan.mem_registrations_iff.2 ⟨List.mem_singleton_self p, hmem⟩)
  have hplain' : ∀ r ∈ atCheck [p] q, r.name.Plain := by
    intro r hr
    rcases hmem r hr with ⟨hr, -⟩ | rfl
    · exact hplain _ (List.mem_append_left _ hr)
    · exact hplain _ (List.mem_append_right _ hname)
  -- a name of the candidate that the option asks for is none of the names that are there
  have hversion : ∀ a ∈ atCheck [p] q, ∀ b ∈ atCheck [p] q, option.AsksFor a.name →
      option.AsksFor b.name → a.name.version = b.name.version := by
    intro a ha b hb hasksa hasksb
    have hbare : a.name.name = b.name.name := hasksa.1.symm.trans hasksb.1
    rcases hmem a ha with ⟨ha, -⟩ | rfl <;> rcases hmem b hb with ⟨hb, -⟩ | rfl
    · exact h.version _ ha _ hb hasksa hasksb
    · exact absurd hbare (hshare _ ha _ hname)
    · exact absurd hbare.symm (hshare _ hb _ hname)
    · rfl
  have hown' : ¬(option.AsksFor q.name ∧
      Version.satisfies q.name.version option.version = true) := fun ⟨hasks, haccepts⟩ =>
    hown (Plan.sees_own_iff.2 ⟨hasks.refersTo, haccepts⟩)
  rw [Plan.sees_iff h.specific.2 hplain' hversion, h.satisfies_iff]
  constructor
  · rintro ⟨r, hr, hasks, haccepts⟩
    rcases hmem r hr with ⟨hr, -⟩ | rfl
    · exact ⟨r.name, hr, hasks, haccepts⟩
    · exact absurd ⟨hasks, haccepts⟩ hown'
  · rintro ⟨name, hname, hasks, haccepts⟩
    exact ⟨⟨name, p⟩, hregistered name hname, hasks, haccepts⟩

theorem not_tolerates_iff {p q : Index.Entry} (horigin : p.origin ≠ q.origin) :
    ¬p.Tolerates q ↔ ∃ option ∈ p.package.conflicts.flatten, q.satisfies option = true := by
  simp only [Index.Entry.Tolerates, ← Plan.satisfies_eq_false_iff, not_forall, horigin, ne_eq,
    not_false_eq_true, exists_prop, true_and, Bool.not_eq_false]

section

variable {site : Site} {index : Index} {options : Plan.Options} {first second : Package.Name}
  {p q : Index.Entry}

theorem second_refused_iff_of_clear (hproviders : index.providers = [])
    (hp : Alone site index options first p) (hq : Alone site index options second q)
    (horigin : p.origin ≠ q.origin) (hshare : ShareNoName p q) (hsecond : Specific second)
    (hplain : ∀ name ∈ p.package.names ++ q.package.names, name.Plain)
    (hclear : ∀ option ∈ q.package.conflicts.flatten, Clear option p) :
    Refused (secondAnswer site index options first second) ↔
      (∃ option ∈ q.package.conflicts.flatten, p.satisfies option = true) ∨
        ∃ option ∈ p.package.conflicts.flatten, q.satisfies option = true := by
  obtain ⟨-, hchoose, hown⟩ := hq.course hproviders
  have hunseen : seen? (registrationsOf p) second = none := by
    refine Option.eq_none_iff_forall_ne_some.2 fun r hseen => ?_
    have hmem : ∀ r ∈ registrationsOf p, r.name ∈ p.package.names := by
      intro r hr
      obtain ⟨name, hname, rfl⟩ := List.mem_map.1 hr
      exact hname
    have hsatisfies : q.satisfies second = true := Index.satisfies_of_scan (mem_of_choose? hchoose)
    obtain ⟨name, hname, hmatch⟩ := Index.Entry.satisfies_iff.1 hsatisfies
    have hasks := Plan.asksFor_of_seen? hsecond.2
      (fun r hr => hplain _ (List.mem_append_left _ (hmem r hr))) hseen
    have hasks' := Package.Name.asksFor_of_satisfies hsecond.1 hmatch
    exact hshare _ (hmem r (Plan.mem_of_seen? hseen)) _ hname (hasks.1.symm.trans hasks'.1)
  have hsees : (∃ option ∈ q.package.conflicts.flatten, Sees (atCheck [p] q) option) ↔
      ∃ option ∈ q.package.conflicts.flatten, p.satisfies option = true :=
    exists_congr fun option => and_congr_right fun hoption =>
      (hclear option hoption).sees_iff hplain hshare (hown option hoption)
  rw [second_refused_iff hproviders hp hq, hsees, not_tolerates_iff horigin]
  exact and_iff_right hunseen

/-- On an empty plan the second of two requests, for packages that need nothing else, is refused
just when nothing is seen for it and a conflict of its package sees a version of the first one that
it accepts, or the first one does not tolerate it. Where requests and conflicts are specific, the
distributions are without a slash, and each conflict is clear about the other package, whether the
second request is refused does not depend on which of them comes first. -/
theorem refused_in_either_order (hproviders : index.providers = [])
    (hp : Alone site index options first p) (hq : Alone site index options second q)
    (horigin : p.origin ≠ q.origin) (hshare : ShareNoName p q) :
    ((Refused (secondAnswer site index options first second) ↔
        seen? (registrationsOf p) second = none ∧
          ((∃ option ∈ q.package.conflicts.flatten, Sees (atCheck [p] q) option) ∨
            ¬p.Tolerates q)) ∧
      (Refused (secondAnswer site index options second first) ↔
        seen? (registrationsOf q) first = none ∧
          ((∃ option ∈ p.package.conflicts.flatten, Sees (atCheck [q] p) option) ∨
            ¬q.Tolerates p))) ∧
    (Specific first → Specific second →
      (∀ name ∈ p.package.names ++ q.package.names, name.Plain) →
      (∀ option ∈ p.package.conflicts.flatten, Clear option q) →
      (∀ option ∈ q.package.conflicts.flatten, Clear option p) →
      (Refused (secondAnswer site index options first second) ↔
        Refused (secondAnswer site index options second first))) := by
  refine ⟨⟨second_refused_iff hproviders hp hq, second_refused_iff hproviders hq hp⟩, ?_⟩
  intro hfirst hsecond hplain hclearp hclearq
  have hplain' : ∀ name ∈ q.package.names ++ p.package.names, name.Plain := fun name hname =>
    hplain name (List.mem_append.2 (List.mem_append.1 hname).symm)
  have hshare' : ShareNoName q p := fun a ha b hb hsame => hshare b hb a ha hsame.symm
  calc Refused (secondAnswer site index options first second)
      ↔ (∃ option ∈ q.package.conflicts.flatten, p.satisfies option = true) ∨
          ∃ option ∈ p.package.conflicts.flatten, q.satisfies option = true :=
        second_refused_iff_of_clear hproviders hp hq horigin hshare hsecond hplain hclearq
    _ ↔ (∃ option ∈ p.package.conflicts.flatten, q.satisfies option = true) ∨
          ∃ option ∈ q.package.conflicts.flatten, p.satisfies option = true := or_comm
    _ ↔ Refused (secondAnswer site index options second first) :=
        (second_refused_iff_of_clear hproviders hq hp horigin.symm hshare' hfirst hplain'
          hclearp).symm

end

/-! ### Conflicts with an architecture and without -/

/-- A package for one architecture, one that conflicts with it on another architecture, and one that
conflicts with it on any. -/
def emulators : Index :=
  shelf [{ name := ⟨"alpine", "wine", "1", "i386", false⟩ },
    { name := ⟨"alpine", "box", "1", "", false⟩
      conflicts := [[⟨"alpine", "wine", "", "x86_64", false⟩]] },
    { name := ⟨"alpine", "qemu", "1", "", false⟩
      conflicts := [[⟨"alpine", "wine", "<2", "", false⟩]] }]

theorem emulators_alone :
    Alone {} emulators {} (.parse "wine") emulators.entries[0] ∧
      Alone {} emulators {} (.parse "box") emulators.entries[1] ∧
      Alone {} emulators {} (.parse "qemu") emulators.entries[2] :=
  ⟨⟨rfl, rfl⟩, ⟨rfl, rfl⟩, ⟨rfl, rfl⟩⟩

/-- The check against what is there does not look at the architecture, and the check of what was
there does. So the second of two requests is refused in one order and answered in the other. -/
theorem architecture_decides_by_order :
    ¬∀ site index options first second p q, index.providers = [] →
      Alone site index options first p → Alone site index options second q →
      p ∈ index.entries → q ∈ index.entries → p.origin ≠ q.origin → ShareNoName p q →
      (∀ option ∈ p.package.conflicts.flatten, p.satisfies option = false) →
      (∀ option ∈ q.package.conflicts.flatten, q.satisfies option = false) →
      (Refused (secondAnswer site index options first second) ↔
        Refused (secondAnswer site index options second first)) := by
  intro hsymmetric
  obtain ⟨hwine, hbox, -⟩ := emulators_alone
  have hshare : ShareNoName emulators.entries[0] emulators.entries[1] := by decide
  have horder := hsymmetric {} emulators {} (.parse "wine") (.parse "box") emulators.entries[0]
    emulators.entries[1] rfl hwine hbox (by decide) (by decide) (by decide) hshare (by decide)
    (by decide)
  obtain ⟨_, _, hrefused⟩ := horder.1 ⟨_, _, rfl⟩
  have hanswer : secondAnswer {} emulators {} (.parse "box") (.parse "wine") =
      .ok [emulators.entries[0]] := by rfl
  rw [hanswer] at hrefused
  cases hrefused

/-- The conflict on any architecture is found in either order. -/
theorem any_architecture_in_either_order :
    Refused (secondAnswer {} emulators {} (.parse "wine") (.parse "qemu")) ∧
      Refused (secondAnswer {} emulators {} (.parse "qemu") (.parse "wine")) := by
  obtain ⟨hwine, -, hqemu⟩ := emulators_alone
  have hshare : ShareNoName emulators.entries[0] emulators.entries[2] := by decide
  have horigin : emulators.entries[0].origin ≠ emulators.entries[2].origin := by decide
  have hclear : Clear ⟨"alpine", "wine", "<2", "", false⟩ emulators.entries[0] :=
    ⟨⟨by decide, by decide⟩, fun _ _ _ => rfl, by decide⟩
  have horder := (refused_in_either_order rfl hwine hqemu horigin hshare).2
    ⟨by decide, by decide⟩ ⟨by decide, by decide⟩ (by decide)
    (fun option hoption => by cases hoption)
    (fun option hoption => List.mem_singleton.1 hoption ▸ hclear)
  have hfirst : Refused (secondAnswer {} emulators {} (.parse "wine") (.parse "qemu")) :=
    ⟨_, _, rfl⟩
  exact ⟨hfirst, horder.1 hfirst⟩

end Planner

end Depot
