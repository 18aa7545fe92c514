import Depot.Proofs.Planner.Session

/-!
# The tables of a plan

A plan keeps three tables of names, and later entries and aliases replace what two of them say. In a
session they hold the registrations of what was picked (`Session.registered`), so each key of a
table comes from a registration and each registration has its keys (`Holds.mem_keys_installed_iff`
and its neighbours). Every change of a plan sets values one by one, which keeps the keys of each
table apart (`stable_apart`). Hence the tables of a session agree with each other and with the
entries that are installed (`tables_consistent`).
-/

namespace Depot

namespace Plan

/-- In each table every key has one place. -/
structure Apart (p : Plan) : Prop where
  installed : p.installed.Distinct
  installedEntries : p.installedEntries.Distinct
  bareNames : p.bareNames.Distinct

/-- The tables agree with each other and with the entries that were picked. -/
structure Consistent (p : Plan) : Prop where
  apart : p.Apart
  /-- A version is registered where an entry is. -/
  sameKeys : ∀ key, key ∈ p.installed.keys ↔ key ∈ p.installedEntries.keys
  /-- What is registered under a short name is a picked entry, by a name that it has, and the
  version of that name. -/
  registered : ∀ key ∈ p.installed.keys, ∃ e ∈ p.picked, ∃ name ∈ e.package.names,
    name.short = key ∧ p.installedEntries.get? key = some e ∧
      p.installed.get? key = some name.version
  /-- Every name of a picked entry is known, by its short name and by its bare name. -/
  named : ∀ e ∈ p.picked, ∀ name ∈ e.package.names,
    name.short ∈ p.installed.keys ∧ name.name ∈ p.bareNames.keys
  /-- A bare name stands for a short name that is registered. -/
  bareNames : ∀ short ∈ p.bareNames.values, short ∈ p.installed.keys
  /-- What was picked is installed, each entry as often. -/
  picked : p.picked.Perm p.packages

/-! ## Keys -/

namespace Holds

variable {p : Plan} {rs : List Registration} (h : p.Holds rs) {key : String}

include h

theorem mem_keys_installed_iff : key ∈ p.installed.keys ↔ ∃ r, latest? rs key = some r := by
  rw [Table.mem_keys_iff, h.installed]
  cases latest? rs key <;> simp

theorem mem_keys_installedEntries_iff :
    key ∈ p.installedEntries.keys ↔ ∃ r, latest? rs key = some r := by
  rw [Table.mem_keys_iff, h.installedEntries]
  cases latest? rs key <;> simp

theorem mem_keys_bareNames_iff : key ∈ p.bareNames.keys ↔ ∃ r, earliest? rs key = some r := by
  rw [Table.mem_keys_iff, h.bareNames]
  cases earliest? rs key <;> simp

/-- Where the keys of its table are apart, a bare name stands for the short name of a
registration. -/
theorem exists_of_mem_values (hapart : p.bareNames.Distinct) {short : String}
    (hshort : short ∈ p.bareNames.values) : ∃ r ∈ rs, r.name.short = short := by
  obtain ⟨bare, hbare⟩ := Table.exists_get?_of_mem_values hapart hshort
  rw [h.bareNames, Option.map_eq_some_iff] at hbare
  obtain ⟨r, hfirst, hname⟩ := hbare
  exact ⟨r, List.mem_of_find?_eq_some hfirst, hname⟩

end Holds

theorem short_of_latest? {rs : List Registration} {key : String} {r : Registration}
    (h : latest? rs key = some r) : r.name.short = key := by
  simpa using List.find?_some h

theorem Apart.register {p : Plan} (h : p.Apart) (e : Index.Entry) (name : Package.Name) :
    (p.register e name).Apart where
  installed := Table.distinct_insert h.installed _ _
  installedEntries := Table.distinct_insert h.installedEntries _ _
  bareNames := Table.distinct_insertNew h.bareNames _ _

theorem Apart.foldl_register {p : Plan} (h : p.Apart) (e : Index.Entry)
    (names : List Package.Name) : (names.foldl (Plan.register e) p).Apart := by
  induction names generalizing p with
  | nil => exact h
  | cons name rest ih => exact ih (h.register e name)

/-- Tables that hold the registrations of what was picked, with their keys apart, agree. -/
theorem Registered.consistent {p : Plan} (h : p.Registered) (hapart : p.Apart)
    (hperm : p.packages.Perm p.picked) : p.Consistent := by
  have hkeys (r : Registration) (hr : r ∈ registrations p.picked) :
      r.name.short ∈ p.installed.keys :=
    (Holds.mem_keys_installed_iff h).2 (latest?_isSome hr)
  refine ⟨hapart, ?_, ?_, ?_, ?_, hperm.symm⟩
  · intro key
    rw [Holds.mem_keys_installed_iff h, Holds.mem_keys_installedEntries_iff h]
  · intro key hkey
    obtain ⟨r, hlatest⟩ := (Holds.mem_keys_installed_iff h).1 hkey
    obtain ⟨hentry, hname⟩ := mem_registrations_iff.1 (mem_of_latest? hlatest)
    refine ⟨r.entry, hentry, r.name, hname, short_of_latest? hlatest, ?_, ?_⟩
    · rw [h.installedEntries, hlatest, Option.map_some]
    · rw [h.installed, hlatest, Option.map_some]
  · intro e he name hname
    have hr : (⟨name, e⟩ : Registration) ∈ registrations p.picked :=
      mem_registrations_iff.2 ⟨he, hname⟩
    exact ⟨hkeys _ hr, (Holds.mem_keys_bareNames_iff h).2 (earliest?_isSome hr)⟩
  · intro short hshort
    obtain ⟨r, hr, rfl⟩ := Holds.exists_of_mem_values h hapart.bareNames hshort
    exact hkeys r hr

end Plan

namespace Planner

theorem stable_apart (site : Site) : Stable site fun t => t.plan.Apart where
  search := id
  connect := fun h => ⟨h.installed, h.installedEntries, h.bareNames⟩
  introduce := fun {t e} h => h.register e e.name
  pick := fun {t e} h _ => by
    have hpicked : ({ t.plan with picked := t.plan.picked ++ [e] } : Plan).Apart :=
      ⟨h.installed, h.installedEntries, h.bareNames⟩
    exact hpicked.foldl_register e e.package.aliases
  install := fun h => ⟨h.installed, h.installedEntries, h.bareNames⟩

theorem Session.apart {s : Planner} {journal : List Recording} (h : Session s journal) :
    s.plan.Apart := by
  refine h.of_stable (P := Plan.Apart) (fun options => ?_) stable_apart (fun image hp => ?_)
  · exact ⟨List.nodup_nil, List.nodup_nil, List.nodup_nil⟩
  · exact ⟨hp.installed, hp.installedEntries, hp.bareNames⟩

/-- Whatever requests a plan has seen, answered or refused, its tables agree. The same short names
lead to versions and to entries. Under each of them is a picked entry that has a name with this
short name and this version, every name of a picked entry is found by its short name and its bare
name, bare names stand for registered short names, and the picked entries are the installed ones. -/
theorem tables_consistent {s : Planner} {journal : List Recording} (h : Session s journal) :
    s.plan.Consistent := by
  have hregistered : s.plan.Registered := h.registered
  exact hregistered.consistent h.apart h.perm

/-! ### An alias that changes hands -/

/-- Two packages under one alias and, of another distribution, one with the same bare alias that
needs something missing. -/
def smtpServers : Index :=
  shelf [{ name := ⟨"alpine", "postfix", "1", "", false⟩
           aliases := [⟨"alpine", "smtp", "3", "", false⟩] },
    { name := ⟨"debian", "exim", "1", "", false⟩
      aliases := [⟨"debian", "smtp", "4", "", false⟩, ⟨"alpine", "smtp", "4", "", false⟩]
      depends := [[⟨"debian", "missing", "", "", false⟩]] },
    { name := ⟨"alpine", "nullmailer", "1", "", false⟩
      aliases := [⟨"alpine", "smtp", "1", "", false⟩] }]

/-- The planner after requests for the three packages, of which the second fails. -/
def twoServers : Planner :=
  ((fresh smtpServers {}).serve {} [.parse "postfix", .parse "exim", .parse "nullmailer"]).1

/-- The alias has come to the last package, and the bare alias still leads to it. The package that
failed has left nothing, although it had taken the alias over by then. -/
theorem tables_consistent_smtp :
    (∃ journal, Session twoServers journal) ∧ twoServers.plan.Consistent ∧
      (∃ failure, ((fresh smtpServers {}).serve {}
        [.parse "postfix", .parse "exim", .parse "nullmailer"]).2[1]? = some (.error failure)) ∧
      twoServers.plan.installedEntries.get? "alpine/smtp" = some smtpServers.entries[2] ∧
      twoServers.plan.installed.get? "alpine/smtp" = some "1" ∧
      twoServers.plan.bareNames.get? "smtp" = some "alpine/smtp" ∧
      "debian/smtp" ∉ twoServers.plan.installed.keys := by
  obtain ⟨journal, hsession⟩ := (Session.fresh smtpServers {}).serve {}
    [.parse "postfix", .parse "exim", .parse "nullmailer"]
  refine ⟨⟨journal, hsession⟩, tables_consistent hsession, ⟨_, rfl⟩, ?_, ?_, ?_, ?_⟩
  · decide
  · decide
  · decide
  · decide

end Planner

end Depot
