import Depot.Fetch.Fetcher
import Depot.Proofs.Cache.Entry
import Depot.Proofs.Digest.Name

/-!
# One call of a fetcher

A call is due if it is forced or if the fetcher has no fresh entry (`Due`). It is one of four: a
call that is not due loads what the entry holds (`fetch_of_not_due`), a call that is due but cannot
create the temporary file of the entry fails before it asks the source (`fetch_of_blocked`), a call
whose source fails leaves the entry alone (`fetch_of_failed`), and a call whose source ends well
writes the packages that the source has recorded into the entry and loads them from there
(`fetch_of_done`).
-/

namespace Depot.Fetch.Fetcher

variable {f : Fetcher} {store : Store} {force : Bool} {p q : Path} {packages : List Package}

/-- The bytes of an entry with these packages. -/
def records (packages : List Package) : ByteArray :=
  (Cache.linesOf (packages.map Package.text)).toUTF8

theorem records_inj {packages' : List Package} :
    records packages = records packages' ↔ packages = packages' := by
  refine ⟨fun h => ?_, fun h => by rw [h]⟩
  have hread := Cache.readObjects_records packages
  rw [← records, h, records, Cache.readObjects_records] at hread
  exact (Prod.mk.inj hread).1.symm

/-- Has a call to ask the source? It has to if it is forced, or else if the fetcher has no entry
that is younger than the store allows and not from the future. -/
def Due (f : Fetcher) (store : Store) (force : Bool) : Prop :=
  force = true ∨
    ¬∃ age, store.site.files.age? (f.entryPath store) = some age ∧ 0 ≤ age ∧ age < store.ttl

/-- The temporary file of the entry can be created. -/
def Startable (f : Fetcher) (store : Store) : Prop :=
  ∃ started, store.site.files.write (Cache.temporary (f.entryPath store)) .empty = .ok started

/-- What the source does if it is asked now, and with which end. -/
def sourceRun (f : Fetcher) (store : Store) : Handle × Outcome Unit :=
  let files := Cache.underway store.site.files (f.entryPath store)
  (f.source.fetch ⟨{ store.site with files }, f.calls, f.decl⟩).run { decl := f.decl }

/-- The store with other files. -/
def withFiles (store : Store) (files : Files) : Store :=
  { store with site := { store.site with files } }

/-- The store with its archive, if it has one, filled with some packages. -/
def archived (store : Store) (packages : List Package) : Store :=
  { store with archive := store.archive.map (·.putAll packages) }

/-- The fetcher while its source is asked. -/
def asking (f : Fetcher) : Fetcher := { f.start with calls := f.calls + 1 }

section Fields

variable (f : Fetcher) (log : Option Log) (packages : List Package) (e : Failure)

@[simp] theorem start_calls : f.start.calls = f.calls := rfl
@[simp] theorem start_entryPath (store : Store) : f.start.entryPath store = f.entryPath store := rfl
@[simp] theorem asking_calls : f.asking.calls = f.calls + 1 := rfl
@[simp] theorem failed_calls : (f.failed log e).calls = f.calls := rfl
@[simp] theorem loaded_calls : (f.loaded log packages).calls = f.calls := rfl
@[simp] theorem loaded_packages : (f.loaded log packages).packages = packages := rfl

end Fields

theorem slash_not_mem_key (f : Fetcher) : '/' ∉ f.key.toList :=
  fun h => absurd (Digest.value?_of_mem_ofText h) (by decide)

/-- The name of an entry never gets too long, and its path only by that of the directory. -/
theorem fits_key (f : Fetcher) {c : Cache} (h : c.directory.utf8ByteSize ≤ 4000) :
    c.Fits f.key recordVersion := by
  have hkey : f.key.utf8ByteSize = 64 := Digest.utf8ByteSize_ofText _
  have hname : (Cache.entryName f.key recordVersion ++ ".tmp").utf8ByteSize = 74 := by
    simp only [Cache.entryName, String.utf8ByteSize_append, hkey]
    decide
  refine ⟨?_, by omega, ?_⟩
  · rw [Cache.temporary_eq f.slash_not_mem_key, String.utf8ByteSize_append,
      String.utf8ByteSize_append, hname]
    have : "/".utf8ByteSize = 1 := by decide
    omega
  · have hnul : Char.ofNat 0 ∉ f.key.toList :=
      fun h => absurd (Digest.value?_of_mem_ofText h) (by decide)
    simp only [Cache.entryName, String.toList_append, List.mem_append, hnul, false_or]
    decide

theorem due_iff :
    f.Due store force ↔ Cache.isFresh store.site.files (f.entryPath store)
      (if force then 0 else store.ttl) = false := by
  unfold Due
  cases force with
  | true => simp [Cache.not_isFresh_zero]
  | false =>
    simp only [Bool.false_eq_true, false_or, if_false, ← Cache.isFresh_iff, Bool.not_eq_true]

/-- A temporary file takes a directory to be created in, in which no directory has its name, and a
path that is not too long. -/
theorem startable_iff :
    f.Startable store ↔ store.cache.Fits f.key recordVersion ∧
      ∃ d, store.site.files.locate store.cache.directory = .ok d ∧
        store.site.files.requireDir d = .ok () ∧
        store.site.files.requireDir (d ++ [Cache.entryName f.key recordVersion ++ ".tmp"]) ≠
          .ok () := by
  have hslash : '/' ∉ (Cache.entryName f.key recordVersion ++ ".tmp").toList := by
    simp [Cache.slash_not_mem_entryName f.slash_not_mem_key]
  unfold Startable
  constructor
  · rintro ⟨started, hwrite⟩
    obtain ⟨q, hlocate, hplace, -⟩ := Files.write_eq_ok_iff.1 hwrite
    obtain ⟨hfits, d, hd, hdir, rfl⟩ := (Cache.locate_temporary_iff f.slash_not_mem_key).1 hlocate
    exact ⟨hfits, d, hd, hdir, hplace.free⟩
  · rintro ⟨hfits, d, hd, hdir, hfree⟩
    refine ⟨_, Files.write_eq_ok_iff.2 ⟨_, ?_, ⟨hfree, ?_⟩, rfl⟩⟩
    · exact (Cache.locate_temporary_iff f.slash_not_mem_key).2 ⟨hfits, d, hd, hdir, rfl⟩
    · rwa [Files.parent_concat hslash]

/-- Where the temporary file can be created, the entry can be written, if no directory is in its
place. -/
theorem Startable.ready (h : f.Startable store)
    (hfree : store.site.files.Free (f.entryPath store)) :
    ∃ p q, Cache.Ready store.site.files (f.entryPath store) p q := by
  obtain ⟨started, hwrite⟩ := h
  exact Cache.exists_ready hwrite hfree

theorem produce_eq (f : Fetcher) (store : Store) :
    f.start.produce store.site (Cache.underway store.site.files (f.entryPath store)) =
      ⟨records (f.sourceRun store).1.packages, (f.sourceRun store).2,
        (f.sourceRun store).1.log⟩ :=
  rfl

/-- Every call fails or loads some packages, whatever the store is like. -/
theorem fetch_cases (f : Fetcher) (store : Store) (force : Bool) :
    ∃ calls log files,
      (∃ e, f.fetch store force =
        (Fetcher.failed { f.start with calls } log e, withFiles store files,
          .error (f.failure e))) ∨
      (∃ packages, f.fetch store force =
        (Fetcher.loaded { f.start with calls } log packages,
          archived (withFiles store files) packages, .ok ())) := by
  unfold fetch
  simp only []
  generalize Cache.openEntry _ _ _ _ = opened
  refine ⟨f.calls + if opened.report.isSome then 1 else 0, opened.report, opened.files, ?_⟩
  rcases Cache.readObjects _ _ _ opened.contents with ⟨packages, e | u⟩
  · exact .inl ⟨e, rfl⟩
  · exact .inr ⟨packages, rfl⟩

theorem fetch_decl (f : Fetcher) (store : Store) (force : Bool) :
    (f.fetch store force).1.decl = f.decl := by
  obtain ⟨_, _, _, ⟨_, h⟩ | ⟨_, h⟩⟩ := f.fetch_cases store force <;> rw [h] <;> rfl

theorem fetch_source (f : Fetcher) (store : Store) (force : Bool) :
    (f.fetch store force).1.source = f.source := by
  obtain ⟨_, _, _, ⟨_, h⟩ | ⟨_, h⟩⟩ := f.fetch_cases store force <;> rw [h] <;> rfl

theorem fetch_cache (f : Fetcher) (store : Store) (force : Bool) :
    (f.fetch store force).2.1.cache = store.cache := by
  obtain ⟨_, _, _, ⟨_, h⟩ | ⟨_, h⟩⟩ := f.fetch_cases store force <;> rw [h] <;> rfl

theorem fetch_ttl (f : Fetcher) (store : Store) (force : Bool) :
    (f.fetch store force).2.1.ttl = store.ttl := by
  obtain ⟨_, _, _, ⟨_, h⟩ | ⟨_, h⟩⟩ := f.fetch_cases store force <;> rw [h] <;> rfl

theorem fetch_entryPath (f : Fetcher) (store : Store) (force : Bool) :
    (f.fetch store force).1.entryPath (f.fetch store force).2.1 = f.entryPath store := by
  unfold entryPath key
  rw [fetch_decl, fetch_cache]

theorem fetch_of_not_due (hdue : ¬f.Due store force)
    (hheld : Cache.held store.site.files (f.entryPath store) = some (records packages)) :
    f.fetch store force = (f.start.loaded none packages, archived store packages, .ok ()) := by
  rw [due_iff, Bool.not_eq_false] at hdue
  have hopen := Cache.openEntry_fresh (f.start.produce store.site) hdue hheld
  unfold fetch
  simp only [start_entryPath, hopen, records, Cache.readObjects_records]
  rfl

theorem fetch_of_blocked (hdue : f.Due store force) (hblocked : ¬f.Startable store) :
    ∃ files e, f.fetch store force =
      (f.start.failed none e, withFiles store files, .error (f.failure e)) := by
  rw [due_iff] at hdue
  cases hwrite : store.site.files.write (Cache.temporary (f.entryPath store)) .empty with
  | ok started => exact absurd ⟨started, hwrite⟩ hblocked
  | error e =>
    have hopen := Cache.openEntry_of_unwritable (f.start.produce store.site) hdue hwrite
    refine ⟨Cache.discard store.site.files (Cache.temporary (f.entryPath store)), .ofPath e, ?_⟩
    unfold fetch
    simp only [start_entryPath, hopen, Cache.readObjects]
    rfl

theorem fetch_of_failed (hready : Cache.Ready store.site.files (f.entryPath store) p q)
    (hdue : f.Due store force) {e : Failure} (hfail : (f.sourceRun store).2 = .error e) :
    ∃ files, store.site.files.SameBut [q] files ∧
      f.fetch store force =
        (f.asking.failed (some (f.sourceRun store).1.log) e, withFiles store files,
          .error (f.failure e)) := by
  rw [due_iff] at hdue
  obtain ⟨files, hopen, hsame, -⟩ :=
    Cache.openEntry_failed (f.start.produce store.site) hready hdue hfail
  refine ⟨files, hsame, ?_⟩
  rw [produce_eq] at hopen
  unfold fetch
  simp only [start_entryPath, hopen, Cache.readObjects]
  rfl

theorem fetch_of_done (hready : Cache.Ready store.site.files (f.entryPath store) p q)
    (hdue : f.Due store force) (hdone : (f.sourceRun store).2 = .ok ()) :
    ∃ files, store.site.files.SameBut [p, q] files ∧
      files.age? (f.entryPath store) = some 0 ∧
      Cache.held files (f.entryPath store) = some (records (f.sourceRun store).1.packages) ∧
      f.fetch store force =
        (f.asking.loaded (some (f.sourceRun store).1.log) (f.sourceRun store).1.packages,
          archived (withFiles store files) (f.sourceRun store).1.packages, .ok ()) := by
  rw [due_iff] at hdue
  obtain ⟨files, hopen, hsame, hfile, -⟩ :=
    Cache.openEntry_published (f.start.produce store.site) hready hdue hdone
  have hafter := hready.after hsame
  refine ⟨files, hsame, ?_, ?_, ?_⟩
  · rw [Files.age?_eq hafter.entry hafter.place, hfile]
    rfl
  · rw [hafter.held_eq, hfile]
    rfl
  · rw [produce_eq] at hopen
    unfold fetch
    simp only [start_entryPath, hopen, records, Cache.readObjects_records]
    rfl

end Depot.Fetch.Fetcher
