import Mathlib.Data.List.Induction
import Depot.Proofs.Fetch.Coherence
import Depot.Proofs.Package.Identity

/-!
# What a fetch leaves in the archive

Filing packages one after the other leaves under each path the last one that has it (`get_putAll`),
and two packages have one path if the parts of their names fall into the same pieces at slashes
(`pathOf_eq_iff`). So after a fetch that went well the archive has some loaded package under the
path of each, and it has all of them exactly if different ones have different paths
(`archive_of_fetch`). A version with a slash in it is enough to lose one (`below_repository_lost`).
-/

namespace Depot

namespace Archive

variable {a : Archive} {p q : Package} {packages : List Package} {path : String}

theorem pathOf_eq_iff : pathOf p = pathOf q ↔ p.name.pieces = q.name.pieces :=
  Text.intercalate_eq_intercalate_iff rfl (by simp [Package.Name.path])
    (by simp [Package.Name.path])

/-- The last of the packages that have a path. -/
def last? (path : String) (packages : List Package) : Option Package :=
  packages.reverse.find? fun p => pathOf p == path

theorem last?_eq_none_iff : last? path packages = none ↔ ∀ p ∈ packages, pathOf p ≠ path := by
  simp [last?]

theorem last?_eq_some_iff : last? path packages = some q ↔ ∃ front back,
    packages = front ++ q :: back ∧ pathOf q = path ∧ ∀ r ∈ back, pathOf r ≠ path := by
  rw [last?, List.find?_eq_some_iff_append]
  constructor
  · rintro ⟨hq, back, front, hsplit, hback⟩
    refine ⟨front.reverse, back.reverse, ?_, by simpa using hq, by simpa using hback⟩
    simpa using congrArg List.reverse hsplit
  · rintro ⟨front, back, rfl, hq, hback⟩
    exact ⟨by simpa using hq, back.reverse, front.reverse, by simp, by simpa using hback⟩

theorem get?_foldl_insert (packages : List Package) (t : Table String String) :
    (packages.foldl (fun t p => t.insert (pathOf p) p.text) t).get? path =
      ((last? path packages).map Package.text).or (t.get? path) := by
  induction packages using List.reverseRecOn with
  | nil => rfl
  | append_singleton front p ih =>
    rw [List.foldl_concat, Table.get?_insert, ih]
    by_cases hp : pathOf p = path
    · simp [last?, hp]
    · simp [last?, hp, Ne.symm hp]

/-- Filing packages leaves the last one of each path there, and the other paths as they were. -/
theorem get_putAll (a : Archive) (packages : List Package) (path : String) :
    (a.putAll packages).get path = match last? path packages with
      | some p => .ok (some p)
      | none => a.get path := by
  unfold get
  rw [putAll, get?_foldl_insert]
  cases last? path packages with
  | none => rfl
  | some p => simp [Package.ofText?_text]

end Archive

namespace Fetch.Fetcher

open Archive (pathOf)

variable {f : Fetcher} {store : Store} {force : Bool} {a : Archive}

theorem archive_eq_of_fetch (harchive : store.archive = some a)
    (hok : (f.fetch store force).2.2 = .ok ()) :
    (f.fetch store force).2.1.archive = some (a.putAll (f.fetch store force).1.packages) := by
  obtain ⟨calls, log, files, ⟨e, hfetch⟩ | ⟨packages, hfetch⟩⟩ := f.fetch_cases store force
  · rw [hfetch] at hok
    cases hok
  · rw [hfetch]
    simp [archived, withFiles, harchive, loaded]

/-- After a fetch that went well, the archive has under the path of a loaded package the last loaded
one with that path, so it has all of them exactly if no two different ones have one path. Under
other paths it has what it had before. Two packages have one path if their names fall into the same
pieces at slashes; without slashes, if they are the same up to the release `latest`. -/
theorem archive_of_fetch (f : Fetcher) (store : Store) (force : Bool) (a : Archive)
    (harchive : store.archive = some a) (hok : (f.fetch store force).2.2 = .ok ()) :
    let loaded := (f.fetch store force).1.packages
    ∃ a', (f.fetch store force).2.1.archive = some a' ∧
      (∀ p ∈ loaded, ∃ front q back, loaded = front ++ q :: back ∧ pathOf q = pathOf p ∧
        (∀ r ∈ back, pathOf r ≠ pathOf p) ∧ a'.get (pathOf p) = .ok (some q)) ∧
      ((∀ p ∈ loaded, a'.get (pathOf p) = .ok (some p)) ↔
        ∀ p ∈ loaded, ∀ q ∈ loaded, pathOf p = pathOf q → p = q) ∧
      (∀ path, (∀ p ∈ loaded, pathOf p ≠ path) → a'.get path = a.get path) ∧
      ∀ p ∈ loaded, ∀ q ∈ loaded, (pathOf p = pathOf q ↔ p.name.pieces = q.name.pieces) ∧
        (p.name.Whole → q.name.Whole → (pathOf p = pathOf q ↔
          p.name.name = q.name.name ∧ p.name.version = q.name.version ∧
            p.name.architecture = q.name.architecture ∧
            (p.name.distribution = q.name.distribution ∨ p.name.LatestOf q.name ∨
              q.name.LatestOf p.name))) := by
  intro loaded
  have hlast (p : Package) (hp : p ∈ loaded) : ∃ q, Archive.last? (pathOf p) loaded = some q ∧
      (a.putAll loaded).get (pathOf p) = .ok (some q) := by
    obtain ⟨q, hq⟩ := Option.ne_none_iff_exists'.1 fun hnone =>
      Archive.last?_eq_none_iff.1 hnone p hp rfl
    exact ⟨q, hq, by rw [Archive.get_putAll, hq]⟩
  refine ⟨_, archive_eq_of_fetch harchive hok, fun p hp => ?_, ⟨fun hall p hp q hq hpath => ?_,
    fun hinj p hp => ?_⟩, fun path hpath => ?_, fun p _ q _ => ⟨Archive.pathOf_eq_iff,
    fun hp hq => Archive.pathOf_eq_iff.trans (Package.Name.pieces_eq_iff hp hq)⟩⟩
  · obtain ⟨q, hq, hget⟩ := hlast p hp
    obtain ⟨front, back, hsplit, hpath, hback⟩ := Archive.last?_eq_some_iff.1 hq
    exact ⟨front, q, back, hsplit, hpath, hback, hget⟩
  · have hget := (hall p hp).symm.trans (hpath ▸ hall q hq)
    exact Option.some.inj (Except.ok.inj hget)
  · obtain ⟨q, hq, hget⟩ := hlast p hp
    obtain ⟨front, back, hsplit, hpath, -⟩ := Archive.last?_eq_some_iff.1 hq
    rw [hget, hinj p hp q (by rw [hsplit]; simp) hpath.symm]
  · rw [Archive.get_putAll, Archive.last?_eq_none_iff.2 hpath]

/-! ### A version with a slash -/

/-- A version below a directory of a repository. -/
def belowRepository : Package := { name := ⟨"go", "example.com/repo", "sub/v1", "", false⟩ }

/-- A version of the directory as a repository of its own. -/
def ownRepository : Package := { name := ⟨"go", "example.com/repo/sub", "v1", "", false⟩ }

/-- A fetcher that loads both. -/
def repositories : Fetcher where
  decl := ⟨"list", "go", []⟩
  source :=
    { fetch := fun _ => .add belowRepository fun _ => .add ownRepository fun _ => .done }

/-- A store with an empty cache and an empty archive. -/
def archiving : Store := { emptyStore with archive := some {} }

theorem fetch_repositories : ∃ f store,
    repositories.fetch archiving false = (f, store, .ok ()) ∧
      f.packages = [belowRepository, ownRepository] := by
  have hempty : repositories.Coherent archiving none :=
    ⟨(emptyStore_coherent repositories).free, (emptyStore_coherent repositories).held⟩
  obtain ⟨p, q, hready⟩ : ∃ p q, Cache.Ready archiving.site.files
      (repositories.entryPath archiving) p q := emptyStore_ready repositories
  obtain ⟨files, -, -, -, hfetch⟩ := fetch_of_done hready (hempty.due_of_none false) rfl
  exact ⟨_, _, hfetch, rfl⟩

/-- A loaded package may be missing from the archive. -/
theorem below_repository_lost :
    ¬∀ (f : Fetcher) (store : Store) (force : Bool) (a a' : Archive), store.archive = some a →
      (f.fetch store force).2.2 = .ok () → (f.fetch store force).2.1.archive = some a' →
        ∀ p ∈ (f.fetch store force).1.packages, a'.get (pathOf p) = .ok (some p) := by
  intro hall
  obtain ⟨f, store, hfetch, hpackages⟩ := fetch_repositories
  have hok : (repositories.fetch archiving false).2.2 = .ok () := by rw [hfetch]
  have harchive := archive_eq_of_fetch rfl hok
  have hget := hall repositories archiving false {} _ rfl hok harchive belowRepository
    (by simp [hfetch, hpackages])
  have hlast : Archive.last? (pathOf belowRepository) [belowRepository, ownRepository] =
      some ownRepository := by
    decide
  rw [Archive.get_putAll, hfetch, hpackages, hlast] at hget
  have hname := congrArg (fun p => p.name.version) (Option.some.inj (Except.ok.inj hget))
  exact absurd hname (by decide)

theorem repositories_archived : ∃ a', archiving.archive = some {} ∧
    (repositories.fetch archiving false).2.2 = .ok () ∧
      (repositories.fetch archiving false).2.1.archive = some a' ∧
      a'.get "example.com/repo/sub/v1/go/latest/" = .ok (some ownRepository) ∧
      a'.get "musl/1/go/latest/" = .ok none := by
  obtain ⟨f, store, hfetch, hpackages⟩ := fetch_repositories
  have hok : (repositories.fetch archiving false).2.2 = .ok () := by rw [hfetch]
  obtain ⟨a', harchive, hlast, -, hother, -⟩ :=
    archive_of_fetch repositories archiving false {} rfl hok
  rw [hfetch] at hlast hother
  simp only [hpackages] at hlast hother
  refine ⟨a', rfl, hok, harchive, ?_, hother _ (by decide)⟩
  obtain ⟨front, q, back, hsplit, -, hback, hget⟩ := hlast ownRepository (by simp)
  cases front with
  | nil =>
    -- the first one is not the last with its path
    obtain ⟨-, rfl⟩ := List.cons.inj hsplit
    exact absurd rfl (hback ownRepository (by simp))
  | cons first front =>
    obtain ⟨-, -, rfl, -⟩ :
        belowRepository = first ∧ front = [] ∧ q = ownRepository ∧ back = [] := by
      simpa [List.cons_eq_append_iff] using hsplit
    exact hget

end Fetch.Fetcher

end Depot
