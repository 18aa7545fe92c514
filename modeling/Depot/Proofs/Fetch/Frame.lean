import Depot.Proofs.Cache.Frame
import Depot.Proofs.Fetch.Call

/-!
# What a call looks at

A call that goes well looks at its own entry and temporary file, at the directories and at what its
source sees, and at no other file (`fetch_frame`, from `Cache.openEntry_frame`). So it goes the same
way whatever has happened to the entries of other fetchers, if these have other keys (`spots_apart`)
and mean nothing to its source (`Unmoved`). A source of index files is such a source as long as none
of these files is an entry (`unmoved_of_index_files`). Whatever becomes of a call, it changes no
other file (`sameBut_fetch`), and a call that fails does not change the entry (`fileOf?_of_failed`).
-/

namespace Depot.Fetch.Fetcher

variable {f g : Fetcher} {store : Store} {force : Bool} {paths : List Path} {files : Files}
  {p : Path}

/-- The places of the fetcher's entry and of its temporary file. -/
def spots (f : Fetcher) (store : Store) : List Path :=
  Cache.spots store.site.files (f.entryPath store)

/-- What the source does if it is asked does not depend on the files at some places. -/
def Unmoved (f : Fetcher) (site : Site) (paths : List Path) : Prop :=
  ∀ files, site.files.SameBut paths files →
    f.source.fetch ⟨{ site with files }, f.calls, f.decl⟩ = f.source.fetch ⟨site, f.calls, f.decl⟩

theorem Unmoved.produce_eq {files₁ files₂ : Files} (h : f.Unmoved store.site paths)
    (h₁ : store.site.files.SameBut paths files₁) (h₂ : store.site.files.SameBut paths files₂)
    (files : Files) :
    f.start.produce (withFiles store files).site files₂ = f.start.produce store.site files₁ := by
  have hscript : f.start.source.fetch ⟨{ store.site with files := files₂ }, f.start.calls,
      f.start.decl⟩ = f.start.source.fetch ⟨{ store.site with files := files₁ }, f.start.calls,
        f.start.decl⟩ := (h files₂ h₂).trans (h files₁ h₁).symm
  simp only [produce, withFiles, hscript]

theorem Unmoved.mono {site : Site} {paths' : List Path} (h : f.Unmoved site paths)
    (hsub : paths' ⊆ paths) : f.Unmoved site paths' :=
  fun files hfiles => h files (hfiles.mono hsub)

theorem Unmoved.withFiles (h : f.Unmoved store.site paths)
    (hfiles : store.site.files.SameBut paths files) :
    f.Unmoved (withFiles store files).site paths := fun files' hfiles' =>
  (h files' ((hfiles.trans hfiles').mono (by simp))).trans (h files hfiles).symm

theorem spots_withFiles (hfiles : store.site.files.SameBut paths files) :
    f.spots (Fetcher.withFiles store files) = f.spots store :=
  Cache.spots_eq_of_sameBut hfiles (f.entryPath store)

theorem archived_eq_self (h : store.archive = none) (packages : List Package) :
    archived store packages = store := by
  unfold archived
  rw [h, Option.map_none, ← h]

/-- The entry opened by a call. -/
def opened (f : Fetcher) (store : Store) (force : Bool) : Cache.Opened Log :=
  Cache.openEntry store.site.files (f.entryPath store) (if force then 0 else store.ttl)
    (f.start.produce store.site)

theorem exists_contents_of_ok (h : (f.fetch store force).2.2 = .ok ()) :
    ∃ bytes packages, (f.opened store force).contents = .ok bytes ∧
      Cache.readObjects Package.ofJson? (fun ps p => .ok (ps ++ [p])) [] (.ok bytes) =
        (packages, .ok ()) := by
  unfold fetch at h
  simp only [] at h
  generalize hopened : Cache.openEntry _ _ _ _ = opened at h
  have hopened' : f.opened store force = opened := hopened
  rw [hopened']
  cases hcontents : opened.contents with
  | error e => simp [hcontents, Cache.readObjects] at h
  | ok bytes =>
    rw [hcontents] at h
    rcases hread : Cache.readObjects Package.ofJson? (fun ps p => .ok (ps ++ [p])) [] (.ok bytes)
      with ⟨packages, e | u⟩
    · simp [hread] at h
    · exact ⟨bytes, packages, rfl, hread⟩

/-- A call that was due and went well has written the entry. -/
theorem ready_of_ok (hdue : f.Due store force) (h : (f.fetch store force).2.2 = .ok ()) :
    (∃ p q, Cache.Ready store.site.files (f.entryPath store) p q) ∧
      (f.sourceRun store).2 = .ok () := by
  obtain ⟨bytes, -, hcontents, -⟩ := exists_contents_of_ok h
  exact Cache.ready_of_contents rfl (due_iff.1 hdue) hcontents

theorem fetch_of_opened {report : Option Log} {contents : Outcome ByteArray}
    {packages : List Package} (hopened : f.opened store force = ⟨files, report, contents⟩)
    (hread : Cache.readObjects Package.ofJson? (fun ps p => .ok (ps ++ [p])) [] contents =
      (packages, .ok ())) (harchive : store.archive = none) :
    f.fetch store force =
      (Fetcher.loaded { f.start with calls := f.calls + if report.isSome then 1 else 0 } report
          packages,
        withFiles store files, .ok ()) := by
  have harchive' : (withFiles store files).archive = none := harchive
  have hstore := archived_eq_self harchive' packages
  unfold Fetcher.opened at hopened
  rw [← hstore]
  unfold fetch
  simp only [start_entryPath, hopened, hread]
  rfl

/-- A call that goes well goes the same way when other files have changed, and leaves its own files
in the same state. -/
theorem fetch_frame (store : Store) (hsame : store.site.files.SameBut paths files)
    (hapart : ∀ p ∈ f.spots store, p ∉ paths)
    (hunmoved : f.Unmoved store.site (paths ++ f.spots store)) (harchive : store.archive = none)
    (hok : (f.fetch store force).2.2 = .ok ()) :
    ∃ before after,
      f.fetch store force = ((f.fetch store force).1, withFiles store before, .ok ()) ∧
      f.fetch (withFiles store files) force =
        ((f.fetch store force).1, withFiles store after, .ok ()) ∧
      store.site.files.SameBut (f.spots store) before ∧ files.SameBut (f.spots store) after ∧
      ∀ p ∈ f.spots store, after.file? p = before.file? p := by
  obtain ⟨bytes, packages, hcontents, hread⟩ := exists_contents_of_ok hok
  have hunder := Cache.sameBut_underway store.site.files (f.entryPath store)
  have hunder' := Cache.sameBut_underway files (f.entryPath store)
  rw [Cache.spots_eq_of_sameBut hsame] at hunder'
  have hproduce := hunmoved.produce_eq (hunder.mono (List.subset_append_right _ _))
    (hsame.trans hunder') files
  obtain ⟨after, hopen, hbefore, hafter, halike⟩ :=
    Cache.openEntry_frame rfl hsame hapart hproduce hcontents
  have hopened : f.opened store force =
      ⟨(f.opened store force).files, (f.opened store force).report, .ok bytes⟩ := by
    rw [← hcontents]
  have hfetch := fetch_of_opened hopened hread harchive
  have hfetch' : f.fetch (withFiles store files) force = _ := fetch_of_opened hopen hread harchive
  rw [hfetch]
  exact ⟨_, after, rfl, hfetch', hbefore, hafter, halike⟩

/-! ## Calls that fail -/

theorem fetch_files (f : Fetcher) (store : Store) (force : Bool) :
    (f.fetch store force).2.1.site.files = (f.opened store force).files := by
  unfold fetch
  simp only []
  generalize hopened : Cache.openEntry _ _ _ _ = opened
  have hopened' : f.opened store force = opened := hopened
  rw [hopened']
  rcases Cache.readObjects _ _ _ opened.contents with ⟨packages, e | u⟩
  · rfl
  · rfl

/-- Every call produces the entry anew or changes no more than its temporary file. -/
theorem fetch_produces_or_spares (f : Fetcher) (store : Store) (force : Bool) :
    (∃ p q, Cache.Ready store.site.files (f.entryPath store) p q ∧
        store.site.files.SameBut [p, q] (f.fetch store force).2.1.site.files ∧
        (f.fetch store force).2.2 = .ok ()) ∨
      store.site.files.SameBut
        (store.site.files.locate (Cache.temporary (f.entryPath store))).toOption.toList
        (f.fetch store force).2.1.site.files := by
  have hpath : f.entryPath store = store.cache.entryPath f.key recordVersion := rfl
  rcases Cache.openEntry_cases hpath f.slash_not_mem_key (if force then 0 else store.ttl)
      (f.start.produce store.site) with ⟨p, q, hready, hstale, hdone⟩ | hsame
  · obtain ⟨files, hsame, -, -, hfetch⟩ := fetch_of_done hready (due_iff.2 hstale) hdone
    rw [hfetch]
    exact .inl ⟨p, q, hready, hsame, rfl⟩
  · rw [fetch_files]
    exact .inr hsame

theorem sameBut_fetch (f : Fetcher) (store : Store) (force : Bool) :
    store.site.files.SameBut (f.spots store) (f.fetch store force).2.1.site.files := by
  rw [fetch_files]
  exact Cache.sameBut_openEntry rfl f.slash_not_mem_key _ _

/-- Calls leave the directories alone, and with them whether temporary files can be created. -/
theorem startable_fetch_iff (f g : Fetcher) (store : Store) (force : Bool) :
    g.Startable (f.fetch store force).2.1 ↔ g.Startable store := by
  have hsame := f.sameBut_fetch store force
  rw [startable_iff, startable_iff, f.fetch_cache store force]
  simp only [hsame.locate_eq_ok_iff, hsame.dirs, Ne]

theorem fileOf?_of_failed (h : (f.fetch store force).2.2 ≠ .ok ()) :
    (f.fetch store force).2.1.site.files.fileOf? (f.entryPath store) =
      store.site.files.fileOf? (f.entryPath store) := by
  rcases f.fetch_produces_or_spares store force with ⟨-, -, -, -, hok⟩ | hsame
  · exact absurd hok h
  · have hpath : f.entryPath store = store.cache.entryPath f.key recordVersion := rfl
    exact hsame.fileOf?_eq fun p hp => Cache.not_mem_locate_temporary hpath hp

theorem failed_of_error {e : Failure} (h : (f.fetch store force).2.2 = .error e) :
    (f.fetch store force).1.status = .error ∧ (f.fetch store force).1.packages = [] ∧
      ∃ fetcher reason, e = .fetchFailed fetcher reason := by
  obtain ⟨calls, log, files, ⟨cause, hfetch⟩ | ⟨packages, hfetch⟩⟩ := f.fetch_cases store force
  · rw [hfetch] at h ⊢
    refine ⟨rfl, rfl, ?_⟩
    obtain rfl := Except.error.inj h
    unfold failure
    split
    · exact ⟨_, _, rfl⟩
    · exact ⟨_, _, rfl⟩
  · rw [hfetch] at h
    cases h

/-! ## Different keys -/

theorem spots_apart (hkey : f.key ≠ g.key) (hp : p ∈ f.spots store) : p ∉ g.spots store :=
  Cache.spots_apart f.slash_not_mem_key g.slash_not_mem_key (fun h => hkey h.1) hp

/-! ## Sources of index files -/

theorem ofLocations_congr {site site' : Site} {keep : Package → Bool} {locations : List String}
    (h : ∀ location ∈ locations, JsonIndex.textAt site' location = JsonIndex.textAt site location) :
    JsonIndex.ofLocations site' keep locations = JsonIndex.ofLocations site keep locations := by
  induction locations with
  | nil => rfl
  | cons location rest ih =>
    simp only [JsonIndex.ofLocations, h location List.mem_cons_self,
      ih fun l hl => h l (List.mem_cons_of_mem _ hl)]

theorem unmoved_of_index_files {site : Site} (hsource : f.source = JsonIndex.source)
    (h : ∀ location ∈ f.decl.args, JsonIndex.onWeb location = true ∨
      ∃ p file, site.files.locate (JsonIndex.pathOf location) = .ok p ∧
        site.files.file? p = some file ∧ p ∉ paths) : f.Unmoved site paths := by
  intro files hfiles
  rw [hsource]
  refine ofLocations_congr fun location hlocation => ?_
  unfold JsonIndex.textAt
  rcases h location hlocation with hweb | ⟨p, file, hlocate, hfile, hp⟩
  · simp only [hweb, if_true]
  · simp only [Files.readText, Files.read, hfiles.lookup_eq hlocate hfile hp]

end Depot.Fetch.Fetcher
