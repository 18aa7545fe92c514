import Depot.Proofs.Fetch.Frame

/-!
# A fetcher and its entry

A call ends in one of four ways (`Ends`), which is all that the statements here need to know of it.
Over any run of calls, what the entry of a fetcher holds is what its source has recorded in the last
of its runs that went well (`Coherent.call`, `Run.coherent`). Between two calls the store may change
in any way that leaves the bytes of the entry alone (`Drift`); the age of the entry in particular
may become any other one, also one that lies in the future (`Drift.setAge`), and a directory may
come into the place of the temporary file or leave it. A source is asked exactly where a call is due
and the temporary file can be created (`cache_coherent`); a call that is only due may fail without
asking (`due_source_unasked`).
-/

namespace Depot.Fetch.Fetcher

variable {f f' f₀ : Fetcher} {store store' store₀ : Store} {force : Bool} {p : Path}
  {last : Option (List Package)} {result : Outcome Unit}

/-- What the source has recorded in the last of its runs that went well, after one more call. -/
def recorded (f : Fetcher) (store : Store) (force : Bool) (last : Option (List Package)) :
    Option (List Package) :=
  if (f.fetch store force).1.calls = f.calls then last
  else
    match (f.sourceRun store).2 with
    | .ok () => some (f.sourceRun store).1.packages
    | .error _ => last

theorem recorded_of_calls_eq (h : (f.fetch store force).1.calls = f.calls) :
    f.recorded store force last = last :=
  if_pos h

theorem recorded_of_failed {e : Failure} (h : (f.sourceRun store).2 = .error e) :
    f.recorded store force last = last := by
  simp [recorded, h]

theorem recorded_of_done (hcalls : (f.fetch store force).1.calls ≠ f.calls)
    (h : (f.sourceRun store).2 = .ok ()) :
    f.recorded store force last = some (f.sourceRun store).1.packages := by
  simp [recorded, hcalls, h]

/-- A change of the store that no call of the fetcher makes: its entry holds the same, at whatever
age, and no directory comes into its place. -/
structure Drift (f : Fetcher) (store store' : Store) : Prop where
  cache : store'.cache = store.cache
  held : Cache.held store'.site.files (f.entryPath store) =
    Cache.held store.site.files (f.entryPath store)
  free : store'.site.files.Free (f.entryPath store)

/-- The calls of one fetcher, with changes of the store between them and with what the source has
recorded in the last of its runs that went well. -/
inductive Run (f₀ : Fetcher) (store₀ : Store) : Fetcher → Store → Option (List Package) → Prop
  | start : Run f₀ store₀ f₀ store₀ none
  | call {f : Fetcher} {store : Store} {last : Option (List Package)} (force : Bool) :
    Run f₀ store₀ f store last →
      Run f₀ store₀ (f.fetch store force).1 (f.fetch store force).2.1
        (f.recorded store force last)
  | drift {f : Fetcher} {store store' : Store} {last : Option (List Package)} :
    Run f₀ store₀ f store last → f.Drift store store' → Run f₀ store₀ f store' last

/-! ## One call -/

/-- The ways in which a call ends, with what it leaves. -/
inductive Ends (f : Fetcher) (store : Store) (force : Bool) :
    Fetcher × Store × Outcome Unit → Prop
  | loaded {packages : List Package} (due : ¬f.Due store force)
      (held : Cache.held store.site.files (f.entryPath store) = some (records packages)) :
    Ends f store force (f.start.loaded none packages, archived store packages, .ok ())
  | blocked {files : Files} {e : Failure} (due : f.Due store force)
      (blocked : ¬f.Startable store) :
    Ends f store force (f.start.failed none e, withFiles store files, .error (f.failure e))
  | failed {files : Files} {e : Failure} (due : f.Due store force)
      (startable : f.Startable store) (source : (f.sourceRun store).2 = .error e) :
    Ends f store force
      (f.asking.failed (some (f.sourceRun store).1.log) e, withFiles store files,
        .error (f.failure e))
  | done {files : Files} (due : f.Due store force) (startable : f.Startable store)
      (source : (f.sourceRun store).2 = .ok ())
      (age : files.age? (f.entryPath store) = some 0)
      (held : Cache.held files (f.entryPath store) =
        some (records (f.sourceRun store).1.packages)) :
    Ends f store force
      (f.asking.loaded (some (f.sourceRun store).1.log) (f.sourceRun store).1.packages,
        archived (withFiles store files) (f.sourceRun store).1.packages, .ok ())

/-- Where the entry has a place to itself and holds records if anything, there is no other way. -/
theorem ends_fetch (hfree : store.site.files.Free (f.entryPath store))
    (hrecords : ∀ bytes, Cache.held store.site.files (f.entryPath store) = some bytes →
      ∃ packages, bytes = records packages) :
    f.Ends store force (f.fetch store force) := by
  by_cases hdue : f.Due store force
  · by_cases hstart : f.Startable store
    · obtain ⟨p, q, hready⟩ := hstart.ready hfree
      cases hsource : (f.sourceRun store).2 with
      | error e =>
        obtain ⟨files, -, hfetch⟩ := fetch_of_failed hready hdue hsource
        rw [hfetch]
        exact .failed hdue hstart hsource
      | ok u =>
        obtain ⟨files, -, hage, hheld, hfetch⟩ := fetch_of_done hready hdue hsource
        rw [hfetch]
        exact .done hdue hstart hsource hage hheld
    · obtain ⟨files, e, hfetch⟩ := fetch_of_blocked hdue hstart
      rw [hfetch]
      exact .blocked hdue hstart
  · obtain ⟨age, hage, -, -⟩ := not_not.1 (not_or.1 hdue).2
    rw [hfree.age?_eq] at hage
    obtain ⟨⟨bytes, age'⟩, hfile, -⟩ := Option.map_eq_some_iff.1 hage
    have hheld : Cache.held store.site.files (f.entryPath store) = some bytes := by
      rw [Cache.held_eq_fileOf?, hfile]
      rfl
    obtain ⟨packages, rfl⟩ := hrecords bytes hheld
    rw [fetch_of_not_due hdue hheld]
    exact .loaded hdue hheld

/-! ## What the entry holds -/

/-- The entry holds what the source has recorded last, and no directory is in its place. -/
structure Coherent (f : Fetcher) (store : Store) (last : Option (List Package)) : Prop where
  free : store.site.files.Free (f.entryPath store)
  held : Cache.held store.site.files (f.entryPath store) = last.map records

theorem coherent_of_absent (h : store.site.files.age? (f.entryPath store) = none) :
    f.Coherent store none := by
  have hfree : store.site.files.Free (f.entryPath store) := Files.free_of_age? h
  refine ⟨hfree, ?_⟩
  rw [hfree.age?_eq, Option.map_eq_none_iff] at h
  rw [Cache.held_eq_fileOf?, h]
  rfl

/-- There is no entry where nothing has its name in the directory of entries. -/
theorem absent_of_node? {d : Path} (hsize : store.cache.directory.utf8ByteSize ≤ 4000)
    (hd : store.site.files.locate store.cache.directory = .ok d)
    (hdir : store.site.files.requireDir d = .ok ())
    (hnode : store.site.files.node? (d ++ [Cache.entryName f.key recordVersion]) = none) :
    store.site.files.age? (f.entryPath store) = none := by
  have hlocate := (f.fits_key hsize).locate_entryPath f.slash_not_mem_key hd hdir
  unfold Files.age? Files.lookup entryPath
  simp only [hlocate, hnode]

theorem Coherent.drift (h : f.Coherent store last) (hdrift : f.Drift store store') :
    f.Coherent store' last := by
  have hpath : f.entryPath store' = f.entryPath store := by
    rw [entryPath, hdrift.cache, entryPath]
  constructor
  · rw [hpath]
    exact hdrift.free
  · rw [hpath, hdrift.held, h.held]

namespace Coherent

theorem ready (h : f.Coherent store last) (hstart : f.Startable store) :
    ∃ p q, Cache.Ready store.site.files (f.entryPath store) p q :=
  hstart.ready h.free

theorem ends (h : f.Coherent store last) (force : Bool) :
    f.Ends store force (f.fetch store force) := by
  refine ends_fetch h.free fun bytes hbytes => ?_
  rw [h.held, Option.map_eq_some_iff] at hbytes
  obtain ⟨packages, -, rfl⟩ := hbytes
  exact ⟨packages, rfl⟩

theorem due_of_none (h : f.Coherent store none) (force : Bool) : f.Due store force := by
  rcases hcall : f.fetch store force with ⟨f', store', result⟩
  cases hcall ▸ h.ends force with
  | loaded _ hheld =>
    rw [h.held] at hheld
    cases hheld
  | blocked hdue => exact hdue
  | failed hdue => exact hdue
  | done hdue => exact hdue

/-- What the entry holds has been recorded last. -/
theorem last_eq {packages : List Package} (h : f.Coherent store last)
    (hheld : Cache.held store.site.files (f.entryPath store) = some (records packages)) :
    last = some packages := by
  rw [h.held, Option.map_eq_some_iff] at hheld
  obtain ⟨packages', rfl, hrecords⟩ := hheld
  rw [records_inj.1 hrecords]

/-- A call that goes well leaves what the source has recorded last. -/
theorem recorded_of_ok (h : f.Coherent store last)
    (hcall : f.fetch store force = (f', store', .ok ())) :
    f.recorded store force last = some f'.packages := by
  cases hcall ▸ h.ends force with
  | loaded _ hheld =>
    rw [recorded_of_calls_eq (by rw [hcall]; rfl)]
    exact h.last_eq hheld
  | done _ _ hsource =>
    rw [recorded_of_done (by rw [hcall]; simp) hsource]
    rfl

/-- A call that fails leaves what has been recorded last as it was. -/
theorem recorded_of_error (h : f.Coherent store last) {e : Failure}
    (hcall : f.fetch store force = (f', store', .error e)) :
    f.recorded store force last = last := by
  cases hcall ▸ h.ends force with
  | blocked => exact recorded_of_calls_eq (by rw [hcall]; rfl)
  | failed _ _ hsource => exact recorded_of_failed hsource

theorem call (h : f.Coherent store last) (force : Bool) :
    (f.fetch store force).1.Coherent (f.fetch store force).2.1 (f.recorded store force last) := by
  have hpath := f.fetch_entryPath store force
  have hfile : (f.fetch store force).2.2 ≠ .ok () →
      (f.fetch store force).2.1.site.files.fileOf? (f.entryPath store) =
        store.site.files.fileOf? (f.entryPath store) := fileOf?_of_failed
  constructor
  · rw [hpath]
    exact (f.sameBut_fetch store force).free h.free
  · rw [hpath]
    rcases hcall : f.fetch store force with ⟨f', store', e | u⟩
    · -- a call that fails leaves the entry alone
      rw [hcall] at hfile
      rw [h.recorded_of_error hcall, ← h.held, Cache.held_eq_fileOf?, hfile (by simp),
        Cache.held_eq_fileOf?]
    · rw [h.recorded_of_ok hcall]
      cases hcall ▸ h.ends force with
      | loaded _ hheld => exact hheld
      | done _ _ _ _ hheld => exact hheld

end Coherent

/-! ## Runs -/

theorem Run.coherent (hrun : Run f₀ store₀ f store last) (h : f₀.Coherent store₀ none) :
    f.Coherent store last := by
  induction hrun with
  | start => exact h
  | call force _ ih => exact ih.call force
  | drift _ hdrift ih => exact ih.drift hdrift

theorem Drift.of_sameBut {paths : List Path} (hcache : store'.cache = store.cache)
    (hsame : store.site.files.SameBut paths store'.site.files)
    (hfree : store.site.files.Free (f.entryPath store))
    (hbytes : (store'.site.files.fileOf? (f.entryPath store)).map (·.1) =
      (store.site.files.fileOf? (f.entryPath store)).map (·.1)) : f.Drift store store' := by
  refine ⟨hcache, ?_, hsame.free hfree⟩
  rw [Cache.held_eq_fileOf?, Cache.held_eq_fileOf?, hbytes]

/-- A new age of the entry is a change that may happen between calls. -/
theorem Drift.setAge {files : Files} {age : Int}
    (hfree : store.site.files.Free (f.entryPath store))
    (hage : store.site.files.setAge (f.entryPath store) age = some files) :
    f.Drift store (withFiles store files) := by
  obtain ⟨p, -, hsame, -⟩ := Files.setAge_spec hage
  exact .of_sameBut rfl hsame hfree (Files.bytes_setAge hage _)

/-- A call asks the source exactly if it is due and can create the temporary file of its entry, and
it goes well exactly if it is not due, or asks and the source does not fail. It leaves what the
source has recorded last, in a new entry or one that was at hand; where it fails, the entry is as it
was. -/
theorem cache_coherent (habsent : store₀.site.files.age? (f₀.entryPath store₀) = none)
    (hrun : Run f₀ store₀ f store last) (hcall : f.fetch store force = (f', store', result)) :
    (f'.calls ≠ f.calls ↔ f.Due store force ∧ f.Startable store) ∧
      (result = .ok () ↔
        (f.Due store force → f.Startable store ∧ (f.sourceRun store).2 = .ok ())) ∧
      (result = .ok () → f.recorded store force last = some f'.packages) ∧
      (f.Due store force → result = .ok () →
        store'.site.files.age? (f.entryPath store) = some 0) ∧
      (result ≠ .ok () → store'.site.files.fileOf? (f.entryPath store) =
        store.site.files.fileOf? (f.entryPath store)) ∧
      (¬f.Due store force → result = .ok () ∧ last = some f'.packages) := by
  have h := hrun.coherent (coherent_of_absent habsent)
  have hrecorded (hok : result = .ok ()) : f.recorded store force last = some f'.packages :=
    h.recorded_of_ok (hok ▸ hcall)
  have hkept : (f.fetch store force).2.2 ≠ .ok () →
      (f.fetch store force).2.1.site.files.fileOf? (f.entryPath store) =
        store.site.files.fileOf? (f.entryPath store) := fileOf?_of_failed
  rw [hcall] at hkept
  cases hcall ▸ h.ends force with
  | loaded hdue hheld =>
    obtain rfl := h.last_eq hheld
    simp [hdue, hrecorded rfl]
  | blocked hdue hblocked => simp [hdue, hblocked, hkept]
  | failed hdue hstart hsource => simp [hdue, hstart, hsource, hkept]
  | done hdue hstart hsource hage =>
    simp [hdue, hstart, hsource, hrecorded rfl, archived, withFiles, hage]

/-! A source that fails after its first run, and three calls. -/

/-- A fetcher whose source has one package when it is first asked, and fails from then on. -/
def onceOnly : Fetcher where
  decl := ⟨"list", "alpine", []⟩
  source := { fetch := fun ask =>
    if ask.calls = 0 then .add { name := ⟨"alpine", "zlib", "1", "", false⟩ } fun _ => .done
    else .fail (.notFound "list") }

/-- A store with an empty cache. -/
def emptyStore : Store where
  site := { files := ⟨⟨[(["cache"], .dir 0), (["cache", "managed"], .dir 0)]⟩⟩ }
  cache := ⟨"cache"⟩

theorem locate_emptyStore :
    emptyStore.site.files.locate emptyStore.cache.directory = .ok ["cache", "managed"] := by
  decide

theorem node?_emptyStore (name : String) :
    emptyStore.site.files.node? ["cache", "managed", name] = none := by
  simp [Files.node?, emptyStore, Table.get?, Table.find?]

theorem startable_emptyStore (f : Fetcher) : f.Startable emptyStore := by
  refine startable_iff.2 ⟨f.fits_key (by decide), _, locate_emptyStore, by decide, ?_⟩
  rw [Ne, Files.requireDir_eq_ok_iff]
  simp [node?_emptyStore]

theorem emptyStore_absent (f : Fetcher) :
    emptyStore.site.files.age? (f.entryPath emptyStore) = none :=
  absent_of_node? (by decide) locate_emptyStore (by decide) (node?_emptyStore _)

theorem emptyStore_coherent (f : Fetcher) : f.Coherent emptyStore none :=
  coherent_of_absent (emptyStore_absent f)

theorem emptyStore_ready (f : Fetcher) :
    ∃ p q, Cache.Ready emptyStore.site.files (f.entryPath emptyStore) p q :=
  (emptyStore_coherent f).ready (startable_emptyStore f)

theorem fetch_emptyStore_of_done (f : Fetcher) (force : Bool)
    (hdone : (f.sourceRun emptyStore).2 = .ok ()) :
    (f.fetch emptyStore force).1 =
      f.asking.loaded (some (f.sourceRun emptyStore).1.log)
        (f.sourceRun emptyStore).1.packages := by
  have hempty := emptyStore_coherent f
  obtain ⟨p, q, hready⟩ := emptyStore_ready f
  obtain ⟨files, -, -, -, hfetch⟩ := fetch_of_done hready (hempty.due_of_none force) hdone
  rw [hfetch]

theorem cache_coherent_onceOnly :
    ∃ f₁ store₁ f₂ store₂ f₃ store₃ e,
      onceOnly.fetch emptyStore false = (f₁, store₁, .ok ()) ∧
        f₁.packages.map Package.id = ["alpine/zlib@1:"] ∧
        f₁.fetch store₁ true = (f₂, store₂, .error e) ∧
        f₂.fetch store₂ false = (f₃, store₃, .ok ()) ∧
        f₃.packages = f₁.packages ∧ f₃.calls = f₂.calls := by
  have habsent := emptyStore_absent onceOnly
  have hempty := emptyStore_coherent onceOnly
  have hstart := startable_emptyStore onceOnly
  have hdue := hempty.due_of_none false
  rcases hfirst : onceOnly.fetch emptyStore false with ⟨f₁, store₁, r₁⟩
  rcases hsecond : f₁.fetch store₁ true with ⟨f₂, store₂, r₂⟩
  rcases hthird : f₂.fetch store₂ false with ⟨f₃, store₃, r₃⟩
  have hrun₁ := (Run.start : Run onceOnly emptyStore _ _ _).call false
  have hrun₂ := hrun₁.call true
  have hpath₁ := onceOnly.fetch_entryPath emptyStore false
  have hpath₂ := f₁.fetch_entryPath store₁ true
  have hsource := onceOnly.fetch_source emptyStore false
  have httl := onceOnly.fetch_ttl emptyStore false
  have httl₂ := f₁.fetch_ttl store₁ true
  simp only [hfirst, hsecond] at hrun₁ hrun₂ hpath₁ hpath₂ hsource httl httl₂
  obtain ⟨hcalls, hok, hpackages, hage, -, -⟩ := cache_coherent habsent .start hfirst
  obtain rfl := hok.2 fun _ => ⟨hstart, rfl⟩
  have hcalled : f₁.calls ≠ 0 := hcalls.2 ⟨hdue, hstart⟩
  have hfail : (f₁.sourceRun store₁).2 = .error (.notFound "list") := by
    simp [sourceRun, hsource, onceOnly, hcalled, Script.run]
  obtain ⟨-, hok₂, -, -, hkept, -⟩ := cache_coherent habsent hrun₁ hsecond
  have hbad : r₂ ≠ .ok () := by
    rw [Ne, hok₂, hfail]
    simp [Due]
  have hage₂ : store₂.site.files.age? (f₂.entryPath store₂) = some 0 := by
    rw [(hrun₂.coherent hempty).free.age?_eq, hpath₂, hkept hbad,
      ← (hrun₁.coherent hempty).free.age?_eq, hpath₁, hage hdue rfl]
  have hnotdue : ¬f₂.Due store₂ false := by
    simp [Due, hage₂, httl₂, httl, emptyStore]
  obtain ⟨hcalls₃, -, -, -, -, hloaded⟩ := cache_coherent habsent hrun₂ hthird
  obtain ⟨rfl, hlast⟩ := hloaded hnotdue
  rw [recorded_of_failed hfail, hpackages rfl, Option.some_inj] at hlast
  have hfirst' : onceOnly.recorded emptyStore false none =
      some (onceOnly.sourceRun emptyStore).1.packages :=
    recorded_of_done (by rw [hfirst]; exact hcalled) rfl
  rw [hpackages rfl, Option.some_inj] at hfirst'
  cases r₂ with
  | ok u => exact absurd rfl hbad
  | error e =>
    refine ⟨f₁, store₁, f₂, store₂, f₃, store₃, e, rfl, ?_, hsecond, hthird, hlast.symm,
      not_not.1 fun h => hnotdue (hcalls₃.1 h).1⟩
    rw [hfirst']
    decide

/-- The place of a fetcher's temporary file in the empty cache. -/
def temporaryPlace (f : Fetcher) : Path :=
  ["cache", "managed", Cache.entryName f.key recordVersion ++ ".tmp"]

/-- A store with an empty cache, but for a directory in the place of a temporary file. -/
def obstructedStore (f : Fetcher) : Store :=
  withFiles emptyStore { nodes := emptyStore.site.files.nodes.insert f.temporaryPlace (.dir 0) }

theorem node?_obstructedStore (f : Fetcher) :
    (obstructedStore f).site.files.node? p =
      if p = f.temporaryPlace then some (.dir 0) else emptyStore.site.files.node? p :=
  Files.node?_insert _ _

theorem requireDir_obstructedStore (f : Fetcher) (h : emptyStore.site.files.requireDir p = .ok ()) :
    (obstructedStore f).site.files.requireDir p = .ok () := by
  rw [Files.requireDir_eq_ok_iff] at h ⊢
  rw [node?_obstructedStore]
  split
  · exact ⟨0, rfl⟩
  · exact h

theorem locate_obstructedStore (f : Fetcher) :
    (obstructedStore f).site.files.locate (obstructedStore f).cache.directory =
      .ok ["cache", "managed"] :=
  Files.locate_mono (fun _ => requireDir_obstructedStore f) locate_emptyStore

theorem obstructedStore_absent (f : Fetcher) :
    (obstructedStore f).site.files.age? (f.entryPath (obstructedStore f)) = none := by
  have hsize : emptyStore.cache.directory.utf8ByteSize ≤ 4000 := by decide
  have hne : ["cache", "managed", Cache.entryName f.key recordVersion] ≠ f.temporaryPlace := by
    simp [temporaryPlace, Cache.entryName_ne_append_tmp]
  refine absent_of_node? hsize (locate_obstructedStore f)
    (requireDir_obstructedStore f (by decide)) ?_
  rw [node?_obstructedStore]
  exact (if_neg hne).trans (node?_emptyStore _)

theorem not_startable_obstructedStore (f : Fetcher) : ¬f.Startable (obstructedStore f) := by
  rw [startable_iff]
  rintro ⟨-, d, hd, -, hfree⟩
  obtain rfl := Except.ok.inj ((locate_obstructedStore f).symm.trans hd)
  refine hfree (Files.requireDir_eq_ok_iff.2 ⟨0, ?_⟩)
  rw [node?_obstructedStore]
  exact if_pos rfl

/-- A forced call need not ask the source. -/
theorem due_source_unasked :
    ¬∀ (f₀ : Fetcher) (store₀ : Store), store₀.site.files.age? (f₀.entryPath store₀) = none →
      ∀ f store last, Run f₀ store₀ f store last →
        ∀ force, (f.fetch store force).1.calls ≠ f.calls ↔ f.Due store force := by
  intro hall
  have hdue : onceOnly.Due (obstructedStore onceOnly) true := .inl rfl
  have hasked := (hall onceOnly _ (obstructedStore_absent onceOnly) _ _ _ .start true).2 hdue
  obtain ⟨files, e, hfetch⟩ := fetch_of_blocked hdue (not_startable_obstructedStore onceOnly)
  rw [hfetch] at hasked
  exact hasked rfl

end Depot.Fetch.Fetcher
