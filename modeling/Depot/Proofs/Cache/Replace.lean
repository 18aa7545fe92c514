import Depot.Proofs.Cache.Frame

/-!
# Replacing an entry

In a directory of entries that holds no other directories (`Flat`), opening an entry is one of four
things. A fresh entry is read as it is (`openEntry_of_free`). For any other one, no temporary file
can be made (`openEntry_of_unwritable`), or the source fails and the temporary file is taken away
again (`openEntry_failed`), or what was written takes the place of the entry at once
(`openEntry_published`). So an entry is replaced as a whole or not at all, and no other entry
notices (`entry_replaced_or_kept`).
-/

namespace Depot.Cache

open Files

variable {fs : Files} {path key key' : String} {p q : Path} {c : Cache}
  {version version' expire : Nat} {α : Type} {produce : Files → Produced α}

/-- No directory stands among the entries. -/
def Flat (c : Cache) (fs : Files) : Prop :=
  ∀ d name, fs.locate c.directory = .ok d → fs.requireDir (d ++ [name]) ≠ .ok ()

/-- The path leads to something that is younger than the expiry and not from the future. -/
def Fresh (fs : Files) (path : String) (expire : Nat) : Prop :=
  ∃ age, fs.age? path = some age ∧ 0 ≤ age ∧ age < expire

theorem isFresh_eq_false_iff : isFresh fs path expire = false ↔ ¬Fresh fs path expire := by
  rw [Bool.eq_false_iff, Ne, isFresh_iff, Fresh]

/-! ## Places without directories -/

theorem Flat.free (hflat : c.Flat fs) (hkey : '/' ∉ key.toList) :
    ∀ p ∈ spots fs (c.entryPath key version), fs.requireDir p ≠ .ok () := by
  intro p hp
  obtain ⟨d, name, hd, rfl, -⟩ := names_of_mem_spots hkey hp
  exact hflat d name hd

/-- A fresh entry is a file, and opening it is reading it. -/
theorem openEntry_of_free (hfree : fs.Free path) (hfresh : Fresh fs path expire) :
    ∃ bytes age, fs.fileOf? path = some (bytes, age) ∧
      openEntry fs path expire produce = ⟨fs, none, .ok bytes⟩ := by
  obtain ⟨age, hage, -⟩ := id hfresh
  rw [hfree.age?_eq] at hage
  obtain ⟨⟨bytes, age'⟩, hfile, rfl⟩ := Option.map_eq_some_iff.1 hage
  refine ⟨bytes, age', hfile, openEntry_fresh produce (isFresh_iff.2 hfresh) ?_⟩
  rw [held_eq_fileOf?, hfile]
  rfl

/-! ## An entry that is not fresh -/

/-- What opening an entry that is not fresh leaves: nothing of the temporary file, and either the
bytes that were written, all of them, or the entry as it was. -/
structure Settled (fs : Files) (path : String) (produced : Produced α) (opened : Opened α) :
    Prop where
  swept : opened.files.has (temporary path) = false
  done : opened.contents.isOk = true ↔
    (fs.write (temporary path) .empty).isOk = true ∧ produced.result = .ok ()
  replaced : ∀ bytes, opened.contents = .ok bytes → bytes = produced.bytes ∧
    opened.report = some produced.report ∧ opened.files.fileOf? path = some (produced.bytes, 0)
  kept : ∀ e, opened.contents = .error e → opened.files.fileOf? path = fs.fileOf? path

section Stale

variable (hfree : ∀ p ∈ spots fs path, fs.requireDir p ≠ .ok ())

include hfree

theorem has_temporary_eq_false {fs' : Files} {paths : List Path} (hsame : fs.SameBut paths fs')
    (hgone : fs'.fileOf? (temporary path) = none) : fs'.has (temporary path) = false := by
  rw [Bool.eq_false_iff, Ne, has_eq_true_iff, hgone]
  rintro (hsome | ⟨q, htemp, hdir⟩)
  · cases hsome
  · have htemp := hsame.locate_eq_ok_iff.1 htemp
    refine hfree q ?_ ((hsame.dirs q).1 hdir)
    exact locate_temporary_subset_spots fs path (by simp [htemp, Except.toOption])

theorem settled_of_unwritable {e : PathError} (hpath : path = c.entryPath key version)
    (hkey : '/' ∉ key.toList) (hstale : isFresh fs path expire = false)
    (hwrite : fs.write (temporary path) .empty = .error e) :
    Settled fs path (produce (underway fs path)) (openEntry fs path expire produce) := by
  have hinside : ∀ q, fs.locate (temporary path) = .ok q → Inside fs q :=
    inside_temporary hpath hkey
  have hsame := sameBut_discard hinside
  rw [openEntry_of_unwritable produce hstale hwrite]
  refine ⟨?_, by simp [hwrite, Except.isOk, Except.toBool], fun bytes h => (nomatch h),
    fun _ _ => hsame.fileOf?_eq fun p hp => not_mem_locate_temporary hpath hp⟩
  exact has_temporary_eq_false hfree hsame (fileOf?_discard hinside)

theorem settled_of_failed (hready : Ready fs path p q) (hstale : isFresh fs path expire = false)
    {e : Failure} (hfail : (produce (underway fs path)).result = .error e) :
    Settled fs path (produce (underway fs path)) (openEntry fs path expire produce) := by
  obtain ⟨fs', hopen, hsame, hgone⟩ := openEntry_failed produce hready hstale hfail
  rw [hopen]
  refine ⟨?_, by simp [hfail, Except.isOk, Except.toBool], fun bytes h => (nomatch h),
    fun _ _ => hsame.fileOf?_eq fun r hr hmem => ?_⟩
  · refine has_temporary_eq_false hfree hsame ?_
    rw [fileOf?_of_locate (hsame.locate_eq_ok_iff.2 hready.temp), hgone]
  · obtain rfl := Except.ok.inj (hready.entry.symm.trans hr)
    exact hready.ne (by simpa using hmem)

theorem settled_of_published (hready : Ready fs path p q)
    (hstale : isFresh fs path expire = false)
    (hdone : (produce (underway fs path)).result = .ok ()) :
    Settled fs path (produce (underway fs path)) (openEntry fs path expire produce) := by
  obtain ⟨fs', hopen, hsame, hthere, hgone⟩ := openEntry_published produce hready hstale hdone
  rw [hopen]
  refine ⟨?_, ?_, fun bytes h => ?_, fun e h => (nomatch h)⟩
  · refine has_temporary_eq_false hfree hsame ?_
    rw [fileOf?_of_locate (hsame.locate_eq_ok_iff.2 hready.temp), hgone]
  · simp [hdone, hready.write_temp, Except.isOk, Except.toBool]
  · obtain rfl := Except.ok.inj h
    exact ⟨rfl, rfl, by rw [fileOf?_of_locate (hsame.locate_eq_ok_iff.2 hready.entry), hthere]⟩

theorem settled (hpath : path = c.entryPath key version) (hkey : '/' ∉ key.toList)
    (hstale : isFresh fs path expire = false) :
    Settled fs path (produce (underway fs path)) (openEntry fs path expire produce) := by
  subst hpath
  cases hwrite : fs.write (temporary (c.entryPath key version)) .empty with
  | error e => exact settled_of_unwritable hfree rfl hkey hstale hwrite
  | ok started =>
    obtain ⟨p, q, hready⟩ :=
      exists_ready hwrite fun p hentry => hfree p (mem_spots_of_locate hentry)
    cases hresult : (produce (underway fs (c.entryPath key version))).result with
    | error e => exact settled_of_failed hfree hready hstale hresult
    | ok u => exact settled_of_published hfree hready hstale hresult

end Stale

/-! ## Entries apart -/

theorem entry_or_temporary_fileOf?_eq (hkey : '/' ∉ key.toList) (hkey' : '/' ∉ key'.toList)
    (hne : ¬(key' = key ∧ version' = version)) {file : String}
    (hfile : file ∈ [c.entryPath key' version', temporary (c.entryPath key' version')]) :
    (openEntry fs (c.entryPath key version) expire produce).files.fileOf? file =
      fs.fileOf? file := by
  have hsame : fs.SameBut (spots fs (c.entryPath key version))
      (openEntry fs (c.entryPath key version) expire produce).files :=
    sameBut_openEntry rfl hkey expire produce
  refine hsame.fileOf?_eq fun p hp => spots_apart hkey' hkey hne ?_
  exact List.mem_filterMap.2 ⟨file, hfile, by rw [hp]; rfl⟩

/-- Opening an entry is a hit exactly if the entry is fresh, and a hit changes nothing. Otherwise
the entry ends as all that was written or stays what it was, its temporary file is gone, and the
entries with other keys or versions and their temporary files are left alone. -/
theorem entry_replaced_or_kept (c : Cache) (fs : Files) (key : String) (version expire : Nat)
    (produce : Files → Produced α) (hkey : '/' ∉ key.toList) (hflat : c.Flat fs) :
    let path := c.entryPath key version
    let opened := openEntry fs path expire produce
    ((opened.report = none ∧ opened.contents.isOk = true) ↔ Fresh fs path expire) ∧
    (Fresh fs path expire → ∃ bytes age, fs.fileOf? path = some (bytes, age) ∧
      opened = ⟨fs, none, .ok bytes⟩) ∧
    (¬Fresh fs path expire → Settled fs path (produce (underway fs path)) opened) ∧
    ∀ key' version', '/' ∉ key'.toList → ¬(key' = key ∧ version' = version) →
      ∀ file ∈ [c.entryPath key' version', temporary (c.entryPath key' version')],
        opened.files.fileOf? file = fs.fileOf? file := by
  intro path opened
  have hfree : ∀ p ∈ spots fs path, fs.requireDir p ≠ .ok () := hflat.free hkey
  have hhit (hfresh : Fresh fs path expire) : ∃ bytes age,
      fs.fileOf? path = some (bytes, age) ∧ opened = ⟨fs, none, .ok bytes⟩ :=
    openEntry_of_free (fun p hp => hfree p (mem_spots_of_locate hp)) hfresh
  have hmiss (hstale : ¬Fresh fs path expire) :
      Settled fs path (produce (underway fs path)) opened :=
    settled hfree rfl hkey (isFresh_eq_false_iff.2 hstale)
  refine ⟨⟨fun ⟨hreport, hok⟩ => ?_, fun hfresh => ?_⟩, hhit, hmiss,
    fun key' version' hkey' hne file hfile =>
      entry_or_temporary_fileOf?_eq hkey hkey' hne hfile⟩
  · by_contra hstale
    cases hcontents : opened.contents with
    | error e => simp [hcontents, Except.isOk, Except.toBool] at hok
    | ok bytes =>
      -- what was opened after a miss was reported
      have hsome := ((hmiss hstale).replaced bytes hcontents).2.1
      rw [hreport] at hsome
      cases hsome
  · obtain ⟨bytes, age, -, hopen⟩ := hhit hfresh
    rw [hopen]
    exact ⟨rfl, rfl⟩

/-- An old entry, and beside it a temporary file that was never finished. -/
def abandoned : Files :=
  ⟨⟨[(["cache"], .dir 0), (["cache", "managed"], .dir 0),
    (["cache", "managed", "k_1.bin"], .file "old".toUTF8 100),
    (["cache", "managed", "k_1.bin.tmp"], .file "ne".toUTF8 100)]⟩⟩

theorem flat_abandoned : Flat ⟨"cache"⟩ abandoned := by
  intro d name hd
  have hlocate : abandoned.locate (directory ⟨"cache"⟩) = .ok ["cache", "managed"] := by decide
  obtain rfl := Except.ok.inj (hlocate.symm.trans hd)
  rw [Ne, requireDir_eq_ok_iff]
  rintro ⟨age, hnode⟩
  simp only [node?, abandoned, Table.get?, Table.find?] at hnode
  grind

theorem abandoned_entry_replaced_or_kept :
    '/' ∉ "k".toList ∧ Flat ⟨"cache"⟩ abandoned ∧
      (openEntry abandoned "cache/managed/k_1.bin" 60 fun _ =>
          ⟨"new".toUTF8, .ok (), ()⟩).files.fileOf? "cache/managed/k_1.bin" =
        some ("new".toUTF8, 0) ∧
      (openEntry abandoned "cache/managed/k_1.bin" 60 fun _ =>
          ⟨"new".toUTF8, .error .json, ()⟩).files.fileOf? "cache/managed/k_1.bin" =
        some ("old".toUTF8, 100) := by
  have hkey : '/' ∉ "k".toList := by decide
  have hpath : entryPath ⟨"cache"⟩ "k" 1 = "cache/managed/k_1.bin" := by decide
  have hstale : ¬Fresh abandoned "cache/managed/k_1.bin" 60 := by
    rw [← isFresh_eq_false_iff]
    decide
  have hwrite : (abandoned.write "cache/managed/k_1.bin.tmp" .empty).isOk = true := by decide
  have hopen (result : Outcome Unit) :=
    entry_replaced_or_kept ⟨"cache"⟩ abandoned "k" 1 60
      (fun _ => (⟨"new".toUTF8, result, ()⟩ : Produced Unit)) hkey flat_abandoned
  simp only [hpath] at hopen
  refine ⟨hkey, flat_abandoned, ?_, ?_⟩
  · have hsettled := (hopen (.ok ())).2.2.1 hstale
    cases hcontents : (openEntry abandoned "cache/managed/k_1.bin" 60 fun _ =>
        (⟨"new".toUTF8, .ok (), ()⟩ : Produced Unit)).contents with
    | error e =>
      have hok := hsettled.done.2 ⟨hwrite, rfl⟩
      rw [hcontents] at hok
      cases hok
    | ok bytes => exact (hsettled.replaced bytes hcontents).2.2
  · have hsettled := (hopen (.error .json)).2.2.1 hstale
    cases hcontents : (openEntry abandoned "cache/managed/k_1.bin" 60 fun _ =>
        (⟨"new".toUTF8, .error .json, ()⟩ : Produced Unit)).contents with
    | error e =>
      rw [hsettled.kept e hcontents]
      rfl
    | ok bytes =>
      have hok := (hsettled.done.1 (by rw [hcontents]; rfl)).2
      cases hok

end Depot.Cache
