import Depot.Proofs.Cache.Entry
import Depot.Proofs.Files.Names

/-!
# What opening an entry looks at

Opening an entry touches two places at most (`spots`, `sameBut_openEntry`), and that of the entry
only if it has produced the entry (`openEntry_cases`). When it goes well, it has looked at these, at
the directories and at what produces the entry, and at no other file (`openEntry_frame`). Entries
with other keys or versions have other places (`spots_apart`).
-/

namespace Depot.Cache

open Files

variable {fs fs' : Files} {paths : List Path} {path key key' : String} {p q : Path} {c : Cache}
  {version version' : Nat}

theorem held_eq_fileOf? (fs : Files) (path : String) :
    held fs path = (fs.fileOf? path).map (·.1) := by
  unfold held Files.read fileOf?
  cases fs.lookup path with
  | error e => rfl
  | ok n => cases n <;> rfl

/-- The places of an entry and of its temporary file, as far as their paths lead anywhere. -/
def spots (fs : Files) (path : String) : List Path :=
  [path, temporary path].filterMap fun text => (fs.locate text).toOption

theorem spots_eq_of_sameBut (h : SameBut paths fs fs') (path : String) :
    spots fs' path = spots fs path := by
  simp only [spots, h.toOption_locate]

theorem locate_of_mem_spots (h : p ∈ spots fs path) :
    fs.locate path = .ok p ∨ fs.locate (temporary path) = .ok p := by
  obtain ⟨text, htext, hp⟩ := List.mem_filterMap.1 h
  have hlocate := locate_of_mem_toList (Option.mem_toList.2 hp)
  rcases List.mem_cons.1 htext with rfl | htext
  · exact .inl hlocate
  · obtain rfl := List.mem_singleton.1 htext
    exact .inr hlocate

theorem mem_spots_of_locate (h : fs.locate path = .ok p) : p ∈ spots fs path := by
  simp [spots, h, Except.toOption]

theorem locate_temporary_subset_spots (fs : Files) (path : String) :
    (fs.locate (temporary path)).toOption.toList ⊆ spots fs path := by
  intro q hq
  exact List.mem_filterMap.2 ⟨temporary path, by simp, by simpa using hq⟩

/-- Both places are names in the directory of the entries. -/
theorem names_of_mem_spots (hkey : '/' ∉ key.toList) (h : p ∈ spots fs (c.entryPath key version)) :
    ∃ d name, fs.locate c.directory = .ok d ∧ p = d ++ [name] ∧
      (name = entryName key version ∨ name = entryName key version ++ ".tmp") := by
  rcases locate_of_mem_spots h with hentry | htemp
  · have hproper : Proper (entryName key version) := by
      simpa using proper_entryName_append key version ""
    rw [entryPath_eq hkey, locate_below c.directory_ne_empty hproper
      (slash_not_mem_entryName hkey)] at hentry
    obtain ⟨-, -, d, hd, -, -, hp⟩ := hentry
    exact ⟨d, _, hd, hp, .inl rfl⟩
  · obtain ⟨-, d, hd, -, hp⟩ := (locate_temporary_iff hkey).1 htemp
    exact ⟨d, _, hd, hp, .inr rfl⟩

theorem spots_apart (hkey : '/' ∉ key.toList) (hkey' : '/' ∉ key'.toList)
    (hne : ¬(key = key' ∧ version = version')) (hp : p ∈ spots fs (c.entryPath key version)) :
    p ∉ spots fs (c.entryPath key' version') := by
  intro hp'
  obtain ⟨d, name, hd, rfl, hname⟩ := names_of_mem_spots hkey hp
  obtain ⟨d', name', hd', heq, hname'⟩ := names_of_mem_spots hkey' hp'
  obtain rfl : d = d' := Except.ok.inj (hd.symm.trans hd')
  obtain rfl : name = name' := by simpa using heq
  have hnames : entryName key version ≠ entryName key' version' := fun h => hne (entryName_inj.1 h)
  rcases hname with rfl | rfl <;> rcases hname' with h | h
  · exact hnames h
  · exact entryName_ne_append_tmp h
  · exact entryName_ne_append_tmp h.symm
  · exact hnames (by simpa using h)

theorem Ready.spots_eq (h : Ready fs path p q) : spots fs path = [p, q] := by
  simp [spots, h.entry, h.temp, Except.toOption]

theorem sameBut_underway (fs : Files) (path : String) :
    fs.SameBut (spots fs path) (underway fs path) := by
  unfold underway
  cases hwrite : fs.write (temporary path) .empty with
  | error e => exact (SameBut.refl fs).mono (by simp)
  | ok started =>
    obtain ⟨q, htemp, hplace, rfl⟩ := write_eq_ok_iff.1 hwrite
    refine (sameBut_put hplace.free .empty 0).mono ?_
    simp [spots, htemp, Except.toOption]

variable {α : Type} {expire : Nat} {produce : Files → Produced α} {bytes : ByteArray}

theorem isFresh_congr (h : fs'.lookup path = fs.lookup path) :
    isFresh fs' path expire = isFresh fs path expire := by
  simp only [isFresh, age?, h]

theorem sameBut_discard {text : String} (h : ∀ p, fs.locate text = .ok p → Inside fs p) :
    fs.SameBut (fs.locate text).toOption.toList (discard fs text) := by
  unfold discard
  cases hremove : fs.remove text with
  | error e => exact (SameBut.refl fs).mono (by simp)
  | ok fs' =>
    obtain ⟨p, -, hlocate, -⟩ := exists_file_of_remove hremove
    simpa [hlocate, Except.toOption] using (remove_of_inside hremove hlocate (h p hlocate)).1

theorem fileOf?_discard {text : String} (h : ∀ p, fs.locate text = .ok p → Inside fs p) :
    (discard fs text).fileOf? text = none := by
  unfold discard
  cases hremove : fs.remove text with
  | error e =>
    rw [fileOf?_eq_bind]
    cases hlocate : fs.locate text with
    | error e => rfl
    | ok p =>
      -- a file that is there can be removed
      show fs.file? p = none
      cases hfile : fs.file? p with
      | none => rfl
      | some file =>
        obtain ⟨_, hdone, -, -⟩ := remove_spec hlocate ((h p hlocate).place hfile) hfile
        rw [hremove] at hdone
        cases hdone
  | ok fs' =>
    obtain ⟨p, -, hlocate, -⟩ := exists_file_of_remove hremove
    obtain ⟨hsame, hgone⟩ := remove_of_inside hremove hlocate (h p hlocate)
    rw [fileOf?_of_locate (hsame.locate_eq_ok_iff.2 hlocate), hgone]

section

variable (hpath : path = c.entryPath key version)

include hpath

/-- An entry that was put in its place had a place to be put in. -/
theorem ready_of_publish {started done : Files}
    (hwrite : fs.write (temporary path) .empty = .ok started)
    (h : publish started path bytes = .ok done) : ∃ p q, Ready fs path p q := by
  subst hpath
  refine exists_ready hwrite fun p hentry hdir => ?_
  obtain ⟨q, -, hplace, rfl⟩ := write_eq_ok_iff.1 hwrite
  have hput := sameBut_put hplace.free .empty 0
  -- the temporary file could not be moved into the place of a directory
  unfold publish at h
  cases hagain : (fs.put q (.file .empty 0)).write (temporary (c.entryPath key version)) bytes with
  | error e => simp [hagain, bind, Except.bind] at h
  | ok written =>
    obtain ⟨q', -, hplace', rfl⟩ := write_eq_ok_iff.1 hagain
    have hall := hput.trans (sameBut_put hplace'.free bytes 0)
    simp only [hagain] at h
    exact free_of_rename h (hall.locate_eq_ok_iff.2 hentry) ((hall.dirs p).2 hdir)

/-- An entry that is produced and opened could be written. -/
theorem ready_of_contents (hstale : isFresh fs path expire = false)
    (h : (openEntry fs path expire produce).contents = .ok bytes) :
    (∃ p q, Ready fs path p q) ∧ (produce (underway fs path)).result = .ok () := by
  unfold openEntry at h
  rw [hstale, if_neg Bool.false_ne_true] at h
  cases hwrite : fs.write (temporary path) .empty with
  | error e => simp [hwrite] at h
  | ok started =>
    have hunderway : underway fs path = started := by simp only [underway, hwrite]
    rw [hunderway]
    simp only [hwrite] at h
    cases hresult : (produce started).result with
    | error e => simp [hresult] at h
    | ok u =>
      refine ⟨?_, rfl⟩
      simp only [hresult] at h
      cases hpublish : publish started path (produce started).bytes with
      | error e => simp [hpublish] at h
      | ok done => exact ready_of_publish hpath hwrite hpublish

/-- An entry is not its own temporary file. -/
theorem not_mem_locate_temporary (h : fs.locate path = .ok p) :
    p ∉ (fs.locate (temporary path)).toOption.toList := by
  intro hmem
  obtain ⟨p', hentry, -, hne⟩ := exists_entry_beside (hpath ▸ locate_of_mem_toList hmem)
  rw [← hpath] at hentry
  exact hne (Except.ok.inj (hentry.symm.trans h))

theorem inside_temporary (hkey : '/' ∉ key.toList) (q : Path)
    (h : fs.locate (temporary path) = .ok q) : Inside fs q := by
  rw [hpath] at h
  obtain ⟨-, d, -, hdir, rfl⟩ := (locate_temporary_iff hkey).1 h
  exact inside_concat hdir (by simp [slash_not_mem_entryName hkey])

/-- An entry is produced and put in its place, or at most its temporary file has changed. -/
theorem openEntry_cases (hkey : '/' ∉ key.toList) (expire : Nat) (produce : Files → Produced α) :
    (∃ p q, Ready fs path p q ∧ isFresh fs path expire = false ∧
        (produce (underway fs path)).result = .ok ()) ∨
      fs.SameBut (fs.locate (temporary path)).toOption.toList
        (openEntry fs path expire produce).files := by
  have hinside : ∀ q, fs.locate (temporary path) = .ok q → Inside fs q :=
    inside_temporary hpath hkey
  cases hfresh : isFresh fs path expire with
  | true =>
    refine .inr ?_
    simp only [openEntry, hfresh, if_true]
    exact (SameBut.refl fs).mono (by simp)
  | false =>
    cases hwrite : fs.write (temporary path) .empty with
    | error e =>
      refine .inr ?_
      simpa [openEntry, hfresh, hwrite] using sameBut_discard hinside
    | ok started =>
      have hunderway : underway fs path = started := by simp only [underway, hwrite]
      -- what was begun is taken away again
      have hdiscard : fs.SameBut (fs.locate (temporary path)).toOption.toList
          (discard started (temporary path)) := by
        obtain ⟨q, htemp, hplace, rfl⟩ := write_eq_ok_iff.1 hwrite
        have hput := sameBut_put hplace.free .empty 0
        have hback : (fs.put q (.file .empty 0)).SameBut
            (fs.locate (temporary path)).toOption.toList
            (discard (fs.put q (.file .empty 0)) (temporary path)) := by
          rw [← hput.toOption_locate]
          exact sameBut_discard fun p hp => hput.inside (hinside p (hput.locate_eq_ok_iff.1 hp))
        exact (hput.trans hback).mono (by simp [htemp, Except.toOption])
      cases hresult : (produce started).result with
      | error e =>
        refine .inr ?_
        simpa [openEntry, hfresh, hwrite, hresult] using hdiscard
      | ok u =>
        cases hpublish : publish started path (produce started).bytes with
        | error e =>
          refine .inr ?_
          simpa [openEntry, hfresh, hwrite, hresult, hpublish] using hdiscard
        | ok done =>
          obtain ⟨p, q, hready⟩ := ready_of_publish hpath hwrite hpublish
          exact .inl ⟨p, q, hready, rfl, by rw [hunderway, hresult]⟩

theorem sameBut_openEntry (hkey : '/' ∉ key.toList) (expire : Nat)
    (produce : Files → Produced α) :
    fs.SameBut (spots fs path) (openEntry fs path expire produce).files := by
  rcases openEntry_cases hpath hkey expire produce with ⟨p, q, hready, hstale, hdone⟩ | hsame
  · obtain ⟨done, hopen, hsame, -, -⟩ := openEntry_published produce hready hstale hdone
    rw [hopen, hready.spots_eq]
    exact hsame
  · exact hsame.mono (locate_temporary_subset_spots fs path)

/-- Opening an entry looks at the entry, at the directories and at what produces the entry. -/
theorem openEntry_frame {produce' : Files → Produced α} (hsame : fs.SameBut paths fs')
    (hapart : ∀ p ∈ spots fs path, p ∉ paths)
    (hproduce : produce' (underway fs' path) = produce (underway fs path))
    (h : (openEntry fs path expire produce).contents = .ok bytes) :
    ∃ after, openEntry fs' path expire produce' =
        ⟨after, (openEntry fs path expire produce).report, .ok bytes⟩ ∧
      fs.SameBut (spots fs path) (openEntry fs path expire produce).files ∧
      fs'.SameBut (spots fs path) after ∧
      ∀ p ∈ spots fs path, after.file? p = (openEntry fs path expire produce).files.file? p := by
  cases hfresh : isFresh fs path expire with
  | true =>
    have hread : fs.read path = .ok bytes := by
      simp only [openEntry, hfresh, if_true] at h
      cases hread : fs.read path with
      | error e => simp [hread, Except.mapError] at h
      | ok found => simpa [hread, Except.mapError] using h
    obtain ⟨p, age, hlocate, hfile⟩ := exists_file_of_read hread
    have hlookup := hsame.lookup_eq hlocate hfile (hapart p (mem_spots_of_locate hlocate))
    have hheld : held fs path = some bytes := by simp [held, hread, Except.toOption]
    have hheld' : held fs' path = some bytes := by
      rw [← hheld, held, Files.read, hlookup, held, Files.read]
    have hfresh' : isFresh fs' path expire = true := (isFresh_congr hlookup).trans hfresh
    rw [openEntry_fresh produce hfresh hheld, openEntry_fresh produce' hfresh' hheld']
    exact ⟨fs', rfl, (SameBut.refl fs).mono (by simp), (SameBut.refl fs').mono (by simp),
      fun p hp => hsame.files p (hapart p hp)⟩
  | false =>
    obtain ⟨⟨p, q, hready⟩, hdone⟩ := ready_of_contents hpath hfresh h
    rw [hready.spots_eq] at hapart ⊢
    have hready' := hready.after hsame
    have hlookup := hready.lookup_congr hready' (hsame.files p (hapart p (by simp)))
    have hfresh' : isFresh fs' path expire = false := (isFresh_congr hlookup).trans hfresh
    obtain ⟨after, hopen, hchanged, hthere, hgone⟩ :=
      openEntry_published produce hready hfresh hdone
    obtain ⟨after', hopen', hchanged', hthere', hgone'⟩ :=
      openEntry_published produce' hready' hfresh' (by rw [hproduce, hdone])
    rw [hproduce] at hopen' hthere'
    rw [hopen] at h ⊢
    obtain rfl := Except.ok.inj h
    refine ⟨after', hopen', hchanged, hchanged', fun r hr => ?_⟩
    obtain rfl | rfl : r = p ∨ r = q := by simpa using hr
    · rw [hthere, hthere']
    · rw [hgone, hgone']

end

end Depot.Cache
