import Depot.Proofs.Cache.Records
import Depot.Proofs.Files.Frame
import Depot.Proofs.Text.Decimal
import Depot.Proofs.Text.Joined

/-!
# One entry of the cache

Opening an entry changes two files at most, the entry and the temporary file beside it, and it does
one of four things. It takes a fresh entry as it is (`openEntry_fresh`), it cannot even begin the
temporary file (`openEntry_of_unwritable`), it gives up and leaves the entry as it was
(`openEntry_failed`), or it puts what was produced in the place of the entry, with age zero
(`openEntry_published`). The last two need an entry that can be written, which is a matter of the
directories only (`Ready`, `Writable.ready`), also where the key leads to other directories.
-/

namespace Depot.Cache

open Files

variable {fs fs' : Files} {path : String} {p q : Path} {bytes : ByteArray}

/-- What an entry holds, if it is there. -/
def held (fs : Files) (path : String) : Option ByteArray := (fs.read path).toOption

/-- An entry can be written: there is a temporary file for it, and no directory in its place. -/
structure Writable (fs : Files) (path : String) : Prop where
  temp : (fs.write (temporary path) .empty).isOk = true
  free : fs.read path ≠ .error .isDirectory

/-- The files that the source of an entry is run over. -/
def underway (fs : Files) (path : String) : Files :=
  match fs.write (temporary path) .empty with
  | .ok started => started
  | .error _ => fs

/-! ## Places -/

/-- The entry and its temporary file are found at two places for files. -/
structure Ready (fs : Files) (path : String) (p q : Path) : Prop where
  entry : fs.locate path = .ok p
  temp : fs.locate (temporary path) = .ok q
  place : Place fs p
  place' : Place fs q
  ne : p ≠ q

namespace Ready

theorem after {paths : List Path} (h : Ready fs path p q) (hsame : SameBut paths fs fs') :
    Ready fs' path p q :=
  ⟨hsame.locate_eq_ok_iff.2 h.entry, hsame.locate_eq_ok_iff.2 h.temp,
    hsame.place_iff.2 h.place, hsame.place_iff.2 h.place', h.ne⟩

theorem read_eq (h : Ready fs path p q) :
    fs.read path = match fs.file? p with
      | some (bytes, _) => .ok bytes
      | none => .error .missing := by
  cases hfile : fs.file? p with
  | some file => exact read_of_file? h.entry hfile
  | none => simp [Files.read, lookup, h.entry, h.place.node?_eq_none_iff.2 hfile]

theorem held_eq (h : Ready fs path p q) : held fs path = (fs.file? p).map (·.1) := by
  unfold held
  rw [h.read_eq]
  cases fs.file? p <;> rfl

theorem lookup_congr (h : Ready fs path p q) (h' : Ready fs' path p q)
    (hfile : fs'.file? p = fs.file? p) : fs'.lookup path = fs.lookup path := by
  unfold lookup
  rw [h.entry, h'.entry]
  cases hold : fs.file? p with
  | some file =>
    simp only [node?_eq_file_iff.2 hold, node?_eq_file_iff.2 (hfile.trans hold)]
  | none =>
    simp only [h.place.node?_eq_none_iff.2 hold, h'.place.node?_eq_none_iff.2 (hfile.trans hold)]

theorem write_temp (h : Ready fs path p q) (bytes : ByteArray) :
    fs.write (temporary path) bytes = .ok (fs.put q (.file bytes 0)) :=
  write_eq_ok_iff.2 ⟨q, h.temp, h.place', rfl⟩

theorem underway_eq (h : Ready fs path p q) : underway fs path = fs.put q (.file .empty 0) := by
  simp [underway, h.write_temp]

theorem writable (h : Ready fs path p q) : Writable fs path := by
  refine ⟨by rw [h.write_temp]; rfl, ?_⟩
  rw [h.read_eq]
  split <;> simp

theorem discard_temp (h : Ready fs path p q) (bytes : ByteArray) :
    SameBut [q] fs (discard (fs.put q (.file bytes 0)) (temporary path)) ∧
      (discard (fs.put q (.file bytes 0)) (temporary path)).file? q = none := by
  have hput := sameBut_put h.place'.free bytes 0
  obtain ⟨fs', hremove, hsame, hgone⟩ := remove_spec (hput.locate_eq_ok_iff.2 h.temp)
    (hput.place_iff.2 h.place') (file?_put fs q bytes 0)
  rw [discard, hremove]
  exact ⟨(hput.trans hsame).mono (by simp), hgone⟩

/-- Publishing moves what was written into the place of the entry. -/
theorem publish_spec (h : Ready fs path p q) (bytes : ByteArray) :
    ∃ fs', publish fs path bytes = .ok fs' ∧ SameBut [p, q] fs fs' ∧
      fs'.file? p = some (bytes, 0) ∧ fs'.file? q = none := by
  have hput := sameBut_put h.place'.free bytes 0
  obtain ⟨fs', hrename, hsame, hgone, hthere⟩ :=
    rename_spec (hput.locate_eq_ok_iff.2 h.temp) (file?_put fs q bytes 0)
      (hput.place_iff.2 h.place') (hput.locate_eq_ok_iff.2 h.entry) (hput.place_iff.2 h.place)
      h.ne.symm
  refine ⟨fs', ?_, (hput.trans hsame).mono (by simp), hthere, hgone⟩
  simp only [publish, h.write_temp]
  exact hrename

end Ready

/-! ## Opening -/

section Opening

variable {α : Type} {expire : Nat} (produce : Files → Produced α)

theorem isFresh_iff :
    isFresh fs path expire = true ↔ ∃ age, fs.age? path = some age ∧ 0 ≤ age ∧ age < expire := by
  unfold isFresh
  cases fs.age? path <;> simp

theorem not_isFresh_zero : isFresh fs path 0 = false := by
  rw [Bool.eq_false_iff, Ne, isFresh_iff]
  rintro ⟨age, -, hle, hlt⟩
  omega

theorem openEntry_fresh (hfresh : isFresh fs path expire = true)
    (hheld : held fs path = some bytes) :
    openEntry fs path expire produce = ⟨fs, none, .ok bytes⟩ := by
  have hread : fs.read path = .ok bytes := by
    unfold held at hheld
    cases h : fs.read path <;> simp_all [Except.toOption]
  simp [openEntry, hfresh, hread, Except.mapError]

theorem openEntry_of_unwritable {e : PathError} (hstale : isFresh fs path expire = false)
    (hwrite : fs.write (temporary path) .empty = .error e) :
    openEntry fs path expire produce = ⟨discard fs (temporary path), none, .error (.ofPath e)⟩ := by
  simp only [openEntry, hstale, hwrite, Bool.false_eq_true, if_false]

theorem openEntry_failed (h : Ready fs path p q) (hstale : isFresh fs path expire = false)
    {e : Failure} (hfail : (produce (underway fs path)).result = .error e) :
    ∃ fs', openEntry fs path expire produce =
        ⟨fs', some (produce (underway fs path)).report, .error e⟩ ∧
      SameBut [q] fs fs' ∧ fs'.file? q = none := by
  rw [h.underway_eq] at hfail ⊢
  refine ⟨_, ?_, h.discard_temp .empty⟩
  simp only [openEntry, hstale, h.write_temp, hfail]
  rfl

theorem openEntry_published (h : Ready fs path p q) (hstale : isFresh fs path expire = false)
    (hdone : (produce (underway fs path)).result = .ok ()) :
    ∃ fs', openEntry fs path expire produce =
        ⟨fs', some (produce (underway fs path)).report,
          .ok (produce (underway fs path)).bytes⟩ ∧
      SameBut [p, q] fs fs' ∧ fs'.file? p = some ((produce (underway fs path)).bytes, 0) ∧
      fs'.file? q = none := by
  rw [h.underway_eq] at hdone ⊢
  have hput := sameBut_put h.place'.free .empty 0
  obtain ⟨fs', hpublish, hsame, hthere, hgone⟩ :=
    (h.after hput).publish_spec (produce (fs.put q (.file .empty 0))).bytes
  have hread := ((h.after hput).after hsame).read_eq
  rw [hthere] at hread
  refine ⟨fs', ?_, (hput.trans hsame).mono (by simp), hthere, hgone⟩
  simp only [openEntry, hstale, h.write_temp, hdone, hpublish, hread]
  rfl

end Opening

/-! ## Entries of keys -/

/-- The name of an entry in the directory. -/
def entryName (key : String) (version : Nat) : String := key ++ "_" ++ toString version ++ ".bin"

variable {c : Cache} {key key' : String} {version version' : Nat}

theorem isDigit_of_mem_version {ch : Char} (h : ch ∈ (toString version).toList) :
    ch.isDigit = true :=
  Text.Decimal.isDigit_of_mem_toDigits (n := version) (by simpa using h)

/-- The digits behind the last underscore are the version. -/
theorem entryName_inj :
    entryName key version = entryName key' version' ↔ key = key' ∧ version = version' := by
  have hdigits (version : Nat) : '_' ∉ (toString version).toList :=
    fun h => absurd (isDigit_of_mem_version h) (by decide)
  have hversion : toString version = toString version' ↔ version = version' := by
    refine ⟨fun h => ?_, fun h => by rw [h]⟩
    rw [← Text.Decimal.value_toDigits version, ← Text.Decimal.value_toDigits version']
    exact congrArg Text.Decimal.value (by simpa using congrArg String.toList h)
  have hjoin : key ++ "_" ++ toString version = key' ++ "_" ++ toString version' ↔
      key = key' ∧ toString version = toString version' :=
    Text.join_inj_right rfl (hdigits version) (hdigits version')
  rw [hversion] at hjoin
  rw [entryName, entryName, String.append_left_inj, hjoin]

theorem entryName_ne_append_tmp : entryName key version ≠ entryName key' version' ++ ".tmp" := by
  have hentry : (entryName key version).toList.getLast? = some 'n' := by
    rw [entryName, String.toList_append, List.getLast?_append]
    rfl
  have htemp : (entryName key' version' ++ ".tmp").toList.getLast? = some 'p' := by
    rw [String.toList_append, List.getLast?_append]
    rfl
  intro h
  rw [h, htemp] at hentry
  exact absurd hentry (by decide)

theorem proper_entryName_append (key : String) (version : Nat) (suffix : String) :
    Proper (entryName key version ++ suffix) := by
  -- the name ends in `.bin`, so it is longer than what a path skips or climbs by
  have hlength : ".bin".length = 4 := rfl
  refine proper_of_length ?_
  simp only [entryName, String.length_append]
  omega

theorem slash_not_mem_entryName (hkey : '/' ∉ key.toList) :
    '/' ∉ (entryName key version).toList := by
  have hversion : '/' ∉ (toString version).toList :=
    fun h => absurd (isDigit_of_mem_version h) (by decide)
  simp only [entryName, String.toList_append, List.mem_append, hkey, hversion, false_or]
  decide

theorem exists_directory_eq (c : Cache) : ∃ front, c.directory = front ++ "managed" := by
  unfold directory join
  split
  · next h => exact absurd h (by decide)
  · exact ⟨"", by simp⟩
  · exact ⟨c.root, rfl⟩
  · exact ⟨c.root ++ "/", rfl⟩

theorem directory_ne_empty (c : Cache) : c.directory ≠ "" := by
  obtain ⟨front, h⟩ := c.exists_directory_eq
  simp [h]

theorem entryPath_eq (hkey : '/' ∉ key.toList) :
    c.entryPath key version = c.directory ++ "/" ++ entryName key version := by
  obtain ⟨front, hdirectory⟩ := c.exists_directory_eq
  have hlast : c.directory.toList.getLast? = some 'd' := by
    rw [hdirectory, String.toList_append, List.getLast?_append]
    rfl
  have hhead : (entryName key version).toList.head? ≠ some '/' :=
    fun h => slash_not_mem_entryName hkey (List.mem_of_head? h)
  show join c.directory (entryName key version) = _
  unfold join
  rw [hlast]
  split
  · next h => exact absurd h hhead
  · next h _ => cases h
  · next h _ => exact absurd h (by decide)
  · rfl

theorem temporary_eq (hkey : '/' ∉ key.toList) : temporary (c.entryPath key version) =
    c.directory ++ "/" ++ (entryName key version ++ ".tmp") := by
  rw [entryPath_eq hkey, temporary, String.append_assoc]

/-- The system can tell the name of the temporary file, and so that of the entry. -/
structure Fits (c : Cache) (key : String) (version : Nat) : Prop where
  path : (temporary (c.entryPath key version)).utf8ByteSize < 4096
  name : (entryName key version ++ ".tmp").utf8ByteSize ≤ 255
  nul : Char.ofNat 0 ∉ (entryName key version ++ ".tmp").toList

theorem locate_temporary_iff (hkey : '/' ∉ key.toList) :
    fs.locate (temporary (c.entryPath key version)) = .ok q ↔
      Fits c key version ∧ ∃ d, fs.locate c.directory = .ok d ∧ fs.requireDir d = .ok () ∧
        q = d ++ [entryName key version ++ ".tmp"] := by
  have hslash : '/' ∉ (entryName key version ++ ".tmp").toList := by
    simp [slash_not_mem_entryName hkey]
  rw [temporary_eq hkey, locate_below c.directory_ne_empty
    (proper_entryName_append key version ".tmp") hslash, ← temporary_eq hkey]
  constructor
  · rintro ⟨hpath, hnul, d, hd, hdir, hname, hq⟩
    exact ⟨⟨hpath, hname, hnul⟩, d, hd, hdir, hq⟩
  · rintro ⟨⟨hpath, hname, hnul⟩, d, hd, hdir, hq⟩
    exact ⟨hpath, hnul, d, hd, hdir, hname, hq⟩

theorem Fits.locate_entryPath {d : Path} (h : Fits c key version) (hkey : '/' ∉ key.toList)
    (hd : fs.locate c.directory = .ok d) (hdir : fs.requireDir d = .ok ()) :
    fs.locate (c.entryPath key version) = .ok (d ++ [entryName key version]) := by
  obtain ⟨hpath, hname, hnul⟩ := h
  have hproper : Proper (entryName key version) := by
    simpa using proper_entryName_append key version ""
  rw [temporary_eq hkey] at hpath
  rw [entryPath_eq hkey]
  refine (locate_below c.directory_ne_empty hproper (slash_not_mem_entryName hkey)).2
    ⟨?_, ?_, d, hd, hdir, ?_, rfl⟩
  · simp only [String.utf8ByteSize_append] at hpath ⊢
    omega
  · simp_all
  · rw [String.utf8ByteSize_append] at hname
    omega

/-! ## Entries of any key -/

theorem exists_entryPath_behind (c : Cache) (key : String) (version : Nat) :
    ∃ base name, c.entryPath key version = base ++ "/" ++ (name ++ ".bin") ∧ '/' ∉ name.toList := by
  -- the slash may come from the key, so the last one is taken
  have hslash : ∃ text, c.entryPath key version = text ++ ".bin" ∧ '/' ∈ text.toList := by
    obtain ⟨front, hdirectory⟩ := c.exists_directory_eq
    have hlast : c.directory.toList.getLast? = some 'd' := by
      rw [hdirectory, String.toList_append, List.getLast?_append]
      rfl
    show ∃ text, join c.directory (key ++ "_" ++ toString version ++ ".bin") = _ ∧ _
    unfold join
    rw [hlast]
    split
    · next h =>
      refine ⟨key ++ "_" ++ toString version, rfl, ?_⟩
      have hhead : (key ++ "_").toList.head? = some '/' := by
        cases hkey : key.toList with
        | nil => simp [hkey] at h
        | cons d rest => simpa [hkey] using h
      have hmem := List.mem_of_head? hhead
      rw [String.toList_append]
      exact List.mem_append_left _ hmem
    · next h _ => cases h
    · next h _ => exact absurd h (by decide)
    · refine ⟨c.directory ++ "/" ++ (key ++ "_" ++ toString version), ?_, by simp⟩
      simp only [String.append_assoc]
  obtain ⟨text, htext, hmem⟩ := hslash
  obtain ⟨back, front, hback, hnot⟩ := List.eq_append_cons_of_mem (List.mem_reverse.2 hmem)
  have hsplit : text.toList = front.reverse ++ '/' :: back.reverse := by
    simpa using congrArg List.reverse hback
  refine ⟨.ofList front.reverse, .ofList back.reverse, ?_, by simpa using hnot⟩
  rw [htext, ← String.append_assoc]
  congr 1
  apply String.toList_inj.1
  simp [hsplit]

/-- The place of an entry is beside that of its temporary file. -/
theorem exists_entry_beside (h : fs.locate (temporary (c.entryPath key version)) = .ok q) :
    ∃ p, fs.locate (c.entryPath key version) = .ok p ∧ fs.requireDir (parent p) = .ok () ∧
      p ≠ q := by
  obtain ⟨base, name, hpath, hslash⟩ := c.exists_entryPath_behind key version
  have hslash' : '/' ∉ (name ++ ".bin").toList := by simp [hslash]
  have hlength : ".bin".length = 4 := rfl
  have hproper : Proper (name ++ ".bin") :=
    proper_of_length (by rw [String.length_append]; omega)
  have hproper' : Proper (name ++ ".bin" ++ ".tmp") :=
    proper_of_length (by rw [String.length_append, String.length_append]; omega)
  rw [hpath, temporary, String.append_assoc] at h
  obtain ⟨d, hdir, rfl, hentry⟩ := locate_beside hproper hslash' hproper' (by decide) h
  refine ⟨d ++ [name ++ ".bin"], hpath ▸ hentry, ?_, ?_⟩
  · rwa [parent_concat hslash']
  · simp [String.ext_iff]

/-- Where a temporary file can be written, so can the entry, if no directory is in its place. -/
theorem exists_ready {started : Files}
    (hwrite : fs.write (temporary (c.entryPath key version)) .empty = .ok started)
    (hfree : fs.Free (c.entryPath key version)) :
    ∃ p q, Ready fs (c.entryPath key version) p q := by
  obtain ⟨q, htemp, hplace, -⟩ := write_eq_ok_iff.1 hwrite
  obtain ⟨p, hentry, hparent, hne⟩ := exists_entry_beside htemp
  exact ⟨p, q, hentry, htemp, ⟨hfree p hentry, hparent⟩, hplace, hne⟩

theorem Writable.ready (h : Writable fs (c.entryPath key version)) :
    ∃ p q, Ready fs (c.entryPath key version) p q := by
  obtain ⟨hok, hfree⟩ := h
  cases hwrite : fs.write (temporary (c.entryPath key version)) .empty with
  | error e => simp [hwrite, Except.isOk, Except.toBool] at hok
  | ok started =>
    refine exists_ready hwrite fun p hentry hdir => ?_
    obtain ⟨age, hnode⟩ := requireDir_eq_ok_iff.1 hdir
    exact hfree (by simp [Files.read, lookup, hentry, hnode])

end Depot.Cache
