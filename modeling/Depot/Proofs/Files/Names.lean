import Depot.Proofs.Files.Frame

/-!
# Files by the texts of their paths

What a path leads to counts only if it is a file (`fileOf?`). Names that are joined to one text,
which may also be empty or end in a slash, are found in one directory (`exists_locate_join`), and so
different names at different places (`eq_of_locate_join`).
-/

namespace Depot.Files

variable {fs fs' : Files} {paths : List Path} {text base name name' : String} {p q : Path}

/-- The bytes and the age of the file that a path leads to. -/
def fileOf? (fs : Files) (text : String) : Option (ByteArray × Int) :=
  match fs.lookup text with
  | .ok (.file bytes age) => some (bytes, age)
  | _ => none

theorem fileOf?_eq_bind (fs : Files) (text : String) :
    fs.fileOf? text = (fs.locate text).toOption.bind fs.file? := by
  unfold fileOf? lookup
  cases fs.locate text with
  | error e => rfl
  | ok p =>
    simp only [Except.toOption, Option.bind_some, file?]
    cases fs.node? p with
    | none => rfl
    | some n => cases n <;> rfl

theorem fileOf?_of_locate (h : fs.locate text = .ok p) : fs.fileOf? text = fs.file? p := by
  rw [fileOf?_eq_bind, h]
  rfl

theorem locate_of_mem_toList (h : p ∈ (fs.locate text).toOption.toList) :
    fs.locate text = .ok p := by
  cases hlocate : fs.locate text with
  | error e => simp [hlocate, Except.toOption] at h
  | ok q =>
    obtain rfl : p = q := by simpa [hlocate, Except.toOption] using h
    rfl

theorem read_eq_ok_iff {bytes : ByteArray} :
    fs.read text = .ok bytes ↔ ∃ age, fs.fileOf? text = some (bytes, age) := by
  unfold read fileOf?
  split <;> simp_all

/-- A file that a change does not reach is as it was. -/
theorem SameBut.fileOf?_eq (h : SameBut paths fs fs')
    (hp : ∀ p, fs.locate text = .ok p → p ∉ paths) : fs'.fileOf? text = fs.fileOf? text := by
  rw [fileOf?_eq_bind, fileOf?_eq_bind, h.toOption_locate]
  cases hlocate : fs.locate text with
  | error e => rfl
  | ok p => exact h.files p (hp p hlocate)

theorem has_eq_true_iff : fs.has text = true ↔ (fs.fileOf? text).isSome = true ∨
    ∃ p, fs.locate text = .ok p ∧ fs.requireDir p = .ok () := by
  unfold has fileOf? lookup
  cases fs.locate text with
  | error e => simp
  | ok p =>
    simp only [Except.ok.injEq, exists_eq_left', requireDir_eq_ok_iff]
    cases fs.node? p with
    | none => simp
    | some n => cases n <;> simp

theorem SameBut.has_eq (h : SameBut paths fs fs') (hfile : fs'.fileOf? text = fs.fileOf? text) :
    fs'.has text = fs.has text := by
  rw [Bool.eq_iff_iff, has_eq_true_iff, has_eq_true_iff, hfile]
  simp only [h.locate_eq_ok_iff, h.dirs]

theorem has_of_age? {age : Int} (h : fs.age? text = some age) : fs.has text = true := by
  unfold age? at h
  unfold has
  cases hlookup : fs.lookup text with
  | error e => simp [hlookup] at h
  | ok n => rfl

theorem Free.age?_eq (h : fs.Free text) : fs.age? text = (fs.fileOf? text).map (·.2) := by
  unfold age? fileOf?
  cases hlookup : fs.lookup text with
  | error e => rfl
  | ok n =>
    cases n with
    | file bytes age => rfl
    | dir age => exact absurd hlookup (h.lookup_ne_dir age)

/-- A new age somewhere leaves the bytes of all files alone. -/
theorem bytes_setAge {changed : String} {age : Int} (h : fs.setAge changed age = some fs')
    (text : String) : (fs'.fileOf? text).map (·.1) = (fs.fileOf? text).map (·.1) := by
  obtain ⟨p, -, hsame, hfile⟩ := setAge_spec h
  rw [fileOf?_eq_bind, fileOf?_eq_bind, hsame.toOption_locate]
  cases (fs.locate text).toOption with
  | none => rfl
  | some q =>
    show (fs'.file? q).map (·.1) = (fs.file? q).map (·.1)
    by_cases hq : q = p
    · rw [hq, hfile, Option.map_map]
      rfl
    · rw [hsame.files q (by simpa using hq)]

/-! ## Names joined to a text -/

/-- A name stands behind a slash, unless there is one already. -/
theorem join_eq (hbase : base ≠ "") (hlast : base.toList.getLast? ≠ some '/')
    (hslash : '/' ∉ name.toList) : join base name = base ++ "/" ++ name := by
  have hhead : name.toList.head? ≠ some '/' := fun h => hslash (List.mem_of_head? h)
  unfold join
  split <;> simp_all

theorem le_utf8ByteSize_join (base : String) (hslash : '/' ∉ name.toList) :
    base.utf8ByteSize + name.utf8ByteSize ≤ (join base name).utf8ByteSize := by
  have hhead : name.toList.head? ≠ some '/' := fun h => hslash (List.mem_of_head? h)
  unfold join
  split
  · next h => exact absurd h hhead
  · next h _ => simp_all
  · simp
  · simp only [String.utf8ByteSize_append]
    omega

theorem utf8ByteSize_lt_of_locate (h : fs.locate text = .ok p) : text.utf8ByteSize < 4096 := by
  unfold locate at h
  split at h
  · cases h
  · split at h
    · cases h
    · split at h
      · cases h
      · omega

/-- A text has the same in front of all names that are joined to it: nothing, or what ends in a
slash. -/
theorem exists_join (base : String) :
    ∃ front, (front = "" ∨ ∃ back, front = back ++ "/") ∧
      ∀ name : String, '/' ∉ name.toList → join base name = front ++ name := by
  have hhead {name : String} (hslash : '/' ∉ name.toList) : name.toList.head? ≠ some '/' :=
    fun h => hslash (List.mem_of_head? h)
  by_cases hbase : base = ""
  · refine ⟨"", .inl rfl, fun name hslash => ?_⟩
    unfold join
    split <;> simp_all
  · by_cases hlast : base.toList.getLast? = some '/'
    · -- the text up to its last slash does for the directory
      obtain ⟨back, hback⟩ := List.getLast?_eq_some_iff.1 hlast
      have hends : base = .ofList back ++ "/" := String.toList_inj.1 (by simp [hback])
      refine ⟨base, .inr ⟨_, hends⟩, fun name hslash => ?_⟩
      unfold join
      rw [hlast]
      split <;> simp_all
    · exact ⟨base ++ "/", .inr ⟨base, rfl⟩, fun name hslash => join_eq hbase hlast hslash⟩

theorem exists_components_join (base : String) :
    ∃ start front, ∀ name : String, name ≠ "" → '/' ∉ name.toList →
      components (join base name) = (start, front ++ [name]) := by
  obtain ⟨front, rfl | ⟨back, rfl⟩, hjoin⟩ := exists_join base
  · refine ⟨[], [], fun name hname hslash => ?_⟩
    rw [hjoin name hslash, String.empty_append, components, List.splitOn_eq_singleton hslash]
    simp [hname]
  · obtain ⟨start, parts, hcomponents⟩ := exists_components_behind back
    exact ⟨start, parts, fun name _ hslash => by rw [hjoin name hslash, hcomponents name hslash]⟩

/-- All names that are joined to one text are found in one directory. -/
theorem exists_locate_join (fs : Files) (base : String) :
    ∃ d : Except PathError Path, ∀ {name : String} {p : Path}, Proper name → '/' ∉ name.toList →
      fs.locate (join base name) = .ok p →
        ∃ here, d = .ok here ∧ fs.requireDir here = .ok () ∧ p = here ++ [name] := by
  obtain ⟨start, front, hcomponents⟩ := exists_components_join base
  refine ⟨fs.walk start front, fun {name p} hname hslash h => ?_⟩
  unfold locate at h
  split at h
  · cases h
  · split at h
    · cases h
    · split at h
      · cases h
      · rw [hcomponents name hname.1 hslash, walk_append] at h
        cases hwalk : fs.walk start front with
        | error e => simp [hwalk, Except.bind] at h
        | ok here =>
          rw [hwalk] at h
          obtain ⟨hdir, -, rfl⟩ := (walk_proper hname here).1 h
          exact ⟨here, rfl, hdir, rfl⟩

theorem eq_of_locate_join (hname : Proper name) (hslash : '/' ∉ name.toList)
    (hname' : Proper name') (hslash' : '/' ∉ name'.toList)
    (h : fs.locate (join base name) = .ok p) (h' : fs.locate (join base name') = .ok p) :
    name = name' := by
  obtain ⟨d, hd⟩ := fs.exists_locate_join base
  obtain ⟨here, hhere, -, rfl⟩ := hd hname hslash h
  obtain ⟨here', hhere', -, heq⟩ := hd hname' hslash' h'
  obtain rfl : here = here' := Except.ok.inj (hhere.symm.trans hhere')
  simpa using heq

/-- Where a name is found that is joined to a text, there is a place for every one that is not
longer. -/
theorem locate_join_of_le (hname : Proper name) (hslash : '/' ∉ name.toList)
    (hname' : Proper name') (hslash' : '/' ∉ name'.toList) (hnul : Char.ofNat 0 ∉ name'.toList)
    (hsize : name'.utf8ByteSize ≤ name.utf8ByteSize) (h : fs.locate (join base name) = .ok p) :
    ∃ here, fs.requireDir here = .ok () ∧ fs.locate (join base name') = .ok (here ++ [name']) := by
  obtain ⟨start, parts, hcomponents⟩ := exists_components_join base
  obtain ⟨front, -, hjoin⟩ := exists_join base
  unfold locate at h ⊢
  rw [hcomponents name hname.1 hslash, hjoin name hslash] at h
  rw [hcomponents name' hname'.1 hslash', hjoin name' hslash']
  have hempty : (front ++ name').isEmpty = false := by simp [hname'.1]
  split at h
  · cases h
  · split at h
    · cases h
    · next hclean =>
      split at h
      · cases h
      · next hshort =>
        rw [walk_append] at h ⊢
        cases hwalk : fs.walk start parts with
        | error e => simp [hwalk, Except.bind] at h
        | ok here =>
          rw [hwalk] at h
          obtain ⟨hdir, hfits, rfl⟩ := (walk_proper hname here).1 h
          have hclean' : Char.ofNat 0 ∉ (front ++ name').toList := by simp_all
          have hshort' : ¬4096 ≤ (front ++ name').utf8ByteSize := by
            simp only [String.utf8ByteSize_append] at hshort ⊢
            omega
          refine ⟨here, hdir, ?_⟩
          simp only [hempty, Bool.false_eq_true, if_false, List.contains_eq_mem, hclean',
            decide_false, hshort']
          exact (walk_proper hname' here).2 ⟨hdir, Nat.le_trans hsize hfits, rfl⟩

/-- A name in a directory: what is found there is no starting point. -/
structure Inside (fs : Files) (p : Path) : Prop where
  parent : fs.requireDir (parent p) = .ok ()
  not_root : p ≠ [] ∧ p ≠ ["/"]

theorem inside_concat {here : Path} (hdir : fs.requireDir here = .ok ())
    (hslash : '/' ∉ name.toList) : Inside fs (here ++ [name]) := by
  refine ⟨by rwa [parent_concat hslash], by simp, fun h => ?_⟩
  obtain rfl : name = "/" := by simpa using congrArg List.getLast? h
  exact hslash (by decide)

theorem inside_of_locate_join (hname : Proper name) (hslash : '/' ∉ name.toList)
    (h : fs.locate (join base name) = .ok p) : Inside fs p := by
  obtain ⟨d, hd⟩ := fs.exists_locate_join base
  obtain ⟨here, -, hdir, rfl⟩ := hd hname hslash h
  exact inside_concat hdir hslash

theorem SameBut.inside (h : SameBut paths fs fs') (hp : Inside fs p) : Inside fs' p :=
  ⟨(h.dirs _).2 hp.parent, hp.not_root⟩

theorem Inside.place {file : ByteArray × Int} (h : Inside fs p) (hfile : fs.file? p = some file) :
    Place fs p := by
  refine ⟨fun hdir => ?_, h.parent⟩
  obtain ⟨age, hnode⟩ := requireDir_eq_ok_iff.1 hdir
  simp [file?, hnode] at hfile

/-! ## Removing and moving -/

theorem exists_file_of_remove (h : fs.remove text = .ok fs') :
    ∃ p file, fs.locate text = .ok p ∧ fs.file? p = some file := by
  unfold remove at h
  split at h
  · cases h
  · next p hlocate =>
    split at h
    · cases h
    · cases h
    · next bytes age hnode => exact ⟨p, _, hlocate, node?_eq_file_iff.1 hnode⟩

theorem remove_of_inside (h : fs.remove text = .ok fs') (hlocate : fs.locate text = .ok p)
    (hp : Inside fs p) : SameBut [p] fs fs' ∧ fs'.file? p = none := by
  obtain ⟨p', file, hlocate', hfile⟩ := exists_file_of_remove h
  obtain rfl : p = p' := Except.ok.inj (hlocate.symm.trans hlocate')
  obtain ⟨fs'', hremove, hsame, hgone⟩ := remove_spec hlocate (hp.place hfile) hfile
  obtain rfl : fs' = fs'' := Except.ok.inj (h.symm.trans hremove)
  exact ⟨hsame, hgone⟩

theorem exists_file_of_rename {target : String} (h : fs.rename text target = .ok fs') :
    ∃ p q file, fs.locate text = .ok p ∧ fs.file? p = some file ∧ fs.locate target = .ok q := by
  unfold rename at h
  split at h
  · cases h
  · next p hlocate =>
    split at h
    · cases h
    · cases h
    · next bytes age hnode =>
      split at h
      · cases h
      · next q htarget => exact ⟨p, q, _, hlocate, node?_eq_file_iff.1 hnode, htarget⟩

/-- A move that went well has taken the file from one place to the other. -/
theorem rename_of_inside {target : String} {file : ByteArray × Int}
    (h : fs.rename text target = .ok fs') (hlocate : fs.locate text = .ok p)
    (htarget : fs.locate target = .ok q) (hp : Inside fs p) (hq : Inside fs q) (hne : p ≠ q)
    (hfile : fs.file? p = some file) :
    SameBut [p, q] fs fs' ∧ fs'.file? p = none ∧ fs'.file? q = some file := by
  obtain ⟨fs'', hrename, hsame, hgone, hthere⟩ := rename_spec hlocate hfile (hp.place hfile) htarget
    ⟨free_of_rename h htarget, hq.parent⟩ hne
  obtain rfl : fs' = fs'' := Except.ok.inj (h.symm.trans hrename)
  exact ⟨hsame, hgone, hthere⟩

/-- A file can be moved to exactly the other places in which there can be one. -/
theorem exists_rename_iff {target : String} {file : ByteArray × Int}
    (hlocate : fs.locate text = .ok p) (hp : Inside fs p) (hfile : fs.file? p = some file)
    (htarget : ∀ q, fs.locate target = .ok q → Inside fs q ∧ p ≠ q) :
    (∃ fs', fs.rename text target = .ok fs') ↔ ∃ q, fs.locate target = .ok q ∧ Place fs q := by
  constructor
  · rintro ⟨fs', hrename⟩
    obtain ⟨-, q, -, -, -, hq⟩ := exists_file_of_rename hrename
    exact ⟨q, hq, free_of_rename hrename hq, (htarget q hq).1.parent⟩
  · rintro ⟨q, hq, hplace⟩
    obtain ⟨fs', hrename, -⟩ :=
      rename_spec hlocate hfile (hp.place hfile) hq hplace (htarget q hq).2
    exact ⟨fs', hrename⟩

end Depot.Files
