import Depot.Files

/-!
# What changes of files leave alone

Where a path leads depends on the directories only, and writing, removing and moving files leaves
all directories in place. So every such change can be described by the paths at which it changes a
file (`SameBut`), and a path that led somewhere before leads there afterwards
(`SameBut.locate_eq_ok_iff`). Ages of directories are not part of the description.
-/

namespace Depot.Files

variable {fs fs' fs'' : Files} {p q : Path}

theorem requireDir_eq_ok_iff : fs.requireDir p = .ok () ↔ ∃ age, fs.node? p = some (.dir age) := by
  unfold requireDir
  split <;> simp_all

/-- The bytes and the age of the file at a resolved path. -/
def file? (fs : Files) (p : Path) : Option (ByteArray × Int) :=
  match fs.node? p with
  | some (.file bytes age) => some (bytes, age)
  | _ => none

/-! ## Walking -/

theorem walk_append (fs : Files) (here : Path) (front back : List String) :
    fs.walk here (front ++ back) = (fs.walk here front).bind fun p => fs.walk p back := by
  induction front generalizing here with
  | nil => rfl
  | cons part rest ih =>
    simp only [List.cons_append, walk]
    split
    · rfl
    · split
      · exact ih here
      · split
        · exact ih _
        · split
          · rfl
          · exact ih _

/-- A name that stands for itself in a path: no way up and nothing to skip. -/
def Proper (name : String) : Prop := name ≠ "" ∧ name ≠ "." ∧ name ≠ ".."

theorem walk_proper {name : String} (h : Proper name) (here : Path) :
    fs.walk here [name] = .ok p ↔
      fs.requireDir here = .ok () ∧ name.utf8ByteSize ≤ 255 ∧ p = here ++ [name] := by
  obtain ⟨hempty, hdot, hup⟩ := h
  simp only [walk]
  split
  · next herror => simp [herror]
  · next hok =>
    rw [if_neg (by simp [hempty, hdot]), if_neg hup]
    by_cases hsize : 255 < name.utf8ByteSize
    · simp [hsize, Nat.not_le.2 hsize]
    · simp [hok, hsize, eq_comm, Nat.not_lt.1 hsize]

theorem walk_mono (h : ∀ p, fs.requireDir p = .ok () → fs'.requireDir p = .ok ()) {here : Path}
    {parts : List String} (hwalk : fs.walk here parts = .ok p) : fs'.walk here parts = .ok p := by
  induction parts generalizing here with
  | nil => exact hwalk
  | cons part rest ih =>
    simp only [walk] at hwalk ⊢
    split at hwalk
    · cases hwalk
    · next hok =>
      rw [h here hok]
      split at hwalk
      · next hskip =>
        simp only [if_pos hskip]
        exact ih hwalk
      · next hskip =>
        simp only [if_neg hskip]
        split at hwalk
        · next hup =>
          simp only [if_pos hup]
          exact ih hwalk
        · next hup =>
          simp only [if_neg hup]
          split at hwalk
          · cases hwalk
          · next hsize =>
            simp only [if_neg hsize]
            exact ih hwalk

/-! ## Names in a directory -/

theorem proper_of_length {name : String} (h : 3 ≤ name.length) : Proper name := by
  refine ⟨?_, ?_, ?_⟩ <;> rintro rfl <;> exact absurd h (by decide)

theorem splitOn_behind {base name : String} (hname : '/' ∉ name.toList) :
    (base ++ "/" ++ name).toList.splitOn '/' = base.toList.splitOn '/' ++ [name.toList] := by
  rw [String.toList_append, String.toList_append, List.append_assoc]
  show (base.toList ++ '/' :: name.toList).splitOn '/' = _
  rw [List.splitOn_append_cons_self, List.splitOn_eq_singleton hname]

theorem components_below {base name : String} (hname : '/' ∉ name.toList) :
    components (base ++ "/" ++ name) = ((components base).1, (components base).2 ++ [name]) := by
  unfold components
  rw [splitOn_behind hname, List.map_append]
  cases hparts : (base.toList.splitOn '/').map String.ofList with
  | nil => simp at hparts
  | cons first rest =>
    by_cases hfirst : first = ""
    · simp [hfirst]
    · simp [hfirst]

theorem parent_concat {name : String} (hslash : '/' ∉ name.toList) (d : Path) :
    parent (d ++ [name]) = d := by
  unfold parent
  rw [if_neg, List.dropLast_concat]
  intro heq
  have hname : name ∈ ["/"] := heq ▸ by simp
  rw [List.mem_singleton.1 hname] at hslash
  exact hslash (by decide)

/-- Where a name in a directory is found. -/
theorem locate_below {base name : String} (hbase : base ≠ "") (hname : Proper name)
    (hslash : '/' ∉ name.toList) :
    fs.locate (base ++ "/" ++ name) = .ok p ↔
      (base ++ "/" ++ name).utf8ByteSize < 4096 ∧ Char.ofNat 0 ∉ name.toList ∧
        ∃ d, fs.locate base = .ok d ∧ fs.requireDir d = .ok () ∧ name.utf8ByteSize ≤ 255 ∧
          p = d ++ [name] := by
  have hshorter : base.utf8ByteSize ≤ (base ++ "/" ++ name).utf8ByteSize := by
    rw [String.utf8ByteSize_append, String.utf8ByteSize_append]
    omega
  have hempty : (base ++ "/" ++ name).isEmpty = false := by simp [hbase]
  have hempty' : base.isEmpty = false := by simp [hbase]
  have hnul : (base ++ "/" ++ name).toList.contains (Char.ofNat 0) =
      (base.toList.contains (Char.ofNat 0) || name.toList.contains (Char.ofNat 0)) := by
    simp
  unfold locate
  rw [hempty, hempty', hnul, components_below hslash, walk_append]
  generalize (base ++ "/" ++ name).utf8ByteSize = size at hshorter ⊢
  cases hb : base.toList.contains (Char.ofNat 0) with
  | true => simp
  | false =>
    by_cases hn : Char.ofNat 0 ∈ name.toList
    · simp [hn]
    · by_cases hlong : 4096 ≤ size
      · simp [hn, hlong, Nat.not_lt.2 hlong]
      · have hlong' : ¬4096 ≤ base.utf8ByteSize := by omega
        simp only [List.contains_eq_mem, hn, decide_false, Bool.or_false, Bool.false_eq_true,
          if_false, hlong, hlong', Nat.not_le.1 hlong, true_and, not_false_eq_true]
        cases fs.walk (components base).1 (components base).2 with
        | error e => simp [Except.bind]
        | ok d => simp only [Except.bind, walk_proper hname, Except.ok.injEq, exists_eq_left']

theorem exists_components_behind (base : String) :
    ∃ start front, ∀ name : String, '/' ∉ name.toList →
      components (base ++ "/" ++ name) = (start, front ++ [name]) := by
  cases hparts : (base.toList.splitOn '/').map String.ofList with
  | nil => simp at hparts
  | cons first rest =>
    by_cases hfirst : first = ""
    · refine ⟨["/"], rest, fun name hname => ?_⟩
      unfold components
      rw [splitOn_behind hname, List.map_append, hparts, hfirst]
      simp
    · refine ⟨[], first :: rest, fun name hname => ?_⟩
      unfold components
      rw [splitOn_behind hname, List.map_append, hparts]
      simp [hfirst]

/-- A name is found beside one that begins with it. Here the part in front of the slash may be
empty, and then the slash is the starting point. -/
theorem locate_beside {base name suffix : String} (hname : Proper name)
    (hslash : '/' ∉ name.toList) (hproper : Proper (name ++ suffix))
    (hsuffix : '/' ∉ suffix.toList) (h : fs.locate (base ++ "/" ++ (name ++ suffix)) = .ok q) :
    ∃ d, fs.requireDir d = .ok () ∧ q = d ++ [name ++ suffix] ∧
      fs.locate (base ++ "/" ++ name) = .ok (d ++ [name]) := by
  obtain ⟨start, front, hcomponents⟩ := exists_components_behind base
  have hwhole : '/' ∉ (name ++ suffix).toList := by simp [hslash, hsuffix]
  have hempty : (base ++ "/" ++ name).isEmpty = false := by simp
  unfold locate at h ⊢
  rw [hcomponents _ hwhole] at h
  rw [hcomponents _ hslash, hempty]
  split at h
  · cases h
  · split at h
    · cases h
    · next hnul =>
      split at h
      · cases h
      · next hlong =>
        rw [walk_append] at h
        cases hwalk : fs.walk start front with
        | error e => simp [hwalk, Except.bind] at h
        | ok d =>
          rw [hwalk] at h
          obtain ⟨hdir, hsize, rfl⟩ := (walk_proper hproper d).1 h
          have hnul' : Char.ofNat 0 ∉ (base ++ "/" ++ name).toList := by simp_all
          have hlong' : ¬4096 ≤ (base ++ "/" ++ name).utf8ByteSize := by
            simp only [String.utf8ByteSize_append] at hlong ⊢
            omega
          have hsize' : name.utf8ByteSize ≤ 255 := by
            rw [String.utf8ByteSize_append] at hsize
            omega
          refine ⟨d, hdir, rfl, ?_⟩
          simp only [Bool.false_eq_true, if_false, List.contains_eq_mem, hnul', decide_false,
            hlong', walk_append, hwalk]
          exact (walk_proper hname d).2 ⟨hdir, hsize', rfl⟩

/-- A text leads to the same place where there are more directories. -/
theorem locate_mono (h : ∀ p, fs.requireDir p = .ok () → fs'.requireDir p = .ok ())
    {text : String} : fs.locate text = .ok p → fs'.locate text = .ok p := by
  unfold locate
  split
  · exact id
  · split
    · exact id
    · split
      · exact id
      · exact walk_mono h

/-! ## Changes at some paths -/

/-- The same directories, and the same files except at some paths. -/
structure SameBut (paths : List Path) (fs fs' : Files) : Prop where
  dirs : ∀ p, fs'.requireDir p = .ok () ↔ fs.requireDir p = .ok ()
  files : ∀ p, p ∉ paths → fs'.file? p = fs.file? p

namespace SameBut

variable {paths paths' : List Path}

theorem refl (fs : Files) : SameBut [] fs fs := ⟨fun _ => Iff.rfl, fun _ _ => rfl⟩

theorem trans (h : SameBut paths fs fs') (h' : SameBut paths' fs' fs'') :
    SameBut (paths ++ paths') fs fs'' := by
  refine ⟨fun p => (h'.dirs p).trans (h.dirs p), fun p hp => ?_⟩
  rw [List.mem_append, not_or] at hp
  exact (h'.files p hp.2).trans (h.files p hp.1)

theorem symm (h : SameBut paths fs fs') : SameBut paths fs' fs :=
  ⟨fun p => (h.dirs p).symm, fun p hp => (h.files p hp).symm⟩

theorem mono (h : SameBut paths fs fs') (hsub : paths ⊆ paths') : SameBut paths' fs fs' :=
  ⟨h.dirs, fun p hp => h.files p fun hmem => hp (hsub hmem)⟩

theorem locate_eq_ok_iff (h : SameBut paths fs fs') {text : String} :
    fs'.locate text = .ok p ↔ fs.locate text = .ok p :=
  ⟨locate_mono fun p => (h.dirs p).1, locate_mono fun p => (h.dirs p).2⟩

theorem toOption_locate (h : SameBut paths fs fs') (text : String) :
    (fs'.locate text).toOption = (fs.locate text).toOption := by
  have hiff (fs : Files) (p : Path) :
      (fs.locate text).toOption = some p ↔ fs.locate text = .ok p := by
    cases fs.locate text <;> simp [Except.toOption]
  ext p
  rw [hiff, hiff, h.locate_eq_ok_iff]

end SameBut

/-! ## Single changes -/

theorem node?_insert (nodes : Table Path Node) (n : Node) :
    (Files.mk (nodes.insert p n)).node? q = if q = p then some n else (Files.mk nodes).node? q := by
  unfold node?
  rw [Table.get?_insert]
  by_cases hq : q = p
  · rw [if_pos hq, if_pos hq]
  · rw [if_neg hq, if_neg hq]

theorem sameBut_insert_dir {age : Int} (hp : fs.node? p = some (.dir age)) (age' : Int) :
    SameBut [] fs { fs with nodes := fs.nodes.insert p (.dir age') } := by
  refine ⟨fun q => ?_, fun q _ => ?_⟩
  · rw [requireDir_eq_ok_iff, requireDir_eq_ok_iff, node?_insert]
    by_cases hq : q = p
    · subst hq
      simp [hp]
    · rw [if_neg hq]
  · unfold file?
    rw [node?_insert]
    by_cases hq : q = p
    · subst hq
      simp [hp]
    · rw [if_neg hq]

theorem sameBut_touch (fs : Files) (p : Path) : SameBut [] fs (fs.touch p) := by
  unfold touch
  split
  · next age hnode =>
    have hdir : fs.node? p = some (.dir age) := by simp [node?, hnode]
    exact sameBut_insert_dir hdir 0
  · exact .refl fs

theorem sameBut_insert (hp : fs.requireDir p ≠ .ok ()) (bytes : ByteArray) (age : Int) :
    SameBut [p] fs { fs with nodes := fs.nodes.insert p (.file bytes age) } := by
  refine ⟨fun q => ?_, fun q hq => ?_⟩
  · by_cases hq : q = p
    · subst hq
      refine ⟨fun h => ?_, fun h => absurd h hp⟩
      obtain ⟨_, h⟩ := requireDir_eq_ok_iff.1 h
      simp [node?_insert] at h
    · rw [requireDir_eq_ok_iff, requireDir_eq_ok_iff, node?_insert, if_neg hq]
  · unfold file?
    rw [node?_insert, if_neg (by simpa using hq)]

theorem sameBut_put (hp : fs.requireDir p ≠ .ok ()) (bytes : ByteArray) (age : Int) :
    SameBut [p] fs (fs.put p (.file bytes age)) := by
  have hinsert := sameBut_insert hp bytes age
  unfold put
  split
  · exact hinsert
  · exact hinsert.trans (sameBut_touch _ _)

theorem file?_put (fs : Files) (p : Path) (bytes : ByteArray) (age : Int) :
    (fs.put p (.file bytes age)).file? p = some (bytes, age) := by
  have hinsert :
      ({ fs with nodes := fs.nodes.insert p (.file bytes age) } : Files).file? p =
        some (bytes, age) := by
    simp [file?, node?_insert]
  unfold put
  split
  · exact hinsert
  · rw [(sameBut_touch _ _).files p (by simp), hinsert]

theorem node?_erase (nodes : Table Path Node) (hroot : p ≠ [] ∧ p ≠ ["/"]) :
    (Files.mk (nodes.erase p)).node? q = if q = p then none else (Files.mk nodes).node? q := by
  unfold node?
  rw [Table.get?_erase]
  by_cases hq : q = p
  · rw [if_pos hq, if_pos hq, if_neg (by simpa [hq] using hroot)]
  · rw [if_neg hq, if_neg hq]

theorem sameBut_erase (hp : fs.requireDir p ≠ .ok ()) (hroot : p ≠ [] ∧ p ≠ ["/"]) :
    SameBut [p] fs { fs with nodes := fs.nodes.erase p } := by
  refine ⟨fun q => ?_, fun q hq => ?_⟩
  · by_cases hq : q = p
    · subst hq
      refine ⟨fun h => ?_, fun h => absurd h hp⟩
      obtain ⟨_, h⟩ := requireDir_eq_ok_iff.1 h
      simp [node?_erase _ hroot] at h
    · rw [requireDir_eq_ok_iff, requireDir_eq_ok_iff, node?_erase _ hroot, if_neg hq]
  · unfold file?
    rw [node?_erase _ hroot, if_neg (by simpa using hq)]

theorem file?_erase (hroot : p ≠ [] ∧ p ≠ ["/"]) :
    ({ fs with nodes := fs.nodes.erase p } : Files).file? p = none := by
  simp [file?, node?_erase _ hroot]

/-! ## Operations -/

/-- A place for a file: in a directory, and not a directory itself. -/
structure Place (fs : Files) (p : Path) : Prop where
  free : fs.requireDir p ≠ .ok ()
  parent : fs.requireDir (parent p) = .ok ()

theorem SameBut.place_iff {paths : List Path} (h : SameBut paths fs fs') :
    Place fs' p ↔ Place fs p :=
  ⟨fun ⟨hfree, hparent⟩ => ⟨fun hp => hfree ((h.dirs p).2 hp), (h.dirs _).1 hparent⟩,
    fun ⟨hfree, hparent⟩ => ⟨fun hp => hfree ((h.dirs p).1 hp), (h.dirs _).2 hparent⟩⟩

/-- No directory is at a path. -/
def Free (fs : Files) (text : String) : Prop :=
  ∀ p, fs.locate text = .ok p → fs.requireDir p ≠ .ok ()

theorem Free.lookup_ne_dir {text : String} (h : fs.Free text) (age : Int) :
    fs.lookup text ≠ .ok (.dir age) := by
  unfold lookup
  cases hlocate : fs.locate text with
  | error e => simp
  | ok p =>
    have hnode : fs.node? p ≠ some (.dir age) :=
      fun hdir => h p hlocate (requireDir_eq_ok_iff.2 ⟨age, hdir⟩)
    cases hn : fs.node? p with
    | none => simp [hn]
    | some n => simpa [hn] using hnode

theorem SameBut.free {paths : List Path} {text : String} (h : SameBut paths fs fs')
    (hfree : fs.Free text) : fs'.Free text := fun p hp hdir =>
  hfree p (h.locate_eq_ok_iff.1 hp) ((h.dirs p).1 hdir)

theorem free_of_age? {text : String} (h : fs.age? text = none) : fs.Free text := by
  intro p hlocate hdir
  obtain ⟨age, hnode⟩ := requireDir_eq_ok_iff.1 hdir
  simp [age?, lookup, hlocate, hnode] at h

theorem Place.not_root (h : Place fs p) : p ≠ [] ∧ p ≠ ["/"] := by
  refine ⟨?_, ?_⟩ <;> rintro rfl <;> exact h.free h.parent

theorem node?_eq_file_iff {bytes : ByteArray} {age : Int} :
    fs.node? p = some (.file bytes age) ↔ fs.file? p = some (bytes, age) := by
  unfold file?
  split <;> simp_all

theorem Place.node?_eq_none_iff (h : Place fs p) : fs.node? p = none ↔ fs.file? p = none := by
  refine ⟨fun hnone => by simp [file?, hnone], fun hnone => ?_⟩
  cases hnode : fs.node? p with
  | none => rfl
  | some n =>
    cases n with
    | file bytes age => simp [file?, hnode] at hnone
    | dir age => exact absurd (requireDir_eq_ok_iff.2 ⟨age, hnode⟩) h.free

variable {text : String}

theorem read_of_file? {bytes : ByteArray} {age : Int} (hlocate : fs.locate text = .ok p)
    (hfile : fs.file? p = some (bytes, age)) : fs.read text = .ok bytes := by
  simp [read, lookup, hlocate, node?_eq_file_iff.2 hfile]

theorem exists_file_of_read {bytes : ByteArray} (h : fs.read text = .ok bytes) :
    ∃ p age, fs.locate text = .ok p ∧ fs.file? p = some (bytes, age) := by
  unfold read lookup at h
  cases hlocate : fs.locate text with
  | error e => simp [hlocate] at h
  | ok p =>
    simp only [hlocate] at h
    cases hnode : fs.node? p with
    | none => simp [hnode] at h
    | some n =>
      cases n with
      | dir age => simp [hnode] at h
      | file found age =>
        obtain rfl : found = bytes := by simpa [hnode] using h
        exact ⟨p, age, rfl, node?_eq_file_iff.1 hnode⟩

/-- A file that nothing has changed is found as before. -/
theorem SameBut.lookup_eq {paths : List Path} (h : SameBut paths fs fs') {file : ByteArray × Int}
    (hlocate : fs.locate text = .ok p) (hfile : fs.file? p = some file) (hp : p ∉ paths) :
    fs'.lookup text = fs.lookup text := by
  have hfile' := (h.files p hp).trans hfile
  unfold lookup
  rw [hlocate, h.locate_eq_ok_iff.2 hlocate]
  simp only [node?_eq_file_iff.2 hfile, node?_eq_file_iff.2 hfile']

theorem age?_eq (hlocate : fs.locate text = .ok p) (hplace : Place fs p) :
    fs.age? text = (fs.file? p).map (·.2) := by
  cases hfile : fs.file? p with
  | none => simp [age?, lookup, hlocate, hplace.node?_eq_none_iff.2 hfile]
  | some file => simp [age?, lookup, hlocate, node?_eq_file_iff.2 hfile, Node.age]

theorem write_eq_ok_iff {bytes : ByteArray} :
    fs.write text bytes = .ok fs' ↔
      ∃ p, fs.locate text = .ok p ∧ Place fs p ∧ fs' = fs.put p (.file bytes 0) := by
  unfold write
  cases hlocate : fs.locate text with
  | error e => simp
  | ok p =>
    have hplace : Place fs p ↔ (∀ age, fs.node? p ≠ some (.dir age)) ∧
        fs.requireDir (parent p) = .ok () := by
      rw [← not_exists, ← requireDir_eq_ok_iff]
      exact ⟨fun h => ⟨h.free, h.parent⟩, fun h => ⟨h.1, h.2⟩⟩
    simp only [Except.ok.injEq, exists_eq_left', hplace]
    split
    · next age hnode => simp [hnode]
    · next hnode =>
      have hfree : ∀ age, fs.node? p ≠ some (.dir age) := hnode
      cases hparent : fs.requireDir (parent p) with
      | error e => simp
      | ok u => simp [hfree, eq_comm]

theorem remove_spec {bytes : ByteArray} {age : Int} (hlocate : fs.locate text = .ok p)
    (hplace : Place fs p) (hfile : fs.file? p = some (bytes, age)) :
    ∃ fs', fs.remove text = .ok fs' ∧ SameBut [p] fs fs' ∧ fs'.file? p = none := by
  have herase := sameBut_erase hplace.free hplace.not_root
  have htouch := sameBut_touch { fs with nodes := fs.nodes.erase p } (parent p)
  refine ⟨_, ?_, herase.trans htouch, ?_⟩
  · simp [remove, hlocate, node?_eq_file_iff.2 hfile]
  · rw [htouch.files p (by simp), file?_erase hplace.not_root]

theorem free_of_rename {target : String} (h : fs.rename text target = .ok fs')
    (htarget : fs.locate target = .ok p) : fs.requireDir p ≠ .ok () := by
  intro hdir
  obtain ⟨age, hnode⟩ := requireDir_eq_ok_iff.1 hdir
  unfold rename at h
  split at h
  · cases h
  · split at h
    · cases h
    · cases h
    · simp [htarget, hnode] at h

/-- Moving a file takes it away from one place and puts it into the other. -/
theorem rename_spec {target : String} {bytes : ByteArray} {age : Int}
    (hsource : fs.locate text = .ok p) (hfile : fs.file? p = some (bytes, age))
    (hplace : Place fs p) (htarget : fs.locate target = .ok q) (hplace' : Place fs q)
    (hne : p ≠ q) :
    ∃ fs', fs.rename text target = .ok fs' ∧ SameBut [p, q] fs fs' ∧ fs'.file? p = none ∧
      fs'.file? q = some (bytes, age) := by
  have hwithout := (sameBut_erase hplace.free hplace.not_root).trans
    (sameBut_touch { fs with nodes := fs.nodes.erase p } (parent p))
  have hput := sameBut_put (hwithout.place_iff.2 hplace').free bytes age
  have hfree : ∀ a, fs.node? q ≠ some (.dir a) :=
    fun a h => hplace'.free (requireDir_eq_ok_iff.2 ⟨a, h⟩)
  refine ⟨_, ?_, hwithout.trans hput, ?_, file?_put _ _ _ _⟩
  · unfold rename
    simp only [hsource, node?_eq_file_iff.2 hfile, htarget, hplace'.parent, if_neg hne]
  · rw [hput.files p (by simpa using hne), (sameBut_touch _ _).files p (by simp),
      file?_erase hplace.not_root]

theorem setAge_spec {age : Int} (h : fs.setAge text age = some fs') :
    ∃ p, fs.locate text = .ok p ∧ SameBut [p] fs fs' ∧
      fs'.file? p = (fs.file? p).map fun file => (file.1, age) := by
  unfold setAge at h
  split at h
  · cases h
  · next p hlocate =>
    refine ⟨p, hlocate, ?_⟩
    split at h
    · cases h
    · next bytes old hnode =>
      obtain rfl := Option.some.inj h
      refine ⟨sameBut_insert ?_ bytes age, ?_⟩
      · rw [Ne, requireDir_eq_ok_iff, hnode]
        simp
      · rw [node?_eq_file_iff.1 hnode]
        simp [file?, node?_insert]
    · next old hnode =>
      obtain rfl := Option.some.inj h
      refine ⟨(sameBut_insert_dir hnode age).mono (by simp), ?_⟩
      simp [file?, node?_insert, hnode]

end Depot.Files
