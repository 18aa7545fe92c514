import Depot.Build.Run
import Depot.Proofs.Cache.Frame
import Depot.Proofs.Digest.Name

/-!
# The files of a tag

A tag has three files in the directory of a workshop. As a digest has no dot in it, files of
different digests are at different places, and so are the three of one tag (`eq_of_locate_pathOf`).
Everything that a request does by itself is confined to the files of its tag (`Within`), and the
artifact is changed by moving the temporary file to its place and by nothing else.
-/

namespace Depot

namespace Build

/-- The files that belong to a tag. -/
inductive Part where
  | artifact
  | temporary
  | label
  deriving DecidableEq, Repr

/-- What the name of such a file ends in. -/
def Part.ending : Part → String
  | .artifact => ".bin"
  | .temporary => ".bin.tmp"
  | .label => ".def"

end Build

namespace Workshop

open Build Files

variable {s s' s'' : Workshop} {tag other : String} {part part' : Part} {parts parts' : List Part}
  {bytes : ByteArray} {p : Path} {files : Files}

/-! ## Names and places -/

/-- The path of a file that belongs to a tag. -/
def pathOf (s : Workshop) (tag : String) (part : Part) : String :=
  Files.join s.directory (s.digest tag ++ part.ending)

/-- The bytes and the age of a file that belongs to a tag. -/
def fileOf? (s : Workshop) (tag : String) (part : Part) : Option (ByteArray × Int) :=
  s.files.fileOf? (s.pathOf tag part)

theorem outputPath_eq (s : Workshop) (tag : String) : s.outputPath tag = s.pathOf tag .artifact :=
  rfl

theorem temporaryPath_eq (s : Workshop) (tag : String) :
    s.temporaryPath tag = s.pathOf tag .temporary :=
  rfl

theorem tagPath_eq (s : Workshop) (tag : String) : s.tagPath tag = s.pathOf tag .label := rfl

theorem proper_name (s : Workshop) (tag : String) (part : Part) :
    Proper (s.digest tag ++ part.ending) := by
  refine proper_of_length ?_
  have hending : 3 ≤ part.ending.length := by cases part <;> decide
  rw [String.length_append]
  omega

theorem value?_of_mem_digest {c : Char} (h : c ∈ (s.digest tag).toList) :
    (Text.Hex.value? c).isSome = true := by
  unfold digest at h
  exact Digest.value?_of_mem_ofText h

theorem slash_not_mem_name (s : Workshop) (tag : String) (part : Part) :
    '/' ∉ (s.digest tag ++ part.ending).toList := by
  rw [String.toList_append, List.mem_append, not_or]
  refine ⟨fun h => ?_, ?_⟩
  · exact absurd (value?_of_mem_digest h) (by decide)
  · cases part <;> decide

theorem utf8ByteSize_name (s : Workshop) (tag : String) (part : Part) :
    (s.digest tag ++ part.ending).utf8ByteSize =
      Digest.width s.algorithm + part.ending.utf8ByteSize := by
  rw [String.utf8ByteSize_append, digest, Digest.ofText, Digest.utf8ByteSize_ofBytes]

theorem nul_not_mem_name (s : Workshop) (tag : String) (part : Part) :
    Char.ofNat 0 ∉ (s.digest tag ++ part.ending).toList := by
  rw [String.toList_append, List.mem_append, not_or]
  refine ⟨fun h => absurd (value?_of_mem_digest h) (by decide), ?_⟩
  cases part <;> decide

/-- The digest is what comes before the first dot of a name. -/
theorem takeWhile_name (s : Workshop) (tag : String) (part : Part) :
    (s.digest tag ++ part.ending).toList.takeWhile (· ≠ '.') = (s.digest tag).toList := by
  have hdigits : ∀ c ∈ (s.digest tag).toList, decide (c ≠ '.') = true := by
    intro c hc
    rw [decide_eq_true_iff]
    rintro rfl
    exact absurd (value?_of_mem_digest hc) (by decide)
  have hending : part.ending.toList.takeWhile (· ≠ '.') = [] := by cases part <;> decide
  rw [String.toList_append, List.takeWhile_append_of_pos hdigits, hending, List.append_nil]

theorem eq_of_name (h : s.digest tag ++ part.ending = s.digest other ++ part'.ending) :
    s.digest tag = s.digest other ∧ part = part' := by
  have hdigest : s.digest tag = s.digest other := by
    rw [← String.toList_inj, ← s.takeWhile_name tag part, h, takeWhile_name]
  have hending : part.ending = part'.ending := by
    rw [← String.toList_inj]
    have hlists := congrArg String.toList h
    rw [String.toList_append, String.toList_append, hdigest] at hlists
    exact List.append_cancel_left hlists
  refine ⟨hdigest, ?_⟩
  cases part <;> cases part' <;> first | rfl | exact absurd hending (by decide)

theorem inside_pathOf (h : s.files.locate (s.pathOf tag part) = .ok p) : Inside s.files p :=
  inside_of_locate_join (s.proper_name tag part) (s.slash_not_mem_name tag part) h

theorem eq_of_locate_pathOf (h : s.files.locate (s.pathOf tag part) = .ok p)
    (h' : s.files.locate (s.pathOf other part') = .ok p) :
    s.digest tag = s.digest other ∧ part = part' :=
  eq_of_name (eq_of_locate_join (s.proper_name tag part) (s.slash_not_mem_name tag part)
    (s.proper_name other part') (s.slash_not_mem_name other part') h h')

/-! ## Changes to the files of one tag -/

@[simp]
theorem get?_record (s : Workshop) (tag : String) (status : Status) :
    (s.record tag status).statuses.get? tag = some status := by
  rw [record, Table.get?_insert, if_pos rfl]

@[simp]
theorem statuses_writeTag (s : Workshop) (tag : String) :
    (s.writeTag tag).statuses = s.statuses := by
  unfold writeTag
  split <;> rfl

@[simp]
theorem journal_writeTag (s : Workshop) (tag : String) :
    (s.writeTag tag).journal = s.journal := by
  unfold writeTag
  split <;> rfl

/-- At most some files of a tag and its status have changed. -/
structure Within (tag : String) (parts : List Part) (s s' : Workshop) : Prop where
  directory : s'.directory = s.directory
  algorithm : s'.algorithm = s.algorithm
  statuses : ∀ other, other ≠ tag → s'.statuses.get? other = s.statuses.get? other
  files : ∃ paths, SameBut paths s.files s'.files ∧
    ∀ p ∈ paths, ∃ part ∈ parts, s.files.locate (s.pathOf tag part) = .ok p

namespace Within

theorem refl (s : Workshop) (tag : String) : Within tag [] s s :=
  ⟨rfl, rfl, fun _ _ => rfl, [], .refl _, by simp⟩

theorem log (s : Workshop) (tag : String) (e : Event) : Within tag [] s (s.log e) :=
  ⟨rfl, rfl, fun _ _ => rfl, [], .refl _, by simp⟩

theorem record (s : Workshop) (tag : String) (status : Status) :
    Within tag [] s (s.record tag status) := by
  refine ⟨rfl, rfl, fun other hne => ?_, [], .refl _, by simp⟩
  rw [Workshop.record, Table.get?_insert, if_neg hne]

theorem digest_eq (h : Within tag parts s s') (other : String) :
    s'.digest other = s.digest other := by
  rw [digest, h.algorithm, digest]

theorem pathOf_eq (h : Within tag parts s s') (other : String) (part : Part) :
    s'.pathOf other part = s.pathOf other part := by
  rw [pathOf, h.directory, h.digest_eq, pathOf]

theorem mono (h : Within tag parts s s') (hsub : parts ⊆ parts') : Within tag parts' s s' := by
  obtain ⟨hdirectory, halgorithm, hstatuses, paths, hsame, hpaths⟩ := h
  refine ⟨hdirectory, halgorithm, hstatuses, paths, hsame, fun p hp => ?_⟩
  obtain ⟨part, hpart, hlocate⟩ := hpaths p hp
  exact ⟨part, hsub hpart, hlocate⟩

theorem trans (h : Within tag parts s s') (h' : Within tag parts' s' s'') :
    Within tag (parts ++ parts') s s'' := by
  obtain ⟨paths, hsame, hpaths⟩ := h.files
  obtain ⟨paths', hsame', hpaths'⟩ := h'.files
  refine ⟨h'.directory.trans h.directory, h'.algorithm.trans h.algorithm,
    fun other hne => (h'.statuses other hne).trans (h.statuses other hne), paths ++ paths',
    hsame.trans hsame', fun p hp => ?_⟩
  rcases List.mem_append.1 hp with hp | hp
  · obtain ⟨part, hpart, hlocate⟩ := hpaths p hp
    exact ⟨part, List.mem_append_left _ hpart, hlocate⟩
  · obtain ⟨part, hpart, hlocate⟩ := hpaths' p hp
    rw [h.pathOf_eq, hsame.locate_eq_ok_iff] at hlocate
    exact ⟨part, List.mem_append_right _ hpart, hlocate⟩

/-- The other files are as they were. -/
theorem fileOf?_eq (h : Within tag parts s s')
    (hother : s.digest other = s.digest tag → part ∉ parts) :
    s'.fileOf? other part = s.fileOf? other part := by
  obtain ⟨paths, hsame, hpaths⟩ := h.files
  rw [fileOf?, h.pathOf_eq]
  refine hsame.fileOf?_eq fun p hp hmem => ?_
  obtain ⟨part', hpart, hlocate⟩ := hpaths p hmem
  obtain ⟨hdigest, rfl⟩ := eq_of_locate_pathOf hp hlocate
  exact hother hdigest hpart

end Within

theorem within_of_sameBut {paths : List Path} (h : SameBut paths s.files files)
    (hpaths : ∀ p ∈ paths, ∃ part ∈ parts, s.files.locate (s.pathOf tag part) = .ok p) :
    Within tag parts s (s.withFiles files) :=
  ⟨rfl, rfl, fun _ _ => rfl, paths, h, hpaths⟩

theorem fileOf?_withFiles (s : Workshop) (files : Files) (tag : String) (part : Part) :
    (s.withFiles files).fileOf? tag part = files.fileOf? (s.pathOf tag part) :=
  rfl

theorem within_write (h : s.files.write (s.pathOf tag part) bytes = .ok files) :
    Within tag [part] s (s.withFiles files) ∧
      (s.withFiles files).fileOf? tag part = some (bytes, 0) := by
  obtain ⟨p, hlocate, hplace, rfl⟩ := write_eq_ok_iff.1 h
  have hput := sameBut_put hplace.free bytes 0
  refine ⟨within_of_sameBut hput fun q hq => ⟨part, List.mem_singleton_self part, ?_⟩, ?_⟩
  · rwa [List.mem_singleton.1 hq]
  · rw [fileOf?_withFiles, ← file?_put s.files p bytes 0]
    exact fileOf?_of_locate (hput.locate_eq_ok_iff.2 hlocate)

/-- Afterwards there is no temporary file. -/
theorem within_discardTemporary (s : Workshop) (tag : String) :
    Within tag [.temporary] s (s.discardTemporary tag) ∧
      (s.discardTemporary tag).fileOf? tag .temporary = none := by
  have hinside : ∀ p, s.files.locate (s.pathOf tag .temporary) = .ok p → Inside s.files p :=
    fun _ => inside_pathOf
  unfold discardTemporary
  rw [temporaryPath_eq, fileOf?_withFiles]
  refine ⟨within_of_sameBut (Cache.sameBut_discard hinside) fun p hp => ?_,
    Cache.fileOf?_discard hinside⟩
  exact ⟨.temporary, List.mem_singleton_self _, locate_of_mem_toList hp⟩

theorem within_writeTag (s : Workshop) (tag : String) : Within tag [.label] s (s.writeTag tag) := by
  unfold writeTag
  rw [tagPath_eq]
  split
  · next hwrite => exact (within_write hwrite).1
  · exact (Within.refl s tag).mono (by simp)

/-! ## What a request does by itself -/

/-- The temporary file takes the place of the artifact, or nothing happens. -/
theorem publish_cases (s : Workshop) (tag : String) :
    (∃ e, s.publish tag = (s, .error e)) ∨
      ∃ file, (s.publish tag).2 = .ok .built ∧ s.fileOf? tag .temporary = some file ∧
        Within tag [.temporary, .artifact] s (s.publish tag).1 ∧
        (s.publish tag).1.fileOf? tag .artifact = some file := by
  unfold publish
  rw [temporaryPath_eq, outputPath_eq]
  cases hrename : s.files.rename (s.pathOf tag .temporary) (s.pathOf tag .artifact) with
  | error e => exact .inl ⟨_, rfl⟩
  | ok files =>
    obtain ⟨p, q, file, hp, hfile, hq⟩ := exists_file_of_rename hrename
    have hne : p ≠ q := by
      rintro rfl
      exact absurd (eq_of_locate_pathOf hp hq).2 (by decide)
    obtain ⟨hsame, -, hthere⟩ :=
      rename_of_inside hrename hp hq (inside_pathOf hp) (inside_pathOf hq) hne hfile
    have hwithin : Within tag [.temporary, .artifact] s (s.withFiles files) := by
      refine within_of_sameBut hsame fun r hr => ?_
      rcases List.mem_cons.1 hr with rfl | hr
      · exact ⟨.temporary, by simp, hp⟩
      · rw [List.mem_singleton.1 hr]
        exact ⟨.artifact, by simp, hq⟩
    have hmoved := (fileOf?_of_locate (hsame.locate_eq_ok_iff.2 hq)).trans hthere
    exact .inr ⟨file, rfl, (fileOf?_of_locate hp).trans hfile,
      (hwithin.trans (.log ..)).mono (by simp), hmoved⟩

variable {c c₁ : Context} {product : Option Product} {work : Callback (Option Product)}
  {result : Outcome (Option Product)} {s₁ : Workshop}

/-- The file that is published: what was written directly, or else the bytes of the product. -/
structure Left (s : Workshop) (tag : String) (c : Context) (p : Product)
    (file : ByteArray × Int) : Prop where
  direct : c.hasOutput = true → s.fileOf? tag .temporary = some file
  streamed : c.hasOutput = false → file.1 = p.bytes

/-- Settling fails, or keeps the artifact, or publishes what work has left. -/
theorem settle_cases (s : Workshop) (tag : String) (c : Context) (product : Option Product) :
    (Within tag [.temporary] s (s.settle tag c product).1 ∧
      ((∃ e, (s.settle tag c product).2 = .error e) ∨
        (s.settle tag c product).2 = .ok .cached ∧ s.files.has (s.pathOf tag .artifact) = true)) ∨
    ∃ p file, product = some p ∧ (s.settle tag c product).2 = .ok .built ∧ Left s tag c p file ∧
      Within tag [.temporary, .artifact] s (s.settle tag c product).1 ∧
      (s.settle tag c product).1.fileOf? tag .artifact = some file := by
  cases product with
  | none =>
    refine .inl ?_
    simp only [settle, keep]
    by_cases hkeep : (c.hasCached && s.files.has (s.outputPath tag)) = true
    · rw [if_pos hkeep]
      exact ⟨(s.within_discardTemporary tag).1, .inr ⟨rfl, (Bool.and_eq_true_iff.1 hkeep).2⟩⟩
    · rw [if_neg hkeep]
      exact ⟨(Within.refl s tag).mono (by simp), .inl ⟨_, rfl⟩⟩
  | some p =>
    simp only [settle, temporaryPath_eq]
    split
    · next houtput =>
      split
      · exact .inl ⟨(Within.refl s tag).mono (by simp), .inl ⟨_, rfl⟩⟩
      · rcases s.publish_cases tag with ⟨e, hpublish⟩ | ⟨file, hbuilt, hfile, hwithin, hthere⟩
        · rw [hpublish]
          exact .inl ⟨(Within.refl s tag).mono (by simp), .inl ⟨e, rfl⟩⟩
        · exact .inr ⟨p, file, rfl, hbuilt, ⟨fun _ => hfile, by simp [houtput]⟩, hwithin, hthere⟩
    · next houtput =>
      split
      · exact .inl ⟨(Within.refl s tag).mono (by simp), .inl ⟨_, rfl⟩⟩
      · next files hwrite =>
        obtain ⟨hwritten, hbytes⟩ := within_write hwrite
        split
        · exact .inl ⟨hwritten, .inl ⟨_, rfl⟩⟩
        · rcases (s.withFiles files).publish_cases tag with
            ⟨e, hpublish⟩ | ⟨file, hbuilt, hfile, hwithin, hthere⟩
          · rw [hpublish]
            exact .inl ⟨hwritten, .inl ⟨e, rfl⟩⟩
          · obtain rfl : (p.bytes, 0) = file := Option.some.inj (hbytes.symm.trans hfile)
            refine .inr ⟨p, _, rfl, hbuilt, ⟨fun h => absurd h houtput, fun _ => rfl⟩, ?_, hthere⟩
            exact (hwritten.trans hwithin).mono (by simp)

theorem statuses_settle (s : Workshop) (tag : String) (c : Context) (product : Option Product) :
    (s.settle tag c product).1.statuses = s.statuses := by
  cases product with
  | none =>
    simp only [settle, keep]
    split <;> rfl
  | some p =>
    have hpublish (s : Workshop) : (s.publish tag).1.statuses = s.statuses := by
      unfold publish
      split <;> rfl
    simp only [settle]
    split
    · split
      · rfl
      · exact hpublish s
    · split
      · rfl
      · split
        · rfl
        · exact hpublish _

/-- A request that fails after its work has begun leaves the artifact and the status alone, and no
temporary file. -/
structure Undone (tag : String) (s s' : Workshop) : Prop where
  statuses : s'.statuses = s.statuses
  artifact : s'.fileOf? tag .artifact = s.fileOf? tag .artifact
  temporary : s'.fileOf? tag .temporary = none

/-- A request whose work has gone well records how, and has either kept the artifact that is there
or published what the work has left. -/
structure Met (tag : String) (c : Context) (product : Option Product) (state : State)
    (s s' : Workshop) : Prop where
  status : s'.statuses.get? tag = some ⟨state, c.children⟩
  cached : state = .cached → s'.fileOf? tag .artifact = s.fileOf? tag .artifact ∧
    s.files.has (s.pathOf tag .artifact) = true
  built : state = .built →
    ∃ p file, product = some p ∧ s'.fileOf? tag .artifact = some file ∧ Left s tag c p file

theorem undone_discardTemporary (h : Within tag [.temporary] s s')
    (hstatuses : s'.statuses = s.statuses) :
    Within tag [.temporary] s (s'.discardTemporary tag) ∧
      Undone tag s (s'.discardTemporary tag) := by
  obtain ⟨hdiscard, hgone⟩ := s'.within_discardTemporary tag
  have hwithin : Within tag [.temporary] s (s'.discardTemporary tag) :=
    (h.trans hdiscard).mono (by simp)
  refine ⟨hwithin, hstatuses, hwithin.fileOf?_eq (by simp), hgone⟩

/-- What is recorded of a request, and the label that is written, come last. -/
theorem within_record_writeTag (s : Workshop) (tag : String) (status : Status) :
    Within tag [.label] s ((s.record tag status).writeTag tag) ∧
      ((s.record tag status).writeTag tag).statuses.get? tag = some status := by
  refine ⟨((Within.record s tag status).trans (within_writeTag _ tag)).mono (by simp), ?_⟩
  rw [statuses_writeTag, get?_record]

/-- Work whose product could be settled: the rest of the request is its record and its label. -/
theorem rebuild_of_settled {state : State}
    (hwork : work c (s.log (.started tag)) = (s₁, c₁, .ok product))
    (hresult : (s₁.settle tag c₁ product).2 = .ok state)
    (hwithin : Within tag parts s₁ (s₁.settle tag c₁ product).1) :
    (s.perform tag work c).2.2 = .ok state ∧
      (s.rebuild tag work c).2 = .ok (s₁.pathOf tag .artifact) ∧
      (s.rebuild tag work c).1.statuses.get? tag = some ⟨state, c₁.children⟩ ∧
      Within tag [.label] (s₁.settle tag c₁ product).1 (s.rebuild tag work c).1 := by
  have hperform : s.perform tag work c =
      ((s₁.settle tag c₁ product).1, c₁, (s₁.settle tag c₁ product).2) := by
    simp only [perform, hwork]
  have hrebuild : s.rebuild tag work c =
      (((s₁.settle tag c₁ product).1.record tag ⟨state, c₁.children⟩).writeTag tag,
        .ok ((s₁.settle tag c₁ product).1.outputPath tag)) := by
    simp only [rebuild, hperform, hresult]
  obtain ⟨hrecord, hstatus⟩ :=
    (s₁.settle tag c₁ product).1.within_record_writeTag tag ⟨state, c₁.children⟩
  rw [hrebuild, outputPath_eq, hwithin.pathOf_eq tag .artifact, hperform]
  exact ⟨hresult, rfl, hstatus, hrecord⟩

theorem rebuild_cases (hwork : work c (s.log (.started tag)) = (s₁, c₁, result)) :
    Within tag [.temporary, .artifact, .label] s₁ (s.rebuild tag work c).1 ∧
      ((∃ e, (s.perform tag work c).2.2 = .error e ∧
          (s.rebuild tag work c).2 = .error (failed tag e) ∧
          Undone tag s₁ (s.rebuild tag work c).1) ∨
        ∃ product state, result = .ok product ∧ (s.perform tag work c).2.2 = .ok state ∧
          (s.rebuild tag work c).2 = .ok (s₁.pathOf tag .artifact) ∧
          Met tag c₁ product state s₁ (s.rebuild tag work c).1) := by
  cases result with
  | error e =>
    have hperform : s.perform tag work c = (s₁, c₁, .error e) := by simp only [perform, hwork]
    obtain ⟨hwithin, hundone⟩ :=
      undone_discardTemporary ((Within.refl s₁ tag).mono (by simp)) rfl
    simp only [rebuild, hperform]
    exact ⟨hwithin.mono (by simp), .inl ⟨e, rfl, rfl, hundone⟩⟩
  | ok product =>
    rcases s₁.settle_cases tag c₁ product with
      ⟨hwithin, ⟨e, hresult⟩ | ⟨hresult, hthere⟩⟩ |
      ⟨p, file, hproduct, hresult, hleft, hwithin, hfile⟩
    · have hperform : s.perform tag work c =
          ((s₁.settle tag c₁ product).1, c₁, (s₁.settle tag c₁ product).2) := by
        simp only [perform, hwork]
      obtain ⟨hwithin, hundone⟩ :=
        undone_discardTemporary hwithin (s₁.statuses_settle tag c₁ product)
      simp only [rebuild, hperform, hresult]
      exact ⟨hwithin.mono (by simp), .inl ⟨e, rfl, rfl, hundone⟩⟩
    · obtain ⟨hperform, hpath, hstatus, hrecord⟩ := rebuild_of_settled hwork hresult hwithin
      have hall := hwithin.trans hrecord
      exact ⟨hall.mono (by simp), .inr ⟨product, .cached, rfl, hperform, hpath, hstatus,
        fun _ => ⟨hall.fileOf?_eq (by simp), hthere⟩, by simp⟩⟩
    · obtain ⟨hperform, hpath, hstatus, hrecord⟩ := rebuild_of_settled hwork hresult hwithin
      have hthere := (hrecord.fileOf?_eq (by simp)).trans hfile
      exact ⟨(hwithin.trans hrecord).mono (by simp), .inr ⟨product, .built, rfl, hperform, hpath,
        hstatus, by simp, fun _ => ⟨p, file, hproduct, hthere, hleft⟩⟩⟩

end Workshop

end Depot
