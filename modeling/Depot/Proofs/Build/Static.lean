import Depot.Proofs.Build.Artifacts
import Depot.Proofs.Build.Download

/-!
# Fixed contents

The tag of fixed contents has their name and, at its end, the digest of their bytes, so that it
tells both whatever the name is (`static_tag_inj`). In a directory that has room for one temporary
file there is room for the files of every tag (`takes_of_empty`), and then a request for fixed
contents is always met. So the artifacts of a run are the contents that were asked for
(`Deposits.session`), each name and contents at a place of its own
(`contents_stay_at_their_place`).
-/

namespace Depot.Build

open Workshop Definition

/-- A request for fixed contents with what it gave. -/
structure Deposit where
  name : String
  bytes : ByteArray
  result : Outcome String

/-- The tag of the contents. -/
def Deposit.tag (a : Deposit) : String := (static a.name a.bytes).tag

/-- The tags that were asked for. -/
def Asked (log : List Deposit) (t : String) : Prop := ∃ a ∈ log, a.tag = t

/-- Requests for fixed contents one after the other, and files that get another age in between. -/
inductive Deposits (s₀ : Workshop) : Workshop → List Deposit → Prop
  | start : Deposits s₀ s₀ []
  | build {s : Workshop} {log : List Deposit} (name : String) (bytes : ByteArray) (always : Bool) :
    Deposits s₀ s log →
      Deposits s₀ ((static name bytes).build always s).1
        (log ++ [⟨name, bytes, ((static name bytes).build always s).2⟩])
  | setAge {s : Workshop} {log : List Deposit} {path : String} {age : Int} {files : Files} :
    Deposits s₀ s log → s.files.setAge path age = some files → Deposits s₀ (s.withFiles files) log

variable {used : String → Prop} {made : Made} {s₀ s : Workshop} {name name' t : String}
  {bytes bytes' : ByteArray} {always : Bool} {part : Part} {log : List Deposit}

/-! ## Tags -/

/-- All digests have the same number of digits, so the name is what comes before. -/
theorem static_tag_inj (h : (static name bytes).tag = (static name' bytes').tag) :
    name = name' ∧ Digest.ofBytes .sha256 bytes = Digest.ofBytes .sha256 bytes' := by
  have hlists := congrArg String.toList h
  simp only [static, Definition.tag, String.toList_append, List.append_assoc] at hlists
  have hrest := List.append_cancel_left hlists
  rw [← List.append_assoc, ← List.append_assoc] at hrest
  obtain ⟨hname, hdigest⟩ := List.append_inj' hrest (by
    rw [String.length_toList, String.length_toList, Digest.length_ofBytes, Digest.length_ofBytes])
  exact ⟨String.toList_inj.1 (List.append_cancel_right hname), String.toList_inj.1 hdigest⟩

/-! ## Room -/

/-- Where one temporary file can be put in an empty directory, all files of all tags can be. -/
theorem takes_of_empty (hempty : Empty s) (htakes : s.Takes t .temporary) (other : String)
    (part : Part) : s.Takes other part := by
  obtain ⟨p, hlocate, -⟩ := htakes
  have hsize : (s.digest other ++ part.ending).utf8ByteSize ≤
      (s.digest t ++ Part.temporary.ending).utf8ByteSize := by
    rw [utf8ByteSize_name, utf8ByteSize_name]
    cases part <;> exact Nat.add_le_add_left (by decide) _
  obtain ⟨here, hdir, hfound⟩ := Files.locate_join_of_le (s.proper_name t .temporary)
    (s.slash_not_mem_name t .temporary) (s.proper_name other part)
    (s.slash_not_mem_name other part) (s.nul_not_mem_name other part) hsize hlocate
  have hinside := Files.inside_concat hdir (s.slash_not_mem_name other part)
  refine ⟨_, hfound, fun hthere => ?_, hinside.parent⟩
  have hnone := hempty _ (s.proper_name other part) (s.slash_not_mem_name other part)
  have hhas := Files.has_eq_true_iff.2 (.inr ⟨_, hfound, hthere⟩)
  rw [hnone] at hhas
  cases hhas

/-- Where there is room, the path is not too long. -/
theorem size_of_takes (h : s.Takes t part) :
    s.directory.utf8ByteSize + (Digest.width s.algorithm + part.ending.utf8ByteSize) < 4096 := by
  obtain ⟨p, hlocate, -⟩ := h
  rw [← utf8ByteSize_name s t part]
  exact Nat.lt_of_le_of_lt (Files.le_utf8ByteSize_join _ (s.slash_not_mem_name t part))
    (Files.utf8ByteSize_lt_of_locate hlocate)

theorem Current.takes (h : Current used s₀ s made) (htakes : s₀.Takes t part) :
    s.Takes t part := by
  obtain ⟨p, hlocate, hplace⟩ := htakes
  obtain ⟨paths, hsame⟩ := h.files
  exact ⟨p, by rwa [h.pathOf_eq, hsame.locate_eq_ok_iff], hsame.place_iff.2 hplace⟩

/-! ## Requests -/

theorem static_nests (h : used (static name bytes).tag) (always : Bool) (s : Workshop) :
    (static name bytes).Nests used [] always s :=
  ⟨h, List.not_mem_nil, fun _ _ => trivial, fun _ _ _ => trivial⟩

/-- The work only answers, in every state. -/
theorem static_run (name : String) (bytes : ByteArray) (c : Context) (s : Workshop) :
    (static name bytes).work.run c s = (s, c, .ok (some (.ofBytes bytes))) :=
  rfl

theorem static_published (h : (static name bytes).published always s = some bytes') :
    bytes' = bytes := by
  have hdirect : (static name bytes).directBefore always s = none := by
    unfold directBefore
    cases (static name bytes).asked always s <;> rfl
  unfold published at h
  split at h
  · cases h
  · simp only [static_run, hdirect] at h
    split at h
    · next product _ hrun =>
      obtain rfl : Product.ofBytes bytes = product := Option.some.inj (Except.ok.inj hrun)
      exact (Option.some.inj h).symm
    · cases h

/-- What a request for fixed contents makes are these contents. -/
theorem static_made (h : (t, bytes') ∈ (static name bytes).made always s) :
    t = (static name bytes).tag ∧ bytes' = bytes := by
  have hmade : (static name bytes).made always s =
      ((static name bytes).published always s).toList.map
        fun bytes' => ((static name bytes).tag, bytes') := by
    rw [made_eq]
    cases (static name bytes).asked always s <;>
      cases (static name bytes).workStart always s <;> rfl
  rw [hmade] at h
  obtain ⟨_, hpublished, heq⟩ := List.mem_map.1 h
  obtain ⟨rfl, rfl⟩ := Prod.mk.inj heq
  exact ⟨rfl, static_published (Option.mem_toList.1 hpublished)⟩

/-- Where there is room, a request for fixed contents is met. -/
theorem static_met (htakes : ∀ part, s.Takes (static name bytes).tag part) (always : Bool) :
    ∃ path, ((static name bytes).build always s).2 = .ok path := by
  rw [build_eq]
  cases (static name bytes).asked always s with
  | some age => exact ⟨_, rfl⟩
  | none =>
    obtain ⟨hdelivers, -⟩ :=
      rebuild_of_streamed (static_run name bytes (startingContext s _) _) rfl rfl
    exact ⟨_, (hdelivers ⟨rfl, htakes .temporary, htakes .artifact⟩).result⟩

/-- Where nothing is there and no temporary file can be put, it is refused. -/
theorem static_refused (hnone : s.files.has (s.outputPath (static name bytes).tag) = false)
    (hroom : ¬s.Takes (static name bytes).tag .temporary) :
    ∃ reason, ((static name bytes).build false s).2 = .error reason := by
  have hasked : (static name bytes).asked false s = none := by
    cases hage : s.age? (static name bytes).tag with
    | none => simpa [asked] using hage
    | some age =>
      rw [Files.has_of_age? hage] at hnone
      cases hnone
  rw [build_eq, hasked]
  obtain ⟨-, hrefuses⟩ :=
    rebuild_of_streamed (static_run name bytes (startingContext s _) _) rfl rfl
  obtain ⟨reason, hreason⟩ := (hrefuses fun hfits => hroom hfits.2.1).result
  exact ⟨_, hreason⟩

/-! ## Runs -/

/-- A run is a session that makes what was asked for, and every request of it is met. -/
theorem Deposits.session (h : Deposits s₀ s log) (hused : ∀ a ∈ log, used a.tag)
    (hapart : Apart used s₀) (hempty : Empty s₀) (htakes : ∀ t part, s₀.Takes t part) :
    ∃ made, Session used s₀ s made ∧
      (∀ t b, (t, b) ∈ made → ∃ a ∈ log, t = a.tag ∧ b = a.bytes) ∧
      ∀ a ∈ log, a.result = .ok (s₀.outputPath a.tag) ∧ ∃ b, (a.tag, b) ∈ made := by
  induction h with
  | start => exact ⟨[], .start, by simp, by simp⟩
  | @build s log name bytes always _ ih =>
    obtain ⟨made, hsession, hasked, hmet⟩ := ih fun a ha => hused a (List.mem_append_left _ ha)
    have hcurrent := hsession.current hapart hempty
    have hlast : used (static name bytes).tag :=
      hused ⟨name, bytes, _⟩ (List.mem_append_right _ (List.mem_singleton_self _))
    have hnests := static_nests hlast always s
    have hsession' := hsession.build (static name bytes) always hnests
    have hcurrent' := hsession'.current hapart hempty
    obtain ⟨path, hpath⟩ := static_met (fun part => hcurrent.takes (htakes _ part)) always
    obtain ⟨rfl, hhas, -⟩ :=
      (Definition.effect _ always (hcurrent.apart hapart) (by simp) hnests).met path hpath
    refine ⟨_, hsession', fun t b hmem => ?_, fun a ha => ?_⟩
    · rcases List.mem_append.1 hmem with hmem | hmem
      · obtain ⟨a, ha, heq⟩ := hasked t b hmem
        exact ⟨a, List.mem_append_left _ ha, heq⟩
      · exact ⟨_, List.mem_append_right _ (List.mem_singleton_self _), static_made hmem⟩
    · rcases List.mem_append.1 ha with ha | ha
      · obtain ⟨hresult, b, hb⟩ := hmet a ha
        exact ⟨hresult, b, List.mem_append_left _ hb⟩
      · obtain rfl := List.mem_singleton.1 ha
        rw [hcurrent.pathOf_eq] at hpath hhas
        refine ⟨hpath, (hcurrent'.has_iff hempty hlast).1 ?_⟩
        rwa [outputPath_eq, hcurrent'.pathOf_eq]
  | setAge _ hage ih =>
    obtain ⟨made, hsession, hrest⟩ := ih hused
    exact ⟨made, hsession.setAge hage, hrest⟩

/-- In a directory that was empty and has room, and where no digests of what was asked for are the
same by accident, all requests of a run have been met; the file at the path that a request was met
with has the contents asked for, to the end of the run, and two requests have the same path exactly
if they were for the same name and the same contents. -/
theorem contents_stay_at_their_place (h : Deposits s₀ s log) (hempty : Empty s₀)
    (hroom : ∃ t, s₀.Takes t .temporary)
    (hcontents : ∀ a ∈ log, ∀ b ∈ log,
      Digest.ofBytes .sha256 a.bytes = Digest.ofBytes .sha256 b.bytes → a.bytes = b.bytes)
    (htags : ∀ a ∈ log, ∀ b ∈ log, s₀.digest a.tag = s₀.digest b.tag → a.tag = b.tag) :
    (∀ a ∈ log, ∃ path, a.result = .ok path ∧ s.files.read path = .ok a.bytes) ∧
      ∀ a ∈ log, ∀ b ∈ log, a.result = b.result ↔ a.name = b.name ∧ a.bytes = b.bytes := by
  have hapart : Apart (Asked log) s₀ := by
    rintro _ _ ⟨a, ha, rfl⟩ ⟨b, hb, rfl⟩
    exact htags a ha b hb
  have hused : ∀ a ∈ log, Asked log a.tag := fun a ha => ⟨a, ha, rfl⟩
  obtain ⟨t₀, hroom⟩ := hroom
  have htakes := takes_of_empty hempty hroom
  obtain ⟨made, hsession, hasked, hmet⟩ := h.session hused hapart hempty htakes
  have hcurrent := hsession.current hapart hempty
  have heq (a) (ha : a ∈ log) (b) (hb : b ∈ log) (htag : a.tag = b.tag) :
      a.name = b.name ∧ a.bytes = b.bytes := by
    obtain ⟨hname, hdigest⟩ := static_tag_inj htag
    exact ⟨hname, hcontents a ha b hb hdigest⟩
  refine ⟨fun a ha => ?_, fun a ha b hb => ?_⟩
  · obtain ⟨hresult, hmade⟩ := hmet a ha
    obtain ⟨bytes, hlast⟩ := Option.isSome_iff_exists.1 (mem_made_iff.1 hmade)
    obtain ⟨a', ha', htag, rfl⟩ := hasked _ _ (mem_of_lastMade hlast)
    have hread := hcurrent.read_eq (hused a ha) hlast
    rw [outputPath_eq, hcurrent.pathOf_eq, ← (heq a ha a' ha' htag).2] at hread
    exact ⟨_, hresult, hread⟩
  · rw [(hmet a ha).1, (hmet b hb).1, outputPath_eq, outputPath_eq]
    constructor
    · intro hpaths
      obtain ⟨p, hlocate, -⟩ := htakes a.tag .artifact
      have hlocate' := hlocate
      rw [Except.ok.inj hpaths] at hlocate'
      exact heq a ha b hb (htags a ha b hb (eq_of_locate_pathOf hlocate hlocate').1)
    · rintro ⟨hname, hbytes⟩
      rw [Deposit.tag, Deposit.tag, hname, hbytes]

/-- Of two elements, no two different ones look the same if these two do not. -/
theorem eq_of_mem_pair {α β γ : Type} {f : α → β} {g : α → γ} {x y : α} (h : f x ≠ f y) :
    ∀ a ∈ [x, y], ∀ b ∈ [x, y], f a = f b → g a = g b := by
  intro a ha b hb heq
  rcases List.mem_pair.1 ha with rfl | rfl <;> rcases List.mem_pair.1 hb with rfl | rfl
  exacts [rfl, absurd heq h, absurd heq.symm h, rfl]

theorem digests_colons :
    Digest.ofBytes .sha256 "z".toUTF8 ≠ Digest.ofBytes .sha256 "y:z".toUTF8 ∧
      emptyWorkshop.digest (static "x:y" "z".toUTF8).tag ≠
        emptyWorkshop.digest (static "x" "y:z".toUTF8).tag := by
  decide +kernel

/-- Two names and contents that would give one text if a colon were put between them. -/
theorem contents_stay_at_their_place_colons :
    ∃ s path path', Deposits emptyWorkshop s
        [⟨"x:y", "z".toUTF8, .ok path⟩, ⟨"x", "y:z".toUTF8, .ok path'⟩] ∧
      path ≠ path' ∧ s.files.read path = .ok "z".toUTF8 ∧
      s.files.read path' = .ok "y:z".toUTF8 := by
  obtain ⟨s, r, r', hrun⟩ : ∃ s r r', Deposits emptyWorkshop s
      [⟨"x:y", "z".toUTF8, r⟩, ⟨"x", "y:z".toUTF8, r'⟩] :=
    ⟨_, _, _, (Deposits.start.build "x:y" "z".toUTF8 false).build "x" "y:z".toUTF8 true⟩
  have hroom : emptyWorkshop.Takes "" .temporary :=
    ⟨["builds", emptyWorkshop.digest "" ++ ".bin.tmp"], by decide +kernel, by decide +kernel,
      by decide +kernel⟩
  obtain ⟨hbytes, htags⟩ := digests_colons
  obtain ⟨hfiles, hpaths⟩ := contents_stay_at_their_place hrun emptyWorkshop_empty ⟨"", hroom⟩
    (eq_of_mem_pair hbytes) (eq_of_mem_pair htags)
  have hmem := List.mem_cons_of_mem ⟨"x:y", "z".toUTF8, r⟩
    (List.mem_singleton_self (⟨"x", "y:z".toUTF8, r'⟩ : Deposit))
  obtain ⟨path, hpath, hread⟩ := hfiles _ List.mem_cons_self
  obtain ⟨path', hpath', hread'⟩ := hfiles _ hmem
  obtain rfl : r = .ok path := hpath
  obtain rfl : r' = .ok path' := hpath'
  refine ⟨s, path, path', hrun, fun hsame => ?_, hread, hread'⟩
  have hname : "x:y" = "x" :=
    ((hpaths _ List.mem_cons_self _ hmem).1 (congrArg Except.ok hsame)).1
  exact absurd hname (by decide)

/-! ### A path that is too long -/

/-- A path behind some steps from a directory to itself. -/
def dotted : Nat → String → String
  | 0, path => path
  | n + 1, path => "./" ++ dotted n path

theorem utf8ByteSize_dotted (n : Nat) (path : String) :
    (dotted n path).utf8ByteSize = 2 * n + path.utf8ByteSize := by
  induction n with
  | zero => simp [dotted]
  | succ n ih =>
    have hdot : "./".utf8ByteSize = 2 := by decide
    rw [dotted, String.utf8ByteSize_append, ih, hdot]
    omega

theorem getLast?_dotted {path : String} (h : path ≠ "") (n : Nat) :
    (dotted n path).toList.getLast? = path.toList.getLast? := by
  induction n with
  | zero => rfl
  | succ n ih =>
    rw [dotted, String.toList_append, List.getLast?_append, ih]
    cases hlast : path.toList.getLast? with
    | none => exact absurd hlast (by simpa using h)
    | some last => rfl

theorem nul_not_mem_dotted {path : String} (h : Char.ofNat 0 ∉ path.toList) (n : Nat) :
    Char.ofNat 0 ∉ (dotted n path).toList := by
  induction n with
  | zero => exact h
  | succ n ih => simp [dotted, ih]

theorem components_dotted {path : String} {parts : List String}
    (h : Files.components path = ([], parts)) (n : Nat) :
    Files.components (dotted n path) = ([], List.replicate n "." ++ parts) := by
  induction n with
  | zero => exact h
  | succ n ih =>
    have hsplit : (dotted (n + 1) path).toList.splitOn '/' =
        ['.'] :: (dotted n path).toList.splitOn '/' := by
      rw [dotted, String.toList_append]
      exact List.splitOn_append_cons_self ['.'] (dotted n path).toList
    simp only [Files.components] at ih ⊢
    rw [hsplit]
    split at ih
    · cases ih
    · rw [List.map_cons, (Prod.mk.inj ih).2, List.replicate_succ]
      rfl

theorem walk_dots {fs : Files} {here : Path} (h : fs.requireDir here = .ok ()) (n : Nat)
    (parts : List String) :
    fs.walk here (List.replicate n "." ++ parts) = fs.walk here parts := by
  induction n with
  | zero => rfl
  | succ n ih =>
    rw [List.replicate_succ, List.cons_append, Files.walk, h]
    simpa using ih

/-- The steps lead nowhere, as long as the path is not too long. -/
theorem locate_dotted {fs : Files} {path : String} {parts : List String} {n : Nat}
    (hroot : fs.requireDir [] = .ok ()) (hpath : path ≠ "")
    (hparts : Files.components path = ([], parts)) (hnul : Char.ofNat 0 ∉ path.toList)
    (hsize : 2 * n + path.utf8ByteSize < 4096) :
    fs.locate (dotted n path) = fs.walk [] parts := by
  have hempty : (dotted n path).isEmpty = false := by cases n <;> simp [dotted, hpath]
  have hclean : (dotted n path).toList.contains (Char.ofNat 0) = false := by
    simpa using nul_not_mem_dotted hnul n
  unfold Files.locate
  rw [hempty, hclean, utf8ByteSize_dotted, components_dotted hparts, if_neg (by simp),
    if_neg (by simp), if_neg (by omega)]
  exact walk_dots hroot n parts

/-- The empty directory behind many such steps. -/
def far : Workshop :=
  { emptyWorkshop with directory := dotted 2010 "builds", algorithm := .sha256 }

theorem locate_far : far.files.locate far.directory = .ok ["builds"] :=
  @locate_dotted far.files "builds" ["builds"] 2010 rfl (by decide) (by decide) (by decide)
    (by decide)

theorem empty_far : Empty far := by
  have hlast : far.directory.toList.getLast? = some 's' := getLast?_dotted (by decide) 2010
  refine empty_of_locate (fun h => ?_) (by rw [hlast]; decide) locate_far fun name _ => ?_
  · rw [h] at hlast
    cases hlast
  · simp [Files.node?, far, emptyWorkshop, Workshop.files, Table.get?, Table.find?]

/-- The directory is there and is empty, and a request for fixed contents fails, as the path of the
temporary file is too long. -/
theorem refused_in_far :
    far.files.locate far.directory = .ok ["builds"] ∧
      far.files.requireDir ["builds"] = .ok () ∧ Empty far ∧
      ∃ s reason, Deposits far s [⟨"x", "abc".toUTF8, .error reason⟩] := by
  have hroom : ¬far.Takes (static "x" "abc".toUTF8).tag .temporary := by
    intro htakes
    have hsize := size_of_takes htakes
    have hdirectory : far.directory.utf8ByteSize = 4026 := utf8ByteSize_dotted 2010 "builds"
    have hwidth : Digest.width far.algorithm + Part.temporary.ending.utf8ByteSize = 72 := by decide
    omega
  have hnone := empty_far _ (far.proper_name (static "x" "abc".toUTF8).tag .artifact)
    (far.slash_not_mem_name _ .artifact)
  obtain ⟨reason, hreason⟩ := static_refused hnone hroom
  have hrun := (Deposits.start : Deposits far _ _).build "x" "abc".toUTF8 false
  rw [hreason] at hrun
  exact ⟨locate_far, rfl, empty_far, _, reason, hrun⟩

end Depot.Build
