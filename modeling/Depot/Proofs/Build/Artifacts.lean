import Depot.Proofs.Build.Failed

/-!
# Artifacts in every state

Between requests, what a request does (`Definition.effect`) and a change of an age keep one
invariant: each artifact is what was last made for its tag (`Current`). So in a workshop whose
directory was empty at first there is an artifact for a tag exactly if one was made, and it has the
bytes that were last made (`artifacts_of_session`).
-/

namespace Depot.Build

open Workshop

variable {used : String → Prop} {made : Made} {s₀ s : Workshop} {tag : String}

/-! ## Sessions -/

/-- Requests one after the other, and files that get another age in between. -/
inductive Session (used : String → Prop) (s₀ : Workshop) : Workshop → Made → Prop
  | start : Session used s₀ s₀ []
  | build {s : Workshop} {made : Made} (d : Definition) (always : Bool) :
    Session used s₀ s made → d.Nests used [] always s →
      Session used s₀ (d.build always s).1 (made ++ d.made always s)
  | setAge {s : Workshop} {made : Made} {path : String} {age : Int} {files : Files} :
    Session used s₀ s made → s.files.setAge path age = some files →
      Session used s₀ (s.withFiles files) made

/-- Nothing is in the directory of the artifacts. -/
def Empty (s : Workshop) : Prop :=
  ∀ name, Files.Proper name → '/' ∉ name.toList → s.files.has (Files.join s.directory name) = false

theorem mem_made_iff : (∃ bytes, (tag, bytes) ∈ made) ↔ (lastMade tag made).isSome = true := by
  induction made with
  | nil => simp [lastMade]
  | cons first rest ih =>
    obtain ⟨t, bytes⟩ := first
    by_cases ht : t = tag
    · simp [lastMade, ht]
    · simp [lastMade, ht, Ne.symm ht, ih]

theorem mem_of_lastMade {bytes : ByteArray} (h : lastMade tag made = some bytes) :
    (tag, bytes) ∈ made := by
  induction made with
  | nil => cases h
  | cons first rest ih =>
    rw [lastMade, Option.or_eq_some_iff] at h
    rcases h with hrest | ⟨-, hfirst⟩
    · exact List.mem_cons_of_mem _ (ih hrest)
    · split at hfirst
      · next ht =>
        obtain rfl := Option.some.inj hfirst
        rw [← ht]
        exact List.mem_cons_self
      · cases hfirst

/-- The artifacts are what was last made, and the directories are as at first. -/
structure Current (used : String → Prop) (s₀ s : Workshop) (made : Made) : Prop where
  directory : s.directory = s₀.directory
  algorithm : s.algorithm = s₀.algorithm
  files : ∃ paths, Files.SameBut paths s₀.files s.files
  artifact : ∀ t, used t → (s.fileOf? t .artifact).map (·.1) = lastMade t made

theorem Current.apart (h : Current used s₀ s made) (hapart : Apart used s₀) : Apart used s := by
  intro t u ht hu hdigest
  rw [digest, digest, h.algorithm] at hdigest
  exact hapart t u ht hu hdigest

theorem Current.pathOf_eq (h : Current used s₀ s made) (tag : String) (part : Part) :
    s.pathOf tag part = s₀.pathOf tag part := by
  simp only [pathOf, digest, h.directory, h.algorithm]

theorem Empty.fileOf? (h : Empty s) (tag : String) (part : Part) : s.fileOf? tag part = none := by
  have hname := h _ (s.proper_name tag part) (s.slash_not_mem_name tag part)
  rw [← Bool.not_eq_true, Files.has_eq_true_iff, not_or, Option.not_isSome_iff_eq_none] at hname
  exact hname.1

theorem Session.current (h : Session used s₀ s made) (hapart : Apart used s₀) (hempty : Empty s₀) :
    Current used s₀ s made := by
  induction h with
  | start => exact ⟨rfl, rfl, ⟨[], .refl _⟩, fun t _ => by rw [hempty.fileOf?]; rfl⟩
  | @build s made d always _ hnests ih =>
    obtain ⟨paths, hsame⟩ := ih.files
    have hstretch := (d.effect always (ih.apart hapart) (by simp) hnests).stretch
    obtain ⟨paths', hsame'⟩ := hstretch.files
    refine ⟨hstretch.directory.trans ih.directory, hstretch.algorithm.trans ih.algorithm,
      ⟨_, hsame.trans hsame'⟩, fun t ht => ?_⟩
    rw [lastMade_append]
    cases hlast : lastMade t (d.made always s) with
    | none => rw [hstretch.kept t ht hlast, ih.artifact t ht, Option.none_or]
    | some bytes => rw [hstretch.made t bytes ht hlast, Option.some_or]
  | @setAge s made path age files _ hage ih =>
    obtain ⟨paths, hsame⟩ := ih.files
    obtain ⟨p, -, hsame', -⟩ := Files.setAge_spec hage
    refine ⟨ih.directory, ih.algorithm, ⟨_, hsame.trans hsame'⟩, fun t ht => ?_⟩
    exact (Files.bytes_setAge hage (s.pathOf t .artifact)).trans (ih.artifact t ht)

/-- There is an artifact exactly if something was made. -/
theorem Current.has_iff (h : Current used s₀ s made) (hempty : Empty s₀) (ht : used tag) :
    s.files.has (s.outputPath tag) = true ↔ ∃ bytes, (tag, bytes) ∈ made := by
  rw [mem_made_iff, ← h.artifact tag ht, Option.isSome_map, outputPath_eq, Files.has_eq_true_iff]
  refine ⟨fun hhas => ?_, .inl⟩
  rcases hhas with hfile | ⟨p, hlocate, hdir⟩
  · exact hfile
  · -- a directory would have been there at first
    obtain ⟨paths, hsame⟩ := h.files
    have hname := hempty _ (s₀.proper_name tag .artifact) (s₀.slash_not_mem_name tag .artifact)
    rw [← Bool.not_eq_true, Files.has_eq_true_iff, not_or] at hname
    rw [h.pathOf_eq] at hlocate
    exact absurd ⟨p, hsame.locate_eq_ok_iff.1 hlocate, (hsame.dirs p).1 hdir⟩ hname.2

theorem Current.read_eq {bytes : ByteArray} (h : Current used s₀ s made) (ht : used tag)
    (hlast : lastMade tag made = some bytes) :
    s.files.read (s.outputPath tag) = .ok bytes := by
  have hbytes := h.artifact tag ht
  rw [hlast] at hbytes
  obtain ⟨⟨found, age⟩, hfile, rfl⟩ := Option.map_eq_some_iff.1 hbytes
  exact Files.read_eq_ok_iff.2 ⟨age, hfile⟩

/-- In a session that begins with an empty directory, a tag in use has an artifact exactly if one
was made for it, with the bytes that were last made. A request changes the artifacts of those tags
only for which it makes one, and a path that it returns is that of its artifact, which is there; it
is recorded as built exactly if it was published then. -/
theorem artifacts_of_session (hapart : Apart used s₀) (hempty : Empty s₀)
    (h : Session used s₀ s made) :
    (∀ t, used t →
      (s.files.has (s.outputPath t) = true ↔ ∃ bytes, (t, bytes) ∈ made) ∧
      ∀ bytes, lastMade t made = some bytes → s.files.read (s.outputPath t) = .ok bytes) ∧
    ∀ (d : Definition) (always : Bool), d.Nests used [] always s →
      (∀ t, used t → (∀ bytes, (t, bytes) ∉ d.made always s) →
        (d.build always s).1.files.fileOf? (s.outputPath t) =
          s.files.fileOf? (s.outputPath t)) ∧
      lastMade d.tag (d.made always s) = d.published always s ∧
      ∀ path, (d.build always s).2 = .ok path →
        path = s.outputPath d.tag ∧ (d.build always s).1.files.has path = true ∧
        ∃ status, (d.build always s).1.statuses.get? d.tag = some status ∧
          (status.state = .built ↔ (d.published always s).isSome = true) := by
  have hcurrent := h.current hapart hempty
  refine ⟨fun t ht => ⟨hcurrent.has_iff hempty ht, fun bytes => hcurrent.read_eq ht⟩,
    fun d always hnests => ?_⟩
  have heffect := d.effect always (hcurrent.apart hapart) (by simp) hnests
  refine ⟨fun t ht hnever => ?_, heffect.own, heffect.met⟩
  have hnone : lastMade t (d.made always s) = none := by
    rw [← Option.not_isSome_iff_eq_none, ← mem_made_iff]
    simpa using hnever
  have hkept := heffect.stretch.kept t ht hnone
  rwa [Workshop.fileOf?, heffect.stretch.pathOf_eq] at hkept

/-! ### An empty directory -/

/-- A directory is empty if no node is there for a name in it. -/
theorem empty_of_locate {here : Path} (hdirectory : s.directory ≠ "")
    (hlast : s.directory.toList.getLast? ≠ some '/')
    (hlocate : s.files.locate s.directory = .ok here)
    (hnone : ∀ name, Files.Proper name → s.files.node? (here ++ [name]) = none) : Empty s := by
  intro name hname hslash
  rw [Files.join_eq hdirectory hlast hslash]
  unfold Files.has Files.lookup
  cases hfound : s.files.locate (s.directory ++ "/" ++ name) with
  | error e => rfl
  | ok p =>
    obtain ⟨-, -, d, hd, -, -, rfl⟩ := (Files.locate_below hdirectory hname hslash).1 hfound
    obtain rfl : here = d := Except.ok.inj (hlocate.symm.trans hd)
    simp only [hnone name hname]

theorem emptyWorkshop_empty : Empty emptyWorkshop := by
  refine @empty_of_locate _ ["builds"] (by decide) (by decide) (by decide) fun name _ => ?_
  simp [Files.node?, emptyWorkshop, Workshop.files, Table.get?, Table.find?]

/-- After a request for `base` its artifact is there, and no other one. -/
theorem artifacts_of_session_base :
    Session InUse emptyWorkshop (base.build false emptyWorkshop).1 [("base", "system".toUTF8)] ∧
      (base.build false emptyWorkshop).1.files.read
        ((base.build false emptyWorkshop).1.outputPath "base") = .ok "system".toUTF8 ∧
      (base.build false emptyWorkshop).1.files.has
        ((base.build false emptyWorkshop).1.outputPath "app") = false := by
  have hmade : base.made false emptyWorkshop = [("base", "system".toUTF8)] := by decide +kernel
  have hsession := (Session.start : Session InUse emptyWorkshop _ _).build base false
    (base_nests List.not_mem_nil false _)
  rw [hmade, List.nil_append] at hsession
  obtain ⟨hartifacts, -⟩ := artifacts_of_session apart_emptyWorkshop emptyWorkshop_empty hsession
  refine ⟨hsession, (hartifacts "base" (.inl rfl)).2 _ rfl, ?_⟩
  rw [← Bool.not_eq_true, (hartifacts "app" (.inr rfl)).1]
  simp

end Depot.Build
