import Depot.Proofs.Build.History
import Depot.Proofs.Build.Places

/-!
# Stretches of a run

Between two states of a run, the artifacts become what was last made for their tags, and what
belongs to the tags that are being built around it stays as it is (`Stretch`). Stretches go together
(`Stretch.trans`), and what a request does within the files of its tag is one (`stretch_of_within`).
The temporary file of the request under way is not among what stays: it is written once or not at
all (`Own`).
-/

namespace Depot.Build

open Workshop

variable {used : String → Prop} {around exempt : List String} {made made' : Made}
  {s s' s'' : Workshop} {tag : String}

theorem lastMade_append (tag : String) (made made' : Made) :
    lastMade tag (made ++ made') = (lastMade tag made').or (lastMade tag made) := by
  induction made with
  | nil => simp [lastMade]
  | cons first rest ih => rw [List.cons_append, lastMade, lastMade, ih, Option.or_assoc]

/-- The tags in use have different digests. -/
def Apart (used : String → Prop) (s : Workshop) : Prop :=
  ∀ t u, used t → used u → s.digest t = s.digest u → t = u

/-! ## Stretches of a run -/

/-- What happens between two states of a run: the artifacts of the tags in use become what was last
made for them, and what belongs to the tags that are being built around it stays as it is, except
for some temporary files. -/
structure Stretch (used : String → Prop) (around exempt : List String) (made : Made)
    (s s' : Workshop) : Prop where
  directory : s'.directory = s.directory
  algorithm : s'.algorithm = s.algorithm
  files : ∃ paths, Files.SameBut paths s.files s'.files
  unmade : ∀ t ∈ around, lastMade t made = none
  status : ∀ t ∈ around, s'.statuses.get? t = s.statuses.get? t
  temporary : ∀ t ∈ around, t ∉ exempt → s'.fileOf? t .temporary = s.fileOf? t .temporary
  kept : ∀ t, used t → lastMade t made = none → s'.fileOf? t .artifact = s.fileOf? t .artifact
  made : ∀ t bytes, used t → lastMade t made = some bytes →
    (s'.fileOf? t .artifact).map (·.1) = some bytes

namespace Stretch

theorem refl (used : String → Prop) (around exempt : List String) (s : Workshop) :
    Stretch used around exempt [] s s where
  directory := rfl
  algorithm := rfl
  files := ⟨[], .refl _⟩
  unmade _ _ := rfl
  status _ _ := rfl
  temporary _ _ _ := rfl
  kept _ _ _ := rfl
  made _ _ _ h := by cases h

theorem log (used : String → Prop) (around exempt : List String) (s : Workshop) (e : Event) :
    Stretch used around exempt [] s (s.log e) :=
  { refl used around exempt s with }

theorem digest_eq (h : Stretch used around exempt made s s') (tag : String) :
    s'.digest tag = s.digest tag := by
  rw [digest, h.algorithm, digest]

theorem pathOf_eq (h : Stretch used around exempt made s s') (tag : String) (part : Part) :
    s'.pathOf tag part = s.pathOf tag part := by
  rw [pathOf, h.directory, h.digest_eq, pathOf]

theorem apart (h : Stretch used around exempt made s s') (hapart : Apart used s) :
    Apart used s' := by
  intro t u ht hu hdigest
  rw [h.digest_eq, h.digest_eq] at hdigest
  exact hapart t u ht hu hdigest

theorem has_eq (h : Stretch used around exempt made s s') {part : Part}
    (hfile : s'.fileOf? tag part = s.fileOf? tag part) :
    s'.files.has (s'.pathOf tag part) = s.files.has (s.pathOf tag part) := by
  obtain ⟨paths, hsame⟩ := h.files
  rw [Workshop.fileOf?, Workshop.fileOf?, h.pathOf_eq] at hfile
  rw [h.pathOf_eq, hsame.has_eq hfile]

theorem trans (h : Stretch used around exempt made s s')
    (h' : Stretch used around exempt made' s' s'') :
    Stretch used around exempt (made ++ made') s s'' where
  directory := h'.directory.trans h.directory
  algorithm := h'.algorithm.trans h.algorithm
  files := by
    obtain ⟨paths, hsame⟩ := h.files
    obtain ⟨paths', hsame'⟩ := h'.files
    exact ⟨_, hsame.trans hsame'⟩
  unmade t ht := by rw [lastMade_append, h'.unmade t ht, h.unmade t ht, Option.or_none]
  status t ht := (h'.status t ht).trans (h.status t ht)
  temporary t ht hexempt := (h'.temporary t ht hexempt).trans (h.temporary t ht hexempt)
  kept t ht hnone := by
    rw [lastMade_append, Option.or_eq_none_iff] at hnone
    exact (h'.kept t ht hnone.1).trans (h.kept t ht hnone.2)
  made t bytes ht hsome := by
    rw [lastMade_append] at hsome
    cases hlast : lastMade t made' with
    | none =>
      rw [hlast, Option.none_or] at hsome
      rw [h'.kept t ht hlast]
      exact h.made t bytes ht hsome
    | some last =>
      rw [hlast, Option.some_or] at hsome
      rw [← hsome]
      exact h'.made t last ht hlast

theorem mono {exempt' : List String} (h : Stretch used around exempt made s s')
    (hsub : exempt ⊆ exempt') : Stretch used around exempt' made s s' :=
  { h with temporary := fun t ht hexempt => h.temporary t ht fun hmem => hexempt (hsub hmem) }

/-- Seen from outside of a request, its own temporary file does not matter. -/
theorem outer (h : Stretch used (tag :: around) [tag] made s s') (htag : tag ∉ around) :
    Stretch used around [] made s s' :=
  { h with
    unmade := fun t ht => h.unmade t (List.mem_cons_of_mem _ ht)
    status := fun t ht => h.status t (List.mem_cons_of_mem _ ht)
    temporary := fun t ht _ => h.temporary t (List.mem_cons_of_mem _ ht) (by
      rw [List.mem_singleton]
      rintro rfl
      exact htag ht) }

end Stretch

/-- Changes within the files of one tag, with an artifact of it made or not. -/
theorem stretch_of_within {parts : List Part} (hapart : Apart used s)
    (haround : ∀ t ∈ around, used t) (hused : used tag) (h : Within tag parts s s')
    (hstatus : tag ∈ around → s'.statuses.get? tag = s.statuses.get? tag)
    (htemp : tag ∈ around → tag ∉ exempt → .temporary ∉ parts)
    (hmade : made = [] ∧ s'.fileOf? tag .artifact = s.fileOf? tag .artifact ∨
      tag ∉ around ∧ ∃ file, made = [(tag, file.1)] ∧ s'.fileOf? tag .artifact = some file) :
    Stretch used around exempt made s s' := by
  have hlast : ∀ t, t ≠ tag → lastMade t made = none := by
    intro t hne
    rcases hmade with ⟨rfl, -⟩ | ⟨-, file, rfl, -⟩
    · rfl
    · simp [lastMade, Ne.symm hne]
  have hsame : ∀ t, used t → ∀ part, (t = tag → part ∉ parts) →
      s'.fileOf? t part = s.fileOf? t part := fun t ht part hpart =>
    h.fileOf?_eq fun hdigest => hpart (hapart t tag ht hused hdigest)
  obtain ⟨paths, hfiles, -⟩ := h.files
  refine ⟨h.directory, h.algorithm, ⟨paths, hfiles⟩, fun t ht => ?_, fun t ht => ?_,
    fun t ht hexempt => ?_, fun t ht hnone => ?_, fun t bytes ht hsome => ?_⟩
  · by_cases heq : t = tag
    · subst heq
      rcases hmade with ⟨rfl, -⟩ | ⟨houter, -⟩
      · rfl
      · exact absurd ht houter
    · exact hlast t heq
  · by_cases heq : t = tag
    · subst heq
      exact hstatus ht
    · exact h.statuses t heq
  · refine hsame t (haround t ht) .temporary ?_
    rintro rfl
    exact htemp ht hexempt
  · by_cases heq : t = tag
    · subst heq
      rcases hmade with ⟨-, hkept⟩ | ⟨-, file, rfl, -⟩
      · exact hkept
      · simp [lastMade] at hnone
    · exact hsame t ht .artifact fun h => absurd h heq
  · obtain rfl : t = tag := by
      by_contra hne
      rw [hlast t hne] at hsome
      cases hsome
    rcases hmade with ⟨rfl, -⟩ | ⟨-, file, rfl, hfile⟩
    · cases hsome
    · rw [hfile]
      simpa [lastMade] using hsome

/-- What a request does by itself comes last: that, and all that it does with it. -/
theorem stretch_of_last {parts : List Part} (last : Made) (houter : tag ∉ around)
    (hapart : Apart used s') (haround : ∀ t ∈ around, used t) (hused : used tag)
    (hupto : Stretch used (tag :: around) [tag] made s s') (hwithin : Within tag parts s' s'')
    (hmade : last = [] ∧ s''.fileOf? tag .artifact = s'.fileOf? tag .artifact ∨
      ∃ file, last = [(tag, file.1)] ∧ s''.fileOf? tag .artifact = some file) :
    Stretch used around [] last s' s'' ∧ Stretch used around [] (made ++ last) s s'' := by
  have hlast : Stretch used around [] last s' s'' :=
    stretch_of_within hapart haround hused hwithin (fun hmem => absurd hmem houter)
      (fun hmem => absurd hmem houter) (hmade.imp_right fun h => ⟨houter, h⟩)
  exact ⟨hlast, (hupto.outer houter).trans hlast⟩

/-! ## The output of a request under way -/

variable {c c' c'' : Context} {direct direct' : Option ByteArray}

/-- What a stretch of a request's own callbacks does to its context and its temporary file, which is
written once or not at all. -/
structure Own (around : List String) (direct : Option ByteArray) (c c' : Context)
    (s s' : Workshop) : Prop where
  tag : c'.tag = c.tag
  temporary : c'.temporary = c.temporary
  output : c'.hasOutput = (c.hasOutput || direct.isSome)
  free : direct.isSome = true → c.hasOutput = false
  kept : c.tag ∈ around → direct = none → s'.fileOf? c.tag .temporary = s.fileOf? c.tag .temporary
  written : c.tag ∈ around → ∀ bytes, direct = some bytes →
    (s'.fileOf? c.tag .temporary).map (·.1) = some bytes

namespace Own

/-- What others do in between. -/
theorem of_stretch (h : Stretch used around [] made s s') (htag : c'.tag = c.tag)
    (htemp : c'.temporary = c.temporary) (houtput : c'.hasOutput = c.hasOutput) :
    Own around none c c' s s' where
  tag := htag
  temporary := htemp
  output := by simp [houtput]
  free h := by cases h
  kept hmem _ := h.temporary _ hmem (by simp)
  written _ _ h := by cases h

theorem trans (h : Own around direct c c' s s') (h' : Own around direct' c' c'' s' s'') :
    Own around (direct.or direct') c c'' s s'' where
  tag := h'.tag.trans h.tag
  temporary := h'.temporary.trans h.temporary
  output := by rw [h'.output, h.output, Bool.or_assoc, Option.isSome_or]
  free hsome := by
    rw [Option.isSome_or, Bool.or_eq_true] at hsome
    rcases hsome with hsome | hsome
    · exact h.free hsome
    · have hfree := h'.free hsome
      rw [h.output, Bool.or_eq_false_iff] at hfree
      exact hfree.1
  kept hmem hnone := by
    rw [Option.or_eq_none_iff] at hnone
    have hkept := h'.kept (h.tag ▸ hmem) hnone.2
    rw [h.tag] at hkept
    exact hkept.trans (h.kept hmem hnone.1)
  written hmem bytes hsome := by
    cases hdirect : direct with
    | none =>
      rw [hdirect, Option.none_or] at hsome
      have hwritten := h'.written (h.tag ▸ hmem) bytes hsome
      rwa [h.tag] at hwritten
    | some first =>
      -- nothing is written a second time
      have hnone : direct' = none := by
        by_contra hne
        have hfree := h'.free (Option.isSome_iff_ne_none.2 hne)
        simp [h.output, hdirect] at hfree
      have hkept := h'.kept (h.tag ▸ hmem) hnone
      rw [hdirect, Option.some_or] at hsome
      rw [h.tag] at hkept
      rw [hkept]
      exact h.written hmem bytes (hdirect.trans hsome)

end Own

/-- A callback can start in a context whose tag is in use and which knows the temporary file. -/
structure Starts (used : String → Prop) (around : List String) (c : Context) (s : Workshop) :
    Prop where
  apart : Apart used s
  around : ∀ t ∈ around, used t
  used : used c.tag
  temporary : c.temporary = some (s.temporaryPath c.tag)

theorem Starts.next (h : Starts used around c s) (hstretch : Stretch used around exempt made s s')
    (hown : Own around direct c c' s s') : Starts used around c' s' where
  apart := hstretch.apart h.apart
  around := h.around
  used := hown.tag ▸ h.used
  temporary := by
    rw [hown.temporary, hown.tag, h.temporary, temporaryPath_eq, temporaryPath_eq,
      hstretch.pathOf_eq]

theorem Starts.log (h : Starts used around c s) (e : Event) : Starts used around c (s.log e) :=
  ⟨h.apart, h.around, h.used, h.temporary⟩

end Depot.Build
