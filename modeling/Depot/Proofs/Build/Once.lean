import Depot.Proofs.Build.Story

/-!
# Artifacts that are made once

Whatever a run does continues the story of a tag (`Tells`), if the definitions of that tag are never
stale. Callbacks and requests do, by induction on their trees (`Steps.tells`, `Definition.tells`),
and so does every series of requests (`built_once`).
-/

namespace Depot.Build

open Workshop

variable {tag : String} {s₀ s s' s'' : Workshop} {c : Context} {bytes : ByteArray}
  {d : Definition} {always : Bool} {stage stage' stage'' : Stage} {visits visits' : List Visit}
  {events : List Event} {v : Visit}

/-! ## Runs -/

/-- A stretch of a run, with the requests that it makes and what happens to a tag. -/
structure Tells (tag : String) (stage stage' : Stage) (visits : List Visit) (s s' : Workshop) :
    Prop where
  directory : s'.directory = s.directory
  algorithm : s'.algorithm = s.algorithm
  ends : s'.At tag stage'
  story : ∃ events, s'.journal = s.journal ++ events ∧
    Story tag (s.outputPath tag) visits events stage stage'

namespace Tells

theorem digest_eq (h : Tells tag stage stage' visits s s') (t : String) :
    s'.digest t = s.digest t := by
  rw [digest, h.algorithm, digest]

theorem pathOf_eq (h : Tells tag stage stage' visits s s') (t : String) (part : Part) :
    s'.pathOf t part = s.pathOf t part := by
  rw [pathOf, h.directory, h.digest_eq, pathOf]

theorem trans (h : Tells tag stage stage' visits s s')
    (h' : Tells tag stage' stage'' visits' s' s'') :
    Tells tag stage stage'' (visits ++ visits') s s'' := by
  obtain ⟨events, hjournal, hstory⟩ := h.story
  obtain ⟨events', hjournal', hstory'⟩ := h'.story
  rw [outputPath_eq, h.pathOf_eq, ← outputPath_eq] at hstory'
  refine ⟨h'.directory.trans h.directory, h'.algorithm.trans h.algorithm, h'.ends, _, ?_,
    hstory.trans hstory'⟩
  rw [hjournal', hjournal, List.append_assoc]

/-- Changes to the files of another tag, or to other files of this one. -/
theorem of_within {parts : List Part} {t : String} (hstage : s.At tag stage)
    (h : Within t parts s s') (hfile : s.digest tag = s.digest t → .artifact ∉ parts)
    (hjournal : s'.journal = s.journal ++ events) (hevents : ∀ e ∈ events, ¬e.Concerns tag)
    (hvisits : ∀ v ∈ visits, v.tag ≠ tag) : Tells tag stage stage visits s s' :=
  ⟨h.directory, h.algorithm, hstage.of_kept h (h.fileOf?_eq hfile), events, hjournal,
    .idle hvisits hevents stage⟩

theorem refl (hstage : s.At tag stage) (hvisits : ∀ v ∈ visits, v.tag ≠ tag) :
    Tells tag stage stage visits s s :=
  of_within hstage (Within.refl s tag) (by simp) (List.append_nil _).symm (by simp) hvisits

theorem log {e : Event} (hstage : s.At tag stage) (he : ¬e.Concerns tag) :
    Tells tag stage stage [] s (s.log e) :=
  of_within hstage (Within.log s tag e) (by simp) rfl (by simpa using he) (by simp)

end Tells

/-- A definition whose question always says that its artifact is not stale. -/
def Definition.NeverStale (d : Definition) : Prop :=
  ∀ age s, ((d.stale age).run (startingContext s d.tag) s).2.2 = .ok false

/-- A request leaves a tag alone, or it is an ordinary one for that tag, of a definition that is
never stale, and makes no request for the tag inside, which would wait for itself. -/
structure Visit.Respects (tag : String) (v : Visit) : Prop where
  apart : v.tag ≠ tag → v.before.digest tag ≠ v.before.digest v.tag
  steady : v.tag = tag → v.definition.NeverStale
  ordinary : v.tag = tag → v.always = false
  alone : v.tag = tag → ∀ w ∈ v.definition.inner v.always v.before, w.tag ≠ tag

section

variable {s₁ : Workshop} {age : Int}

/-- Work for another tag, and what is done with what it comes to. -/
theorem tells_rebuild_of_ne (hne : d.tag ≠ tag) (hapart : s₁.digest tag ≠ s₁.digest d.tag)
    (hv : v.tag ≠ tag) (hstage : s₁.At tag stage)
    (hwork : (s₁.log (.started d.tag)).At tag stage → ∃ stage', Tells tag stage stage'
      (d.work.visits c (s₁.log (.started d.tag))) (s₁.log (.started d.tag))
      (d.work.run c (s₁.log (.started d.tag))).1) :
    ∃ stage', Tells tag stage stage' (d.work.visits c (s₁.log (.started d.tag)) ++ [v]) s₁
      (s₁.rebuild d.tag d.work.run c).1 := by
  have hstarted : Tells tag stage stage [] s₁ (s₁.log (.started d.tag)) :=
    .log hstage fun h => hne h
  obtain ⟨stage', hrun⟩ := hwork hstarted.ends
  rcases hresult : d.work.run c (s₁.log (.started d.tag)) with ⟨s₂, c₂, result⟩
  rw [hresult] at hrun
  have hupto := hstarted.trans hrun
  have hdigest : s₂.digest tag = s₂.digest d.tag →
      Part.artifact ∉ [Part.temporary, .artifact, .label] := by
    rw [hupto.digest_eq, hupto.digest_eq]
    exact fun h => absurd h hapart
  obtain ⟨hwithin, -⟩ := rebuild_cases hresult
  obtain ⟨events, hjournal, hevents⟩ : ∃ events,
      (s₁.rebuild d.tag d.work.run c).1.journal = s₂.journal ++ events ∧
        ∀ e ∈ events, ¬e.Concerns tag := by
    cases journals_rebuild hresult with
    | unbuilt _ hjournal => exact ⟨[], by rw [hjournal, List.append_nil], by simp⟩
    | built bytes _ hjournal => exact ⟨_, hjournal, by simpa [Event.Concerns] using hne⟩
  have hlast : Tells tag stage' stage' [v] s₂ (s₁.rebuild d.tag d.work.run c).1 :=
    .of_within hupto.ends hwithin hdigest hjournal hevents (by simpa using hv)
  exact ⟨stage', hupto.trans hlast⟩

/-- A request for another tag. -/
theorem tells_of_ne (hne : d.tag ≠ tag) (hapart : s.digest tag ≠ s.digest d.tag)
    (hstage : s.At tag stage)
    (hquestion : ∀ age, d.asked always s = some age → ∃ stage', Tells tag stage stage'
      ((d.stale age).visits (startingContext s d.tag) s) s
      ((d.stale age).run (startingContext s d.tag) s).1)
    (hwork : ∀ c s₁ stage, d.workStart always s = some (c, s₁) →
      (s₁.log (.started d.tag)).At tag stage → ∃ stage', Tells tag stage stage'
        (d.work.visits c (s₁.log (.started d.tag))) (s₁.log (.started d.tag))
        (d.work.run c (s₁.log (.started d.tag))).1) :
    ∃ stage', Tells tag stage stage' (d.visits always s) s (d.build always s).1 := by
  have hv : (⟨d, always, s⟩ : Visit).tag ≠ tag := hne
  rw [Definition.visits, inner_eq, build_eq]
  cases hasked : d.asked always s with
  | none =>
    have hstart : d.workStart always s = some (startingContext s d.tag, s) := by
      simp only [Definition.workStart, hasked]
    simp only [hstart, List.nil_append]
    exact tells_rebuild_of_ne hne hapart hv hstage (hwork _ _ _ hstart)
  | some age =>
    obtain ⟨stage', hasking⟩ := hquestion age hasked
    rcases hrun : (d.stale age).run (startingContext s d.tag) s with ⟨s₁, c₁, e | _ | _⟩
    all_goals rw [hrun] at hasking
    · simp only [Definition.workStart, hasked, hrun, List.append_nil]
      exact ⟨stage', hasking.trans (.refl hasking.ends (by simpa using hv))⟩
    · simp only [Definition.workStart, hasked, hrun, List.append_nil]
      refine ⟨stage', hasking.trans (.of_within hasking.ends (.record s₁ d.tag _) (by simp)
        (List.append_nil _).symm (by simp) (by simpa using hv))⟩
    · have hstart : d.workStart always s = some ({ c₁ with hasCached := true }, s₁) := by
        simp only [Definition.workStart, hasked, hrun]
      rw [← hasking.digest_eq, ← hasking.digest_eq d.tag] at hapart
      obtain ⟨stage'', hrest⟩ :=
        tells_rebuild_of_ne hne hapart hv hasking.ends (hwork _ _ _ hstart)
      simp only [hrun, hstart, List.append_assoc]
      exact ⟨stage'', hasking.trans hrest⟩

end

/-! ### Requests for the tag itself -/

section

variable {s₁ : Workshop} {parts : List Part} {children : List String}

/-- Work for a tag that makes no request for it publishes nothing by itself. -/
theorem unpublished_of_alone
    (hrun : Tells tag .missing stage visits (s.log (.started tag)) s₁)
    (halone : ∀ w ∈ visits, w.tag ≠ tag) :
    stage = .missing ∧ ∃ events, s₁.journal = s.journal ++ events ∧
      ∀ bytes, .published tag bytes ∉ events := by
  obtain ⟨inside, hinside, hstory⟩ := hrun.story
  obtain ⟨rfl, hunpublished, -⟩ := hstory.eq_of_alone halone
  refine ⟨rfl, .started tag :: inside, ?_, fun bytes hmem => ?_⟩
  · rw [hinside]
    exact List.append_assoc ..
  · rcases List.mem_cons.1 hmem with heq | hmem
    · cases heq
    · exact hunpublished rfl bytes hmem

/-- Work that comes to nothing. -/
theorem tells_of_undone (hstage : s.At d.tag .missing)
    (halone : ∀ w ∈ d.inner always s, w.tag ≠ d.tag)
    (hrun : Tells d.tag .missing .missing (d.inner always s) (s.log (.started d.tag)) s₁)
    (hwithin : Within d.tag parts s₁ (d.build always s).1)
    (hundone : Undone d.tag s₁ (d.build always s).1)
    (hfailed : ∃ e, (d.build always s).2 = .error e)
    (hjournal : (d.build always s).1.journal = s₁.journal) :
    Tells d.tag .missing .missing (d.visits always s) s (d.build always s).1 := by
  obtain ⟨-, events, hevents, hunpublished⟩ := unpublished_of_alone hrun halone
  have hgone := hrun.ends.of_kept hwithin hundone.artifact
  refine ⟨hwithin.directory.trans hrun.directory, hwithin.algorithm.trans hrun.algorithm, hgone,
    events, hjournal.trans hevents, .missing (fun v hv htag => ?_) hunpublished⟩
  rcases List.mem_append.1 hv with hv | hv
  · exact absurd htag (halone v hv)
  · obtain rfl := List.mem_singleton.1 hv
    exact ⟨hstage, hfailed, hgone⟩

/-- Work that is published. -/
theorem tells_of_published (hstage : s.At d.tag .missing)
    (halone : ∀ w ∈ d.inner always s, w.tag ≠ d.tag)
    (hrun : Tells d.tag .missing .missing (d.inner always s) (s.log (.started d.tag)) s₁)
    (hwithin : Within d.tag parts s₁ (d.build always s).1)
    (hstored : (d.build always s).1.At d.tag (.stored bytes))
    (hresult : (d.build always s).2 = .ok (s₁.pathOf d.tag .artifact))
    (hstatus : (d.build always s).1.statuses.get? d.tag = some ⟨.built, children⟩)
    (hjournal : (d.build always s).1.journal = s₁.journal ++ [.published d.tag bytes]) :
    Tells d.tag .missing (.stored bytes) (d.visits always s) s (d.build always s).1 := by
  obtain ⟨-, events, hevents, hunpublished⟩ := unpublished_of_alone hrun halone
  have hpath : s₁.pathOf d.tag .artifact = s.outputPath d.tag := hrun.pathOf_eq d.tag .artifact
  have hfirst : Visit.Publishes (s.outputPath d.tag) bytes ⟨d, always, s⟩ :=
    ⟨hstage, hresult.trans (congrArg Except.ok hpath), hstored, children, hstatus⟩
  have hvisits : d.visits always s = d.inner always s ++ ⟨d, always, s⟩ :: [] := rfl
  refine ⟨hwithin.directory.trans hrun.directory, hwithin.algorithm.trans hrun.algorithm, hstored,
    events ++ [.published d.tag bytes], ?_, ?_⟩
  · rw [hjournal, hevents, List.append_assoc]
  · exact .published hvisits rfl (fun v hv htag => absurd htag (halone v hv)) ⟨rfl, hfirst⟩
      (by simp) hunpublished (by simp)

end

/-- A request while there is nothing in the place of the artifact. -/
theorem tells_of_missing (hstage : s.At d.tag .missing)
    (halone : ∀ w ∈ d.inner always s, w.tag ≠ d.tag)
    (hwork : (s.log (.started d.tag)).At d.tag .missing → ∃ stage', Tells d.tag .missing stage'
      (d.work.visits (startingContext s d.tag) (s.log (.started d.tag)))
      (s.log (.started d.tag))
      (d.work.run (startingContext s d.tag) (s.log (.started d.tag))).1) :
    ∃ stage', Tells d.tag .missing stage' (d.visits always s) s (d.build always s).1 := by
  have hasked : d.asked always s = none := by
    unfold Definition.asked
    rw [hstage.age?_eq_none, ite_self]
  have hstart : d.workStart always s = some (startingContext s d.tag, s) := by
    simp only [Definition.workStart, hasked]
  have hinner : d.inner always s =
      d.work.visits (startingContext s d.tag) (s.log (.started d.tag)) := by
    rw [inner_eq]
    simp only [hasked, hstart, List.nil_append]
  have hbuild : d.build always s = s.rebuild d.tag d.work.run (startingContext s d.tag) := by
    rw [build_eq]
    simp only [hasked]
  rw [← hinner] at hwork
  obtain ⟨stage', hrun⟩ := hwork hstage
  obtain ⟨rfl, -⟩ := unpublished_of_alone hrun halone
  rcases hresult : d.work.run (startingContext s d.tag) (s.log (.started d.tag)) with
    ⟨s₁, c₁, result⟩
  rw [hresult] at hrun
  obtain ⟨hwithin, hcases⟩ := rebuild_cases hresult
  have hjournals := journals_rebuild hresult
  rw [← hbuild] at hwithin hcases hjournals
  rcases hcases with ⟨e, hperform, hfailed, hundone⟩ | ⟨product, state, -, hperform, hok, hmet⟩
  · rw [hperform] at hjournals
    cases hjournals with
    | unbuilt _ hjournal =>
      exact ⟨.missing, tells_of_undone hstage halone hrun hwithin hundone ⟨_, hfailed⟩ hjournal⟩
    | built _ hbuilt => cases hbuilt
  · cases state with
    | cached =>
      -- there is nothing to keep
      have hhas := (hmet.cached rfl).2
      rw [← outputPath_eq, hrun.ends] at hhas
      cases hhas
    | built =>
      obtain ⟨p, file, -, hfile, -⟩ := hmet.built rfl
      cases hjournals with
      | unbuilt hunbuilt => exact absurd hperform hunbuilt
      | built bytes _ hjournal hbytes =>
        obtain rfl := hbytes file hfile
        exact ⟨.stored file.1, tells_of_published hstage halone hrun hwithin ⟨file.2, hfile⟩ hok
          hmet.status hjournal⟩

/-- A request while there is an artifact. -/
theorem tells_of_stored (hstage : s.At d.tag (.stored bytes)) (hsteady : d.NeverStale)
    (halone : ∀ w ∈ d.inner false s, w.tag ≠ d.tag)
    (hquestion : ∀ age, d.asked false s = some age → ∃ stage', Tells d.tag (.stored bytes) stage'
      ((d.stale age).visits (startingContext s d.tag) s) s
      ((d.stale age).run (startingContext s d.tag) s).1) :
    ∃ stage', Tells d.tag (.stored bytes) stage' (d.visits false s) s (d.build false s).1 := by
  obtain ⟨age, hage⟩ := hstage.exists_age
  have hasked : d.asked false s = some age := hage
  obtain ⟨stage', hasking⟩ := hquestion age hasked
  have hanswer := hsteady age s
  rcases hrun : (d.stale age).run (startingContext s d.tag) s with ⟨s₁, c₁, result⟩
  rw [hrun] at hasking hanswer
  obtain rfl : result = .ok false := hanswer
  have hinner : d.inner false s = (d.stale age).visits (startingContext s d.tag) s := by
    rw [inner_eq]
    simp only [hasked, Definition.workStart, hrun, List.append_nil]
  have hbuild : d.build false s =
      (s₁.record d.tag ⟨.cached, c₁.children⟩, .ok (s₁.outputPath d.tag)) := by
    rw [build_eq]
    simp only [hasked, hrun]
  rw [← hinner] at hasking
  obtain ⟨events, hjournal, hstory⟩ := hasking.story
  obtain ⟨rfl, -, hevents⟩ := hstory.eq_of_alone halone
  have hends : (d.build false s).1.At d.tag (.stored bytes) := by
    rw [hbuild]
    exact hasking.ends.of_kept (.record s₁ d.tag _) rfl
  refine ⟨.stored bytes, ?_, ?_, hends, events, ?_, .stored (fun v hv htag => ?_)
    (hevents (by simp))⟩
  · rw [hbuild]
    exact hasking.directory
  · rw [hbuild]
    exact hasking.algorithm
  · rw [hbuild]
    exact hjournal
  · rcases List.mem_append.1 hv with hv | hv
    · exact absurd htag (halone v hv)
    · obtain rfl := List.mem_singleton.1 hv
      have hpath : s₁.outputPath d.tag = s.outputPath d.tag := hasking.pathOf_eq d.tag .artifact
      refine ⟨hstage, ?_, hends, c₁.children, ?_⟩
      · rw [Visit.result, hbuild, hpath]
      · rw [Visit.after, hbuild]
        exact get?_record ..

/-- A request continues the story of a tag if its callbacks do. -/
theorem tells_of_callbacks (hvisits : ∀ v ∈ d.visits always s, v.Respects tag)
    (hstage : s.At tag stage)
    (hquestion : ∀ age, d.asked always s = some age → s.At tag stage → ∃ stage',
      Tells tag stage stage' ((d.stale age).visits (startingContext s d.tag) s) s
        ((d.stale age).run (startingContext s d.tag) s).1)
    (hwork : ∀ c s₁ stage, d.workStart always s = some (c, s₁) →
      (s₁.log (.started d.tag)).At tag stage → ∃ stage', Tells tag stage stage'
        (d.work.visits c (s₁.log (.started d.tag))) (s₁.log (.started d.tag))
        (d.work.run c (s₁.log (.started d.tag))).1) :
    ∃ stage', Tells tag stage stage' (d.visits always s) s (d.build always s).1 := by
  have hself := hvisits _ (List.mem_append_right _ (List.mem_singleton_self _))
  by_cases htag : d.tag = tag
  · subst htag
    obtain rfl : always = false := hself.ordinary rfl
    cases stage with
    | missing =>
      refine tells_of_missing hstage (hself.alone rfl) (hwork _ s _ ?_)
      simp only [Definition.workStart, Definition.asked, hstage.age?_eq_none, ite_self]
    | stored bytes =>
      exact tells_of_stored hstage (hself.steady rfl) (hself.alone rfl)
        fun age hasked => hquestion age hasked hstage
  · exact tells_of_ne htag (hself.apart htag) hstage (fun age hasked => hquestion age hasked hstage)
      hwork

/-! ### Whole runs -/

/-- A callback works with the temporary file of its own tag, if it works with a file at all. -/
def Context.Placed (c : Context) (s : Workshop) : Prop :=
  c.temporary = none ∨ c.temporary = some (s.temporaryPath c.tag)

theorem Tells.placed {c' : Context} (h : Tells tag stage stage' visits s s') (hplaced : c.Placed s)
    (htag : c'.tag = c.tag) (htemporary : c'.temporary = c.temporary) : c'.Placed s' := by
  rwa [Context.Placed, htemporary, htag, temporaryPath_eq, h.pathOf_eq, ← temporaryPath_eq]

theorem createOutput_of_placed (h : c.Placed s) (bytes : ByteArray) :
    (∃ e, createOutput bytes c s = (s, c, .error e)) ∨
      ∃ files, s.files.write (s.pathOf c.tag .temporary) bytes = .ok files ∧
        createOutput bytes c s = (s.withFiles files, { c with hasOutput := true }, .ok ()) := by
  rcases h with hnone | hplace
  · unfold createOutput
    rw [hnone]
    exact .inl ⟨_, rfl⟩
  · exact (createOutput_cases hplace bytes).imp_right fun ⟨files, _, hwrite⟩ => ⟨files, hwrite⟩

/-- Work starts in a context of its tag. -/
theorem placed_of_workStart {s₁ : Workshop} (hstart : d.workStart always s = some (c, s₁))
    (hstage : s.At tag stage)
    (hquestion : ∀ age, d.asked always s = some age → s.At tag stage → ∃ stage',
      Tells tag stage stage' ((d.stale age).visits (startingContext s d.tag) s) s
        ((d.stale age).run (startingContext s d.tag) s).1) : c.Placed s₁ := by
  cases hasked : d.asked always s with
  | none =>
    simp only [Definition.workStart, hasked, Option.some.injEq, Prod.mk.injEq] at hstart
    obtain ⟨rfl, rfl⟩ := hstart
    exact .inr rfl
  | some age =>
    obtain ⟨stage', htells⟩ := hquestion age hasked hstage
    have hcontext := context_run (d.stale age) (startingContext s d.tag) s
    rcases hrun : (d.stale age).run (startingContext s d.tag) s with ⟨s₂, c₂, e | _ | _⟩
    all_goals
      rw [hrun] at htells hcontext
      simp only [Definition.workStart, hasked, hrun, reduceCtorEq, Option.some.injEq,
        Prod.mk.injEq] at hstart
    obtain ⟨rfl, rfl⟩ := hstart
    exact htells.placed (c := startingContext s d.tag) (.inr rfl) hcontext.1 hcontext.2

mutual
/-- Every callback continues the story of a tag if the requests on its way respect the tag, by
induction on its tree. -/
theorem Steps.tells {r : Role} : ∀ (steps : Steps r) {c : Context} {s : Workshop} {stage : Stage},
    c.Placed s → (∀ v ∈ steps.visits c s, v.Respects tag) → s.At tag stage →
      ∃ stage', Tells tag stage stage' (steps.visits c s) s (steps.run c s).1
  | .done answer, c, s, stage, _, _, hstage => ⟨stage, .refl hstage (by simp [Steps.visits])⟩
  | .fail e, c, s, stage, _, _, hstage => ⟨stage, .refl hstage (by simp [Steps.visits])⟩
  | .note text next, c, s, stage, hplaced, hvisits, hstage => by
    have hnoted : Tells tag stage stage [] s (s.log (.note text)) := .log hstage id
    obtain ⟨stage', hnext⟩ := next.tells (hnoted.placed hplaced rfl rfl) hvisits hnoted.ends
    exact ⟨stage', hnoted.trans hnext⟩
  | .look next, c, s, stage, hplaced, hvisits, hstage =>
    (next c s).tells hplaced hvisits hstage
  | .needs d next, c, s, stage, hplaced, hvisits, hstage => by
    rw [Steps.visits] at hvisits ⊢
    obtain ⟨stage', hasking⟩ := d.tells_needed
      (fun v hv => hvisits v (List.mem_append_left _ hv)) hstage
    obtain ⟨stage'', hnext⟩ := (next (d.needed s).2).tells (hasking.placed hplaced rfl rfl)
      (fun v hv => hvisits v (List.mem_append_right _ hv)) hasking.ends
    exact ⟨stage'', hasking.trans hnext⟩
  | .child d next, c, s, stage, hplaced, hvisits, hstage => by
    rw [Steps.visits] at hvisits ⊢
    obtain ⟨stage', hbuild⟩ := d.tells false
      (fun v hv => hvisits v (List.mem_append_left _ hv)) hstage
    obtain ⟨stage'', hnext⟩ := (next (d.build false s).2).tells (c := c.withChild d)
      (hbuild.placed hplaced rfl rfl)
      (fun v hv => hvisits v (List.mem_append_right _ hv)) hbuild.ends
    exact ⟨stage'', hbuild.trans hnext⟩
  | .output bytes next, c, s, stage, hplaced, hvisits, hstage => by
    rcases createOutput_of_placed hplaced bytes with ⟨e, hcreate⟩ | ⟨files, hwrite, hcreate⟩
    · simp only [Steps.visits, Steps.run, hcreate] at hvisits ⊢
      exact (next _).tells hplaced hvisits hstage
    · simp only [Steps.visits, Steps.run, hcreate] at hvisits ⊢
      have hwritten : Tells tag stage stage [] s (s.withFiles files) :=
        .of_within hstage (within_write hwrite).1 (by simp) (List.append_nil _).symm (by simp)
          (by simp)
      obtain ⟨stage', hnext⟩ := (next (.ok ())).tells (c := { c with hasOutput := true })
        (hwritten.placed hplaced rfl rfl) hvisits hwritten.ends
      exact ⟨stage', hwritten.trans hnext⟩

/-- So does the question whether a definition would have to be built. -/
theorem Definition.tells_needed : ∀ (d : Definition) {s : Workshop} {stage : Stage},
    (∀ v ∈ d.innerAsking s, v.Respects tag) → s.At tag stage →
      ∃ stage', Tells tag stage stage' (d.innerAsking s) s (d.needed s).1
  | .mk t stale work, s, stage, hvisits, hstage => by
    rw [innerAsking_eq] at hvisits ⊢
    simp only [needed_eq, wouldBuild, Definition.tag, Definition.stale] at hvisits ⊢
    cases hage : s.age? t with
    | none => exact ⟨stage, .refl hstage (by simp)⟩
    | some age =>
      rw [hage] at hvisits
      exact (stale age).tells (.inr rfl) hvisits hstage

/-- So does every request. -/
theorem Definition.tells : ∀ (d : Definition) (always : Bool) {s : Workshop} {stage : Stage},
    (∀ v ∈ d.visits always s, v.Respects tag) → s.At tag stage →
      ∃ stage', Tells tag stage stage' (d.visits always s) s (d.build always s).1
  | .mk t stale work, always, s, stage, hvisits, hstage => by
    have hinner : ∀ v ∈ Definition.inner (.mk t stale work) always s, v.Respects tag :=
      fun v hv => hvisits v (List.mem_append_left _ hv)
    have hquestion : ∀ age, Definition.asked (.mk t stale work) always s = some age →
        s.At tag stage → ∃ stage', Tells tag stage stage'
          ((stale age).visits (startingContext s t) s) s
          ((stale age).run (startingContext s t) s).1 := by
      intro age hasked
      refine (stale age).tells (.inr rfl) fun v hv => hinner v ?_
      rw [inner_eq, hasked]
      exact List.mem_append_left _ hv
    refine tells_of_callbacks hvisits hstage hquestion fun c s₁ stage₁ hstart => ?_
    have hplaced : c.Placed s₁ := placed_of_workStart hstart hstage hquestion
    refine work.tells hplaced fun v hv => hinner v ?_
    rw [inner_eq, hstart]
    exact List.mem_append_right _ hv
end

/-! ## Series of requests -/

/-- The requests inside one for an artifact in memory. -/
def Definition.innerInMemory (d : Definition) (s : Workshop) : List Visit :=
  match s.memory.get? (s.digest d.tag) with
  | some _ => []
  | none => d.work.visits { tag := d.tag, temporary := none } (s.log (.started d.tag))

/-- Requests one after the other, with a tag in mind: artifacts in memory are asked for other tags
only. Between the requests time passes, and anything may change as long as the artifact of the tag
keeps its bytes, or nothing is put in its place. -/
inductive Series (tag : String) (s₀ : Workshop) : Workshop → List Visit → Prop
  | start : Series tag s₀ s₀ []
  | build {s : Workshop} {visits : List Visit} (d : Definition) (always : Bool) :
    Series tag s₀ s visits → Series tag s₀ (d.build always s).1 (visits ++ d.visits always s)
  | buildInMemory {s : Workshop} {visits : List Visit} (d : Definition) (other : d.tag ≠ tag) :
    Series tag s₀ s visits → Series tag s₀ (d.buildInMemory s).1 (visits ++ d.innerInMemory s)
  | change {s s' : Workshop} {visits : List Visit} (directory : s'.directory = s.directory)
      (algorithm : s'.algorithm = s.algorithm) (journal : s'.journal = s.journal)
      (stays : ∀ stage, s.At tag stage → s'.At tag stage) :
    Series tag s₀ s visits → Series tag s₀ s' visits

/-- A request for the artifact of another tag in memory. -/
theorem tells_buildInMemory (hne : d.tag ≠ tag) (hvisits : ∀ v ∈ d.innerInMemory s, v.Respects tag)
    (hstage : s.At tag stage) :
    ∃ stage', Tells tag stage stage' (d.innerInMemory s) s (d.buildInMemory s).1 := by
  unfold Definition.innerInMemory at hvisits ⊢
  unfold Definition.buildInMemory
  cases hmemory : s.memory.get? (s.digest d.tag) with
  | some bytes =>
    exact ⟨stage, .of_within hstage (.record s d.tag _) (by simp) (List.append_nil _).symm (by simp)
      (by simp)⟩
  | none =>
    rw [hmemory] at hvisits
    have hstarted : Tells tag stage stage [] s (s.log (.started d.tag)) :=
      .log hstage fun h => hne h
    obtain ⟨stage', hrun⟩ := d.work.tells (.inl rfl) hvisits hstarted.ends
    have hupto := hstarted.trans hrun
    rcases hresult : d.work.run { tag := d.tag, temporary := none } (s.log (.started d.tag)) with
      ⟨s₁, c₁, e | _ | p⟩
    all_goals
      rw [hresult] at hupto
      simp only
    · exact ⟨stage', hupto⟩
    · exact ⟨stage', hupto⟩
    · split
      · exact ⟨stage', hupto⟩
      · have hrecord := Within.record s₁ d.tag ⟨.built, c₁.children⟩
        have hkept : Tells tag stage' stage' [] s₁
            { s₁.record d.tag ⟨.built, c₁.children⟩ with
              memory := s₁.memory.insert (s₁.digest d.tag) p.bytes } :=
          .of_within hupto.ends
            ⟨hrecord.directory, hrecord.algorithm, hrecord.statuses, hrecord.files⟩ (by simp)
            (List.append_nil _).symm (by simp) (by simp)
        have hall := hupto.trans hkept
        rw [List.append_nil] at hall
        exact ⟨stage', hall⟩

theorem Series.tells (h : Series tag s₀ s visits) (hstage : s₀.At tag stage)
    (hvisits : ∀ v ∈ visits, v.Respects tag) :
    ∃ stage', Tells tag stage stage' visits s₀ s := by
  induction h with
  | start => exact ⟨stage, .refl hstage (by simp)⟩
  | build d always _ ih =>
    obtain ⟨stage', hbefore⟩ := ih fun v hv => hvisits v (List.mem_append_left _ hv)
    obtain ⟨stage'', hrequest⟩ :=
      d.tells always (fun v hv => hvisits v (List.mem_append_right _ hv)) hbefore.ends
    exact ⟨stage'', hbefore.trans hrequest⟩
  | buildInMemory d other _ ih =>
    obtain ⟨stage', hbefore⟩ := ih fun v hv => hvisits v (List.mem_append_left _ hv)
    obtain ⟨stage'', hrequest⟩ :=
      tells_buildInMemory other (fun v hv => hvisits v (List.mem_append_right _ hv)) hbefore.ends
    exact ⟨stage'', hbefore.trans hrequest⟩
  | change directory algorithm journal stays _ ih =>
    obtain ⟨stage', hbefore⟩ := ih hvisits
    obtain ⟨events, hjournal, hstory⟩ := hbefore.story
    exact ⟨stage', directory.trans hbefore.directory, algorithm.trans hbefore.algorithm,
      stays _ hbefore.ends, events, journal.trans hjournal, hstory⟩

/-- In a series of requests that begins without an artifact for a tag, and in which the definitions
of that tag are never stale, every request for the tag fails until one publishes the artifact. From
then on no work for the tag begins, and every request for it is met with that artifact, at the same
path and with the same bytes. -/
theorem built_once (h : Series tag s₀ s visits)
    (hmissing : s₀.files.has (s₀.outputPath tag) = false)
    (hvisits : ∀ v ∈ visits, v.Respects tag) :
    ∃ stage events, s.At tag stage ∧ s.journal = s₀.journal ++ events ∧
      Story tag (s₀.outputPath tag) visits events .missing stage := by
  have hstage : s₀.At tag .missing := hmissing
  obtain ⟨stage, htells⟩ := h.tells hstage hvisits
  obtain ⟨events, hjournal, hstory⟩ := htells.story
  exact ⟨stage, events, htells.ends, hjournal, hstory⟩

/-! ### A part of a failed build -/

theorem base_inner (always : Bool) (s : Workshop) : base.inner always s = [] := by
  rw [inner_eq]
  split <;> split <;> rfl

theorem base_visits (always : Bool) (s : Workshop) :
    base.visits always s = [⟨base, always, s⟩] := by
  rw [Definition.visits, base_inner, List.nil_append]

theorem diskFull_visits (s : Workshop) :
    diskFull.visits true s = [⟨base, false, s.log (.started "app")⟩, ⟨diskFull, true, s⟩] := by
  have hinner : diskFull.inner true s = base.visits false (s.log (.started "app")) ++ [] := rfl
  rw [Definition.visits, hinner, List.append_nil, base_visits]
  rfl

theorem base_respects (s : Workshop) : Visit.Respects "base" ⟨base, false, s⟩ where
  apart hne := absurd rfl hne
  steady _ _ _ := rfl
  ordinary _ := rfl
  alone _ := by simp [base_inner]

theorem diskFull_respects : Visit.Respects "base" ⟨diskFull, true, emptyWorkshop⟩ where
  apart hne hdigest :=
    hne (apart_emptyWorkshop "base" "app" (.inl rfl) (.inr rfl) hdigest).symm
  steady h := absurd h (by decide)
  ordinary h := absurd h (by decide)
  alone h := absurd h (by decide)

/-- `base` is built on the way of a request that fails, and is there when it is asked for itself. -/
theorem built_once_base :
    ∃ stage events, (base.build false (diskFull.build true emptyWorkshop).1).1.At "base" stage ∧
      (base.build false (diskFull.build true emptyWorkshop).1).1.journal = events ∧
      Story "base" (emptyWorkshop.outputPath "base")
        [⟨base, false, emptyWorkshop.log (.started "app")⟩, ⟨diskFull, true, emptyWorkshop⟩,
          ⟨base, false, (diskFull.build true emptyWorkshop).1⟩] events .missing stage := by
  have hseries := ((Series.start : Series "base" emptyWorkshop _ _).build diskFull true).build
    base false
  rw [diskFull_visits, base_visits, List.nil_append] at hseries
  have hmissing : emptyWorkshop.files.has (emptyWorkshop.outputPath "base") = false := by
    decide +kernel
  obtain ⟨stage, events, hstage, hjournal, hstory⟩ := built_once hseries hmissing fun v hv => by
    simp only [List.cons_append, List.nil_append, List.mem_cons, List.not_mem_nil, or_false] at hv
    rcases hv with rfl | rfl | rfl
    · exact base_respects _
    · exact diskFull_respects
    · exact base_respects _
  exact ⟨stage, events, hstage, hjournal, hstory⟩

end Depot.Build
