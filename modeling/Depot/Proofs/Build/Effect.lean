import Depot.Proofs.Build.Stretch

/-!
# What requests do

What a request does to the files and statuses follows from what its callbacks do, in whichever way
it ends (`effect_of_callbacks`), and what a callback does from what the requests on its way do. So
every callback runs as a stretch (`Steps.runs`) and every request has its effect
(`Definition.effect`), by induction on the trees of both.
-/

namespace Depot.Build

open Workshop

variable {used : String → Prop} {around : List String} {made : Made} {s s' : Workshop}
  {c c' : Context} {direct : Option ByteArray} {tag : String} {bytes : ByteArray}

/-! ## Callbacks -/

/-- What a callback does from some state on. -/
structure Runs (used : String → Prop) (around : List String) {r : Role} (steps : Steps r)
    (c : Context) (s : Workshop) : Prop where
  stretch : Stretch used around [c.tag] (steps.made c s) s (steps.run c s).1
  own : Own around (steps.direct c s) c (steps.run c s).2.1 s (steps.run c s).1

theorem createOutput_cases (h : c.temporary = some (s.temporaryPath c.tag)) (bytes : ByteArray) :
    (∃ e, createOutput bytes c s = (s, c, .error e)) ∨
      ∃ files, c.hasOutput = false ∧ s.files.write (s.pathOf c.tag .temporary) bytes = .ok files ∧
        createOutput bytes c s = (s.withFiles files, { c with hasOutput := true }, .ok ()) := by
  unfold createOutput
  rw [h]
  simp only [temporaryPath_eq]
  cases houtput : c.hasOutput with
  | true => exact .inl ⟨_, rfl⟩
  | false =>
    cases hwrite : s.files.write (s.pathOf c.tag .temporary) bytes with
    | error e => exact .inl ⟨_, rfl⟩
    | ok files => exact .inr ⟨files, rfl, rfl, rfl⟩

/-! ## Requests -/

/-- What a request does. -/
structure Effect (used : String → Prop) (around : List String) (d : Definition) (always : Bool)
    (s : Workshop) : Prop where
  stretch : Stretch used around [] (d.made always s) s (d.build always s).1
  own : lastMade d.tag (d.made always s) = d.published always s
  failed : ∀ e, (d.build always s).2 = .error e →
    (∃ reason, e = .buildFailed d.tag reason) ∧ d.published always s = none ∧
      (d.build always s).1.statuses.get? d.tag = s.statuses.get? d.tag ∧
      (d.directBefore always s = none →
        (d.build always s).1.fileOf? d.tag .temporary = none ∨
          (d.build always s).1.fileOf? d.tag .temporary = s.fileOf? d.tag .temporary)
  met : ∀ path, (d.build always s).2 = .ok path →
    path = s.pathOf d.tag .artifact ∧
      (d.build always s).1.files.has path = true ∧
      ∃ status, (d.build always s).1.statuses.get? d.tag = some status ∧
        (status.state = .built ↔ (d.published always s).isSome = true)

namespace Effect

variable {d : Definition} {always : Bool}

theorem of_failed {e : Failure}
    (hstretch : Stretch used around [] (d.made always s) s (d.build always s).1)
    (hown : lastMade d.tag (d.made always s) = d.published always s)
    (hresult : (d.build always s).2 = .error (Build.failed d.tag e))
    (hpublished : d.published always s = none)
    (hstatus : (d.build always s).1.statuses.get? d.tag = s.statuses.get? d.tag)
    (htemporary : d.directBefore always s = none →
      (d.build always s).1.fileOf? d.tag .temporary = none ∨
        (d.build always s).1.fileOf? d.tag .temporary = s.fileOf? d.tag .temporary) :
    Effect used around d always s where
  stretch := hstretch
  own := hown
  failed e' he := by
    rw [hresult] at he
    obtain rfl := Except.error.inj he
    exact ⟨⟨_, rfl⟩, hpublished, hstatus, htemporary⟩
  met path hok := by
    rw [hresult] at hok
    cases hok

theorem of_met {status : Status}
    (hstretch : Stretch used around [] (d.made always s) s (d.build always s).1)
    (hown : lastMade d.tag (d.made always s) = d.published always s)
    (hresult : (d.build always s).2 = .ok (s.pathOf d.tag .artifact))
    (hhas : (d.build always s).1.files.has (s.pathOf d.tag .artifact) = true)
    (hstatus : (d.build always s).1.statuses.get? d.tag = some status)
    (hstate : status.state = .built ↔ (d.published always s).isSome = true) :
    Effect used around d always s where
  stretch := hstretch
  own := hown
  failed e he := by
    rw [hresult] at he
    cases he
  met path hok := by
    rw [hresult] at hok
    obtain rfl := Except.ok.inj hok
    exact ⟨rfl, hhas, status, hstatus, hstate⟩

end Effect

theorem build_eq (d : Definition) (always : Bool) (s : Workshop) :
    d.build always s =
      match d.asked always s with
      | none => s.rebuild d.tag d.work.run (startingContext s d.tag)
      | some age =>
        match (d.stale age).run (startingContext s d.tag) s with
        | (s, _, .error e) => (s, .error (failed d.tag e))
        | (s, c, .ok false) => (s.record d.tag ⟨.cached, c.children⟩, .ok (s.outputPath d.tag))
        | (s, c, .ok true) => s.rebuild d.tag d.work.run { c with hasCached := true } := by
  cases d
  rfl

theorem made_eq (d : Definition) (always : Bool) (s : Workshop) :
    d.made always s =
      (match d.asked always s with
        | none => []
        | some age => (d.stale age).made (startingContext s d.tag) s) ++
      (match d.workStart always s with
        | none => []
        | some (c, s) => d.work.made c (s.log (.started d.tag))) ++
      (d.published always s).toList.map fun bytes => (d.tag, bytes) := by
  cases d
  rfl

theorem needed_eq (d : Definition) (s : Workshop) :
    d.needed s = s.wouldBuild d.tag fun age => (d.stale age).run := by
  cases d
  rfl

theorem madeAsking_eq (d : Definition) (s : Workshop) :
    d.madeAsking s =
      match s.age? d.tag with
      | none => []
      | some age => (d.stale age).made (startingContext s d.tag) s := by
  cases d
  rfl

section

variable {d : Definition} {always : Bool} {s₁ s₂ : Workshop} {c₂ : Context}
  {result : Outcome (Option Product)}

theorem published_of_failed {e : Failure} (hstart : d.workStart always s = some (c, s₁))
    (hperform : (s₁.perform d.tag d.work.run c).2.2 = .error e) : d.published always s = none := by
  simp only [Definition.published, hstart, hperform]

theorem published_of_cached (hstart : d.workStart always s = some (c, s₁))
    (hperform : (s₁.perform d.tag d.work.run c).2.2 = .ok .cached) :
    d.published always s = none := by
  simp only [Definition.published, hstart, hperform]

theorem published_of_built {p : Product} (hstart : d.workStart always s = some (c, s₁))
    (hperform : (s₁.perform d.tag d.work.run c).2.2 = .ok .built)
    (hrun : d.work.run c (s₁.log (.started d.tag)) = (s₂, c₂, .ok (some p))) :
    d.published always s = some (((d.directBefore always s).or
      (d.work.direct c (s₁.log (.started d.tag)))).getD p.bytes) := by
  simp only [Definition.published, hstart, hperform, hrun]

/-- The file that takes the place of the artifact has the bytes that were written directly, or else
those of the product. -/
theorem bytes_of_left {p : Product} {file : ByteArray × Int}
    (hown : Own (d.tag :: around) direct (startingContext s d.tag) c₂ s s₂)
    (hleft : Left s₂ d.tag c₂ p file) : file.1 = direct.getD p.bytes := by
  cases hdirect : direct with
  | none =>
    have houtput : c₂.hasOutput = false := by simp [hown.output, hdirect, startingContext]
    exact hleft.streamed houtput
  | some bytes =>
    have houtput : c₂.hasOutput = true := by simp [hown.output, hdirect]
    have hwritten := hown.written List.mem_cons_self bytes hdirect
    rw [startingContext, hleft.direct houtput] at hwritten
    exact Option.some.inj hwritten

/-- What is made by the request itself comes last. -/
theorem lastMade_of_published {published : Option ByteArray} (h : lastMade tag made = none) :
    lastMade tag (made ++ published.toList.map fun bytes => (tag, bytes)) = published := by
  rw [lastMade_append, h, Option.or_none]
  cases published <;> simp [lastMade]

/-- A request whose work has come to something, when that is settled. -/
theorem effect_of_rebuild (houter : d.tag ∉ around) (hapart : Apart used s₂)
    (haround : ∀ t ∈ around, used t) (hused : used d.tag)
    (hupto : Stretch used (d.tag :: around) [d.tag] made s s₂)
    (hown : Own (d.tag :: around) ((d.directBefore always s).or
      (d.work.direct c (s₁.log (.started d.tag)))) (startingContext s d.tag) c₂ s s₂)
    (hstart : d.workStart always s = some (c, s₁))
    (hrun : d.work.run c (s₁.log (.started d.tag)) = (s₂, c₂, result))
    (hbuild : d.build always s = s₁.rebuild d.tag d.work.run c)
    (hmade : d.made always s =
      made ++ (d.published always s).toList.map fun bytes => (d.tag, bytes)) :
    Effect used around d always s := by
  have hown' : lastMade d.tag (d.made always s) = d.published always s := by
    rw [hmade]
    exact lastMade_of_published (hupto.unmade d.tag List.mem_cons_self)
  obtain ⟨hwithin, hcases⟩ := rebuild_cases hrun
  rw [← hbuild] at hwithin hcases
  have hlast := stretch_of_last ((d.published always s).toList.map fun bytes => (d.tag, bytes))
    houter hapart haround hused hupto hwithin
  rw [← hmade] at hlast
  rcases hcases with ⟨e, hperform, hresult, hundone⟩ |
    ⟨product, state, rfl, hperform, hresult, hmet⟩
  · have hpublished := published_of_failed hstart hperform
    obtain ⟨-, hstretch⟩ := hlast (.inl ⟨by simp [hpublished], hundone.artifact⟩)
    refine .of_failed hstretch hown' hresult hpublished ?_ fun _ => .inl hundone.temporary
    rw [hundone.statuses, hupto.status d.tag List.mem_cons_self]
  · rw [hupto.pathOf_eq] at hresult
    cases state with
    | cached =>
      have hpublished := published_of_cached hstart hperform
      obtain ⟨hkept, hhas⟩ := hmet.cached rfl
      obtain ⟨hend, hstretch⟩ := hlast (.inl ⟨by simp [hpublished], hkept⟩)
      refine .of_met hstretch hown' hresult ?_ hmet.status (by simp [hpublished])
      rw [← hstretch.pathOf_eq, hend.has_eq hkept, hhas]
    | built =>
      obtain ⟨p, file, rfl, hfile, hleft⟩ := hmet.built rfl
      have hpublished := published_of_built hstart hperform hrun
      have hbytes := bytes_of_left hown hleft
      obtain ⟨-, hstretch⟩ := hlast (.inr ⟨file, by simp [hpublished, hbytes], hfile⟩)
      refine .of_met hstretch hown' hresult ?_ hmet.status (by simp [hpublished])
      rw [Workshop.fileOf?, hstretch.pathOf_eq] at hfile
      exact Files.has_eq_true_iff.2 (.inl (by rw [hfile]; rfl))

theorem effect_of_work (houter : d.tag ∉ around) (hstarts : Starts used (d.tag :: around) c s₁)
    (htag : c.tag = d.tag) (hbefore : Stretch used (d.tag :: around) [d.tag] made s s₁)
    (hown : Own (d.tag :: around) (d.directBefore always s) (startingContext s d.tag) c s s₁)
    (hwork : Runs used (d.tag :: around) d.work c (s₁.log (.started d.tag)))
    (hstart : d.workStart always s = some (c, s₁))
    (hbuild : d.build always s = s₁.rebuild d.tag d.work.run c)
    (hmade : d.made always s = made ++ d.work.made c (s₁.log (.started d.tag)) ++
      (d.published always s).toList.map fun bytes => (d.tag, bytes)) :
    Effect used around d always s := by
  obtain ⟨hstretch, hwritten⟩ := hwork
  rcases hrun : d.work.run c (s₁.log (.started d.tag)) with ⟨s₂, c₂, result⟩
  rw [hrun] at hstretch hwritten
  rw [htag] at hstretch
  have hsince := (Stretch.log used (d.tag :: around) [d.tag] s₁ (.started d.tag)).trans hstretch
  have hlogged := Own.of_stretch (Stretch.log used (d.tag :: around) [] s₁ (.started d.tag))
    (c := c) rfl rfl rfl
  have hdirect := hown.trans (hlogged.trans hwritten)
  rw [Option.none_or] at hdirect
  exact effect_of_rebuild houter (hsince.apart hstarts.apart)
    (fun t ht => hstarts.around t (List.mem_cons_of_mem _ ht)) (htag ▸ hstarts.used)
    (hbefore.trans hsince) hdirect hstart hrun hbuild hmade

theorem age?_of_asked {age : Int} (h : d.asked always s = some age) : s.age? d.tag = some age := by
  unfold Definition.asked at h
  split at h
  · cases h
  · exact h

section

variable {age : Int} {c₁ : Context} (houter : d.tag ∉ around)
  (hasked : d.asked always s = some age)
  (hstretch : Stretch used (d.tag :: around) [d.tag]
    ((d.stale age).made (startingContext s d.tag) s) s s₁)

include houter hasked hstretch

/-- Without work nothing is made but what the question has made. -/
theorem stretch_of_unstarted (hstart : d.workStart always s = none) :
    d.published always s = none ∧ lastMade d.tag (d.made always s) = none ∧
      Stretch used around [] (d.made always s) s s₁ := by
  have hpublished : d.published always s = none := by simp only [Definition.published, hstart]
  have hmade : d.made always s = (d.stale age).made (startingContext s d.tag) s := by
    rw [made_eq]
    simp [hasked, hstart, hpublished]
  rw [hmade]
  exact ⟨hpublished, hstretch.unmade d.tag List.mem_cons_self, hstretch.outer houter⟩

theorem effect_of_failed_question {e : Failure}
    (hrun : (d.stale age).run (startingContext s d.tag) s = (s₁, c₁, .error e))
    (hown : Own (d.tag :: around) (d.directBefore always s) (startingContext s d.tag) c₁ s s₁) :
    Effect used around d always s := by
  have hstart : d.workStart always s = none := by simp only [Definition.workStart, hasked, hrun]
  have hbuild : d.build always s = (s₁, .error (failed d.tag e)) := by
    rw [build_eq]
    simp only [hasked, hrun]
  obtain ⟨hpublished, hunmade, hall⟩ := stretch_of_unstarted houter hasked hstretch hstart
  refine .of_failed (by rwa [hbuild]) (hunmade.trans hpublished.symm) (by rw [hbuild]) hpublished
    ?_ fun hnone => .inr ?_
  · rw [hbuild]
    exact hstretch.status d.tag List.mem_cons_self
  · rw [hbuild]
    exact hown.kept List.mem_cons_self hnone

theorem effect_of_fresh (hstarts : Starts used (d.tag :: around) (startingContext s d.tag) s)
    (hrun : (d.stale age).run (startingContext s d.tag) s = (s₁, c₁, .ok false)) :
    Effect used around d always s := by
  have hstart : d.workStart always s = none := by simp only [Definition.workStart, hasked, hrun]
  have hbuild : d.build always s =
      (s₁.record d.tag ⟨.cached, c₁.children⟩, .ok (s₁.outputPath d.tag)) := by
    rw [build_eq]
    simp only [hasked, hrun]
  obtain ⟨hpublished, hunmade, hall⟩ := stretch_of_unstarted houter hasked hstretch hstart
  have hrecord : Stretch used around [] [] s₁ (s₁.record d.tag ⟨.cached, c₁.children⟩) :=
    stretch_of_within (hstretch.apart hstarts.apart)
      (fun t ht => hstarts.around t (List.mem_cons_of_mem _ ht)) hstarts.used
      (.record s₁ d.tag _) (fun hmem => absurd hmem houter) (fun _ _ => List.not_mem_nil)
      (.inl ⟨rfl, rfl⟩)
  have hrecorded := hall.trans hrecord
  rw [List.append_nil] at hrecorded
  have hstatus : (d.build always s).1.statuses.get? d.tag = some ⟨.cached, c₁.children⟩ := by
    rw [hbuild, get?_record]
  refine .of_met (by rwa [hbuild]) (hunmade.trans hpublished.symm) ?_ ?_ hstatus
    (by simp [hpublished])
  · rw [hbuild, outputPath_eq, hall.pathOf_eq]
  · -- the artifact was there when its age was asked for
    have hkept := hall.kept d.tag hstarts.used hunmade
    rw [hbuild, ← hall.pathOf_eq]
    exact (hall.has_eq hkept).trans (Files.has_of_age? (age?_of_asked hasked))

end

/-- A request does what its callbacks make of it. -/
theorem effect_of_callbacks (houter : d.tag ∉ around)
    (hstarts : Starts used (d.tag :: around) (startingContext s d.tag) s)
    (hquestion : ∀ age, d.asked always s = some age →
      Runs used (d.tag :: around) (d.stale age) (startingContext s d.tag) s)
    (hwork : ∀ c s₁, d.workStart always s = some (c, s₁) → Starts used (d.tag :: around) c s₁ →
      Runs used (d.tag :: around) d.work c (s₁.log (.started d.tag))) :
    Effect used around d always s := by
  have hmade := made_eq d always s
  have hbuild := build_eq d always s
  cases hasked : d.asked always s with
  | none =>
    have hstart : d.workStart always s = some (startingContext s d.tag, s) := by
      simp only [Definition.workStart, hasked]
    have hdirect : d.directBefore always s = none := by
      simp only [Definition.directBefore, hasked, Option.bind_none]
    simp only [hasked, hstart] at hmade hbuild
    refine effect_of_work houter hstarts rfl (.refl ..) ?_ (hwork _ _ hstart hstarts) hstart hbuild
      hmade
    rw [hdirect]
    exact .of_stretch (Stretch.refl used _ _ s) rfl rfl rfl
  | some age =>
    obtain ⟨hstretch, hown⟩ := hquestion age hasked
    have hdirect : d.directBefore always s =
        (d.stale age).direct (startingContext s d.tag) s := by
      simp only [Definition.directBefore, hasked, Option.bind_some]
    rw [← hdirect] at hown
    rcases hrun : (d.stale age).run (startingContext s d.tag) s with ⟨s₁, c₁, e | _ | _⟩
    all_goals rw [hrun] at hstretch hown
    · exact effect_of_failed_question houter hasked hstretch hrun hown
    · exact effect_of_fresh houter hasked hstretch hstarts hrun
    · have hstart : d.workStart always s = some ({ c₁ with hasCached := true }, s₁) := by
        simp only [Definition.workStart, hasked, hrun]
      have hcached : Own (d.tag :: around) (d.directBefore always s) (startingContext s d.tag)
          { c₁ with hasCached := true } s s₁ := { hown with }
      have hnext := hstarts.next hstretch hcached
      simp only [hasked, hrun, hstart] at hmade hbuild
      exact effect_of_work houter hnext hown.tag hstretch hcached (hwork _ _ hstart hnext) hstart
        hbuild hmade

end

/-! ## Whole runs -/

/-- A callback that goes on elsewhere runs as what it goes on with. -/
theorem Runs.after {r : Role} {steps next : Steps r} (hnext : Runs used around next c' s')
    (hstretch : Stretch used around [c.tag] made s s') (hown : Own around direct c c' s s')
    (hmade : steps.made c s = made ++ next.made c' s')
    (hdirect : steps.direct c s = direct.or (next.direct c' s'))
    (hrun : steps.run c s = next.run c' s') : Runs used around steps c s := by
  obtain ⟨hrest, hwritten⟩ := hnext
  rw [hown.tag] at hrest
  refine ⟨?_, ?_⟩
  · rw [hmade, hrun]
    exact hstretch.trans hrest
  · rw [hdirect, hrun]
    exact hown.trans hwritten

theorem runs_output {r : Role} {next : Outcome Unit → Steps r} (hstarts : Starts used around c s)
    (hnext : ∀ result c' s', createOutput bytes c s = (s', c', result) →
      Starts used around c' s' → Runs used around (next result) c' s') :
    Runs used around (.output bytes next) c s := by
  rcases createOutput_cases hstarts.temporary bytes with
    ⟨e, hcreate⟩ | ⟨files, hfree, hwrite, hcreate⟩
  · refine (hnext _ _ _ hcreate hstarts).after (.refl ..)
      (.of_stretch (Stretch.refl used around [] s) rfl rfl rfl) ?_ ?_ ?_
    · simp only [Steps.made, hcreate, List.nil_append]
    · simp only [Steps.direct, hcreate, Option.none_or]
    · simp only [Steps.run, hcreate]
  · obtain ⟨hwithin, hwritten⟩ := within_write hwrite
    have hstretch : Stretch used around [c.tag] [] s (s.withFiles files) :=
      stretch_of_within hstarts.apart hstarts.around hstarts.used hwithin (fun _ => rfl)
        (fun _ hexempt => absurd (List.mem_singleton_self c.tag) hexempt)
        (.inl ⟨rfl, hwithin.fileOf?_eq (by simp)⟩)
    have hown : Own around (some bytes) c { c with hasOutput := true } s (s.withFiles files) :=
      { tag := rfl
        temporary := rfl
        output := by simp
        free := fun _ => hfree
        kept := by simp
        written := fun _ bytes' hbytes => by rw [hwritten, ← hbytes]; rfl }
    refine (hnext _ _ _ hcreate (hstarts.next hstretch hown)).after hstretch hown ?_ ?_ ?_
    · simp only [Steps.made, hcreate, List.nil_append]
    · simp only [Steps.direct, hcreate, Option.some_or]
    · simp only [Steps.run, hcreate]

/-- A callback that writes nothing directly leaves all temporary files alone. -/
theorem Runs.silent {r : Role} {steps : Steps r} (h : Runs used around steps c s)
    (hdirect : c.tag ∈ around → steps.direct c s = none) :
    Stretch used around [] (steps.made c s) s (steps.run c s).1 :=
  { h.stretch with
    temporary := fun t ht _ => by
      by_cases heq : t = c.tag
      · subst heq
        exact h.own.kept ht (hdirect ht)
      · exact h.stretch.temporary t ht (by simpa using heq) }

mutual
/-- Every callback that nests well runs like this, by induction on its tree. -/
theorem Steps.runs {r : Role} : ∀ (steps : Steps r) {around : List String} {c : Context}
    {s : Workshop}, Starts used around c s → steps.Nests used around c s →
      Runs used around steps c s
  | .done answer, around, c, s, _, _ =>
    ⟨.refl .., .of_stretch (Stretch.refl used around [] s) rfl rfl rfl⟩
  | .fail e, around, c, s, _, _ =>
    ⟨.refl .., .of_stretch (Stretch.refl used around [] s) rfl rfl rfl⟩
  | .note text next, around, c, s, hstarts, h => by
    have hlog := Stretch.log used around [] s (.note text)
    have hown : Own around none c c s _ := .of_stretch hlog rfl rfl rfl
    exact (next.runs (hstarts.log _) h).after (hlog.mono (by simp)) hown rfl rfl rfl
  | .look next, around, c, s, hstarts, h =>
    ⟨((next c s).runs hstarts h).stretch, ((next c s).runs hstarts h).own⟩
  | .needs d next, around, c, s, hstarts, h => by
    have hasking := d.stretch_needed hstarts.apart hstarts.around h.1
    have hown : Own around none c c s _ := .of_stretch hasking rfl rfl rfl
    exact ((next (d.needed s).2).runs (hstarts.next hasking hown) h.2).after
      (hasking.mono (by simp)) hown rfl rfl rfl
  | .child d next, around, c, s, hstarts, h => by
    have hbuild := (d.effect false hstarts.apart hstarts.around h.1).stretch
    have hown : Own around none c (c.withChild d) s _ := .of_stretch hbuild rfl rfl rfl
    exact ((next (d.build false s).2).runs (hstarts.next hbuild hown) h.2).after
      (hbuild.mono (by simp)) hown rfl rfl rfl
  | .output bytes next, around, c, s, hstarts, h => by
    refine runs_output hstarts fun result c' s' houtput hstarts' => ?_
    have hnext : match createOutput bytes c s with
        | (s', c', result) => (next result).Nests used around c' s' := h
    rw [houtput] at hnext
    exact (next result).runs hstarts' hnext

/-- So does the question whether a definition would have to be built. -/
theorem Definition.stretch_needed : ∀ (d : Definition) {around : List String} {s : Workshop},
    Apart used s → (∀ t ∈ around, used t) → d.NestsAsking used around s →
      Stretch used around [] (d.madeAsking s) s (d.needed s).1
  | .mk tag stale work, around, s, hapart, haround, h => by
    obtain ⟨hused, hquestion⟩ := h
    simp only [madeAsking_eq, needed_eq, wouldBuild, Definition.tag]
    cases hage : s.age? tag with
    | none => exact .refl ..
    | some age =>
      obtain ⟨hnests, hdirect⟩ := hquestion age hage
      have hstarts : Starts used around (startingContext s tag) s := ⟨hapart, haround, hused, rfl⟩
      exact ((stale age).runs hstarts hnests).silent hdirect

/-- So does every request. -/
theorem Definition.effect : ∀ (d : Definition) (always : Bool) {around : List String}
    {s : Workshop}, Apart used s → (∀ t ∈ around, used t) → d.Nests used around always s →
      Effect used around d always s
  | .mk tag stale work, always, around, s, hapart, haround, h => by
    obtain ⟨hused, houter, hquestion, hwork⟩ := h
    have hstarts : Starts used (tag :: around) (startingContext s tag) s :=
      ⟨hapart, by simpa using ⟨hused, haround⟩, hused, rfl⟩
    exact effect_of_callbacks houter hstarts
      (fun age hage => (stale age).runs hstarts (hquestion age hage))
      fun c s₁ hstart hstarts' => work.runs (hstarts'.log _) (hwork c s₁ hstart)
end

end Depot.Build
