import Depot.Proofs.Build.Story

/-!
# Asking whether a definition would be built

A question that only asks the same of other definitions is answered by the ages of the artifacts,
and all it leaves is notes (`Steps.exists_reply`). So the answer foretells the request: as long as
the ages stay as they are, work begins if the answer was yes, and if it was no, the request is met
with the artifact and changes nothing but its status (`build_of_needed`).
-/

namespace Depot.Workshop

open Build

variable {s : Workshop} {tag : String}

/-- The workshop after some notes. -/
def noted (s : Workshop) (notes : List String) : Workshop :=
  { s with journal := s.journal ++ notes.map .note }

theorem noted_nil (s : Workshop) : s.noted [] = s := by
  rw [noted, List.map_nil, List.append_nil]

theorem noted_cons (s : Workshop) (text : String) (notes : List String) :
    s.noted (text :: notes) = (s.log (.note text)).noted notes := by
  simp only [noted, log, List.map_cons, List.append_assoc, List.singleton_append]

theorem noted_append (s : Workshop) (notes notes' : List String) :
    s.noted (notes ++ notes') = (s.noted notes).noted notes' := by
  simp only [noted, List.map_append, List.append_assoc]

/-- The work for a tag begins between two states, as the journal tells. -/
def Begins (tag : String) (s s' : Workshop) : Prop :=
  ∃ events, s'.journal = s.journal ++ events ∧ .started tag ∈ events

theorem journal_createOutput (bytes : ByteArray) (c : Context) (s : Workshop) :
    (createOutput bytes c s).1.journal = s.journal := by
  unfold createOutput
  split
  · rfl
  · split
    · rfl
    · split <;> rfl

/-- The journal tells first that the work begins. -/
theorem journal_rebuild {work : Callback (Option Product)} {c : Context}
    (hbegun : (s.log (.started tag)).journal <+: (work c (s.log (.started tag))).1.journal) :
    s.journal ++ [.started tag] <+: (s.rebuild tag work c).1.journal := by
  rcases hrun : work c (s.log (.started tag)) with ⟨s₁, c₁, result⟩
  rw [hrun] at hbegun
  cases journals_rebuild hrun with
  | unbuilt _ hjournal => rwa [hjournal]
  | built bytes _ hjournal => exact hbegun.trans ⟨_, hjournal.symm⟩

end Depot.Workshop

namespace Depot.Build

open Workshop

mutual
/-- A callback only adds to the journal. -/
theorem Steps.journal_run {r : Role} : ∀ (steps : Steps r) (c : Context) (s : Workshop),
    s.journal <+: (steps.run c s).1.journal
  | .done _, _, s => List.prefix_refl s.journal
  | .fail _, _, s => List.prefix_refl s.journal
  | .note text next, c, s =>
    (List.prefix_append _ _).trans (next.journal_run c (s.log (.note text)))
  | .look next, c, s => (next c s).journal_run c s
  | .needs d next, c, s =>
    (d.journal_needed s).trans ((next (d.needed s).2).journal_run c (d.needed s).1)
  | .child d next, c, s =>
    (d.journal_build false s).trans
      ((next (d.build false s).2).journal_run (c.withChild d) (d.build false s).1)
  | .output bytes next, c, s => by
    have hcreate := journal_createOutput bytes c s
    rcases hresult : createOutput bytes c s with ⟨s₁, c₁, result⟩
    rw [hresult] at hcreate
    simp only [Steps.run, hresult]
    exact hcreate ▸ (next result).journal_run c₁ s₁

theorem Definition.journal_needed : ∀ (d : Definition) (s : Workshop),
    s.journal <+: (d.needed s).1.journal
  | .mk tag stale _, s => by
    simp only [Definition.needed, wouldBuild]
    split
    · exact List.prefix_refl s.journal
    · exact (stale _).journal_run _ s

theorem Definition.journal_build : ∀ (d : Definition) (always : Bool) (s : Workshop),
    s.journal <+: (d.build always s).1.journal
  | .mk tag stale work, always, s => by
    have hrebuild (c : Context) (s : Workshop) :
        s.journal <+: (s.rebuild tag work.run c).1.journal :=
      (List.prefix_append _ _).trans (journal_rebuild (work.journal_run c (s.log (.started tag))))
    simp only [Definition.build, request]
    split
    · exact hrebuild _ s
    · next age _ =>
      have hasked := (stale age).journal_run (startingContext s tag) s
      split <;> rename_i hrun <;> rw [startingContext, hrun] at hasked
      · exact hasked
      · exact hasked
      · exact hasked.trans (hrebuild _ _)
end

/-! ## Questions -/

mutual
/-- A callback that does nothing but ask whether other definitions would be built, whose questions
are such callbacks, and write notes. -/
def Steps.OnlyAsks {r : Role} : Steps r → Prop
  | .done _ => True
  | .fail _ => True
  | .note _ next => next.OnlyAsks
  | .look _ => False
  | .needs d next => d.OnlyAsks ∧ ∀ answer, (next answer).OnlyAsks
  | .child _ _ => False
  | .output _ _ => False

/-- The question of the definition only asks; its work is any. -/
def Definition.OnlyAsks : Definition → Prop
  | .mk _ stale _ => ∀ age, (stale age).OnlyAsks
end

mutual
/-- A callback that only asks comes to the same in all workshops whose artifacts have the same
ages. -/
theorem Steps.exists_reply (ages : String → Option Int) {r : Role} :
    ∀ steps : Steps r, steps.OnlyAsks →
      ∃ notes answer, ∀ c s, s.age? = ages → steps.run c s = (s.noted notes, c, answer)
  | .done answer, _ => ⟨[], .ok answer, fun c s _ => by rw [noted_nil, Steps.run]⟩
  | .fail e, _ => ⟨[], .error e, fun c s _ => by rw [noted_nil, Steps.run]⟩
  | .note text next, hasks => by
    rw [Steps.OnlyAsks] at hasks
    obtain ⟨notes, answer, hrun⟩ := next.exists_reply ages hasks
    refine ⟨text :: notes, answer, fun c s hages => ?_⟩
    rw [Steps.run, hrun c (s.log (.note text)) hages, noted_cons]
  | .look _, hasks => by
    rw [Steps.OnlyAsks] at hasks
    exact hasks.elim
  | .needs d next, hasks => by
    rw [Steps.OnlyAsks] at hasks
    obtain ⟨notes, needed, hneeded⟩ := d.exists_answer ages hasks.1
    obtain ⟨notes', answer, hrun⟩ := (next needed).exists_reply ages (hasks.2 needed)
    refine ⟨notes ++ notes', answer, fun c s hages => ?_⟩
    rw [Steps.run, hneeded s hages, hrun c (s.noted notes) hages, noted_append]
  | .child _ _, hasks => by
    rw [Steps.OnlyAsks] at hasks
    exact hasks.elim
  | .output _ _, hasks => by
    rw [Steps.OnlyAsks] at hasks
    exact hasks.elim

theorem Definition.exists_answer (ages : String → Option Int) :
    ∀ d : Definition, d.OnlyAsks →
      ∃ notes answer, ∀ s, s.age? = ages → d.needed s = (s.noted notes, answer)
  | .mk tag stale work, hasks => by
    rw [Definition.OnlyAsks] at hasks
    cases hage : ages tag with
    | none =>
      refine ⟨[], .ok true, fun s hages => ?_⟩
      simp only [Definition.needed, wouldBuild, hages, hage, noted_nil]
    | some age =>
      obtain ⟨notes, answer, hrun⟩ := (stale age).exists_reply ages (hasks age)
      refine ⟨notes, answer, fun s hages => ?_⟩
      simp only [Definition.needed, wouldBuild, hages, hage, hrun _ s hages]
end

/-! ## Questions and requests -/

variable {d : Definition} {s s₁ t : Workshop} {b : Bool}

/-- The request is met with the artifact that is there. Nothing changes but the status of its tag,
and the journal gets some notes. -/
def Reused (d : Definition) (s : Workshop) : Prop :=
  ∃ notes, d.build false s =
    ((s.noted notes).record d.tag ⟨.cached, []⟩, .ok (s.outputPath d.tag))

theorem Reused.not_begins (h : Reused d s) : ¬Begins d.tag s (d.build false s).1 := by
  obtain ⟨notes, hbuild⟩ := h
  rintro ⟨events, hjournal, hmem⟩
  rw [hbuild] at hjournal
  obtain rfl : notes.map Event.note = events := List.append_cancel_left hjournal
  obtain ⟨text, -, hnote⟩ := List.mem_map.1 hmem
  cases hnote

/-- The question and the request come to the same answer, and the request does what the answer
says. -/
theorem exists_answer_and_build (hasks : d.OnlyAsks) (ages : String → Option Int) :
    ∃ notes answer, ∀ s, s.age? = ages →
      d.needed s = (s.noted notes, answer) ∧
        d.build false s =
          match answer with
          | .error e => (s.noted notes, .error (failed d.tag e))
          | .ok false =>
            ((s.noted notes).record d.tag ⟨.cached, []⟩, .ok (s.outputPath d.tag))
          | .ok true =>
            (s.noted notes).rebuild d.tag d.work.run
              { startingContext s d.tag with hasCached := (ages d.tag).isSome } := by
  cases hage : ages d.tag with
  | none =>
    refine ⟨[], .ok true, fun s hages => ?_⟩
    rw [noted_nil, needed_eq, build_eq]
    simp only [wouldBuild, Definition.asked, hages, hage]
    exact ⟨trivial, rfl⟩
  | some age =>
    have hstale : (d.stale age).OnlyAsks := by
      cases d
      rw [Definition.OnlyAsks] at hasks
      exact hasks age
    obtain ⟨notes, answer, hrun⟩ := (d.stale age).exists_reply ages hstale
    refine ⟨notes, answer, fun s hages => ?_⟩
    rw [needed_eq, build_eq]
    simp only [wouldBuild, Definition.asked, hages, hage, hrun _ s hages, Bool.false_eq_true,
      if_false]
    refine ⟨trivial, ?_⟩
    rcases answer with e | _ | _ <;> rfl

/-- Asking leaves nothing but notes. -/
theorem exists_notes_of_needed (hasks : d.OnlyAsks) (s : Workshop) :
    ∃ notes, (d.needed s).1 = s.noted notes := by
  obtain ⟨notes, answer, hneeded⟩ := d.exists_answer s.age? hasks
  exact ⟨notes, by rw [hneeded s rfl]⟩

/-- If a definition that only asks answers whether it would be built, a request for it at a time
when the artifacts have the ages that they had begins its work if the answer was yes, and is met
with the artifact if the answer was no. -/
theorem build_of_needed (hasks : d.OnlyAsks) (hneeded : d.needed s = (s₁, .ok b))
    (hages : t.age? = s₁.age?) :
    (∃ notes, s₁ = s.noted notes) ∧ (Begins d.tag t (d.build false t).1 ↔ b = true) ∧
      (Reused d t ↔ b = false) := by
  obtain ⟨notes, answer, hanswer⟩ := exists_answer_and_build hasks s.age?
  obtain ⟨rfl, rfl⟩ : s.noted notes = s₁ ∧ answer = .ok b :=
    Prod.mk.inj ((hanswer s rfl).1.symm.trans hneeded)
  obtain ⟨-, hbuild⟩ := hanswer t hages
  refine ⟨⟨notes, rfl⟩, ?_⟩
  cases b with
  | false =>
    have hreused : Reused d t := ⟨notes, hbuild⟩
    exact ⟨iff_of_false hreused.not_begins (by simp), iff_of_true hreused rfl⟩
  | true =>
    have hbegins : Begins d.tag t (d.build false t).1 := by
      obtain ⟨events, hevents⟩ := journal_rebuild
        (d.work.journal_run { startingContext t d.tag with hasCached := (s.age? d.tag).isSome }
          ((t.noted notes).log (.started d.tag)))
      refine ⟨notes.map .note ++ .started d.tag :: events, ?_, by simp⟩
      rw [hbuild, ← hevents]
      simp [noted]
    exact ⟨iff_of_true hbegins rfl, iff_of_false (fun h => h.not_begins hbegins) (by simp)⟩

/-! ### A part and the whole -/

/-- A definition whose artifact gets stale by its age. -/
def part : Definition :=
  .mk "part" (fun age => .answer (decide (10 < age))) (.finish (some (.ofBytes "part".toUTF8)))

/-- A definition that has to be built whenever its part has to be. -/
def whole : Definition :=
  .mk "whole" (fun _ => .needs part fun
    | .ok stale => .answer stale
    | .error e => .fail e) (.child part fun _ => .finish (some (.ofBytes "whole".toUTF8)))

/-- A workshop that has both artifacts, with an age for the one of the part. -/
def stocked (age : Int) : Workshop where
  site := { files := ⟨⟨[(["builds"], .dir 0),
    (["builds", Digest.ofText .xxh128 "part" ++ ".bin"], .file "part".toUTF8 age),
    (["builds", Digest.ofText .xxh128 "whole" ++ ".bin"], .file "whole".toUTF8 0)]⟩⟩ }
  directory := "builds"
  algorithm := .xxh128

theorem whole_onlyAsks : whole.OnlyAsks := by
  intro age
  refine ⟨fun _ => trivial, fun answer => ?_⟩
  cases answer <;> trivial

/-- The whole is built when its part is old, and is used as it is when its part is not. -/
theorem build_of_needed_whole :
    (whole.needed (stocked 20)).2 = .ok true ∧
      Begins "whole" (stocked 20) (whole.build false (stocked 20)).1 ∧
      (whole.needed (stocked 5)).2 = .ok false ∧ Reused whole (stocked 5) := by
  have hold : (whole.needed (stocked 20)).2 = .ok true := by decide +kernel
  have hyoung : (whole.needed (stocked 5)).2 = .ok false := by decide +kernel
  obtain ⟨notes, hnotes⟩ := exists_notes_of_needed whole_onlyAsks (stocked 20)
  obtain ⟨notes', hnotes'⟩ := exists_notes_of_needed whole_onlyAsks (stocked 5)
  obtain ⟨-, hbegins, -⟩ :=
    build_of_needed (t := stocked 20) whole_onlyAsks (Prod.ext hnotes hold) rfl
  obtain ⟨-, -, hreused⟩ :=
    build_of_needed (t := stocked 5) whole_onlyAsks (Prod.ext hnotes' hyoung) rfl
  exact ⟨hold, hbegins.2 rfl, hyoung, hreused.2 rfl⟩

end Depot.Build
