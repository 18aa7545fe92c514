import Depot.Proofs.Build.Failed

/-!
# What happens to a tag

A run makes requests, one inside another (`Steps.visits`, `Definition.inner`), and writes a journal.
Seen from one tag whose definitions are never stale, both tell one story (`Story`): requests for the
tag fail until one of them publishes the artifact, and from then on they are met with it and do no
work. Stories are told one after the other (`Story.trans`).
-/

namespace Depot.Build

open Workshop

/-! ## The requests of a run -/

/-- A request that is made in a run. -/
structure Visit where
  definition : Definition
  always : Bool
  before : Workshop

namespace Visit

/-- The tag that is asked for. -/
def tag (v : Visit) : String := v.definition.tag

/-- What the request leaves. -/
def after (v : Visit) : Workshop := (v.definition.build v.always v.before).1

/-- What the request gives. -/
def result (v : Visit) : Outcome String := (v.definition.build v.always v.before).2

end Visit

mutual
/-- The requests on the way of a callback, in the order in which they end. -/
def Steps.visits {r : Role} : Steps r → Context → Workshop → List Visit
  | .done _, _, _ => []
  | .fail _, _, _ => []
  | .note text next, c, s => next.visits c (s.log (.note text))
  | .look next, c, s => (next c s).visits c s
  | .needs d next, c, s => d.innerAsking s ++ (next (d.needed s).2).visits c (d.needed s).1
  | .child d next, c, s =>
    d.inner false s ++ [⟨d, false, s⟩] ++
      (next (d.build false s).2).visits (c.withChild d) (d.build false s).1
  | .output bytes next, c, s =>
    match Workshop.createOutput bytes c s with
    | (s, c, result) => (next result).visits c s

/-- The requests on the way to know whether a definition would have to be built. -/
def Definition.innerAsking : Definition → Workshop → List Visit
  | .mk tag stale _, s =>
    match s.age? tag with
    | none => []
    | some age => (stale age).visits (startingContext s tag) s

/-- The requests inside a request: on the way of its question and of its work. -/
def Definition.inner : Definition → (always : Bool) → Workshop → List Visit
  | .mk tag stale work, always, s =>
    (match Definition.asked (.mk tag stale work) always s with
      | none => []
      | some age => (stale age).visits (startingContext s tag) s) ++
    match Definition.workStart (.mk tag stale work) always s with
      | none => []
      | some (c, s) => work.visits c (s.log (.started tag))
end

/-- The requests that a request comes to, itself included. -/
def Definition.visits (d : Definition) (always : Bool) (s : Workshop) : List Visit :=
  d.inner always s ++ [⟨d, always, s⟩]

theorem innerAsking_eq (d : Definition) (s : Workshop) :
    d.innerAsking s =
      match s.age? d.tag with
      | none => []
      | some age => (d.stale age).visits (startingContext s d.tag) s := by
  cases d
  rfl

theorem inner_eq (d : Definition) (always : Bool) (s : Workshop) :
    d.inner always s =
      (match d.asked always s with
        | none => []
        | some age => (d.stale age).visits (startingContext s d.tag) s) ++
      match d.workStart always s with
        | none => []
        | some (c, s) => d.work.visits c (s.log (.started d.tag)) := by
  cases d
  rfl

/-- A callback changes of its context only the children and whether there is an output. -/
theorem context_run {r : Role} : ∀ (steps : Steps r) (c : Context) (s : Workshop),
    (steps.run c s).2.1.tag = c.tag ∧ (steps.run c s).2.1.temporary = c.temporary
  | .done _, _, _ => ⟨rfl, rfl⟩
  | .fail _, _, _ => ⟨rfl, rfl⟩
  | .note _ next, c, s => context_run next c _
  | .look next, c, s => context_run (next c s) c s
  | .needs d next, c, s => context_run (next (d.needed s).2) c _
  | .child d next, c, s => context_run (next (d.build false s).2) (c.withChild d) _
  | .output bytes next, c, s => by
    have hcreate : (createOutput bytes c s).2.1.tag = c.tag ∧
        (createOutput bytes c s).2.1.temporary = c.temporary := by
      unfold createOutput
      split
      · exact ⟨rfl, rfl⟩
      · split
        · exact ⟨rfl, rfl⟩
        · split <;> exact ⟨rfl, rfl⟩
    rcases hresult : createOutput bytes c s with ⟨s', c', result⟩
    rw [hresult] at hcreate
    obtain ⟨htag, htemporary⟩ := context_run (next result) c' s'
    simp only [Steps.run, hresult]
    exact ⟨htag.trans hcreate.1, htemporary.trans hcreate.2⟩

/-! ## The story of a tag -/

/-- What there is for a tag. -/
inductive Stage where
  | missing
  | stored (bytes : ByteArray)

end Depot.Build

namespace Depot.Workshop

open Build

variable {tag : String} {s s' : Workshop} {stage : Stage}

/-- The workshop is at a stage of a tag: there is nothing in the place of its artifact, or the
artifact has some bytes. -/
def At (s : Workshop) (tag : String) : Stage → Prop
  | .missing => s.files.has (s.outputPath tag) = false
  | .stored bytes => ∃ age, s.fileOf? tag .artifact = some (bytes, age)

/-- The stage depends on the bytes of the artifact, and on whether there is anything. -/
theorem At.congr (h : s.At tag stage)
    (hfile : (s'.fileOf? tag .artifact).map (·.1) = (s.fileOf? tag .artifact).map (·.1))
    (hhas : s'.files.has (s'.outputPath tag) = s.files.has (s.outputPath tag)) :
    s'.At tag stage := by
  cases stage with
  | missing => exact hhas.trans h
  | stored bytes =>
    obtain ⟨age, hage⟩ := h
    rw [hage, Option.map_some, Option.map_eq_some_iff] at hfile
    obtain ⟨⟨_, age'⟩, hfound, rfl⟩ := hfile
    exact ⟨age', hfound⟩

theorem At.of_kept {other : String} {parts : List Part} (h : s.At tag stage)
    (hwithin : Within other parts s s')
    (hkept : s'.fileOf? tag .artifact = s.fileOf? tag .artifact) : s'.At tag stage := by
  obtain ⟨paths, hsame, -⟩ := hwithin.files
  refine h.congr (by rw [hkept]) ?_
  rw [Workshop.fileOf?, Workshop.fileOf?, hwithin.pathOf_eq] at hkept
  rw [outputPath_eq, outputPath_eq, hwithin.pathOf_eq, hsame.has_eq hkept]

theorem At.age?_eq_none (h : s.At tag .missing) : s.age? tag = none := by
  cases hage : s.age? tag with
  | none => rfl
  | some age =>
    have hhas : s.files.has (s.outputPath tag) = true := Files.has_of_age? hage
    rw [h] at hhas
    cases hhas

theorem At.exists_age {bytes : ByteArray} (h : s.At tag (.stored bytes)) :
    ∃ age, s.age? tag = some age := by
  obtain ⟨age, hfile⟩ := h
  refine ⟨age, ?_⟩
  rw [Workshop.fileOf?, Files.fileOf?] at hfile
  unfold age? Files.age?
  rw [outputPath_eq]
  split at hfile
  · next found age' hlookup =>
    obtain ⟨-, rfl⟩ := Prod.mk.inj (Option.some.inj hfile)
    rw [hlookup]
    rfl
  · cases hfile

end Depot.Workshop

namespace Depot.Build

open Workshop

variable {tag path : String} {s : Workshop} {stage stage' stage'' : Stage}
  {visits visits' : List Visit} {events events' : List Event}

/-- The event is about the work for a tag or about its artifact. -/
def Event.Concerns (tag : String) : Event → Prop
  | .note _ => False
  | .started t => t = tag
  | .published t _ => t = tag

namespace Visit

/-- The request fails and leaves nothing in the place of the artifact, as it was. -/
structure Fails (v : Visit) : Prop where
  before : v.before.At v.tag .missing
  result : ∃ e, v.result = .error e
  after : v.after.At v.tag .missing

/-- The request gives the path of the artifact, which was not there and is built. -/
structure Publishes (path : String) (bytes : ByteArray) (v : Visit) : Prop where
  before : v.before.At v.tag .missing
  result : v.result = .ok path
  after : v.after.At v.tag (.stored bytes)
  status : ∃ children, v.after.statuses.get? v.tag = some ⟨.built, children⟩

/-- The request gives the path of the artifact that is there and stays. -/
structure Reuses (path : String) (bytes : ByteArray) (v : Visit) : Prop where
  before : v.before.At v.tag (.stored bytes)
  result : v.result = .ok path
  after : v.after.At v.tag (.stored bytes)
  status : ∃ children, v.after.statuses.get? v.tag = some ⟨.cached, children⟩

end Visit

/-- What may happen to a tag between two stages, told by the requests that are made and by the lines
that the journal gets. -/
inductive Story (tag path : String) (visits : List Visit) (events : List Event) :
    Stage → Stage → Prop
  /-- Every request for the tag fails. -/
  | missing (hvisits : ∀ v ∈ visits, v.tag = tag → v.Fails)
    (hevents : ∀ bytes, .published tag bytes ∉ events) :
    Story tag path visits events .missing .missing
  /-- Requests for the tag fail until one publishes the artifact; from then on they are met with it,
  and the journal has nothing more about the tag: no work for it begins. -/
  | published {bytes : ByteArray} {early late : List Visit} {first : Visit}
    {before after : List Event} (hvisits : visits = early ++ first :: late)
    (hevents : events = before ++ .published tag bytes :: after)
    (hearly : ∀ v ∈ early, v.tag = tag → v.Fails)
    (hfirst : first.tag = tag ∧ first.Publishes path bytes)
    (hlate : ∀ v ∈ late, v.tag = tag → v.Reuses path bytes)
    (hbefore : ∀ bytes, .published tag bytes ∉ before)
    (hafter : ∀ e ∈ after, ¬e.Concerns tag) : Story tag path visits events .missing (.stored bytes)
  /-- Every request for the tag is met with the artifact, and no work for it begins. -/
  | stored {bytes : ByteArray} (hvisits : ∀ v ∈ visits, v.tag = tag → v.Reuses path bytes)
    (hevents : ∀ e ∈ events, ¬e.Concerns tag) :
    Story tag path visits events (.stored bytes) (.stored bytes)

namespace Story

/-- Nothing happens to the tag. -/
theorem idle (hvisits : ∀ v ∈ visits, v.tag ≠ tag) (hevents : ∀ e ∈ events, ¬e.Concerns tag)
    (stage : Stage) : Story tag path visits events stage stage := by
  cases stage with
  | missing =>
    exact .missing (fun v hv htag => absurd htag (hvisits v hv))
      fun bytes hmem => hevents _ hmem rfl
  | stored bytes => exact .stored (fun v hv htag => absurd htag (hvisits v hv)) hevents

theorem trans (h : Story tag path visits events stage stage')
    (h' : Story tag path visits' events' stage' stage'') :
    Story tag path (visits ++ visits') (events ++ events') stage stage'' := by
  cases h with
  | missing hvisits hevents =>
    cases h' with
    | missing hvisits' hevents' =>
      refine .missing (fun v hv => ?_) fun bytes hmem => ?_
      · exact (List.mem_append.1 hv).elim (hvisits v) (hvisits' v)
      · exact (List.mem_append.1 hmem).elim (hevents bytes) (hevents' bytes)
    | @published bytes early late first before after hsplit hjournal hearly hfirst hlate hbefore
        hafter =>
      have hvisits' : visits ++ visits' = (visits ++ early) ++ first :: late := by
        rw [hsplit, List.append_assoc]
      have hevents' : events ++ events' =
          (events ++ before) ++ .published tag bytes :: after := by
        rw [hjournal, List.append_assoc]
      refine .published hvisits' hevents' (fun v hv => ?_) hfirst hlate (fun bytes hmem => ?_)
        hafter
      · exact (List.mem_append.1 hv).elim (hvisits v) (hearly v)
      · exact (List.mem_append.1 hmem).elim (hevents bytes) (hbefore bytes)
  | @published bytes early late first before after hsplit hjournal hearly hfirst hlate hbefore
      hafter =>
    cases h' with
    | stored hvisits' hevents' =>
      have hvisits : visits ++ visits' = early ++ first :: (late ++ visits') := by
        rw [hsplit, List.append_assoc, List.cons_append]
      have hevents : events ++ events' = before ++ .published tag bytes :: (after ++ events') := by
        rw [hjournal, List.append_assoc, List.cons_append]
      refine .published hvisits hevents hearly hfirst (fun v hv => ?_) hbefore fun e he => ?_
      · exact (List.mem_append.1 hv).elim (hlate v) (hvisits' v)
      · exact (List.mem_append.1 he).elim (hafter e) (hevents' e)
  | stored hvisits hevents =>
    cases h' with
    | stored hvisits' hevents' =>
      refine .stored (fun v hv => ?_) fun e he => ?_
      · exact (List.mem_append.1 hv).elim (hvisits v) (hvisits' v)
      · exact (List.mem_append.1 he).elim (hevents e) (hevents' e)

/-- While no request is made for a tag, its artifact does not appear. -/
theorem eq_of_alone (halone : ∀ w ∈ visits, w.tag ≠ tag)
    (h : Story tag path visits events stage stage') :
    stage' = stage ∧ (stage = .missing → ∀ bytes, .published tag bytes ∉ events) ∧
      (stage ≠ .missing → ∀ e ∈ events, ¬e.Concerns tag) := by
  cases h with
  | missing hvisits hevents => exact ⟨rfl, fun _ => hevents, fun h => absurd rfl h⟩
  | @published bytes early late first before after hsplit hjournal hearly hfirst =>
    have hmem : first ∈ visits := by simp [hsplit]
    exact absurd hfirst.1 (halone first hmem)
  | stored hvisits hevents => exact ⟨rfl, by simp, fun _ => hevents⟩

end Story

/-! ## Journals -/

/-- The journal gets a line about the artifact of a tag, with its bytes, if that is built, and else
no line. -/
inductive Journals (tag : String) (s s' : Workshop) (result : Outcome State) : Prop
  | unbuilt (hresult : result ≠ .ok .built) (hjournal : s'.journal = s.journal)
  | built (bytes : ByteArray) (hresult : result = .ok .built)
    (hjournal : s'.journal = s.journal ++ [.published tag bytes])
    (hbytes : ∀ file, s'.fileOf? tag .artifact = some file → file.1 = bytes)

theorem journals_publish (s : Workshop) (tag : String) :
    Journals tag s (s.publish tag).1 (s.publish tag).2 := by
  unfold publish
  split
  · exact .unbuilt (by simp) rfl
  · next files _ =>
    refine .built _ rfl rfl fun file hfile => ?_
    have hread : files.read (s.outputPath tag) = .ok file.1 :=
      Files.read_eq_ok_iff.2 ⟨file.2, hfile⟩
    rw [hread]

theorem journals_settle (s : Workshop) (tag : String) (c : Context) (product : Option Product) :
    Journals tag s (s.settle tag c product).1 (s.settle tag c product).2 := by
  cases product with
  | none =>
    simp only [settle, keep]
    split <;> exact .unbuilt (by simp) rfl
  | some p =>
    simp only [settle]
    split
    · split
      · exact .unbuilt (by simp) rfl
      · exact journals_publish s tag
    · split
      · exact .unbuilt (by simp) rfl
      · split
        · exact .unbuilt (by simp) rfl
        · next files _ _ _ =>
          -- writing the file leaves the journal alone
          cases journals_publish (s.withFiles files) tag with
          | unbuilt hresult hjournal => exact .unbuilt hresult hjournal
          | built bytes hresult hjournal hbytes => exact .built bytes hresult hjournal hbytes

/-- Behind its work a request adds to the journal that the artifact was published, if it was. -/
theorem journals_rebuild {s₁ : Workshop} {c₁ : Context} {work : Callback (Option Product)}
    {result : Outcome (Option Product)}
    (hwork : work c (s.log (.started tag)) = (s₁, c₁, result)) :
    Journals tag s₁ (s.rebuild tag work c).1 (s.perform tag work c).2.2 := by
  cases result with
  | error e =>
    have hperform : s.perform tag work c = (s₁, c₁, .error e) := by simp only [perform, hwork]
    simp only [rebuild, hperform]
    exact .unbuilt (by simp) rfl
  | ok product =>
    have hperform : s.perform tag work c =
        ((s₁.settle tag c₁ product).1, c₁, (s₁.settle tag c₁ product).2) := by
      simp only [perform, hwork]
    have hsettle := journals_settle s₁ tag c₁ product
    rcases hsettled : s₁.settle tag c₁ product with ⟨s₂, e | state⟩
    all_goals
      rw [hsettled] at hperform hsettle
      simp only [rebuild, hperform]
    · cases hsettle with
      | unbuilt hresult hjournal => exact .unbuilt hresult hjournal
      | built bytes hresult => cases hresult
    · obtain ⟨hlast, -⟩ := s₂.within_record_writeTag tag ⟨state, c₁.children⟩
      have hjournal : ((s₂.record tag ⟨state, c₁.children⟩).writeTag tag).journal = s₂.journal :=
        journal_writeTag _ tag
      cases hsettle with
      | unbuilt hresult hsame => exact .unbuilt hresult (hjournal.trans hsame)
      | built bytes hresult hadded hbytes =>
        refine .built bytes hresult (hjournal.trans hadded) fun file hfile => hbytes file ?_
        rwa [hlast.fileOf?_eq (by simp)] at hfile

end Depot.Build
