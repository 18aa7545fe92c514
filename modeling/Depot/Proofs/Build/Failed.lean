import Depot.Proofs.Build.Effect

/-!
# Requests that fail

Whatever goes wrong in a request, in its question, in the requests on its way, in its work or when
its output takes the place of the artifact: the artifact and the status of its tag stay as they were
and no temporary file stays behind (`nothing_published_by_failed`, from the effect of a request).
-/

namespace Depot.Build

open Workshop

variable {used : String → Prop} {s : Workshop} {tag : String}

theorem Definition.Nests.tag_used {d : Definition} {always : Bool} {around : List String}
    (h : d.Nests used around always s) : used d.tag := by
  cases d
  exact h.1

/-- If a request fails whose question has written nothing directly, its artifact and its status are
as they were, a temporary file is there only if it was there before and has not changed, and the
failure carries the tag. -/
theorem nothing_published_by_failed {d : Definition} {always : Bool} {e : Failure}
    (hapart : Apart used s) (hnests : d.Nests used [] always s)
    (hquestion : d.directBefore always s = none) (hfailed : (d.build always s).2 = .error e) :
    (d.build always s).1.files.fileOf? (s.outputPath d.tag) =
        s.files.fileOf? (s.outputPath d.tag) ∧
      ((d.build always s).1.files.fileOf? (s.temporaryPath d.tag) = none ∨
        (d.build always s).1.files.fileOf? (s.temporaryPath d.tag) =
          s.files.fileOf? (s.temporaryPath d.tag)) ∧
      (d.build always s).1.statuses.get? d.tag = s.statuses.get? d.tag ∧
      ∃ reason, e = .buildFailed d.tag reason := by
  have heffect := d.effect always hapart (by simp) hnests
  have hpath := heffect.stretch.pathOf_eq d.tag
  obtain ⟨hreason, hpublished, hstatus, htemp⟩ := heffect.failed e hfailed
  have hkept := heffect.stretch.kept d.tag hnests.tag_used (heffect.own.trans hpublished)
  have htemp := htemp hquestion
  simp only [Workshop.fileOf?, hpath] at hkept htemp
  exact ⟨hkept, htemp, hstatus, hreason⟩

/-! ### A disk that is full -/

theorem settle_fails {p : Product} {c : Context} {e e' : Failure} (hfinish : p.finish = .error e)
    (hfailure : p.failure = some e') : ∃ e, (s.settle tag c (some p)).2 = .error e := by
  simp only [settle, hfinish, hfailure]
  split
  · exact ⟨_, rfl⟩
  · split <;> exact ⟨_, rfl⟩

/-- A workshop with an empty directory. -/
def emptyWorkshop : Workshop where
  site := { files := ⟨⟨[(["builds"], .dir 0)]⟩⟩ }
  directory := "builds"
  algorithm := .xxh128

/-- A definition that comes to a few bytes and never gets stale. -/
def base : Definition :=
  .mk "base" (fun _ => .answer false) (.finish (some (.ofBytes "system".toUTF8)))

/-- A definition that builds `base`, writes its output directly and fails in the end. -/
def diskFull : Definition :=
  .mk "app" (fun _ => .answer true) (.child base fun _ => .output "prog".toUTF8 fun _ =>
    .finish (some ⟨.empty, some (.io "disk full"), .error (.io "disk full")⟩))

/-- The tags of the two. -/
def InUse (tag : String) : Prop := tag = "base" ∨ tag = "app"

theorem apart_emptyWorkshop : Apart InUse emptyWorkshop := by
  have hne : emptyWorkshop.digest "base" ≠ emptyWorkshop.digest "app" := by decide +kernel
  rintro t u (rfl | rfl) (rfl | rfl) hdigest
  · rfl
  · exact absurd hdigest hne
  · exact absurd hdigest.symm hne
  · rfl

theorem base_nests {around : List String} (h : "base" ∉ around) (always : Bool) (s : Workshop) :
    base.Nests InUse around always s :=
  ⟨.inl rfl, h, fun _ _ => trivial, fun _ _ _ => trivial⟩

theorem diskFull_nests (always : Bool) (s : Workshop) : diskFull.Nests InUse [] always s := by
  refine ⟨.inr rfl, List.not_mem_nil, fun _ _ => trivial, fun c s' _ => ?_⟩
  exact ⟨base_nests (by decide) false _, trivial⟩

theorem diskFull_fails (s : Workshop) : ∃ e, (diskFull.build true s).2 = .error e := by
  have hperform : ∃ e, (s.perform diskFull.tag diskFull.work.run
      (startingContext s diskFull.tag)).2.2 = .error e := by
    obtain ⟨s₂, c₂, hrun⟩ : ∃ s₂ c₂, diskFull.work.run (startingContext s diskFull.tag)
        (s.log (.started diskFull.tag)) =
          (s₂, c₂, .ok (some ⟨.empty, some (.io "disk full"), .error (.io "disk full")⟩)) :=
      ⟨_, _, rfl⟩
    simp only [perform, hrun]
    exact settle_fails rfl rfl
  obtain ⟨e, he⟩ := hperform
  have hbuild := build_eq diskFull true s
  simp only [Definition.asked, if_true, rebuild] at hbuild
  rw [hbuild]
  rcases hall : s.perform diskFull.tag diskFull.work.run (startingContext s diskFull.tag) with
    ⟨s₂, c₂, e' | state⟩
  · exact ⟨_, rfl⟩
  · rw [hall] at he
    cases he

/-- There was no artifact and no temporary file, and there is none. -/
theorem nothing_published_by_failed_diskFull :
    ∃ reason, (diskFull.build true emptyWorkshop).2 = .error (.buildFailed "app" reason) ∧
      (diskFull.build true emptyWorkshop).1.files.fileOf? (emptyWorkshop.outputPath "app") = none ∧
      (diskFull.build true emptyWorkshop).1.files.fileOf? (emptyWorkshop.temporaryPath "app") =
        none ∧
      (diskFull.build true emptyWorkshop).1.statuses.get? "app" = none := by
  have hartifact : emptyWorkshop.files.fileOf? (emptyWorkshop.outputPath "app") = none := by
    decide +kernel
  have htemporary : emptyWorkshop.files.fileOf? (emptyWorkshop.temporaryPath "app") = none := by
    decide +kernel
  obtain ⟨e, he⟩ := diskFull_fails emptyWorkshop
  obtain ⟨hkept, htemp, hstatus, reason, rfl⟩ := nothing_published_by_failed apart_emptyWorkshop
    (diskFull_nests true emptyWorkshop) rfl he
  refine ⟨reason, he, hkept.trans hartifact, ?_, hstatus⟩
  rcases htemp with hnone | hsame
  · exact hnone
  · exact hsame.trans htemporary

end Depot.Build
