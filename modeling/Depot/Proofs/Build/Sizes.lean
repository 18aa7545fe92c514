import Depot.Proofs.Build.Download
import Depot.Proofs.Build.Story
import Depot.Proofs.Build.Artifacts

/-!
# Expected sizes of downloads

The size of a download is compared while its bytes are written, so what counts for an artifact is
the size that was expected when it was published. A series of downloads comes with these sizes
(`Downloads`), and every artifact has them (`Sound`). A request that publishes delivers the size
that it expects itself; one that is met with an artifact does so if the last one that published
expected the same (`size_of_answer`).
-/

namespace Depot.Build

open Workshop Download

variable {s s₀ s' : Workshop} {d : Definition} {url tag : String} {expire : Option Nat}
  {expected : Option UInt64} {always : Bool} {bytes : ByteArray} {stage : Stage}

/-! ## Downloads at hand -/

/-- The definitions that download from an address, and the size that they expect. -/
inductive Asks : Definition → (url : String) → (expected : Option UInt64) → Prop
  | download (url : String) (expire : Option Nat) (expected : Option UInt64) :
    Asks (.download url expire expected) url expected
  | http {p : Package} {d : Definition} {url : String} {expected : Option UInt64}
      (preferred : p.preferredDownloader? = some (.http url expected))
      (contents : Definition.contentsOf p = .ok d) : Asks d url expected
  | content {p : Package} {d : Definition} {what url : String}
      (preferred : p.preferredDownloader? = some (.content what url))
      (contents : Definition.contentsOf p = .ok d) : Asks d url none

theorem Asks.eq_download (h : Asks d url expected) :
    ∃ expire, d = .download url expire expected := by
  cases h with
  | download _ expire _ => exact ⟨expire, rfl⟩
  | http preferred contents =>
    simp only [Definition.contentsOf, preferred, Except.ok.injEq] at contents
    exact ⟨none, contents.symm⟩
  | content preferred contents =>
    simp only [Definition.contentsOf, preferred, Except.ok.injEq] at contents
    exact ⟨none, contents.symm⟩

/-! ## Ends of a download -/

theorem tryAll_cases (site : Site) (c : Context) (expected : Option UInt64) (url : String)
    (anyFailed : Bool) (urls : List String) :
    (∃ e, tryAll site c expected url anyFailed urls = .fail e) ∨
      (c.hasCached = true ∧ tryAll site c expected url anyFailed urls = .finish none) ∨
      ∃ u bytes broken, tryAll site c expected url anyFailed urls =
        .finish (some (productOf u expected bytes broken)) := by
  induction urls generalizing anyFailed with
  | nil =>
    cases anyFailed <;> cases hcached : c.hasCached
    all_goals simp [tryAll, giveUp, hcached, Steps.finish]
  | cons u urls ih =>
    cases hreply : ask site c.temporary u with
    | found bytes broken =>
      exact .inr (.inr ⟨u, bytes, broken, by simp only [tryAll, hreply]⟩)
    | notFound => simpa only [tryAll, hreply] using ih anyFailed
    | failed => simpa only [tryAll, hreply] using ih true

/-- The work of a download changes nothing. It fails, or keeps a stale artifact, or has found
something. -/
theorem run_download_cases (url : String) (expire : Option Nat) (expected : Option UInt64)
    (s : Workshop) (c : Context) :
    ∃ result, (Definition.download url expire expected).work.run c (s.log (.started url)) =
        (s.log (.started url), c, result) ∧
      ((∃ e, result = .error e) ∨ (c.hasCached = true ∧ result = .ok none) ∨
        ∃ u bytes broken, result = .ok (some (productOf u expected bytes broken))) := by
  cases hurls : s.urlsFor url with
  | error e => exact ⟨.error e, run_download_of_error hurls expire expected c, .inl ⟨e, rfl⟩⟩
  | ok urls =>
    rw [run_download hurls]
    rcases tryAll_cases s.site c expected url false urls with
      ⟨e, htry⟩ | ⟨hcached, htry⟩ | ⟨u, bytes, broken, htry⟩
    all_goals rw [htry]
    · exact ⟨_, rfl, .inl ⟨e, rfl⟩⟩
    · exact ⟨_, rfl, .inr (.inl ⟨hcached, rfl⟩)⟩
    · exact ⟨_, rfl, .inr (.inr ⟨u, bytes, broken, rfl⟩)⟩

/-- What a request for a download comes to, in any state. -/
structure Ends (s : Workshop) (url : String) (expected : Option UInt64)
    (r : Workshop × Outcome String) : Prop where
  within : Within url [.temporary, .artifact, .label] s r.1
  ends : s.Refuses url r ∨ s.Keeps url r ∨ ∃ bytes, Fits expected bytes ∧ s.Delivers url bytes r

theorem ends_of_rebuild {c : Context} (houtput : c.hasOutput = false)
    (hcached : c.hasCached = true → s.files.has (s.outputPath url) = true) :
    Ends s url expected
      (s.rebuild url (Definition.download url expire expected).work.run c) := by
  obtain ⟨result, hwork, hresult⟩ := run_download_cases url expire expected s c
  refine ⟨((Within.log s url (.started url)).trans (rebuild_cases hwork).1).mono (by simp), ?_⟩
  rcases hresult with ⟨e, hresult⟩ | ⟨hstale, hresult⟩ | ⟨u, bytes, broken, hresult⟩
  · exact .inl (refuses_of_failed hwork hresult)
  · exact .inr (.inl (keeps_of_nothing hwork hresult hstale (hcached hstale)))
  · obtain ⟨hdelivers, hrefuses⟩ := rebuild_of_streamed hwork hresult houtput
    by_cases hfits : (productOf u expected bytes broken).failure = none ∧
        s.Takes url .temporary ∧ s.Takes url .artifact
    · rw [bytes_productOf] at hdelivers
      exact .inr (.inr ⟨bytes, (failure_productOf_eq_none_iff.1 hfits.1).2, hdelivers hfits⟩)
    · exact .inl (hrefuses hfits)

theorem ends_of_download (url : String) (expire : Option Nat) (expected : Option UInt64)
    (always : Bool) (s : Workshop) :
    Ends s url expected ((Definition.download url expire expected).build always s) := by
  have htag : (Definition.download url expire expected).tag = url := rfl
  rw [build_eq]
  cases hasked : (Definition.download url expire expected).asked always s with
  | none => exact ends_of_rebuild rfl (by simp [startingContext])
  | some age =>
    have hage := age?_of_asked hasked
    rw [htag] at hage
    have hhas : s.files.has (s.outputPath url) = true := Files.has_of_age? hage
    have hquestion : ((Definition.download url expire expected).stale age).run
        (startingContext s url) s = (s, startingContext s url, .ok (isStale expire age)) := rfl
    simp only [htag, hquestion]
    cases isStale expire age with
    | true => exact ends_of_rebuild rfl fun _ => hhas
    | false =>
      exact ⟨(Within.record s url _).mono (by simp),
        .inr (.inl ⟨rfl, hhas, rfl, [], get?_record ..⟩)⟩

/-! ## Series of downloads -/

/-- Has a request for a tag published an artifact? -/
def publishes (tag : String) (r : Workshop × Outcome String) : Bool :=
  match r.2, r.1.statuses.get? tag with
  | .ok _, some ⟨.built, _⟩ => true
  | _, _ => false

/-- The size that was expected when an artifact was published, by the digest of its address. -/
abbrev Sizes := String → Option UInt64

/-- What is known of the sizes after a request. -/
def Sizes.after (sizes : Sizes) (s : Workshop) (url : String) (expected : Option UInt64)
    (r : Workshop × Outcome String) : Sizes :=
  if publishes url r then Function.update sizes (s.digest url) expected else sizes

/-- Downloads one after the other. Between them time passes, servers and files change, and mirrors
get other addresses; only the artifacts stay as they are. -/
inductive Downloads (s₀ : Workshop) : Workshop → Sizes → Prop
  | start (sizes : Sizes) : Downloads s₀ s₀ sizes
  | build {s : Workshop} {sizes : Sizes} {d : Definition} {url : String} {expected : Option UInt64}
      (always : Bool) (asks : Asks d url expected) :
    Downloads s₀ s sizes →
      Downloads s₀ (d.build always s).1 (sizes.after s url expected (d.build always s))
  | change {s s' : Workshop} {sizes : Sizes} (directory : s'.directory = s.directory)
      (algorithm : s'.algorithm = s.algorithm)
      (artifacts : ∀ tag stage, s.At tag stage → s'.At tag stage) :
    Downloads s₀ s sizes → Downloads s₀ s' sizes

/-- Every artifact that there is has the size that was expected. -/
def Sound (sizes : Sizes) (s : Workshop) : Prop :=
  ∀ tag, s.At tag .missing ∨ ∃ bytes, s.At tag (.stored bytes) ∧ Fits (sizes (s.digest tag)) bytes

theorem publishes_of_refuses {r : Workshop × Outcome String} (h : s.Refuses url r) :
    publishes url r = false := by
  obtain ⟨reason, hresult⟩ := h.result
  simp only [publishes, hresult]

theorem publishes_of_keeps {r : Workshop × Outcome String} (h : s.Keeps url r) :
    publishes url r = false := by
  obtain ⟨children, hstatus⟩ := h.status
  simp only [publishes, h.result, hstatus]

theorem publishes_of_delivers {r : Workshop × Outcome String} (h : s.Delivers url bytes r) :
    publishes url r = true := by
  obtain ⟨children, hstatus⟩ := h.status
  simp only [publishes, h.result, hstatus]

section

variable {r : Workshop × Outcome String} (h : Ends s url expected r)

include h

theorem Ends.delivers_of_publishes (hpublishes : publishes url r = true) :
    ∃ bytes, Fits expected bytes ∧ s.Delivers url bytes r := by
  rcases h.ends with hrefuses | hkeeps | hdelivers
  · rw [publishes_of_refuses hrefuses] at hpublishes
    cases hpublishes
  · rw [publishes_of_keeps hkeeps] at hpublishes
    cases hpublishes
  · exact hdelivers

/-- A download leaves the artifacts alone, but for that of its own address if it publishes. -/
theorem Ends.fileOf?_eq (hother : publishes url r = false ∨ s.digest tag ≠ s.digest url) :
    r.1.fileOf? tag .artifact = s.fileOf? tag .artifact := by
  by_cases hdigest : s.digest tag = s.digest url
  · have hunpublished : publishes url r = false := hother.resolve_right (not_not_intro hdigest)
    rw [Workshop.fileOf?, Workshop.fileOf?, h.within.pathOf_eq, pathOf, hdigest]
    rcases h.ends with hrefuses | hkeeps | ⟨bytes, -, hdelivers⟩
    · exact hrefuses.artifact
    · exact hkeeps.artifact
    · rw [publishes_of_delivers hdelivers] at hunpublished
      cases hunpublished
  · exact h.within.fileOf?_eq fun heq => absurd heq hdigest

/-- Every download keeps the sizes right. -/
theorem Ends.sound {sizes : Sizes} (hsound : Sound sizes s) :
    Sound (sizes.after s url expected r) r.1 := by
  intro tag
  rw [h.within.digest_eq]
  by_cases hother : publishes url r = false ∨ s.digest tag ≠ s.digest url
  · have hkept := h.fileOf?_eq hother
    have hsize : sizes.after s url expected r (s.digest tag) = sizes (s.digest tag) := by
      unfold Sizes.after
      rcases hother with hunpublished | hdigest
      · rw [hunpublished]
        rfl
      · split
        · rw [Function.update_of_ne hdigest]
        · rfl
    rw [hsize]
    exact (hsound tag).imp (fun hmissing => hmissing.of_kept h.within hkept)
      fun ⟨bytes, hstored, hfits⟩ => ⟨bytes, hstored.of_kept h.within hkept, hfits⟩
  · rw [not_or, Bool.not_eq_false, not_not] at hother
    obtain ⟨hpublishes, hdigest⟩ := hother
    obtain ⟨bytes, hfits, hdelivers⟩ := h.delivers_of_publishes hpublishes
    obtain ⟨age, hfile⟩ := Files.read_eq_ok_iff.1 hdelivers.artifact
    refine .inr ⟨bytes, ⟨age, ?_⟩, ?_⟩
    · rw [Workshop.fileOf?, h.within.pathOf_eq, pathOf, hdigest]
      exact hfile
    · rw [Sizes.after, if_pos hpublishes, hdigest, Function.update_self]
      exact hfits

end

/-- In every series of downloads that begins with an empty directory the sizes are right. -/
theorem Downloads.sound {sizes : Sizes} (h : Downloads s₀ s sizes) (hempty : Empty s₀) :
    Sound sizes s := by
  induction h with
  | start =>
    exact fun tag =>
      .inl (hempty _ (s₀.proper_name tag .artifact) (s₀.slash_not_mem_name tag .artifact))
  | @build s sizes d url expected always asks _ ih =>
    obtain ⟨expire, rfl⟩ := asks.eq_download
    exact (ends_of_download url expire expected always s).sound ih
  | @change s s' sizes directory algorithm artifacts _ ih =>
    intro tag
    have hdigest : s'.digest tag = s.digest tag := by rw [digest, algorithm, digest]
    rw [hdigest]
    rcases ih tag with hmissing | ⟨bytes, hstored, hfits⟩
    · exact .inl (artifacts tag _ hmissing)
    · exact .inr ⟨bytes, artifacts tag _ hstored, hfits⟩

/-- In a series of downloads that begins with an empty directory, a request that gives a path gives
that of a file. If the request has published it, the file has the size that the request expects.
Otherwise it is the artifact that was there, and has the size that the last request for its address
that published expected. -/
theorem size_of_answer {sizes : Sizes} {path : String} (h : Downloads s₀ s sizes)
    (hempty : Empty s₀) (hasks : Asks d url expected) (hok : (d.build always s).2 = .ok path) :
    path = s.outputPath url ∧ ∃ bytes, (d.build always s).1.files.read path = .ok bytes ∧
      (publishes url (d.build always s) = true → Fits expected bytes) ∧
      (publishes url (d.build always s) = false →
        (∃ children, (d.build always s).1.statuses.get? url = some ⟨.cached, children⟩) ∧
          s.files.read path = .ok bytes ∧ Fits (sizes (s.digest url)) bytes) := by
  obtain ⟨expire, rfl⟩ := hasks.eq_download
  have hends := ends_of_download url expire expected always s
  generalize (Definition.download url expire expected).build always s = r at hends hok ⊢
  cases hpublishes : publishes url r with
  | true =>
    obtain ⟨bytes, hfits, hdelivers⟩ := hends.delivers_of_publishes hpublishes
    obtain rfl : s.outputPath url = path := Except.ok.inj (hdelivers.result.symm.trans hok)
    exact ⟨rfl, bytes, hdelivers.artifact, fun _ => hfits, by simp⟩
  | false =>
    rcases hends.ends with hrefuses | hkeeps | ⟨bytes, -, hdelivers⟩
    · obtain ⟨reason, hresult⟩ := hrefuses.result
      rw [hresult] at hok
      cases hok
    · obtain rfl : s.outputPath url = path := Except.ok.inj (hkeeps.result.symm.trans hok)
      have hthere := hkeeps.there
      rcases h.sound hempty url with hmissing | ⟨bytes, ⟨age, hfile⟩, hfits⟩
      · have hmissing : s.files.has (s.outputPath url) = false := hmissing
        rw [hmissing] at hthere
        cases hthere
      · exact ⟨rfl, bytes, Files.read_eq_ok_iff.2 ⟨age, hkeeps.artifact.trans hfile⟩, by simp,
          fun _ => ⟨hkeeps.status, Files.read_eq_ok_iff.2 ⟨age, hfile⟩, hfits⟩⟩
    · rw [publishes_of_delivers hdelivers] at hpublishes
      cases hpublishes

/-- The empty workshop when a server has a package. -/
def served : Workshop :=
  { emptyWorkshop with
    site := { emptyWorkshop.site with
      web := ⟨⟨[("http://host/pkg", .answered 200 "abc".toUTF8)]⟩, true⟩ } }

theorem downloads_served (sizes : Sizes) : Downloads emptyWorkshop served sizes := by
  refine .change (s := emptyWorkshop) rfl rfl (fun tag stage hstage => ?_) (.start sizes)
  cases stage <;> exact hstage

/-- A package that is downloaded with the right size has it. -/
theorem size_of_answer_served :
    ∃ path bytes,
      ((Definition.download "http://host/pkg" none (some 3)).build false served).2 = .ok path ∧
      ((Definition.download "http://host/pkg" none (some 3)).build false served).1.files.read path =
        .ok bytes ∧ bytes.size = 3 := by
  obtain ⟨path, hok⟩ : ∃ path,
      ((Definition.download "http://host/pkg" none (some 3)).build false served).2 = .ok path :=
    ⟨served.outputPath "http://host/pkg", by decide +kernel⟩
  have hpublishes : publishes "http://host/pkg"
      ((Definition.download "http://host/pkg" none (some 3)).build false served) = true := by
    decide +kernel
  obtain ⟨-, bytes, hread, hfits, -⟩ := size_of_answer (downloads_served fun _ => none)
    emptyWorkshop_empty (.download "http://host/pkg" none (some 3)) hok
  exact ⟨path, bytes, hok, hread, (hfits hpublishes 3 rfl).symm⟩

/-- A package that is there already is the answer whatever size is expected. -/
theorem cached_size_unchecked :
    (∃ sizes, Downloads emptyWorkshop
      ((Definition.download "http://host/pkg" none none).build false served).1 sizes) ∧
    ((Definition.download "http://host/pkg" none (some 99)).build false
      ((Definition.download "http://host/pkg" none none).build false served).1).2 =
        .ok (served.outputPath "http://host/pkg") ∧
    ((Definition.download "http://host/pkg" none (some 99)).build false
      ((Definition.download "http://host/pkg" none none).build false served).1).1.files.read
        (served.outputPath "http://host/pkg") = .ok "abc".toUTF8 ∧
    "abc".toUTF8.size ≠ 99 := by
  refine ⟨⟨_, (downloads_served fun _ => none).build false (.download _ none none)⟩, ?_⟩
  decide +kernel

end Depot.Build
