import Mathlib.Data.List.Basic
import Depot.Build.Download
import Depot.Proofs.Build.Effect

/-!
# How downloads end

A download streams what it finds and creates no output directly, so its request ends in one of three
ways: it delivers bytes, keeps the artifact, or refuses (`Delivers`, `Keeps`, `Refuses`). Which of
them it is depends on the first address at which something is and on nothing behind it, or on how
all of them failed (`outcome_of_download`).
-/

namespace Depot.Workshop

open Build Files

variable {s : Workshop} {tag : String} {c : Context} {p : Product} {bytes : ByteArray}
  {work : Callback (Option Product)} {result : Outcome (Option Product)}

/-! ## Ends of a request -/

/-- A file can be put in the place of a file of a tag: the directory is there, and at most a file
in that place. -/
def Takes (s : Workshop) (tag : String) (part : Part) : Prop :=
  ∃ p, s.files.locate (s.pathOf tag part) = .ok p ∧ Place s.files p

/-- What a request for a tag comes to: the bytes are the new artifact. -/
structure Delivers (s : Workshop) (tag : String) (bytes : ByteArray)
    (r : Workshop × Outcome String) : Prop where
  result : r.2 = .ok (s.outputPath tag)
  artifact : r.1.files.read (s.outputPath tag) = .ok bytes
  status : ∃ children, r.1.statuses.get? tag = some ⟨.built, children⟩

/-- What a request for a tag comes to: the artifact that is there stays and is the answer. -/
structure Keeps (s : Workshop) (tag : String) (r : Workshop × Outcome String) : Prop where
  result : r.2 = .ok (s.outputPath tag)
  there : s.files.has (s.outputPath tag) = true
  artifact : r.1.files.fileOf? (s.outputPath tag) = s.files.fileOf? (s.outputPath tag)
  status : ∃ children, r.1.statuses.get? tag = some ⟨.cached, children⟩

/-- What a request for a tag comes to: it fails, and artifact and status are as they were. -/
structure Refuses (s : Workshop) (tag : String) (r : Workshop × Outcome String) : Prop where
  result : ∃ reason, r.2 = .error (.buildFailed tag reason)
  artifact : r.1.files.fileOf? (s.outputPath tag) = s.files.fileOf? (s.outputPath tag)
  statuses : r.1.statuses = s.statuses

/-- A file can be written exactly where one can be put. -/
theorem takes_iff_write (bytes : ByteArray) :
    s.Takes tag .temporary ↔
      ∃ files, s.files.write (s.pathOf tag .temporary) bytes = .ok files := by
  constructor
  · rintro ⟨p, hlocate, hplace⟩
    exact ⟨_, write_eq_ok_iff.2 ⟨p, hlocate, hplace, rfl⟩⟩
  · rintro ⟨files, hwrite⟩
    obtain ⟨p, hlocate, hplace, -⟩ := write_eq_ok_iff.1 hwrite
    exact ⟨p, hlocate, hplace⟩

theorem publish_eq_built_iff (s : Workshop) (tag : String) :
    (s.publish tag).2 = .ok .built ↔
      ∃ files, s.files.rename (s.pathOf tag .temporary) (s.pathOf tag .artifact) = .ok files := by
  unfold publish
  rw [temporaryPath_eq, outputPath_eq]
  split
  · next e hrename => simp [hrename]
  · next files hrename => simp [hrename]

/-- The temporary file that was written can be moved exactly where one can be put. -/
theorem publish_written_iff {files : Files}
    (hwrite : s.files.write (s.pathOf tag .temporary) bytes = .ok files) :
    ((s.withFiles files).publish tag).2 = .ok .built ↔ s.Takes tag .artifact := by
  obtain ⟨p, hlocate, hplace, rfl⟩ := write_eq_ok_iff.1 hwrite
  have hput := sameBut_put hplace.free bytes 0
  have hinside : Inside (s.files.put p (.file bytes 0)) p := hput.inside (inside_pathOf hlocate)
  have htarget : ∀ q, (s.files.put p (.file bytes 0)).locate (s.pathOf tag .artifact) = .ok q →
      Inside (s.files.put p (.file bytes 0)) q ∧ p ≠ q := by
    intro q hq
    have hq := hput.locate_eq_ok_iff.1 hq
    refine ⟨hput.inside (inside_pathOf hq), ?_⟩
    rintro rfl
    exact absurd (eq_of_locate_pathOf hlocate hq).2 (by decide)
  rw [publish_eq_built_iff]
  refine (exists_rename_iff (hput.locate_eq_ok_iff.2 hlocate) hinside (file?_put ..) htarget).trans
    (exists_congr fun q => ?_)
  rw [hput.locate_eq_ok_iff, hput.place_iff]

/-- A product that is streamed is published if it has no failure and there can be files. -/
theorem settle_streamed_eq_built_iff (houtput : c.hasOutput = false) :
    (s.settle tag c (some p)).2 = .ok .built ↔
      p.failure = none ∧ s.Takes tag .temporary ∧ s.Takes tag .artifact := by
  simp only [settle, houtput, Bool.false_eq_true, if_false, temporaryPath_eq]
  cases hwrite : s.files.write (s.pathOf tag .temporary) p.bytes with
  | error e =>
    have hnot : ¬s.Takes tag .temporary := by
      rw [takes_iff_write p.bytes, hwrite]
      simp
    simp [hnot]
  | ok files =>
    have htakes : s.Takes tag .temporary := (takes_iff_write p.bytes).2 ⟨files, hwrite⟩
    cases hfailure : p.failure with
    | some e => simp
    | none => simpa [htakes] using publish_written_iff hwrite

theorem settle_streamed_ne_cached (houtput : c.hasOutput = false) :
    (s.settle tag c (some p)).2 ≠ .ok .cached := by
  simp only [settle, houtput, Bool.false_eq_true, if_false, publish]
  repeat' split
  all_goals simp

section

variable (hwork : work c (s.log (.started tag)) = (s.log (.started tag), c, result))

include hwork

theorem refuses_of_perform (h : ∃ e, (s.perform tag work c).2.2 = .error e) :
    s.Refuses tag (s.rebuild tag work c) := by
  obtain ⟨e, he⟩ := h
  rcases rebuild_cases hwork with
    ⟨hwithin, ⟨e', -, hresult, hundone⟩ | ⟨product, state, -, hperform, -⟩⟩
  · refine ⟨⟨_, hresult⟩, ?_, hundone.statuses⟩
    have hkept := hundone.artifact
    rwa [Workshop.fileOf?, hwithin.pathOf_eq] at hkept
  · rw [hperform] at he
    cases he

/-- Work that fails is refused. -/
theorem refuses_of_failed {e : Failure} (hresult : result = .error e) :
    s.Refuses tag (s.rebuild tag work c) := by
  subst hresult
  refine refuses_of_perform hwork ⟨e, ?_⟩
  simp only [perform, hwork]

theorem perform_eq (product : Option Product) (hresult : result = .ok product) :
    (s.perform tag work c).2.2 = ((s.log (.started tag)).settle tag c product).2 := by
  subst hresult
  simp only [perform, hwork]

/-- Work that streams a product delivers it, if the product has no failure and there can be files;
otherwise the request is refused. -/
theorem rebuild_of_streamed (hresult : result = .ok (some p)) (houtput : c.hasOutput = false) :
    (p.failure = none ∧ s.Takes tag .temporary ∧ s.Takes tag .artifact →
        s.Delivers tag p.bytes (s.rebuild tag work c)) ∧
      (¬(p.failure = none ∧ s.Takes tag .temporary ∧ s.Takes tag .artifact) →
        s.Refuses tag (s.rebuild tag work c)) := by
  have hperform := perform_eq hwork (some p) hresult
  have hiff : ((s.log (.started tag)).settle tag c (some p)).2 = .ok .built ↔
      p.failure = none ∧ s.Takes tag .temporary ∧ s.Takes tag .artifact :=
    settle_streamed_eq_built_iff houtput
  constructor
  · intro hfits
    rw [hiff.2 hfits] at hperform
    rcases rebuild_cases hwork with
      ⟨hwithin, ⟨e, herror, -⟩ | ⟨product, state, hproduct, hstate, hpath, hmet⟩⟩
    · rw [herror] at hperform
      cases hperform
    · rw [hstate] at hperform
      obtain rfl : state = .built := Except.ok.inj hperform
      obtain ⟨p', file, rfl, hfile, hleft⟩ := hmet.built rfl
      obtain rfl : p = p' := Option.some.inj (Except.ok.inj (hresult.symm.trans hproduct))
      rw [Workshop.fileOf?, hwithin.pathOf_eq] at hfile
      refine ⟨hpath, read_eq_ok_iff.2 ⟨file.2, ?_⟩, _, hmet.status⟩
      rw [← hleft.streamed houtput]
      exact hfile
  · intro hnot
    refine refuses_of_perform hwork ?_
    rw [hperform]
    rcases hsettled : ((s.log (.started tag)).settle tag c (some p)).2 with e | _ | _
    · exact ⟨e, rfl⟩
    · exact absurd (hiff.1 hsettled) hnot
    · exact absurd hsettled (settle_streamed_ne_cached houtput)

/-- Work that comes to nothing keeps a stale artifact. -/
theorem keeps_of_nothing (hresult : result = .ok none) (hstale : c.hasCached = true)
    (hhas : s.files.has (s.outputPath tag) = true) : s.Keeps tag (s.rebuild tag work c) := by
  have hperform := perform_eq hwork none hresult
  have hsettle : ((s.log (.started tag)).settle tag c none).2 = .ok .cached := by
    have hthere : (s.log (.started tag)).files.has ((s.log (.started tag)).outputPath tag) =
        true := hhas
    simp only [settle, keep, hstale, hthere, Bool.and_self, if_true]
  rw [hsettle] at hperform
  rcases rebuild_cases hwork with
    ⟨hwithin, ⟨e, herror, -⟩ | ⟨product, state, hproduct, hstate, hpath, hmet⟩⟩
  · rw [herror] at hperform
    cases hperform
  · rw [hstate] at hperform
    obtain rfl : state = .cached := Except.ok.inj hperform
    have hkept := (hmet.cached rfl).1
    rw [Workshop.fileOf?, hwithin.pathOf_eq] at hkept
    exact ⟨hpath, hhas, hkept, _, hmet.status⟩

end

end Depot.Workshop

namespace Depot.Build

open Workshop

namespace Download

variable {site : Site} {c : Context} {temporary : Option String} {expected : Option UInt64}
  {url u : String} {front back urls : List String} {bytes : ByteArray} {broken : Option Failure}

/-! ## Asking addresses -/

/-- Something is there: the server answers 200, or the file can be opened. -/
def Reply.Found : Reply → Prop
  | .found _ _ => True
  | .notFound => False
  | .failed => False

instance (r : Reply) : Decidable r.Found :=
  match r with
  | .found _ _ => .isTrue trivial
  | .notFound => .isFalse id
  | .failed => .isFalse id

/-- The address failed in another way than not being found. -/
def Reply.isFailed : Reply → Bool
  | .failed => true
  | _ => false

theorem Reply.isFailed_iff {r : Reply} : r.isFailed = true ↔ r = .failed := by
  cases r <;> simp [isFailed]

/-- The bytes have the expected size, if there is one. -/
def Fits (expected : Option UInt64) (bytes : ByteArray) : Prop :=
  ∀ n, expected = some n → n.toNat = bytes.size

theorem bytes_productOf (url : String) (expected : Option UInt64) (bytes : ByteArray)
    (broken : Option Failure) : (productOf url expected bytes broken).bytes = bytes := by
  unfold productOf sized
  repeat' split
  all_goals rfl

theorem failure_productOf_eq_none_iff :
    (productOf url expected bytes broken).failure = none ↔ broken = none ∧ Fits expected bytes := by
  cases broken with
  | some e => simp [productOf]
  | none =>
    cases expected with
    | none => simp [productOf, sized, Fits, Product.ofBytes]
    | some n =>
      by_cases hsize : n.toNat = bytes.size <;>
        simp [productOf, sized, Fits, Product.ofBytes, hsize]

/-- A file is found with its bytes, unless it is the temporary file. -/
theorem ask_file {path : String} {age : Int} (hfile : site.files.fileOf? path = some (bytes, age))
    (hother : isTemporary site.files temporary path = false) :
    ask site temporary ("file://" ++ path) = .found bytes none := by
  have hpath : "file://".toList.isPrefixOf? ("file://" ++ path).toList = some path.toList := by
    rw [List.isPrefixOf?_eq_some_iff_append_eq, ← String.toList_append]
  have hlookup : site.files.lookup path = .ok (.file bytes age) := by
    unfold Files.fileOf? at hfile
    split at hfile
    · next hlookup =>
      obtain ⟨rfl, rfl⟩ := Prod.mk.inj (Option.some.inj hfile)
      exact hlookup
    · cases hfile
  simp only [ask, hpath, String.ofList_toList, askFile, hlookup, hother, Bool.false_eq_true,
    if_false]

/-- The first address at which something is decides, and none behind it is asked. -/
theorem tryAll_of_found (hc : c.temporary = temporary)
    (hfront : ∀ v ∈ front, ¬(ask site temporary v).Found)
    (hu : ask site temporary u = .found bytes broken) (anyFailed : Bool) :
    tryAll site c expected url anyFailed (front ++ u :: back) =
      .finish (some (productOf u expected bytes broken)) := by
  subst hc
  induction front generalizing anyFailed with
  | nil => simp only [List.nil_append, tryAll, hu]
  | cons v front ih =>
    have hv := hfront v List.mem_cons_self
    have ih (anyFailed : Bool) := ih anyFailed fun w hw => hfront w (List.mem_cons_of_mem _ hw)
    cases hreply : ask site c.temporary v with
    | found bytes broken => exact absurd (hreply ▸ trivial) hv
    | notFound => simp only [List.cons_append, tryAll, hreply, ih]
    | failed => simp only [List.cons_append, tryAll, hreply, ih]

/-- If nothing is at any address, it matters whether one of them failed in another way. -/
theorem tryAll_of_not_found (hc : c.temporary = temporary)
    (hurls : ∀ v ∈ urls, ¬(ask site temporary v).Found) (anyFailed : Bool) :
    tryAll site c expected url anyFailed urls =
      giveUp url (anyFailed || urls.any fun v => (ask site temporary v).isFailed) c.hasCached := by
  subst hc
  induction urls generalizing anyFailed with
  | nil => simp [tryAll]
  | cons v urls ih =>
    have hv := hurls v List.mem_cons_self
    have ih (anyFailed : Bool) := ih anyFailed fun w hw => hurls w (List.mem_cons_of_mem _ hw)
    cases hreply : ask site c.temporary v with
    | found bytes broken => exact absurd (hreply ▸ trivial) hv
    | notFound => simp [tryAll, hreply, ih, Reply.isFailed]
    | failed => simp [tryAll, hreply, ih, Reply.isFailed]

end Download

open Download

variable {s : Workshop} {url : String} {urls : List String} {expire : Option Nat}
  {expected : Option UInt64}

/-! ## Requests for downloads -/

/-- What an address replies to a request for a download. -/
def reply (s : Workshop) (url u : String) : Reply := ask s.site (some (s.temporaryPath url)) u

/-- The context in which a download works: it has a stale artifact if there is any. -/
def downloading (s : Workshop) (url : String) : Context :=
  { startingContext s url with hasCached := (s.age? url).isSome }

theorem temporary_downloading (s : Workshop) (url : String) :
    (downloading s url).temporary = some (s.temporaryPath url) :=
  rfl

/-- A request for a download does its work unless there is a fresh artifact. -/
theorem build_download (hstale : ∀ age, s.age? url = some age → isStale expire age = true) :
    (Definition.download url expire expected).build false s =
      s.rebuild url (Definition.download url expire expected).work.run (downloading s url) := by
  have hasked : (Definition.download url expire expected).asked false s = s.age? url := rfl
  rw [build_eq, hasked, downloading]
  cases hage : s.age? url with
  | none => rfl
  | some age =>
    have hquestion : ((Definition.download url expire expected).stale age).run
        (startingContext s url) s = (s, startingContext s url, .ok true) := by
      rw [← hstale age hage]
      rfl
    have htag : (Definition.download url expire expected).tag = url := rfl
    simp only [htag, hquestion]
    rfl

/-- The work of a download asks the addresses that its own one stands for. -/
theorem run_download (hurls : s.urlsFor url = .ok urls) (expire : Option Nat)
    (expected : Option UInt64) (c : Context) :
    (Definition.download url expire expected).work.run c (s.log (.started url)) =
      (tryAll s.site c expected url false urls).run c (s.log (.started url)) := by
  have hurls' : (s.log (.started url)).urlsFor url = .ok urls := hurls
  have hsite : (s.log (.started url)).site = s.site := rfl
  simp only [Definition.download, Definition.work, Steps.run, hurls', hsite]

theorem run_download_of_error {e : Failure} (hurls : s.urlsFor url = .error e)
    (expire : Option Nat) (expected : Option UInt64) (c : Context) :
    (Definition.download url expire expected).work.run c (s.log (.started url)) =
      (s.log (.started url), c, .error e) := by
  have hurls' : (s.log (.started url)).urlsFor url = .error e := hurls
  simp only [Definition.download, Definition.work, Steps.run, hurls']

/-- What an address has can become the artifact: all of it can be read, it has the expected size,
and the directory takes it. -/
structure Publishable (s : Workshop) (url : String) (expected : Option UInt64) (bytes : ByteArray)
    (broken : Option Failure) : Prop where
  whole : broken = none
  size : Fits expected bytes
  temporary : s.Takes url .temporary
  artifact : s.Takes url .artifact

theorem download_of_found {front back : List String} {u : String} {bytes : ByteArray}
    {broken : Option Failure} (hurls : s.urlsFor url = .ok (front ++ u :: back))
    (hstale : ∀ age, s.age? url = some age → isStale expire age = true)
    (hfront : ∀ v ∈ front, ¬(reply s url v).Found) (hu : reply s url u = .found bytes broken) :
    (Publishable s url expected bytes broken →
        s.Delivers url bytes ((Definition.download url expire expected).build false s)) ∧
      (¬Publishable s url expected bytes broken →
        s.Refuses url ((Definition.download url expire expected).build false s)) := by
  have hwork : (Definition.download url expire expected).work.run (downloading s url)
      (s.log (.started url)) =
        (s.log (.started url), downloading s url,
          .ok (some (productOf u expected bytes broken))) := by
    have htry : tryAll s.site (downloading s url) expected url false (front ++ u :: back) =
        .finish (some (productOf u expected bytes broken)) :=
      tryAll_of_found (temporary_downloading s url) hfront hu false
    rw [run_download hurls, htry]
    rfl
  obtain ⟨hdelivers, hrefuses⟩ := rebuild_of_streamed hwork rfl rfl
  rw [bytes_productOf] at hdelivers
  rw [build_download hstale]
  have hiff : Publishable s url expected bytes broken ↔
      (productOf u expected bytes broken).failure = none ∧ s.Takes url .temporary ∧
        s.Takes url .artifact := by
    rw [failure_productOf_eq_none_iff]
    exact ⟨fun h => ⟨⟨h.whole, h.size⟩, h.temporary, h.artifact⟩,
      fun ⟨⟨hwhole, hsize⟩, htemporary, hartifact⟩ => ⟨hwhole, hsize, htemporary, hartifact⟩⟩
  exact ⟨fun h => hdelivers (hiff.1 h), fun h => hrefuses fun h' => h (hiff.2 h')⟩

theorem download_of_not_found (hurls : s.urlsFor url = .ok urls)
    (hstale : ∀ age, s.age? url = some age → isStale expire age = true)
    (hnone : ∀ u ∈ urls, ¬(reply s url u).Found) :
    ((∃ age, s.age? url = some age) ∧ (∃ u ∈ urls, reply s url u = .failed) →
        s.Keeps url ((Definition.download url expire expected).build false s)) ∧
      (¬((∃ age, s.age? url = some age) ∧ ∃ u ∈ urls, reply s url u = .failed) →
        s.Refuses url ((Definition.download url expire expected).build false s)) := by
  have hcached : (downloading s url).hasCached = true ↔ ∃ age, s.age? url = some age :=
    Option.isSome_iff_exists
  have hfailed : (urls.any fun u => (reply s url u).isFailed) = true ↔
      ∃ u ∈ urls, reply s url u = .failed := by
    simp only [List.any_eq_true, Reply.isFailed_iff]
  have hthere : (downloading s url).hasCached = true → s.files.has (s.outputPath url) = true := by
    rw [hcached]
    rintro ⟨age, hage⟩
    exact Files.has_of_age? hage
  have htry : tryAll s.site (downloading s url) expected url false urls =
      giveUp url (urls.any fun u => (reply s url u).isFailed) (downloading s url).hasCached :=
    tryAll_of_not_found (temporary_downloading s url) hnone false
  have hwork := run_download hurls expire expected (downloading s url)
  rw [htry] at hwork
  rw [build_download hstale, ← hcached, ← hfailed]
  cases hany : urls.any fun u => (reply s url u).isFailed with
  | false =>
    rw [hany] at hwork
    have hrefuses := refuses_of_failed hwork rfl
    exact ⟨by simp, fun _ => hrefuses⟩
  | true =>
    rw [hany] at hwork
    cases hstale : (downloading s url).hasCached with
    | false =>
      rw [hstale] at hwork
      exact ⟨by simp, fun _ => refuses_of_failed hwork rfl⟩
    | true =>
      rw [hstale] at hwork
      have hkeeps := keeps_of_nothing hwork rfl hstale (hthere hstale)
      exact ⟨fun _ => hkeeps, by simp⟩

/-- What a request for a download comes to while there is no fresh artifact. The first address at
which something is decides, whatever the ones behind it are and would reply: its bytes become the
artifact if they can, and otherwise the request is refused. If nothing is at any address, a stale
artifact is kept if one of them failed in another way than not being found, and otherwise the
request is refused. -/
theorem outcome_of_download (expected : Option UInt64) (hurls : s.urlsFor url = .ok urls)
    (hstale : ∀ age, s.age? url = some age → isStale expire age = true) :
    (∀ front u back bytes broken, urls = front ++ u :: back →
        (∀ v ∈ front, ¬(reply s url v).Found) → reply s url u = .found bytes broken →
      (∀ (site : Site) (c : Context) (others : List String),
          (∀ v ∈ front ++ [u], ask site c.temporary v = reply s url v) →
        tryAll site c expected url false (front ++ u :: others) =
          .finish (some (productOf u expected bytes broken))) ∧
      (Publishable s url expected bytes broken →
        s.Delivers url bytes ((Definition.download url expire expected).build false s)) ∧
      (¬Publishable s url expected bytes broken →
        s.Refuses url ((Definition.download url expire expected).build false s))) ∧
    ((∀ u ∈ urls, ¬(reply s url u).Found) →
      ((∃ age, s.age? url = some age) ∧ (∃ u ∈ urls, reply s url u = .failed) →
        s.Keeps url ((Definition.download url expire expected).build false s)) ∧
      (¬((∃ age, s.age? url = some age) ∧ ∃ u ∈ urls, reply s url u = .failed) →
        s.Refuses url ((Definition.download url expire expected).build false s))) := by
  refine ⟨fun front u back bytes broken hsplit hfront hu => ⟨?_, ?_⟩,
    download_of_not_found hurls hstale⟩
  · intro site c others hsame
    refine tryAll_of_found rfl (fun v hv => ?_) ?_ false
    · rw [hsame v (List.mem_append_left _ hv)]
      exact hfront v hv
    · rw [hsame u (List.mem_append_right _ (List.mem_singleton_self u))]
      exact hu
  · subst hsplit
    exact download_of_found hurls hstale hfront hu

/-- A package that a mirror has at its second address. -/
def mirrored : Workshop where
  site := { files := ⟨⟨[(["builds"], .dir 0), (["new"], .dir 0),
    (["new", "pkg"], .file "abc".toUTF8 0)]⟩⟩ }
  directory := "builds"
  algorithm := .xxh128
  mirrors := ⟨[("m", ["file://old", "file://new"])]⟩

/-- The download of that package with the right size delivers it. -/
theorem outcome_of_download_mirrored :
    mirrored.urlsFor "mirror://m/pkg" = .ok ["file://old/pkg", "file://new/pkg"] ∧
      mirrored.age? "mirror://m/pkg" = none ∧
      mirrored.Delivers "mirror://m/pkg" "abc".toUTF8
        ((Definition.download "mirror://m/pkg" none (some 3)).build false mirrored) := by
  have hurls : mirrored.urlsFor "mirror://m/pkg" = .ok ["file://old/pkg", "file://new/pkg"] := by
    decide +kernel
  have hage : mirrored.age? "mirror://m/pkg" = none := by decide +kernel
  have hnew : reply mirrored "mirror://m/pkg" "file://new/pkg" = .found "abc".toUTF8 none := by
    have hfile : mirrored.files.fileOf? "new/pkg" = some ("abc".toUTF8, 0) := by decide +kernel
    exact ask_file hfile (by decide +kernel)
  have hold : ∀ v ∈ ["file://old/pkg"], ¬(reply mirrored "mirror://m/pkg" v).Found := by
    decide +kernel
  have hsize : Fits (some 3) "abc".toUTF8 := by
    rintro n ⟨⟩
    rfl
  have htemporary : mirrored.Takes "mirror://m/pkg" .temporary :=
    ⟨["builds", mirrored.digest "mirror://m/pkg" ++ ".bin.tmp"], by decide +kernel,
      by decide +kernel, by decide +kernel⟩
  have hartifact : mirrored.Takes "mirror://m/pkg" .artifact :=
    ⟨["builds", mirrored.digest "mirror://m/pkg" ++ ".bin"], by decide +kernel,
      by decide +kernel, by decide +kernel⟩
  have hstale : ∀ age, mirrored.age? "mirror://m/pkg" = some age → isStale none age = true := by
    simp [hage]
  have hdownload := (outcome_of_download (some 3) hurls hstale).1 ["file://old/pkg"]
    "file://new/pkg" [] "abc".toUTF8 none rfl hold hnew
  exact ⟨hurls, hage, hdownload.2.1 ⟨rfl, hsize, htemporary, hartifact⟩⟩

/-- A package of which nothing can be written, as a directory is in the way. -/
def obstructed : Workshop where
  site := { files := ⟨⟨[(["builds"], .dir 0),
    (["builds", Digest.ofText .xxh128 "file://pkg" ++ ".bin.tmp"], .dir 0),
    (["pkg"], .file "abc".toUTF8 0)]⟩⟩ }
  directory := "builds"
  algorithm := .xxh128

/-- All of the file can be read, no size is expected, and the download fails. -/
theorem refused_by_directory :
    obstructed.urlsFor "file://pkg" = .ok ["file://pkg"] ∧
      obstructed.age? "file://pkg" = none ∧
      reply obstructed "file://pkg" "file://pkg" = .found "abc".toUTF8 none ∧
      ((Definition.download "file://pkg" none none).build false obstructed).2 =
        .error (.buildFailed "file://pkg" "I/O error: Is a directory (os error 21)") := by
  have hfile : obstructed.files.fileOf? "pkg" = some ("abc".toUTF8, 0) := by decide +kernel
  exact ⟨by decide +kernel, by decide +kernel, ask_file hfile (by decide +kernel),
    by decide +kernel⟩

end Depot.Build
