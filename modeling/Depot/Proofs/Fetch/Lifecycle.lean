import Depot.Proofs.Fetch.Coherence

/-!
# The status of a fetcher

What a fetcher is like after a call depends on the end of that call only (`standing_fetch`). So
after any calls, on stores in any state, its status says how the last of them has ended
(`status_after_calls`): it is loaded, with sets that are those of its packages, or it has failed,
with nothing left but the log, or it was never called.
-/

namespace Depot.Fetch.Fetcher

variable {f : Fetcher} {d : Decl} {source : Source} {packages : List Package}
  {known : Option (List String)} {part : Package.Name → String} {last : Option (Outcome Unit)}

/-- The known values are exactly those that a part of the packages' names has. -/
def Tells (known : Option (List String)) (part : Package.Name → String) (packages : List Package) :
    Prop :=
  ∃ values, known = some values ∧ ∀ v, v ∈ values ↔ ∃ p ∈ packages, part p.name = v

theorem tells_eraseDups (part : Package.Name → String) (packages : List Package) :
    Tells (some (packages.map fun p => part p.name).eraseDups) part packages :=
  ⟨_, rfl, fun v => by simp⟩

/-- A query passes for a part that it leaves open or that some package has. -/
theorem Tells.allows_iff (h : Tells known part packages) (v : String) :
    allows known v = true ↔ v = "" ∨ ∃ p ∈ packages, part p.name = v := by
  obtain ⟨values, rfl, hvalues⟩ := h
  simp [allows, hvalues]

theorem mayHave_of_unknown (hdistributions : f.distributions = none)
    (harchitectures : f.architectures = none) (query : Package.Name) : f.mayHave query = true := by
  simp [mayHave, allows, hdistributions, harchitectures]

theorem failure_cases (f : Fetcher) (cause : Failure) :
    (f.failure cause = cause ∧ ∃ fetcher reason, cause = .fetchFailed fetcher reason) ∨
      f.failure cause = .fetchFailed f.display cause.message := by
  unfold failure
  split
  · exact .inl ⟨rfl, _, _, rfl⟩
  · exact .inr rfl

/-- What a fetcher is like before its first call, and after one that ended in some way. -/
inductive Standing (f : Fetcher) : Option (Outcome Unit) → Prop
  | idle (status : f.status = .notLoaded) : Standing f none
  | loaded (status : f.status = .loaded)
    (distributions : Tells f.distributions (·.distribution) f.packages)
    (architectures : Tells f.architectures (·.architecture) f.packages) :
    Standing f (some (.ok ()))
  | failed (status : f.status = .error) (packages : f.packages = [])
    (distributions : f.distributions = none) (architectures : f.architectures = none)
    (cause : Failure)
    (message : f.log.messages.getLast? = some ("fetch failed: " ++ cause.message)) :
    Standing f (some (.error (f.failure cause)))

/-- Every call leaves the fetcher as the call's end says, whatever the fetcher was like before. -/
theorem standing_fetch (f : Fetcher) (store : Store) (force : Bool) :
    (f.fetch store force).1.Standing (some (f.fetch store force).2.2) := by
  obtain ⟨calls, log, files, ⟨cause, hfetch⟩ | ⟨packages, hfetch⟩⟩ := f.fetch_cases store force
  · rw [hfetch]
    exact .failed rfl rfl rfl rfl cause (by simp [failed, Log.line])
  · rw [hfetch]
    exact .loaded rfl (tells_eraseDups _ packages) (tells_eraseDups _ packages)

/-- The calls of a fetcher from its declaration on, each forced or not and on a store in any state,
with the end of the last one. -/
inductive Calls (d : Decl) (source : Source) : Fetcher → Option (Outcome Unit) → Prop
  | declared : Calls d source { decl := d, source } none
  | call {f : Fetcher} {last : Option (Outcome Unit)} (store : Store) (force : Bool) :
    Calls d source f last →
      Calls d source (f.fetch store force).1 (some (f.fetch store force).2.2)

theorem Calls.standing (h : Calls d source f last) : f.Standing last := by
  cases h with
  | declared => exact .idle rfl
  | call store force _ => exact standing_fetch _ store force

theorem Calls.decl_eq (h : Calls d source f last) : f.decl = d := by
  induction h with
  | declared => rfl
  | call store force _ ih => rw [fetch_decl, ih]

theorem Calls.source_eq (h : Calls d source f last) : f.source = source := by
  induction h with
  | declared => rfl
  | call store force _ ih => rw [fetch_source, ih]

/-- Between calls a fetcher is never under way. It is loaded exactly if the last call went well, and
then the pre-filter lets a query pass exactly if each part that it asks for is that of some package.
It has failed exactly if the last call did, and then it has no packages, lets every query pass, and
says at the end of its log why the call failed; the caller is told so by a failure that names a
fetcher. -/
theorem status_after_calls (h : Calls d source f last) :
    f.status ≠ .loading ∧ (f.status = .notLoaded ↔ last = none) ∧
      (f.status = .loaded ↔ last = some (.ok ())) ∧
      (f.status = .error ↔ ∃ e, last = some (.error e)) ∧
      (f.status = .loaded → Tells f.distributions (·.distribution) f.packages ∧
        Tells f.architectures (·.architecture) f.packages ∧
        ∀ query, f.mayHave query = true ↔
          (query.distribution = "" ∨ ∃ p ∈ f.packages, p.name.distribution = query.distribution) ∧
          (query.architecture = "" ∨ ∃ p ∈ f.packages, p.name.architecture = query.architecture)) ∧
      (f.status = .error → f.packages = [] ∧ f.distributions = none ∧ f.architectures = none ∧
        ∀ query, f.mayHave query = true) ∧
      ∀ e, last = some (.error e) → ∃ cause,
        f.log.messages.getLast? = some ("fetch failed: " ++ cause.message) ∧
          ((e = cause ∧ ∃ fetcher reason, cause = .fetchFailed fetcher reason) ∨
            e = .fetchFailed d.display cause.message) := by
  cases h.standing with
  | idle status => simp [status]
  | loaded status distributions architectures =>
    refine ⟨by simp [status], by simp [status], by simp [status], by simp [status],
      fun _ => ⟨distributions, architectures, fun query => ?_⟩, by simp [status], by simp⟩
    rw [mayHave, Bool.and_eq_true, distributions.allows_iff, architectures.allows_iff]
  | failed status packages distributions architectures cause message =>
    refine ⟨by simp [status], by simp [status], by simp [status], by simp [status],
      by simp [status], fun _ => ⟨packages, distributions, architectures,
        mayHave_of_unknown distributions architectures⟩, fun e he => ⟨cause, message, ?_⟩⟩
    obtain rfl : f.failure cause = e := by simpa using he
    have hdisplay : f.display = d.display := congrArg Decl.display h.decl_eq
    rw [← hdisplay]
    rcases f.failure_cases cause with ⟨hsame, hnamed⟩ | hwrapped
    · exact .inl ⟨hsame, hnamed⟩
    · exact .inr hwrapped

/-! ### A call that goes well and one that fails -/

theorem exists_first_call :
    ∃ f, Calls onceOnly.decl onceOnly.source f (some (.ok ())) ∧ f.calls = 1 ∧
      f.packages.map (·.name.distribution) = ["alpine"] := by
  have hempty := emptyStore_coherent onceOnly
  obtain ⟨p, q, hready⟩ := emptyStore_ready onceOnly
  obtain ⟨files, -, -, -, hfetch⟩ := fetch_of_done hready (hempty.due_of_none false) rfl
  have hdeclared : Calls onceOnly.decl onceOnly.source onceOnly none := .declared
  have hcall := hdeclared.call emptyStore false
  rw [hfetch] at hcall
  exact ⟨_, hcall, rfl, rfl⟩

theorem fetch_emptyStore_of_called (hsource : f.source = onceOnly.source) (hcalls : f.calls ≠ 0) :
    (f.fetch emptyStore true).2.2 = .error (f.failure (.notFound "list")) := by
  obtain ⟨p, q, hready⟩ := emptyStore_ready f
  have hfail : (f.sourceRun emptyStore).2 = .error (.notFound "list") := by
    simp [sourceRun, hsource, onceOnly, hcalls, Script.run]
  obtain ⟨files, -, hfetch⟩ := fetch_of_failed hready (.inl rfl) hfail
  rw [hfetch]

/-- After the first call no query for another distribution passes, after the second one every query
does. -/
theorem status_after_two_calls :
    ∃ f g, Calls onceOnly.decl onceOnly.source f (some (.ok ())) ∧ f.status = .loaded ∧
      f.mayHave ⟨"debian", "", "", "", false⟩ = false ∧
      Calls onceOnly.decl onceOnly.source g
        (some (.error (.fetchFailed "list(alpine)" "Not found: list"))) ∧
      g.status = .error ∧ g.packages = [] ∧ g.mayHave ⟨"debian", "", "", "", false⟩ = true := by
  obtain ⟨f, hf, hcalls, hdistributions⟩ := exists_first_call
  obtain ⟨-, -, hloaded, -, hsets, -, -⟩ := status_after_calls hf
  have hstatus := hloaded.2 rfl
  obtain ⟨-, -, hpasses⟩ := hsets hstatus
  have hmay : f.mayHave ⟨"debian", "", "", "", false⟩ = false := by
    rw [Bool.eq_false_iff, Ne, hpasses]
    rintro ⟨hempty | ⟨p, hp, hdebian⟩, -⟩
    · exact absurd hempty (by decide)
    · have hmem : p.name.distribution ∈ f.packages.map (·.name.distribution) :=
        List.mem_map_of_mem hp
      rw [hdistributions, List.mem_singleton, hdebian] at hmem
      exact absurd hmem (by decide)
  have hg := hf.call emptyStore true
  rw [fetch_emptyStore_of_called hf.source_eq (by simp [hcalls])] at hg
  obtain ⟨-, -, -, hfailed, -, hnothing, -⟩ := status_after_calls hg
  have hstatus' := hfailed.2 ⟨_, rfl⟩
  obtain ⟨hnone, -, -, hmay'⟩ := hnothing hstatus'
  have hfailure : f.failure (.notFound "list") =
      .fetchFailed "list(alpine)" "Not found: list" := by
    show Failure.fetchFailed f.decl.display _ = _
    rw [hf.decl_eq]
    decide
  rw [hfailure] at hg
  exact ⟨f, _, hf, hstatus, hmay, hg, hstatus', hnone, hmay' _⟩

end Depot.Fetch.Fetcher
