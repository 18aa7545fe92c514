import Depot.Proofs.Fetch.Frame
import Depot.Proofs.Fetch.Isolation
import Depot.Proofs.Stock.Cycle

/-!
# Cycles that fail

Fetches at other places spare a fetcher, its entry and its temporary file, if the keys are different
(`Fetches.spared`). So what the fetches of a cycle have left at a place is what the fetch of that
place has left, and for one that failed this is no more than the status (`Fetches.failed_at`). A
cycle whose fetchers take turns ends with the first failure, and one whose fetchers run together
goes through all of them (`stopped_cycle`); both report the first failure and finish the tracker.
-/

namespace Depot.Stock

variable {s t u : Stock} {force inTurn : Bool} {place other : Nat} {places : List Nat}
  {f : Fetch.Fetcher} {calls before after : List Call} {first call : Call} {e : Failure}

/-! ## What other fetches spare -/

theorem store_fetch (hf : s.index.fetchers[place]? = some f) (force : Bool) :
    (s.fetch place force).1.store = (f.fetch s.store force).2.1 := by
  simp only [fetch_of_fetcher hf]

theorem result_fetch (hf : s.index.fetchers[place]? = some f) (force : Bool) :
    (s.fetch place force).2 = (f.fetch s.store force).2.2 := by
  simp only [fetch_of_fetcher hf]

theorem keys_fetch (s : Stock) (place : Nat) (force : Bool) :
    (s.fetch place force).1.index.fetchers.map (·.key) = s.index.fetchers.map (·.key) := by
  have hdecls := congrArg (List.map Fetch.Decl.key) (decls_fetch s place force)
  rw [List.map_map, List.map_map] at hdecls
  exact hdecls

theorem Fetches.keys_eq (h : Fetches s calls t) :
    t.index.fetchers.map (·.key) = s.index.fetchers.map (·.key) := by
  induction h with
  | nil s => rfl
  | cons place force _ ih => exact ih.trans (keys_fetch _ place force)

/-- The fetcher at a place is the same, and nothing has happened to its entry and temporary file. -/
structure Spared (s : Stock) (place : Nat) (t : Stock) : Prop where
  fetcher : t.index.fetchers[place]? = s.index.fetchers[place]?
  cache : t.store.cache = s.store.cache
  files : ∀ f, s.index.fetchers[place]? = some f →
    ∃ paths, s.store.site.files.SameBut paths t.store.site.files ∧
      ∀ p ∈ f.spots s.store, p ∉ paths

namespace Spared

theorem refl (s : Stock) (place : Nat) : Spared s place s :=
  ⟨rfl, rfl, fun _ _ => ⟨[], .refl _, by simp⟩⟩

theorem entryPath_eq (h : Spared s place t) (f : Fetch.Fetcher) :
    f.entryPath t.store = f.entryPath s.store := by
  unfold Fetch.Fetcher.entryPath
  rw [h.cache]

theorem trans (h : Spared s place t) (h' : Spared t place u) : Spared s place u where
  fetcher := h'.fetcher.trans h.fetcher
  cache := h'.cache.trans h.cache
  files f hf := by
    obtain ⟨paths, hsame, hapart⟩ := h.files f hf
    obtain ⟨paths', hsame', hapart'⟩ := h'.files f (h.fetcher.trans hf)
    have hspots : f.spots t.store = f.spots s.store := by
      unfold Fetch.Fetcher.spots
      rw [h.entryPath_eq]
      exact Cache.spots_eq_of_sameBut hsame _
    refine ⟨paths ++ paths', hsame.trans hsame', fun p hp hmem => ?_⟩
    rcases List.mem_append.1 hmem with hmem | hmem
    · exact hapart p hp hmem
    · rw [← hspots] at hp
      exact hapart' p hp hmem

theorem fileOf?_entry (h : Spared s place t) (hf : s.index.fetchers[place]? = some f) :
    t.store.site.files.fileOf? (f.entryPath s.store) =
      s.store.site.files.fileOf? (f.entryPath s.store) := by
  obtain ⟨paths, hsame, hapart⟩ := h.files f hf
  exact hsame.fileOf?_eq fun p hp => hapart p (Cache.mem_spots_of_locate hp)

end Spared

theorem spared_fetch (hkeys : (s.index.fetchers.map (·.key)).Nodup) (hne : other ≠ place) :
    Spared s place (s.fetch other force).1 := by
  cases hg : s.index.fetchers[other]? with
  | none =>
    simp only [fetch, hg]
    exact .refl s place
  | some g =>
    refine ⟨by rw [fetchers_fetch, if_neg hne.symm], ?_, fun f hf => ?_⟩
    · rw [store_fetch hg, g.fetch_cache]
    · rw [store_fetch hg]
      exact ⟨g.spots s.store, g.sameBut_fetch s.store force, fun p hp =>
        Fetch.Fetcher.spots_apart (ne_key_of_ne_place hkeys hf hg hne) hp⟩

theorem Fetches.spared (h : Fetches s calls t) (hkeys : (s.index.fetchers.map (·.key)).Nodup)
    (hplaces : ∀ c ∈ calls, c.place ≠ place) : Spared s place t := by
  induction h with
  | nil s => exact .refl s place
  | @cons s t calls other force _ ih =>
    have hne : other ≠ place := hplaces _ List.mem_cons_self
    refine (spared_fetch hkeys hne).trans (ih ?_ fun c hc => hplaces c (List.mem_cons_of_mem _ hc))
    rwa [keys_fetch]

/-! ## A failure among other fetches -/

theorem Fetches.split (h : Fetches s (before ++ call :: after) t) :
    ∃ u, Fetches s before u ∧ call.result = (u.fetch call.place call.force).2 ∧
      Fetches (u.fetch call.place call.force).1 after t := by
  induction before generalizing s with
  | nil =>
    cases h with
    | cons place force h => exact ⟨s, .nil s, rfl, h⟩
  | cons c before ih =>
    cases h with
    | cons place force h =>
      obtain ⟨u, hbefore, hresult, hafter⟩ := ih h
      exact ⟨u, .cons place force hbefore, hresult, hafter⟩

/-- A fetch has failed at a place, and has left no packages and the entry as it was. -/
structure FailedAt (s : Stock) (place : Nat) (f : Fetch.Fetcher) (t : Stock) : Prop where
  fetcher : t.index.fetchers[place]? = some f
  status : f.status = .error
  packages : f.packages = []
  entry : t.store.site.files.fileOf? (f.entryPath s.store) =
    s.store.site.files.fileOf? (f.entryPath s.store)

theorem Fetches.failed_at (h : Fetches s calls t) (hkeys : (s.index.fetchers.map (·.key)).Nodup)
    (hplaces : (calls.map (·.place)).Nodup) (hrange : ∀ c ∈ calls, c.place ∈ s.places)
    (hcall : call ∈ calls) (hfailed : call.result = .error e) :
    (∃ f, FailedAt s call.place f t) ∧ ∃ fetcher reason, e = .fetchFailed fetcher reason := by
  obtain ⟨before, after, rfl⟩ := List.append_of_mem hcall
  obtain ⟨u, hbefore, hresult, hafter⟩ := h.split
  -- the other fetches are at other places
  rw [List.map_append, List.map_cons, List.nodup_append] at hplaces
  obtain ⟨-, hrest, hapart⟩ := hplaces
  have hne : ∀ c ∈ before, c.place ≠ call.place := fun c hc =>
    hapart _ (List.mem_map_of_mem hc) _ List.mem_cons_self
  have hne' : ∀ c ∈ after, c.place ≠ call.place := fun c hc heq =>
    (List.nodup_cons.1 hrest).1 (heq ▸ List.mem_map_of_mem hc)
  have hlt : call.place < s.index.fetchers.length := by
    simpa [places] using hrange call hcall
  have hf : s.index.fetchers[call.place]? = some s.index.fetchers[call.place] :=
    List.getElem?_eq_getElem hlt
  generalize s.index.fetchers[call.place] = f at hf
  have hspared := hbefore.spared hkeys hne
  have hfu : u.index.fetchers[call.place]? = some f := hspared.fetcher.trans hf
  have hspared' := hafter.spared (by rwa [keys_fetch, hbefore.keys_eq]) hne'
  have hleft : (u.fetch call.place call.force).1.index.fetchers[call.place]? =
      some (f.fetch u.store call.force).1 := by
    rw [fetchers_fetch, if_pos rfl, hfu, Option.map_some]
  rw [hfailed, result_fetch hfu] at hresult
  obtain ⟨hstatus, hpackages, hreason⟩ := Fetch.Fetcher.failed_of_error hresult.symm
  refine ⟨⟨_, hspared'.fetcher.trans hleft, hstatus, hpackages, ?_⟩, hreason⟩
  have hpath : (f.fetch u.store call.force).1.entryPath s.store = f.entryPath u.store := by
    rw [← hspared.entryPath_eq]
    unfold Fetch.Fetcher.entryPath Fetch.Fetcher.key
    rw [Fetch.Fetcher.fetch_decl]
  have hentry := hspared'.fileOf?_entry hleft
  rw [store_fetch hfu, Fetch.Fetcher.fetch_entryPath,
    Fetch.Fetcher.fileOf?_of_failed (by rw [← hresult]; simp)] at hentry
  rw [hpath, hentry, hspared.entryPath_eq, hspared.fileOf?_entry hf]

/-! ## Where a cycle stops -/

/-- The fetches of some places, one after the other, whatever becomes of each. -/
def allCalls (force : Bool) : List Nat → Stock → List Call
  | [], _ => []
  | place :: rest, s =>
    ⟨place, force, (s.fetch place force).2⟩ :: allCalls force rest (s.fetch place force).1

theorem place_allCalls (force : Bool) (places : List Nat) (s : Stock) :
    (allCalls force places s).map (·.place) = places := by
  induction places generalizing s with
  | nil => rfl
  | cons place rest ih => rw [allCalls, List.map_cons, ih]

theorem exists_failure_of_first {rest : List Nat} (h : (s.fetch place force).2 ≠ .ok ()) :
    ∃ c ∈ allCalls force (place :: rest) s, c.result ≠ .ok () :=
  ⟨_, List.mem_cons_self, h⟩

theorem exists_first_failure (h : ∃ c ∈ calls, c.result ≠ .ok ()) :
    ∃ before first after e, calls = before ++ first :: after ∧
      (∀ c ∈ before, c.result = .ok ()) ∧ first.result = .error e := by
  have hok (c : Call) : c.result.isOk = true ↔ c.result = .ok () := by
    cases hresult : c.result <;> simp [Except.isOk, Except.toBool]
  have hsome : (calls.find? (!·.result.isOk)).isSome = true := by
    simpa [List.find?_isSome, ← Bool.not_eq_true, hok] using h
  obtain ⟨first, hfirst⟩ := Option.isSome_iff_exists.1 hsome
  obtain ⟨hfails, before, after, rfl, hbefore⟩ := List.find?_eq_some_iff_append.1 hfirst
  cases hresult : first.result with
  | error e => exact ⟨before, first, after, e, rfl, by simpa [hok] using hbefore, hresult⟩
  | ok u => simp [hresult, Except.isOk, Except.toBool] at hfails

/-- Some fetches have ended with this failure, and the tracker was told of it. -/
structure Stopped (s : Stock) (calls : List Call) (e : Failure)
    (run : Stock × Outcome Unit × List Progress.Event) : Prop where
  fetches : Fetches s calls run.1
  result : run.2.1 = .error e
  told : .finishError e.message ∈ run.2.2

theorem stopped_fetchInTurn (h : allCalls force places s = before ++ first :: after)
    (hbefore : ∀ c ∈ before, c.result = .ok ()) (hfirst : first.result = .error e) :
    Stopped s (before ++ [first]) e (fetchInTurn force places s) := by
  induction places generalizing s before with
  | nil => simp [allCalls] at h
  | cons place rest ih =>
    rw [allCalls] at h
    unfold fetchInTurn
    cases before with
    | nil =>
      obtain ⟨rfl, -⟩ := List.cons.inj h
      have hone := Fetches.cons place force (.nil (s.fetch place force).1)
      have hresult : (s.fetch place force).2 = .error e := hfirst
      rcases hfetch : s.fetch place force with ⟨t, e' | u⟩
      · rw [hfetch] at hresult hone
        obtain rfl := Except.error.inj hresult
        exact ⟨hone, rfl, by simp⟩
      · simp [hfetch] at hresult
    | cons c before =>
      obtain ⟨rfl, hsplit⟩ := List.cons.inj h
      have hresult : (s.fetch place force).2 = .ok () := hbefore _ List.mem_cons_self
      obtain ⟨hrest, hend, htold⟩ := ih hsplit fun c hc => hbefore c (List.mem_cons_of_mem _ hc)
      have hall := Fetches.cons place force hrest
      rcases hfetch : s.fetch place force with ⟨t, e' | u⟩
      · simp [hfetch] at hresult
      · rw [hfetch] at hall hend htold
        exact ⟨hall, hend, by simpa using htold⟩

theorem fetches_fetchTogether (force : Bool) (places : List Nat) (s : Stock) :
    Fetches s (allCalls force places s) (fetchTogether force places s).1 := by
  induction places generalizing s with
  | nil => exact .nil s
  | cons place rest ih =>
    have hall := Fetches.cons place force (ih (s.fetch place force).1)
    unfold fetchTogether allCalls
    rcases hfetch : s.fetch place force with ⟨t, e' | u⟩
    all_goals
      rw [hfetch] at hall
      exact hall

theorem stopped_fetchTogether (h : allCalls force places s = before ++ first :: after)
    (hbefore : ∀ c ∈ before, c.result = .ok ()) (hfirst : first.result = .error e) :
    Stopped s (before ++ first :: after) e (fetchTogether force places s) := by
  suffices hend : (fetchTogether force places s).2.1 = .error e ∧
      .finishError e.message ∈ (fetchTogether force places s).2.2 from
    ⟨h ▸ fetches_fetchTogether force places s, hend.1, hend.2⟩
  induction places generalizing s before with
  | nil => simp [allCalls] at h
  | cons place rest ih =>
    rw [allCalls] at h
    unfold fetchTogether
    cases before with
    | nil =>
      obtain ⟨rfl, -⟩ := List.cons.inj h
      have hresult : (s.fetch place force).2 = .error e := hfirst
      rcases hfetch : s.fetch place force with ⟨t, e' | u⟩
      · rw [hfetch] at hresult
        obtain rfl := Except.error.inj hresult
        simp
      · simp [hfetch] at hresult
    | cons c before =>
      obtain ⟨rfl, hsplit⟩ := List.cons.inj h
      have hresult : (s.fetch place force).2 = .ok () := hbefore _ List.mem_cons_self
      have hrest := ih hsplit fun c hc => hbefore c (List.mem_cons_of_mem _ hc)
      rcases hfetch : s.fetch place force with ⟨t, e' | u⟩
      · simp [hfetch] at hresult
      · rw [hfetch] at hrest
        simpa using hrest

theorem finished_of_told {text : String} {events : List Progress.Event}
    (h : .finishError text ∈ events) (p : Progress) : (p.run events).finished = true := by
  have hkept (events : List Progress.Event) (p : Progress) (hp : p.finished = true) :
      (p.run events).finished = true := by
    induction events generalizing p with
    | nil => exact hp
    | cons event rest ih =>
      refine ih (p.step event) ?_
      cases event <;> simp [Progress.step, hp]
  obtain ⟨before, after, rfl⟩ := List.append_of_mem h
  rw [Progress.run, List.foldl_append, List.foldl_cons]
  exact hkept after _ rfl

/-! ## Cycles -/

/-- A cycle that fetches the places in some order: the order of declaration if the fetchers take
turns, and otherwise the order in which their fetches end. -/
def cycle (s : Stock) (force inTurn : Bool) (order : List Nat) :
    Stock × Outcome Unit × List Progress.Event :=
  let run := if inTurn then fetchInTurn force order s else fetchTogether force order s
  let start : Progress.Event := .length (UInt64.ofNat s.index.fetchers.length)
  match run with
  | (t, .error e, events) => (t, .error e, start :: events)
  | (t, .ok (), events) =>
    let index := t.index.rebuild
    let finish := .finish ("loaded " ++ toString index.count ++ " packages")
    ({ t with index }, .ok (), start :: events ++ [finish])

theorem fetchAll_eq_cycle (s : Stock) (force inTurn : Bool) :
    s.fetchAll force inTurn = s.cycle force inTurn s.places :=
  rfl

theorem stopped_cycle (h : allCalls force places s = before ++ first :: after)
    (hbefore : ∀ c ∈ before, c.result = .ok ()) (hfirst : first.result = .error e) :
    Stopped s (before ++ first :: if inTurn then [] else after) e
      (s.cycle force inTurn places) := by
  have hrun : Stopped s (before ++ first :: if inTurn then [] else after) e
      (if inTurn then fetchInTurn force places s else fetchTogether force places s) := by
    cases inTurn with
    | true => exact stopped_fetchInTurn h hbefore hfirst
    | false => exact stopped_fetchTogether h hbefore hfirst
  unfold cycle
  revert hrun
  generalize (if inTurn then fetchInTurn force places s else fetchTogether force places s) = run
  rintro ⟨hfetches, hresult, htold⟩
  obtain ⟨t, result, events⟩ := run
  obtain rfl : result = .error e := hresult
  exact ⟨hfetches, rfl, List.mem_cons_of_mem _ htold⟩

/-- What a failed cycle has left: the answers of the index are as before, the tracker is finished,
no fetch that has failed has left packages or touched its entry, and if the fetchers take turns,
those behind the first failure are as they were. -/
structure CycleFailed (s : Stock) (inTurn : Bool) (before : List Call) (first : Call)
    (after : List Call) (run : Stock × Outcome Unit × List Progress.Event) : Prop where
  error : ∃ fetcher reason, run.2.1 = .error (.fetchFailed fetcher reason) ∧
    first.result = .error (.fetchFailed fetcher reason)
  finished : ∀ p : Progress, (p.run run.2.2).finished = true
  packages : run.1.index.packages = s.index.packages
  count : run.1.index.count = s.index.count
  get? : ∀ id, run.1.index.get? id = s.index.get? id
  names : run.1.index.names = s.index.names
  failed : ∀ c ∈ before ++ first :: (if inTurn then [] else after), c.result ≠ .ok () →
    ∃ f, FailedAt s c.place f run.1
  spared : inTurn = true → ∀ c ∈ after, Spared s c.place run.1

/-- A cycle in which any fetch fails leaves the index alone, in whatever order the fetches end. -/
theorem cycle_failed {order : List Nat} (force inTurn : Bool)
    (hkeys : (s.index.fetchers.map (·.key)).Nodup)
    (horder : if inTurn then order = s.places else order.Perm s.places)
    (hfails : ∃ c ∈ allCalls force order s, c.result ≠ .ok ()) :
    s.fetchAll force inTurn = s.cycle force inTurn s.places ∧
      ∃ before first after, allCalls force order s = before ++ first :: after ∧
        (∀ c ∈ before, c.result = .ok ()) ∧
        CycleFailed s inTurn before first after (s.cycle force inTurn order) := by
  obtain ⟨before, first, after, e, hsplit, hbefore, hfirst⟩ := exists_first_failure hfails
  refine ⟨fetchAll_eq_cycle s force inTurn, before, first, after, hsplit, hbefore, ?_⟩
  obtain ⟨hfetches, hresult, htold⟩ : Stopped s (before ++ first :: if inTurn then [] else after) e
      (s.cycle force inTurn order) := stopped_cycle hsplit hbefore hfirst
  have hperm : order.Perm s.places := by
    cases inTurn with
    | true => exact .of_eq horder
    | false => exact horder
  have hplaces : order = (before ++ first :: after).map (·.place) := by
    rw [← hsplit, place_allCalls]
  have hnodup : ((before ++ first :: after).map (·.place)).Nodup := by
    rw [← hplaces, hperm.nodup_iff]
    exact List.nodup_range
  have hrange : ∀ c ∈ before ++ first :: after, c.place ∈ s.places := fun c hc => by
    rw [← hperm.mem_iff, hplaces]
    exact List.mem_map_of_mem hc
  have hsub : List.Sublist (before ++ first :: if inTurn then [] else after)
      (before ++ first :: after) := by
    refine .append (.refl _) (.cons_cons _ ?_)
    cases inTurn with
    | true => exact List.nil_sublist _
    | false => exact .refl _
  have hfailed {c : Call} {e : Failure} (hc : c ∈ before ++ first :: if inTurn then [] else after)
      (he : c.result = .error e) := hfetches.failed_at hkeys (hnodup.sublist (hsub.map _))
    (fun c hc => hrange c (hsub.subset hc)) hc he
  obtain ⟨-, fetcher, reason, rfl⟩ := hfailed (by simp) hfirst
  have hsnapshot := hfetches.sameSnapshot
  have hpackages : (s.cycle force inTurn order).1.index.packages = s.index.packages := by
    unfold Index.packages
    rw [hsnapshot.entries_eq]
  refine ⟨⟨fetcher, reason, hresult, hfirst⟩, finished_of_told htold, hpackages,
    congrArg List.length hsnapshot.entries_eq, hsnapshot.get?_eq, ?_, fun c hc hne => ?_, ?_⟩
  · unfold Index.names
    rw [hpackages]
  · cases hc' : c.result with
    | error e => exact (hfailed hc hc').1
    | ok u => exact absurd hc' hne
  · rintro rfl c hc
    refine hfetches.spared hkeys fun c' hc' => ?_
    rw [List.append_cons, List.map_append, List.nodup_append] at hnodup
    exact hnodup.2.2 _ (List.mem_map_of_mem hc') _ (List.mem_map_of_mem hc)

/-! ### A fetcher that gets nothing -/

/-- A fetcher whose source breaks off after the first package. -/
def breakingOff : Fetch.Fetcher where
  decl := ⟨"list", "alpine", ["down"]⟩
  source.fetch := fun _ =>
    .add { name := ⟨"alpine", "zlib", "1", "", false⟩ } fun _ => .fail (.notFound "list")

/-- The fetcher that breaks off and one that finds a package, over an empty cache. -/
def halfDown : Stock where
  index := (({} : Index).addFetcher breakingOff).addFetcher (Fetch.Fetcher.listing ["b"] "curl")
  store := Fetch.Fetcher.emptyStore

theorem halfDown_keys : breakingOff.key ≠ (Fetch.Fetcher.listing ["b"] "curl").key := by
  decide +kernel

theorem halfDown_fails : (halfDown.fetch 0 true).2 ≠ .ok () := by
  obtain ⟨p, q, hready⟩ := Fetch.Fetcher.emptyStore_ready breakingOff
  obtain ⟨files, -, hfetch⟩ := Fetch.Fetcher.fetch_of_failed hready (.inl rfl) rfl
  have hfirst : halfDown.index.fetchers[0]? = some breakingOff := rfl
  have hstore : halfDown.store = Fetch.Fetcher.emptyStore := rfl
  rw [result_fetch hfirst, hstore, hfetch]
  simp

/-- Whether the two take turns or run together. -/
theorem cycle_failed_halfDown :
    (∃ c ∈ allCalls true halfDown.places halfDown, c.result ≠ .ok ()) ∧
      ∀ inTurn, ∃ before first after,
        CycleFailed halfDown inTurn before first after (halfDown.fetchAll true inTurn) := by
  have hkeys : (halfDown.index.fetchers.map (·.key)).Nodup := by
    simpa [halfDown, Index.addFetcher] using halfDown_keys
  have hplaces : halfDown.places = [0, 1] := rfl
  have hfails : ∃ c ∈ allCalls true halfDown.places halfDown, c.result ≠ .ok () := by
    rw [hplaces]
    exact exists_failure_of_first halfDown_fails
  refine ⟨hfails, fun inTurn => ?_⟩
  have horder : if inTurn then halfDown.places = halfDown.places
      else halfDown.places.Perm halfDown.places := by
    cases inTurn <;> simp
  obtain ⟨heq, before, first, after, -, -, hcycle⟩ :=
    cycle_failed true inTurn hkeys horder hfails
  rw [heq]
  exact ⟨before, first, after, hcycle⟩

end Depot.Stock
