import Depot.Fetch.JsonIndex
import Depot.Proofs.Fetch.Handle

/-!
# What index files hand over

Index files come to a list of records, or they cannot be read at all (`records?`). If they cannot,
every use of the source fails. If they can, and the records that a use is after have known
architectures, it hands over these records in their order, each as the handle keeps it
(`run_ofLocations`), and it ends well in no other case (`exists_records_of_run`). Of packages with
the same id the handle keeps the first.
-/

namespace Depot.Fetch

/-! ## Packages in a handle -/

namespace Handle

variable {h : Handle} {p : Package}

/-- What satisfies a query in a handle does so by the name of the record or by one of its
aliases. -/
theorem satisfies_kept_iff {d : Decl} {query : Package.Name} :
    (kept d p).satisfies query = true ↔
      (stamp d p.name).satisfies query = true ∨
        ∃ a ∈ p.aliases, (stamp d a).satisfies query = true := by
  constructor
  · intro h
    obtain ⟨n, hn, hsatisfies⟩ := List.any_eq_true.1 h
    rcases List.mem_cons.1 hn with rfl | halias
    · exact .inl hsatisfies
    · obtain ⟨a, ha, rfl⟩ := List.mem_map.1 ((distinct_sublist _ _).subset halias)
      exact .inr ⟨a, ha, hsatisfies⟩
  · rintro (hname | ⟨a, ha, hsatisfies⟩) <;> refine List.any_eq_true.2 ?_
    · exact ⟨_, List.mem_cons_self, hname⟩
    · -- an alias that repeats the name is dropped, but then the name satisfies the query
      rcases mem_seen_or_distinct (List.mem_map_of_mem (f := stamp d) ha) [stamp d p.name] with
        hsame | hmem
      · refine ⟨stamp d p.name, List.mem_cons_self, ?_⟩
        rw [← List.mem_singleton.1 hsame]
        exact hsatisfies
      · exact ⟨_, List.mem_cons_of_mem _ hmem, hsatisfies⟩

theorem satisfies_stamp {d : Decl} {n query : Package.Name} (h : n.satisfies query = true) :
    (stamp d n).satisfies query = true := by
  unfold stamp
  split
  · next hempty =>
    have hquery : query.distribution.isEmpty = true := by
      simp only [Package.Name.satisfies, Package.Name.partAccepts, String.isEmpty_iff.1 hempty,
        Bool.and_eq_true, Bool.or_eq_true, beq_iff_eq] at h
      exact h.1.1.1.elim id fun h => by rw [h]; rfl
    simp only [Package.Name.satisfies, Package.Name.partAccepts, hquery] at h ⊢
    simpa using h
  · exact h

end Handle

/-! ## Records -/

namespace JsonIndex

variable {site : Site} {keep : Package → Bool} {records : List Package}

/-- The records on some lines, unless one of them is malformed. -/
def recordsOn? : List (List Char) → Option (List Package)
  | [] => some []
  | line :: rest =>
    if Text.allBlank line then recordsOn? rest
    else
      match Package.ofText? (String.ofList line) with
      | none => none
      | some p => (recordsOn? rest).map (p :: ·)

/-- The records at some locations, unless one of them cannot be read. -/
def records? (site : Site) : List String → Option (List Package)
  | [] => some []
  | location :: rest =>
    match textAt site location with
    | .error _ => none
    | .ok text =>
      match recordsOn? (text.toList.splitOn '\n') with
      | none => none
      | some here => (records? site rest).map (here ++ ·)

/-- What is handed over for a query satisfies it when it is kept. -/
theorem satisfies_of_keeps {d : Decl} {query : Package.Name} {p : Package}
    (h : keeps d query p = true) : (Handle.kept d p).satisfies query = true := by
  obtain ⟨n, hn, hsatisfies⟩ := List.any_eq_true.1 h
  refine Handle.satisfies_kept_iff.2 ?_
  rcases List.mem_cons.1 hn with rfl | halias
  · exact .inl hsatisfies
  · exact .inr ⟨n, halias, Handle.satisfies_stamp hsatisfies⟩

/-- A handle that has taken some packages, whatever it has logged. -/
structure Took (h : Handle) (packages : List Package) (h' : Handle) : Prop where
  decl : h'.decl = h.decl
  pledged : h'.pledged = h.pledged
  packages : h'.packages =
    (packages.map (Handle.kept h.decl)).foldl (addNew Package.id) h.packages

theorem Took.cons {h h' : Handle} {log : Log} {p : Package} {packages : List Package}
    (h₁ : Took (({ h with log } : Handle).push (Handle.kept h.decl p)) packages h') :
    Took h (p :: packages) h' := by
  obtain ⟨hdecl, hpledged, hpackages⟩ := h₁
  rw [Handle.push_decl] at hdecl hpackages
  rw [Handle.push_packages] at hpackages
  exact ⟨hdecl, hpledged.trans Handle.push_pledged, hpackages⟩

theorem Took.trans {h h' h'' : Handle} {packages packages' : List Package}
    (h₁ : Took h packages h') (h₂ : Took h' packages' h'') :
    Took h (packages ++ packages') h'' := by
  refine ⟨h₂.decl.trans h₁.decl, h₂.pledged.trans h₁.pledged, ?_⟩
  rw [h₂.packages, h₁.packages, h₁.decl, List.map_append, List.foldl_append]

theorem run_ofLines (location : String) (next : Script) (number added : Nat)
    {lines : List (List Char)} {h : Handle} (hrecords : recordsOn? lines = some records)
    (hpledged : h.pledged = false)
    (hknown : ∀ p ∈ records, keep p = true → Handle.Known p) :
    ∃ h', (ofLines keep location next number added lines).run h = next.run h' ∧
      Took h (records.filter keep) h' := by
  induction lines generalizing number added h records with
  | nil =>
    obtain rfl := Option.some.inj hrecords
    exact ⟨_, rfl, rfl, rfl, rfl⟩
  | cons line rest ih =>
    unfold recordsOn? at hrecords
    unfold ofLines
    by_cases hblank : Text.allBlank line = true
    · rw [if_pos hblank] at hrecords ⊢
      exact ih _ _ hrecords hpledged hknown
    · rw [if_neg hblank] at hrecords ⊢
      cases hp : Package.ofText? (String.ofList line) with
      | none => simp [hp] at hrecords
      | some p =>
        simp only [hp] at hrecords ⊢
        obtain ⟨more, hmore, rfl⟩ := Option.map_eq_some_iff.1 hrecords
        obtain ⟨hfirst, hrest⟩ := List.forall_mem_cons.1 hknown
        cases hkeep : keep p with
        | true =>
          obtain ⟨log, hadd⟩ := h.add_of_known (hfirst hkeep)
          rw [Handle.keptAs_of_not_pledged hpledged] at hadd
          simp only [if_true, Script.run, hadd]
          obtain ⟨h', hrun, htook⟩ := ih (number + 1) (added + 1)
            (h := ({ h with log } : Handle).push (Handle.kept h.decl p)) hmore
            (Handle.push_pledged.trans hpledged) hrest
          refine ⟨h', hrun, ?_⟩
          rw [List.filter_cons_of_pos hkeep]
          exact htook.cons
        | false =>
          rw [List.filter_cons_of_neg (by simp [hkeep])]
          exact ih _ _ hmore hpledged hrest

/-- Index files that can be read hand over what is wanted of their records. -/
theorem run_ofLocations (keep : Package → Bool) {locations : List String} {h : Handle}
    (hrecords : records? site locations = some records) (hpledged : h.pledged = false)
    (hknown : ∀ p ∈ records, keep p = true → Handle.Known p) :
    ∃ h', (ofLocations site keep locations).run h = (h', .ok ()) ∧
      Took h (records.filter keep) h' := by
  induction locations generalizing h records with
  | nil =>
    obtain rfl := Option.some.inj hrecords
    exact ⟨h, rfl, rfl, rfl, rfl⟩
  | cons location rest ih =>
    unfold records? at hrecords
    unfold ofLocations
    cases htext : textAt site location with
    | error e => simp [htext] at hrecords
    | ok text =>
      simp only [htext] at hrecords ⊢
      cases hhere : recordsOn? (text.toList.splitOn '\n') with
      | none => simp [hhere] at hrecords
      | some here =>
        simp only [hhere] at hrecords
        obtain ⟨more, hmore, rfl⟩ := Option.map_eq_some_iff.1 hrecords
        obtain ⟨h₁, hrun₁, htook₁⟩ := run_ofLines location (ofLocations site keep rest) 1 0 hhere
          hpledged fun p hp => hknown p (List.mem_append_left _ hp)
        obtain ⟨h₂, hrun₂, htook₂⟩ := ih hmore (htook₁.pledged.trans hpledged)
          fun p hp => hknown p (List.mem_append_right _ hp)
        refine ⟨h₂, hrun₁.trans hrun₂, ?_⟩
        rw [List.filter_append]
        exact htook₁.trans htook₂

/-- Lines whose use ends well leave it to what comes after them to end well, and no record that is
wanted of them is refused. -/
theorem exists_run_of_ofLines {lines : List (List Char)} {location : String} {next : Script}
    {number added : Nat} {h h' : Handle}
    (hrun : (ofLines keep location next number added lines).run h = (h', .ok ())) :
    ∃ records, recordsOn? lines = some records ∧ (∀ p ∈ records, keep p = true → Handle.Known p) ∧
      ∃ h₁, next.run h₁ = (h', .ok ()) := by
  induction lines generalizing number added h with
  | nil => exact ⟨[], rfl, by simp, _, hrun⟩
  | cons line rest ih =>
    unfold ofLines at hrun
    unfold recordsOn?
    by_cases hblank : Text.allBlank line = true
    · rw [if_pos hblank] at hrun ⊢
      exact ih hrun
    · rw [if_neg hblank] at hrun ⊢
      cases hp : Package.ofText? (String.ofList line) with
      | none => simp [hp, Script.run] at hrun
      | some p =>
        simp only [hp] at hrun ⊢
        by_cases hkeep : keep p = true
        · rw [if_pos hkeep] at hrun
          simp only [Script.run] at hrun
          rcases hadd : h.add p with ⟨h₀, e | u⟩
          · simp [hadd, Script.run] at hrun
          · rw [hadd] at hrun
            obtain ⟨records, hrecords, hknown, hnext⟩ := ih hrun
            refine ⟨p :: records, by rw [hrecords]; rfl, ?_, hnext⟩
            exact List.forall_mem_cons.2 ⟨fun _ => Handle.known_of_add hadd, hknown⟩
        · rw [if_neg hkeep] at hrun
          obtain ⟨records, hrecords, hknown, hnext⟩ := ih hrun
          refine ⟨p :: records, by rw [hrecords]; rfl, ?_, hnext⟩
          exact List.forall_mem_cons.2 ⟨fun h => absurd h hkeep, hknown⟩

/-- A use of index files ends well only if they can be read and none of the records that are wanted
of them is refused. -/
theorem exists_records_of_run {locations : List String} {h h' : Handle}
    (hrun : (ofLocations site keep locations).run h = (h', .ok ())) :
    ∃ records, records? site locations = some records ∧
      ∀ p ∈ records, keep p = true → Handle.Known p := by
  induction locations generalizing h with
  | nil => exact ⟨[], rfl, by simp⟩
  | cons location rest ih =>
    unfold ofLocations at hrun
    unfold records?
    cases htext : textAt site location with
    | error e => simp [htext, Script.run] at hrun
    | ok text =>
      simp only [htext] at hrun ⊢
      obtain ⟨here, hhere, hknown, h₁, hnext⟩ := exists_run_of_ofLines hrun
      obtain ⟨more, hmore, hknown'⟩ := ih hnext
      refine ⟨here ++ more, by simp only [hhere, hmore]; rfl, fun p hp => ?_⟩
      exact (List.mem_append.1 hp).elim (hknown p) (hknown' p)

/-- Index files that cannot be read fail whatever is wanted of them. -/
theorem run_ofLocations_fails (keep : Package → Bool) {locations : List String}
    (hrecords : records? site locations = none) (h : Handle) :
    ∃ h' e, (ofLocations site keep locations).run h = (h', .error e) := by
  rcases hrun : (ofLocations site keep locations).run h with ⟨h', e | u⟩
  · exact ⟨h', e, rfl⟩
  · obtain ⟨records, hsome, -⟩ := exists_records_of_run hrun
    rw [hrecords] at hsome
    cases hsome

/-- A site with a single index file. -/
def shelf (file text : String) : Site := { files := ⟨⟨[([file], .file text.toUTF8 0)]⟩⟩ }

end JsonIndex

end Depot.Fetch
