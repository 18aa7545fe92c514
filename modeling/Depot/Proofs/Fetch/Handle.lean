import Depot.Fetch.Source

/-!
# What a handle contains

A handle takes a package if it knows the architectures of all its names and has no package of its
id, and otherwise changes nothing but its log (`add_eq`). So whatever a source does, its handle has
the first package of each id among those that were not refused, in the order in which they were
handed over, with names in order (`contents_of_calls`).
-/

namespace Depot

/-! ## One of each key -/

section

variable {α κ : Type} [BEq κ] (key : α → κ) (l front : List α)

/-- One more element, unless one with its key is there. -/
def addNew (l : List α) (a : α) : List α := if l.any (key · == key a) then l else l ++ [a]

variable [LawfulBEq κ]

/-- What comes to a list comes behind it, and under keys that were not there. -/
theorem foldl_addNew_eq_append :
    ∃ more, l.foldl (addNew key) front = front ++ more ∧
      ∀ a ∈ more, a ∈ l ∧ ∀ b ∈ front, key b ≠ key a := by
  induction l generalizing front with
  | nil => exact ⟨[], by simp⟩
  | cons a rest ih =>
    obtain ⟨more, hmore, hnew⟩ := ih (addNew key front a)
    rw [List.foldl_cons]
    by_cases hthere : front.any (key · == key a) = true
    · have hsame : addNew key front a = front := if_pos hthere
      rw [hsame] at hmore hnew ⊢
      exact ⟨more, hmore, fun b hb => ⟨List.mem_cons_of_mem _ (hnew b hb).1, (hnew b hb).2⟩⟩
    · have hlonger : addNew key front a = front ++ [a] := if_neg hthere
      rw [hlonger] at hmore hnew ⊢
      refine ⟨a :: more, by rw [hmore, List.append_assoc]; rfl, ?_⟩
      refine List.forall_mem_cons.2 ⟨⟨List.mem_cons_self, by simpa using hthere⟩, fun b hb => ?_⟩
      obtain ⟨hmem, hother⟩ := hnew b hb
      exact ⟨List.mem_cons_of_mem _ hmem, fun c hc => hother c (List.mem_append_left _ hc)⟩

theorem exists_key_of_mem {a : α} (h : a ∈ l) :
    ∃ b ∈ l.foldl (addNew key) front, key b = key a := by
  induction l generalizing front with
  | nil => cases h
  | cons c rest ih =>
    rcases List.mem_cons.1 h with rfl | hrest
    · have hthere : ∃ b ∈ addNew key front a, key b = key a := by
        unfold addNew
        split
        · next hany => simpa using hany
        · exact ⟨a, by simp, rfl⟩
      obtain ⟨b, hb, hkey⟩ := hthere
      obtain ⟨more, hmore, -⟩ := foldl_addNew_eq_append key rest (addNew key front a)
      refine ⟨b, ?_, hkey⟩
      rw [List.foldl_cons, hmore]
      exact List.mem_append_left _ hb
    · exact ih _ hrest

theorem foldl_addNew_eq_self (h : ∀ a ∈ l, ∃ b ∈ front, key b = key a) :
    l.foldl (addNew key) front = front := by
  obtain ⟨more, hmore, hnew⟩ := foldl_addNew_eq_append key l front
  cases more with
  | nil => rw [hmore, List.append_nil]
  | cons a rest =>
    obtain ⟨hmem, hother⟩ := hnew a List.mem_cons_self
    obtain ⟨b, hb, hkey⟩ := h a hmem
    exact absurd hkey (hother b hb)

theorem nodup_foldl_addNew (h : (front.map key).Nodup) :
    ((l.foldl (addNew key) front).map key).Nodup := by
  induction l generalizing front with
  | nil => exact h
  | cons a rest ih =>
    refine ih _ ?_
    unfold addNew
    split
    · exact h
    · next hnew =>
      rw [List.map_append, List.nodup_append]
      refine ⟨h, by simp, ?_⟩
      simpa using hnew

/-- Of elements whose keys differ, those come to a list whose keys are not there. -/
theorem foldl_addNew_eq_filter (h : (l.map key).Nodup) :
    l.foldl (addNew key) front = front ++ l.filter fun a => front.all (key · != key a) := by
  induction l generalizing front with
  | nil => simp
  | cons a rest ih =>
    obtain ⟨ha, hrest⟩ := List.nodup_cons.1 h
    rw [List.foldl_cons, ih _ hrest]
    by_cases hthere : front.any (key · == key a) = true
    · have hsame : addNew key front a = front := if_pos hthere
      have hall : (front.all (key · != key a)) = false := by
        simpa [bne] using List.any_eq_true.1 hthere
      rw [hsame, List.filter_cons_of_neg (by simp [hall])]
    · have hlonger : addNew key front a = front ++ [a] := if_neg hthere
      have hall : front.all (key · != key a) = true := by simpa [bne] using hthere
      have hother : ∀ b ∈ rest, (front ++ [a]).all (key · != key b) =
          front.all (key · != key b) := by
        intro b hb
        have hne : key a ≠ key b := fun heq => ha (heq ▸ List.mem_map_of_mem hb)
        simp [hne]
      have hfirst : (a :: rest).filter (fun b => front.all (key · != key b)) =
          a :: rest.filter fun b => front.all (key · != key b) := List.filter_cons_of_pos hall
      rw [hlonger, List.filter_congr hother, hfirst, List.append_assoc]
      rfl

end

namespace Fetch.Handle

variable {h : Handle} {d : Decl} {pledged : Bool} {p : Package} {n : Package.Name}
  {names seen : List Package.Name}

/-! ## Names -/

/-- A name with its version in canonical form, where that is promised and the version has one. -/
def canonicalized (pledged : Bool) (n : Package.Name) : Package.Name :=
  if pledged && !n.version.isEmpty then
    { n with version := (Version.canonical n.version).toOption.getD n.version }
  else n

/-- A name as a handle keeps it. -/
def settled (d : Decl) (pledged : Bool) (n : Package.Name) : Package.Name :=
  canonicalized pledged (stamp d n)

/-- The names without those that were seen before. -/
def distinct (seen : List Package.Name) : List Package.Name → List Package.Name
  | [] => []
  | a :: rest =>
    if seen.contains a then distinct seen rest else a :: distinct (a :: seen) rest

/-- Refuses the first name whose architecture is unknown. -/
def checkAll : List Package.Name → Outcome Unit
  | [] => .ok ()
  | n :: rest =>
    match Package.checkArchitecture n.architecture with
    | .ok () => checkAll rest
    | .error e => .error e

theorem architecture_stamp : (stamp d n).architecture = n.architecture := by
  unfold stamp
  split <;> rfl

theorem architecture_settled : (settled d pledged n).architecture = n.architecture := by
  refine Eq.trans ?_ (architecture_stamp (d := d))
  unfold settled canonicalized
  split <;> rfl

theorem distribution_settled (hd : d.distribution ≠ "") :
    (settled d pledged n).distribution ≠ "" := by
  have hstamp : (stamp d n).distribution ≠ "" := by
    unfold stamp
    split
    · exact hd
    · next hown => exact fun hempty => hown (String.isEmpty_iff.2 hempty)
  unfold settled canonicalized
  split <;> exact hstamp

theorem version_settled {c : String} (h : Version.canonical n.version = .ok c) :
    (settled d true n).version = c := by
  have hstamp : (stamp d n).version = n.version := by
    unfold stamp
    split <;> rfl
  have hne : n.version.isEmpty = false := by
    refine Bool.eq_false_iff.2 fun hempty => ?_
    rw [String.isEmpty_iff.1 hempty] at h
    cases h
  simp [settled, canonicalized, hstamp, hne, h, Except.toOption]

theorem mem_seen_or_distinct {n : Package.Name} {names : List Package.Name} (hn : n ∈ names)
    (seen : List Package.Name) : n ∈ seen ∨ n ∈ distinct seen names := by
  induction names generalizing seen with
  | nil => cases hn
  | cons a rest ih =>
    unfold distinct
    split
    · next hseen =>
      rcases List.mem_cons.1 hn with rfl | hrest
      · exact .inl (List.contains_iff_mem.1 hseen)
      · exact ih hrest seen
    · rcases List.mem_cons.1 hn with rfl | hrest
      · exact .inr List.mem_cons_self
      · rcases ih hrest (a :: seen) with hseen | hmem
        · rcases List.mem_cons.1 hseen with rfl | hseen
          · exact .inr List.mem_cons_self
          · exact .inl hseen
        · exact .inr (List.mem_cons_of_mem _ hmem)

theorem distinct_sublist (seen names : List Package.Name) :
    (distinct seen names).Sublist names := by
  induction names generalizing seen with
  | nil => exact .slnil
  | cons a rest ih =>
    unfold distinct
    split
    · exact (ih seen).cons a
    · exact (ih (a :: seen)).cons_cons a

theorem nodup_distinct (seen names : List Package.Name) :
    (distinct seen names).Nodup ∧ ∀ n ∈ distinct seen names, n ∉ seen := by
  induction names generalizing seen with
  | nil => exact ⟨List.nodup_nil, by simp [distinct]⟩
  | cons a rest ih =>
    unfold distinct
    split
    · exact ih seen
    · next hnew =>
      obtain ⟨hnodup, hapart⟩ := ih (a :: seen)
      refine ⟨List.nodup_cons.2 ⟨fun ha => hapart a ha List.mem_cons_self, hnodup⟩, ?_⟩
      refine List.forall_mem_cons.2 ⟨by simpa using hnew, fun n hn hseen => ?_⟩
      exact hapart n hn (List.mem_cons_of_mem _ hseen)

/-! ## One call -/

theorem canonicalize_eq (h : Handle) (n : Package.Name) :
    ∃ log, h.canonicalize n = ({ h with log }, canonicalized h.pledged n) := by
  unfold canonicalize canonicalized
  split
  · cases Version.canonical n.version with
    | ok version => exact ⟨h.log, rfl⟩
    | error e => exact ⟨_, rfl⟩
  · exact ⟨h.log, rfl⟩

theorem validate_eq (h : Handle) (n : Package.Name) :
    ∃ log, h.validate n = ({ h with log },
      (Package.checkArchitecture n.architecture).map fun _ => settled h.decl h.pledged n) := by
  unfold validate
  simp only [architecture_stamp]
  cases Package.checkArchitecture n.architecture with
  | error e => exact ⟨h.log, rfl⟩
  | ok u =>
    obtain ⟨log, hcanonical⟩ := h.canonicalize_eq (stamp h.decl n)
    exact ⟨log, by rw [hcanonical]; rfl⟩

theorem eq_settled_of_validate {n' : Package.Name} (hn : (h.validate n).2 = .ok n') :
    n' = settled h.decl h.pledged n := by
  obtain ⟨log, hvalidate⟩ := h.validate_eq n
  rw [hvalidate] at hn
  cases hcheck : Package.checkArchitecture n.architecture with
  | error e => rw [hcheck] at hn; cases hn
  | ok u =>
    rw [hcheck] at hn
    exact (Except.ok.inj hn).symm

theorem validateAliases_eq (h : Handle) (seen aliases : List Package.Name) :
    ∃ log, h.validateAliases seen aliases = ({ h with log },
      (checkAll aliases).map fun _ => distinct seen (aliases.map (settled h.decl h.pledged))) := by
  induction aliases generalizing h seen with
  | nil => exact ⟨h.log, rfl⟩
  | cons a rest ih =>
    obtain ⟨log, hvalidate⟩ := h.validate_eq a
    unfold validateAliases checkAll
    rw [hvalidate]
    cases Package.checkArchitecture a.architecture with
    | error e => exact ⟨log, rfl⟩
    | ok u =>
      simp only [Except.map, List.map_cons, distinct]
      split
      · exact ih { h with log } seen
      · obtain ⟨log', hrest⟩ := ih { h with log } (settled h.decl h.pledged a :: seen)
        refine ⟨log', ?_⟩
        rw [hrest]
        cases checkAll rest <;> rfl

/-! ## Packages -/

/-- A package as a handle keeps it, as long as no semantic versions are promised. -/
def kept (d : Decl) (p : Package) : Package :=
  { p with name := stamp d p.name
           aliases := distinct [stamp d p.name] (p.aliases.map (stamp d)) }

/-- All architectures of the package's names are known. -/
def Known (p : Package) : Prop :=
  ∀ n ∈ p.names, Package.checkArchitecture n.architecture = .ok ()

/-- A package as a handle keeps it. -/
def keptAs (d : Decl) (pledged : Bool) (p : Package) : Package :=
  { p with name := settled d pledged p.name
           aliases := distinct [settled d pledged p.name] (p.aliases.map (settled d pledged)) }

/-- The names of a package in a handle of a declaration: their architectures are known, they have a
distribution if the declaration has one, and no two of them are the same. -/
structure Tidy (d : Decl) (p : Package) : Prop where
  known : ∀ n ∈ p.names, n.architecture ∈ Package.architectures
  placed : d.distribution ≠ "" → ∀ n ∈ p.names, n.distribution ≠ ""
  nodup : p.names.Nodup

theorem checkArchitecture_eq_ok_iff {architecture : String} :
    Package.checkArchitecture architecture = .ok () ↔ architecture ∈ Package.architectures := by
  simp [Package.checkArchitecture]

theorem checkAll_eq_ok_iff :
    checkAll names = .ok () ↔ ∀ n ∈ names, Package.checkArchitecture n.architecture = .ok () := by
  induction names with
  | nil => simp [checkAll]
  | cons n rest ih =>
    unfold checkAll
    rw [List.forall_mem_cons]
    cases Package.checkArchitecture n.architecture with
    | error e => simp
    | ok u => simpa using ih

theorem exists_of_checkAll_eq_error {e : Failure} (h : checkAll names = .error e) :
    ∃ n ∈ names, n.architecture ∉ Package.architectures ∧
      e = .invalidArchitecture n.architecture := by
  induction names with
  | nil => cases h
  | cons n rest ih =>
    unfold checkAll Package.checkArchitecture at h
    by_cases hn : Package.architectures.contains n.architecture = true
    · obtain ⟨m, hm, hfails⟩ := ih (by simpa only [hn, if_true] using h)
      exact ⟨m, List.mem_cons_of_mem _ hm, hfails⟩
    · simp only [hn] at h
      exact ⟨n, List.mem_cons_self, by simpa using hn, (Except.error.inj h).symm⟩

instance : DecidablePred Known := fun p =>
  decidable_of_iff (∀ n ∈ p.names, n.architecture ∈ Package.architectures)
    (forall₂_congr fun _ _ => checkArchitecture_eq_ok_iff.symm)

theorem keptAs_of_not_pledged (h : pledged = false) : keptAs d pledged p = kept d p := by
  rw [h]
  rfl

theorem names_keptAs :
    (keptAs d pledged p).names = distinct [] (p.names.map (settled d pledged)) := by
  simp [keptAs, Package.names, distinct]

theorem tidy_keptAs (hp : Known p) : Tidy d (keptAs d pledged p) := by
  have hnames : ∀ n ∈ (keptAs d pledged p).names, ∃ m ∈ p.names, settled d pledged m = n := by
    rw [names_keptAs]
    exact fun n hn => List.mem_map.1 ((distinct_sublist _ _).subset hn)
  refine ⟨fun n hn => ?_, fun hd n hn => ?_, ?_⟩
  · obtain ⟨m, hm, rfl⟩ := hnames n hn
    rw [architecture_settled]
    exact checkArchitecture_eq_ok_iff.1 (hp m hm)
  · obtain ⟨m, -, rfl⟩ := hnames n hn
    exact distribution_settled hd
  · rw [names_keptAs]
    exact (nodup_distinct _ _).1

theorem contains_ids (h : Handle) (id : String) :
    h.ids.contains id = h.packages.any (·.id == id) := by
  rw [h.ids_eq, Bool.eq_iff_iff]
  simp

theorem push_packages_of_ids :
    (h.push p).packages = if p.id ∈ h.ids then h.packages else h.packages ++ [p] := by
  unfold push
  simp only [List.contains_iff_mem]
  split <;> rfl

theorem push_packages : (h.push p).packages = addNew Package.id h.packages p := by
  unfold push addNew
  rw [contains_ids]
  split <;> rfl

theorem push_decl : (h.push p).decl = h.decl := by
  unfold push
  split <;> rfl

theorem push_pledged : (h.push p).pledged = h.pledged := by
  unfold push
  split <;> rfl

theorem add_eq (h : Handle) (p : Package) :
    ∃ log, h.add p = match checkAll p.names with
      | .ok () => (({ h with log } : Handle).push (keptAs h.decl h.pledged p), .ok ())
      | .error e => ({ h with log }, .error e) := by
  obtain ⟨log, hname⟩ := h.validate_eq p.name
  unfold add Package.names checkAll
  rw [hname]
  cases Package.checkArchitecture p.name.architecture with
  | error e => exact ⟨log, rfl⟩
  | ok u =>
    obtain ⟨log', haliases⟩ :=
      ({ h with log } : Handle).validateAliases_eq [settled h.decl h.pledged p.name] p.aliases
    refine ⟨log', ?_⟩
    simp only [Except.map]
    rw [haliases]
    cases checkAll p.aliases <;> rfl

/-- A package with known architectures is taken, if it is the first of its id. -/
theorem add_of_known (h : Handle) (hp : Known p) :
    ∃ log, h.add p =
      (({ h with log } : Handle).push (keptAs h.decl h.pledged p), .ok ()) := by
  obtain ⟨log, hadd⟩ := h.add_eq p
  exact ⟨log, by rw [hadd, checkAll_eq_ok_iff.2 hp]⟩

/-- A package with an unknown architecture is refused for it. -/
theorem add_of_not_known (h : Handle) (hp : ¬ Known p) :
    ∃ log, ∃ n ∈ p.names, n.architecture ∉ Package.architectures ∧
      h.add p = ({ h with log }, .error (.invalidArchitecture n.architecture)) := by
  obtain ⟨log, hadd⟩ := h.add_eq p
  cases hcheck : checkAll p.names with
  | ok u => exact absurd (checkAll_eq_ok_iff.1 hcheck) hp
  | error e =>
    obtain ⟨n, hn, hunknown, rfl⟩ := exists_of_checkAll_eq_error hcheck
    exact ⟨log, n, hn, hunknown, by rw [hadd, hcheck]⟩

theorem known_of_add {h' : Handle} (hadd : h.add p = (h', .ok ())) : Known p := by
  refine Decidable.byContradiction fun hp => ?_
  obtain ⟨log, n, -, -, hrefused⟩ := h.add_of_not_known hp
  rw [hadd] at hrefused
  cases hrefused

/-! ## Calls -/

/-- What a source can do to its handle. -/
inductive Call where
  | line (message : String)
  | count (condition : String)
  | pledge
  | name (name version architecture : String)
  | add (p : Package)

namespace Call

/-- The handle after a call, whatever the answer is. -/
def perform (h : Handle) : Call → Handle
  | line message => h.line message
  | count condition => h.count condition
  | pledge => h.pledge
  | name n version architecture => (h.name n version architecture).1
  | add p => (h.add p).1

/-- Are semantic versions promised after a call, when `pledged` says so of the time before it? -/
def pledges (pledged : Bool) : Call → Bool
  | pledge => true
  | _ => pledged

/-- The package that a call hands over, unless it is refused. -/
def accepted (d : Decl) (pledged : Bool) : Call → List Package
  | add p => if Known p then [keptAs d pledged p] else []
  | _ => []

end Call

/-- A handle after some calls. -/
def after (h : Handle) (calls : List Call) : Handle := calls.foldl Call.perform h

/-- The packages that some calls hand over, in the order of the calls, less those that are
refused. -/
def accepted (d : Decl) : Bool → List Call → List Package
  | _, [] => []
  | pledged, call :: rest => call.accepted d pledged ++ accepted d (call.pledges pledged) rest

/-- A handle that has been handed some packages, and whether semantic versions are promised now. -/
structure Handed (h : Handle) (packages : List Package) (pledged : Bool) (h' : Handle) : Prop where
  decl : h'.decl = h.decl
  pledged : h'.pledged = pledged
  packages : h'.packages = packages.foldl (addNew Package.id) h.packages

theorem handed_perform (h : Handle) (call : Call) :
    Handed h (call.accepted h.decl h.pledged) (call.pledges h.pledged) (call.perform h) := by
  cases call with
  | line message => exact ⟨rfl, rfl, rfl⟩
  | count condition => exact ⟨rfl, rfl, rfl⟩
  | pledge => exact ⟨rfl, rfl, rfl⟩
  | name n version architecture =>
    obtain ⟨log, hname⟩ := h.validate_eq ⟨h.decl.distribution, n, version, architecture, false⟩
    have hperform : (Call.name n version architecture).perform h = { h with log } :=
      congrArg Prod.fst hname
    rw [hperform]
    exact ⟨rfl, rfl, rfl⟩
  | add p =>
    by_cases hp : Known p
    · obtain ⟨log, hadd⟩ := h.add_of_known hp
      rw [Call.perform, hadd, Call.accepted, if_pos hp]
      exact ⟨push_decl, push_pledged, push_packages⟩
    · obtain ⟨log, n, -, -, hadd⟩ := h.add_of_not_known hp
      rw [Call.perform, hadd, Call.accepted, if_neg hp]
      exact ⟨rfl, rfl, rfl⟩

theorem handed_after (h : Handle) (calls : List Call) :
    Handed h (accepted h.decl h.pledged calls) (calls.foldl Call.pledges h.pledged)
      (h.after calls) := by
  induction calls generalizing h with
  | nil => exact ⟨rfl, rfl, rfl⟩
  | cons call rest ih =>
    have hcall := h.handed_perform call
    have hrest := ih (call.perform h)
    rw [hcall.decl, hcall.pledged] at hrest
    refine ⟨hrest.decl.trans hcall.decl, hrest.pledged, ?_⟩
    rw [accepted, List.foldl_append, ← hcall.packages]
    exact hrest.packages

theorem tidy_of_mem_accepted {calls : List Call} (hp : p ∈ accepted d pledged calls) :
    Tidy d p := by
  induction calls generalizing pledged with
  | nil => cases hp
  | cons call rest ih =>
    rcases List.mem_append.1 hp with hcall | hrest
    · cases call with
      | add q =>
        by_cases hq : Known q
        · rw [Call.accepted, if_pos hq] at hcall
          obtain rfl := List.mem_singleton.1 hcall
          exact tidy_keptAs hq
        · rw [Call.accepted, if_neg hq] at hcall
          cases hcall
      | _ => cases hcall
    · exact ih hrest

theorem prefix_after (h : Handle) (calls : List Call) :
    h.packages <+: (h.after calls).packages ∧ h.ids <+: (h.after calls).ids := by
  obtain ⟨more, hmore, -⟩ :=
    foldl_addNew_eq_append Package.id (accepted h.decl h.pledged calls) h.packages
  have hpackages : h.packages <+: (h.after calls).packages := by
    rw [(h.handed_after calls).packages, hmore]
    exact List.prefix_append _ _
  rw [h.ids_eq, (h.after calls).ids_eq]
  exact ⟨hpackages, hpackages.map _⟩

/-- What a source does comes to some calls. -/
theorem exists_calls_of_run (h : Handle) (script : Script) :
    ∃ calls, (script.run h).1 = h.after calls := by
  induction script generalizing h with
  | done => exact ⟨[], rfl⟩
  | fail e => exact ⟨[], rfl⟩
  | line message next ih =>
    obtain ⟨calls, hcalls⟩ := ih (h.line message)
    exact ⟨.line message :: calls, hcalls⟩
  | count condition next ih =>
    obtain ⟨calls, hcalls⟩ := ih (h.count condition)
    exact ⟨.count condition :: calls, hcalls⟩
  | pledge next ih =>
    obtain ⟨calls, hcalls⟩ := ih h.pledge
    exact ⟨.pledge :: calls, hcalls⟩
  | look next ih => exact ih h.packages h
  | name n version architecture next ih =>
    obtain ⟨calls, hcalls⟩ := ih _ (h.name n version architecture).1
    exact ⟨.name n version architecture :: calls, hcalls⟩
  | add p next ih =>
    obtain ⟨calls, hcalls⟩ := ih _ (h.add p).1
    exact ⟨.add p :: calls, hcalls⟩

/-- Whatever is called on a handle, in any order and with any failures: it contains the packages
that were not refused, in the order of the calls, each as the promise stood by then, and of each id
the first. The names of each of them are in order, and later calls, which are all that a source can
do, only add packages at the end. A package is refused exactly if one of its architectures is
unknown, and then nothing is taken. -/
theorem contents_of_calls (d : Decl) (calls : List Call) :
    let h := ({ decl := d } : Handle).after calls
    h.packages = (accepted d false calls).foldl (addNew Package.id) [] ∧
      (h.packages.map Package.id).Nodup ∧ (∀ p ∈ h.packages, Tidy d p) ∧
      (∀ further, h.packages <+: (h.after further).packages ∧ h.ids <+: (h.after further).ids) ∧
      (∀ script : Script, ∃ further, (script.run h).1 = h.after further) ∧
      ∀ p,
        (Known p → (h.add p).2 = .ok () ∧ (h.add p).1.packages =
          if (keptAs d h.pledged p).id ∈ h.ids then h.packages
          else h.packages ++ [keptAs d h.pledged p]) ∧
        (¬ Known p → (∃ n ∈ p.names, n.architecture ∉ Package.architectures ∧
            (h.add p).2 = .error (.invalidArchitecture n.architecture)) ∧
          (h.add p).1.packages = h.packages ∧ (h.add p).1.ids = h.ids) := by
  intro h
  obtain ⟨hdecl, -, hpackages⟩ := ({ decl := d } : Handle).handed_after calls
  refine ⟨hpackages, ?_, fun p hp => ?_, h.prefix_after, fun script => h.exists_calls_of_run script,
    fun p => ⟨fun hp => ?_, fun hp => ?_⟩⟩
  · rw [hpackages]
    exact nodup_foldl_addNew _ _ _ List.nodup_nil
  · obtain ⟨more, hmore, hmem⟩ := foldl_addNew_eq_append Package.id (accepted d false calls) []
    rw [hpackages, hmore] at hp
    exact tidy_of_mem_accepted (hmem p hp).1
  · obtain ⟨log, hadd⟩ := h.add_of_known hp
    rw [hadd, show h.decl = d from hdecl]
    exact ⟨rfl, push_packages_of_ids⟩
  · obtain ⟨log, n, hn, hunknown, hadd⟩ := h.add_of_not_known hp
    rw [hadd]
    exact ⟨⟨n, hn, hunknown, rfl⟩, rfl, rfl⟩

/-! ### A promise made late -/

/-- A package with an alias that repeats its name, and another one. -/
def marked (version : String) : Package where
  name := ⟨"", "zlib", version, "", false⟩
  aliases := [⟨"alpine", "zlib", version, "", false⟩, ⟨"", "libz", "", "any", false⟩]

/-- A package with an alias for an architecture that nobody knows. -/
def strange : Package where
  name := ⟨"", "curl", "1", "", false⟩
  aliases := [⟨"", "libcurl", "", "amd64", false⟩]

/-- One version before semantic versions are promised, and twice after that, under two spellings. -/
def lateCalls : List Call :=
  [.add (marked "v1.02"), .pledge, .add strange, .add (marked "v1.02"), .add (marked "1.2.0")]

/-- The handle after these calls. -/
def late : Handle := ({ decl := ⟨"list", "alpine", []⟩ } : Handle).after lateCalls

/-- The second spelling changes nothing, nor does the package that is refused. -/
theorem contents_of_late :
    late.packages.map Package.id = ["alpine/zlib@v1.02:", "alpine/zlib@1.2.0:"] ∧
      (∀ p ∈ late.packages, p.aliases = [⟨"alpine", "libz", "", "any", false⟩]) ∧
      Known (marked "1.2") ∧ (late.add (marked "1.2")).1.packages = late.packages ∧
      ¬ Known strange ∧ (late.add strange).2 = .error (.invalidArchitecture "amd64") ∧
      (late.add strange).1.packages = late.packages := by
  have hlate : ({ decl := ⟨"list", "alpine", []⟩ } : Handle).after lateCalls = late := rfl
  obtain ⟨-, -, -, -, -, hadd⟩ := contents_of_calls ⟨"list", "alpine", []⟩ lateCalls
  rw [hlate] at hadd
  have hmarked : Known (marked "1.2") := by decide +kernel
  have hstrange : ¬ Known strange := by decide +kernel
  have hids : (keptAs ⟨"list", "alpine", []⟩ late.pledged (marked "1.2")).id ∈ late.ids := by
    decide +kernel
  obtain ⟨-, htaken⟩ := (hadd (marked "1.2")).1 hmarked
  obtain ⟨⟨n, hn, hunknown, hrefused⟩, hkept, -⟩ := (hadd strange).2 hstrange
  have halias : n.architecture = "amd64" := by
    rcases List.mem_cons.1 hn with rfl | halias
    · exact absurd (by decide) hunknown
    · rw [List.mem_singleton.1 halias]
  rw [if_pos hids] at htaken
  rw [halias] at hrefused
  exact ⟨by decide +kernel, by decide +kernel, hmarked, htaken, hstrange, hrefused, hkept⟩

end Fetch.Handle

end Depot
