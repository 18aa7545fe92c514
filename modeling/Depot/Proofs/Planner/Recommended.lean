import Mathlib.Data.List.Forall2
import Depot.Proofs.Planner.Rollback

/-!
# Leaving recommended alternatives out

A plan that leaves out what is only recommended does what any plan does on an index in which nothing
was ever recommended. `essential` takes recommended alternatives out of a package, and so of
entries, of an index and of all that a planner holds. It changes nothing that a search, a choice or
a check for conflicts looks at, and it turns the groups that such a plan skips into groups that are
not there (`meetGroups_essential`). So resolving a request and taking the recommended alternatives
out of its result come to the same in either order (`resolve_essential`).
-/

namespace Depot

/-! ## Tables with other values -/

namespace Table

variable {κ ν μ : Type} [DecidableEq κ] (f : ν → μ)

/-- The table with every value changed. -/
def map (t : Table κ ν) : Table κ μ := ⟨t.entries.map fun (key, value) => (key, f value)⟩

theorem find?_map (key : κ) (l : List (κ × ν)) :
    find? key (l.map fun (k, v) => (k, f v)) = (find? key l).map f := by
  induction l with
  | nil => rfl
  | cons entry rest ih =>
    obtain ⟨k, v⟩ := entry
    by_cases hk : k = key
    · simp [find?, hk]
    · simpa [find?, hk] using ih

theorem put_map (key : κ) (value : ν) (l : List (κ × ν)) :
    put key (f value) (l.map fun (k, v) => (k, f v)) =
      (put key value l).map fun (k, v) => (k, f v) := by
  induction l with
  | nil => rfl
  | cons entry rest ih =>
    obtain ⟨k, v⟩ := entry
    by_cases hk : k = key
    · simp [put, hk]
    · simpa [put, hk] using ih

@[simp] theorem get?_map (t : Table κ ν) (key : κ) : (t.map f).get? key = (t.get? key).map f :=
  find?_map f key t.entries

theorem map_insert (t : Table κ ν) (key : κ) (value : ν) :
    (t.insert key value).map f = (t.map f).insert key (f value) :=
  congrArg Table.mk (put_map f key value t.entries).symm

end Table

/-! ## Without recommended alternatives -/

namespace Package

/-- The alternatives of a group that are not only recommended. -/
def required (group : List Name) : List Name := group.filter fun option => !option.recommended

/-- Groups without their recommended alternatives. A group that had no others is gone; one that was
empty to begin with stays. -/
def requiredGroups (groups : List (List Name)) : List (List Name) :=
  (groups.filter fun group => group.isEmpty || !(required group).isEmpty).map required

/-- The package as if it had never recommended anything. -/
def essential (p : Package) : Package := { p with depends := requiredGroups p.depends }

end Package

namespace Index

/-- The same entry, of a package that never recommended anything. -/
def Entry.essential (e : Entry) : Entry := { e with package := e.package.essential }

section

variable (e : Entry) (query : Package.Name)

@[simp] theorem Entry.essential_name : e.essential.name = e.name := rfl
@[simp] theorem Entry.essential_id : e.essential.id = e.id := rfl
@[simp] theorem Entry.essential_origin : e.essential.origin = e.origin := rfl
@[simp] theorem Entry.essential_satisfies : e.essential.satisfies query = e.satisfies query := rfl

end

/-- The index in which nothing was ever recommended. -/
def essential (ix : Index) : Index :=
  { ix with fetchers := ix.fetchers.map fun f => { f with packages := f.packages.map (·.essential) }
            slots := ix.slots.map fun slot => slot.map Entry.essential
            byId := ix.byId.map Entry.essential }

end Index

/-- An edge between entries that never recommended anything. -/
def Plan.essentialEdge (edge : Option Index.Entry × Index.Entry) :
    Option Index.Entry × Index.Entry :=
  (edge.1.map Index.Entry.essential, edge.2.essential)

/-- The plan that would be there if nothing had ever been recommended, so that nothing has to be
left out. -/
def Plan.essential (p : Plan) : Plan :=
  { p with options := { p.options with excludeRecommends := false }
           installedEntries := p.installedEntries.map Index.Entry.essential
           picked := p.picked.map Index.Entry.essential
           packages := p.packages.map Index.Entry.essential
           edges := p.edges.map essentialEdge }

/-- The failure as it is reported where nothing was ever recommended. -/
def Failure.essential : Failure → Failure
  | .noCandidate package options => .noCandidate package (Package.required options)
  | e => e

/-- The result of a request where nothing was ever recommended. -/
def Plan.essentialOutcome : Outcome (List Index.Entry) → Outcome (List Index.Entry)
  | .ok added => .ok (added.map Index.Entry.essential)
  | .error e => .error e.essential

namespace Planner

open Plan (Resolution)

/-- The planner as it would be if nothing had ever been recommended. -/
def essential (s : Planner) : Planner := ⟨s.index.essential, s.plan.essential⟩

/-! ## What looks the same -/

section

variable (ix : Index) (p : Plan) (o : Plan.Options) (query : Package.Name) (e : Index.Entry)
  (l : List Index.Entry)

theorem scan_essential : ix.essential.scan query = (ix.scan query).map Index.Entry.essential := by
  unfold Index.scan Index.essential
  rw [List.zip_map, List.filter_map, List.flatMap_map, List.map_flatMap]
  congr 1
  funext pair
  exact List.filter_map

theorem search_essential (h : ix.providers = []) (site : Site) :
    ix.essential.search site query 0 =
      (ix.essential, .ok ((ix.scan query).map Index.Entry.essential)) := by
  rw [Index.search_eq_scan (show ix.essential.providers = [] from h), scan_essential]
  rfl

theorem choose?_essential :
    Plan.choose? { o with excludeRecommends := false } query (l.map Index.Entry.essential) =
      (Plan.choose? o query l).map Index.Entry.essential := by
  rcases l with _ | ⟨first, _ | ⟨second, rest⟩⟩
  · rfl
  · rfl
  · simp only [Plan.choose?, List.map_cons]
    split
    · rfl
    · rw [← List.map_cons, ← List.map_cons, List.find?_map, Option.getD_map]
      rfl

theorem lookupKey?_essential : p.essential.lookupKey? query = p.lookupKey? query := rfl

theorem installedEntry?_essential :
    p.essential.installedEntry? query = (p.installedEntry? query).map Index.Entry.essential := by
  unfold Plan.installedEntry?
  rw [lookupKey?_essential, Option.map_bind]
  congr 1
  funext key
  exact Table.get?_map _ _ _

theorem conflictOf?_essential : conflictOf? p.essential e.essential = conflictOf? p e := by
  have hdeclared : p.essential.declaredConflict? e.essential = p.declaredConflict? e := by
    unfold Plan.declaredConflict? Plan.essential
    rw [List.filter_map, List.findSome?_map]
    rfl
  have hown : p.essential.ownConflict? e.essential = p.ownConflict? e := rfl
  unfold conflictOf?
  rw [hdeclared, hown]
  rfl

end

/-! ## What changes alike -/

section

variable (s : Planner) (parent : Option Index.Entry) (e : Index.Entry)

theorem register_essential (p : Plan) (name : Package.Name) :
    p.essential.register e.essential name = (p.register e name).essential := by
  simp only [Plan.register, Plan.essential, Table.map_insert]

theorem connect_essential :
    s.essential.connect (parent.map Index.Entry.essential) e.essential =
      (s.connect parent e).essential := by
  simp [connect, essential, Plan.essential, Plan.essentialEdge]

theorem introduce_essential : s.essential.introduce e.essential = (s.introduce e).essential :=
  congrArg (Planner.mk _) (register_essential e s.plan e.name)

theorem pick_essential : s.essential.pick e.essential = (s.pick e).essential := by
  have hfold (names : List Package.Name) (p : Plan) :
      names.foldl (Plan.register e.essential) p.essential =
        (names.foldl (Plan.register e) p).essential := by
    induction names generalizing p with
    | nil => rfl
    | cons name rest ih => rw [List.foldl_cons, register_essential, ih, List.foldl_cons]
  have hpicked : ({ s.essential.plan with
      picked := s.essential.plan.picked ++ [e.essential] } : Plan) =
        ({ s.plan with picked := s.plan.picked ++ [e] } : Plan).essential := by
    simp [essential, Plan.essential]
  unfold pick
  rw [hpicked]
  exact congrArg (Planner.mk _) (hfold e.package.aliases _)

theorem install_essential : s.essential.install e.essential = (s.install e).essential := by
  simp [install, essential, Plan.essential]

theorem restore_essential (p q : Plan) :
    q.essential.restore p.essential.checkpoint = (q.restore p.checkpoint).essential := by
  simp [Plan.restore, Plan.checkpoint, Plan.essential, List.map_take]

theorem depthBound_essential (ix : Index) : depthBound ix.essential = depthBound ix := by
  have hentries : ix.essential.entries = ix.entries.map Index.Entry.essential := by
    simp [Index.entries, Index.essential, List.map_flatten]
  have hnames : ix.essential.packages.flatMap Package.names =
      ix.packages.flatMap Package.names := by
    simp only [Index.packages, hentries, List.flatMap_map]
    rfl
  have hcount : ix.essential.count = ix.count := by simp [Index.count, hentries]
  have hproviders : ix.essential.providers = ix.providers := rfl
  unfold depthBound
  rw [hnames, hcount, hproviders]

end

/-! ## Resolution -/

/-- What resolving a request comes to where nothing was ever recommended. -/
def essentialResolution : Resolution → Resolution
  | .resolved added => .resolved (added.map Index.Entry.essential)
  | .notFound query => .notFound query
  | .conflict package other => .conflict package other
  | .noCandidate package options => .noCandidate package (Package.required options)

/-- How trying the alternatives of a group ends where nothing was ever recommended. -/
def essentialAttempt : Attempt → Attempt
  | .met added => .met (added.map Index.Entry.essential)
  | .unmet => .unmet
  | .broken r => .broken (essentialResolution r)

/-- The planner and the result of a step, as they are where nothing was ever recommended. -/
def essentialStep {α β : Type} (f : α → β) (r : Planner × Outcome α) : Planner × Outcome β :=
  (r.1.essential, (r.2.map f).mapError Failure.essential)

/-- No provider answers, and what is recommended is left out. -/
structure Excluding (s : Planner) : Prop where
  providers : s.index.providers = []
  excludes : s.plan.options.excludeRecommends = true

/-- One way of resolving requests does without recommended alternatives what another one does while
it leaves them out. -/
structure Reflects (f g : Step) : Prop where
  step : ∀ (query : Package.Name) {s : Planner}, Excluding s →
    g query s.essential = essentialStep essentialResolution (f query s)
  excluding : ∀ (query : Package.Name) {s : Planner}, Excluding s → Excluding (f query s).1

theorem kept_of_excluding {o : Plan.Options} (h : o.excludeRecommends = true)
    (group : List Package.Name) : kept o group = Package.required group := by
  simp [kept, Package.required, h]

theorem kept_required (o : Plan.Options) (group : List Package.Name) :
    kept o (Package.required group) = Package.required group := by
  refine List.filter_eq_self.2 fun option hoption => ?_
  have hnot : option.recommended = false := by simpa using (List.mem_filter.1 hoption).2
  simp [hnot]

section

variable {f g : Step} (h : Reflects f g)

include h

theorem tryOptions_essential (options : List Package.Name) {s : Planner} (hs : Excluding s) :
    tryOptions g options s.essential = essentialStep essentialAttempt (tryOptions f options s) ∧
      Excluding (tryOptions f options s).1 := by
  induction options generalizing s with
  | nil => exact ⟨rfl, hs⟩
  | cons option rest ih =>
    have hstep := h.step option hs
    have hexcluding := h.excluding option hs
    simp only [tryOptions, hstep]
    rcases hresult : f option s with ⟨t, failure | r⟩ <;> rw [hresult] at hexcluding
    · exact ⟨rfl, hexcluding⟩
    · cases r with
      | notFound query => exact ih hexcluding
      | resolved => exact ⟨rfl, hexcluding⟩
      | conflict => exact ⟨rfl, hexcluding⟩
      | noCandidate => exact ⟨rfl, hexcluding⟩

/-- A group that is skipped is one that is not there, and any other group has what counts of it. -/
theorem meetGroups_essential (package : Package.Name) (groups : List (List Package.Name))
    (added : List Index.Entry) {s : Planner} (hs : Excluding s) :
    meetGroups g package (Package.requiredGroups groups) (added.map Index.Entry.essential)
        s.essential =
        essentialStep essentialResolution (meetGroups f package groups added s) ∧
      Excluding (meetGroups f package groups added s).1 := by
  induction groups generalizing added s with
  | nil => exact ⟨rfl, hs⟩
  | cons group rest ih =>
    have hkept := kept_of_excluding hs.excludes group
    by_cases hskip : ((Package.required group).isEmpty && !group.isEmpty) = true
    · have hgone : Package.requiredGroups (group :: rest) = Package.requiredGroups rest := by
        simp only [Bool.and_eq_true, Bool.not_eq_true'] at hskip
        simp [Package.requiredGroups, hskip]
      rw [hgone]
      simp only [meetGroups, hkept, if_pos hskip]
      exact ih added hs
    · have hstays : Package.requiredGroups (group :: rest) =
          Package.required group :: Package.requiredGroups rest := by
        simp only [Bool.and_eq_true, Bool.not_eq_true', not_and, Bool.not_eq_false] at hskip
        unfold Package.requiredGroups
        rw [List.filter_cons_of_pos, List.map_cons]
        cases hrequired : (Package.required group).isEmpty with
        | true => simp [hskip hrequired]
        | false => simp
      obtain ⟨htry, hexcluding⟩ := tryOptions_essential h (Package.required group) hs
      rw [hstays]
      simp only [meetGroups, hkept, kept_required, if_neg hskip, htry]
      rw [if_neg (by simp)]
      rcases hresult : tryOptions f (Package.required group) s with ⟨t, failure | a⟩ <;>
        rw [hresult] at hexcluding
      · exact ⟨rfl, hexcluding⟩
      · cases a with
        | met more =>
          have hrest := ih (added ++ more) hexcluding
          rw [List.map_append] at hrest
          exact hrest
        | unmet => exact ⟨rfl, hexcluding⟩
        | broken r => exact ⟨rfl, hexcluding⟩

theorem take_essential {parent : Option Index.Entry} {e : Index.Entry} {s : Planner}
    (hs : Excluding s) :
    take g (parent.map Index.Entry.essential) e.essential s.essential =
      essentialStep essentialResolution (take f parent e s) := by
  have hpicked : Excluding (((s.connect parent e).introduce e).pick e) :=
    ⟨hs.providers, (pick_options _ e).symm ▸ hs.excludes⟩
  obtain ⟨hmeet, -⟩ := meetGroups_essential h e.name e.package.depends [e] hpicked
  have hconflict := conflictOf?_essential ((s.connect parent e).introduce e).plan e
  have hmeet' : meetGroups g e.essential.name e.essential.package.depends [e.essential]
      (((s.connect parent e).introduce e).pick e).essential = _ := hmeet
  unfold take
  simp only [connect_essential, introduce_essential, pick_essential, hmeet']
  simp only [essential] at hconflict ⊢
  rw [hconflict]
  cases conflictOf? ((s.connect parent e).introduce e).plan e with
  | some pair => rfl
  | none =>
    simp only
    rcases meetGroups f e.name e.package.depends [e] (((s.connect parent e).introduce e).pick e)
      with ⟨t, failure | r⟩
    · rfl
    · cases r with
      | resolved added => exact Prod.ext (install_essential t e) rfl
      | notFound => rfl
      | conflict => rfl
      | noCandidate => rfl

end

theorem resolve_excluding {s : Planner} (hs : Excluding s) (site : Site) (depth : Nat)
    (parent : Option Index.Entry) (query : Package.Name) :
    Excluding (resolve site depth parent query s).1 where
  providers := by rw [resolve_index hs.providers, hs.providers]
  excludes := by rw [(grows_resolve site depth parent query s).options, hs.excludes]

/-- Resolving a request and taking out what is recommended come to the same in either order. -/
theorem resolve_essential (site : Site) (depth : Nat) (parent : Option Index.Entry) :
    Reflects (resolve site depth parent)
      (resolve site depth (parent.map Index.Entry.essential)) := by
  refine ⟨fun query s hs => ?_, fun query s hs => resolve_excluding hs site depth parent query⟩
  induction depth generalizing parent query s with
  | zero => rfl
  | succ depth ih =>
    have hentry : s.essential.plan.installedEntry? query = _ :=
      installedEntry?_essential s.plan query
    have hsearch := Index.search_eq_scan hs.providers site query 0
    have hsearch' : s.essential.index.search site query 0 = _ :=
      search_essential s.index query hs.providers site
    have hchoose : Plan.choose? s.essential.plan.options query
        ((s.index.scan query).map Index.Entry.essential) = _ :=
      choose?_essential s.plan.options query (s.index.scan query)
    cases hregistered : s.plan.installedEntry? query with
    | some e =>
      rw [hregistered] at hentry
      rw [resolve_of_registered hentry, resolve_of_registered hregistered]
      exact Prod.ext (connect_essential s parent e) rfl
    | none =>
      rw [hregistered] at hentry
      cases hchosen : Plan.choose? s.plan.options query (s.index.scan query) with
      | none =>
        rw [hchosen] at hchoose
        rw [resolve_of_unfound hentry hsearch' hchoose,
          resolve_of_unfound hregistered hsearch hchosen]
        rfl
      | some e =>
        rw [hchosen] at hchoose
        rw [resolve_of_chosen hentry hsearch' hchoose,
          resolve_of_chosen hregistered hsearch hchosen]
        refine take_essential ⟨fun query s hs => ?_, fun query s hs => ?_⟩ hs
        · exact ih (some e) query s hs
        · exact resolve_excluding hs site depth (some e) query

/-! ## Requests from outside -/

theorem add_essential {s : Planner} (hs : Excluding s) (site : Site) (query : Package.Name) :
    s.essential.add site query =
      ((s.add site query).1.essential, Plan.essentialOutcome (s.add site query).2) := by
  have hresolve := (resolve_essential site (depthBound s.index) none).step query hs
  have hbound : depthBound s.essential.index = depthBound s.index := depthBound_essential s.index
  unfold add addWithin
  rw [hbound]
  simp only [Option.map_none] at hresolve
  rw [hresolve]
  rcases resolve site (depthBound s.index) none query s with ⟨t, failure | r⟩
  · exact Prod.ext (congrArg (Planner.mk _) (restore_essential s.plan t.plan)) rfl
  · cases r with
    | resolved added => rfl
    | notFound => exact Prod.ext (congrArg (Planner.mk _) (restore_essential s.plan t.plan)) rfl
    | conflict => exact Prod.ext (congrArg (Planner.mk _) (restore_essential s.plan t.plan)) rfl
    | noCandidate =>
      exact Prod.ext (congrArg (Planner.mk _) (restore_essential s.plan t.plan)) rfl

theorem add_excluding {s : Planner} (hs : Excluding s) (site : Site) (query : Package.Name) :
    Excluding (s.add site query).1 where
  providers := (congrArg Index.providers (addWithin_index hs.providers site _ query)).trans
    hs.providers
  excludes := by rw [add, (grows_addWithin site _ query s).options, hs.excludes]

theorem serve_essential {s : Planner} (hs : Excluding s) (site : Site)
    (queries : List Package.Name) :
    s.essential.serve site queries =
      ((s.serve site queries).1.essential,
        (s.serve site queries).2.map Plan.essentialOutcome) := by
  induction queries generalizing s with
  | nil => rfl
  | cons query rest ih =>
    have hrest := ih (add_excluding hs site query)
    simp only [serve, add_essential hs, hrest, List.map_cons]

/-- Results of one kind that name the same entries. Of a group that could not be met, the one on the
right lists what is not only recommended. -/
inductive SameAnswer : Outcome (List Index.Entry) → Outcome (List Index.Entry) → Prop where
  | added {l l' : List Index.Entry} (h : l.map Index.Entry.id = l'.map Index.Entry.id) :
      SameAnswer (.ok l) (.ok l')
  | refused (e : Failure) : SameAnswer (.error e) (.error e.essential)

theorem sameAnswer_essentialOutcome (r : Outcome (List Index.Entry)) :
    SameAnswer r (Plan.essentialOutcome r) := by
  cases r with
  | ok added => exact .added (by simp [Function.comp_def])
  | error e => exact .refused e

/-- Without providers, a plan that leaves out what is only recommended goes as a plan goes on the
index in which nothing was ever recommended: request by request the result is the same, and so are
the entries that are installed and the edges between them. -/
theorem leaving_out_is_never_recommending {index : Index} (hproviders : index.providers = [])
    (site : Site) (architecture : String) (queries : List Package.Name) :
    let leaving := (fresh index ⟨architecture, true⟩).serve site queries
    let never := (fresh index.essential ⟨architecture, false⟩).serve site queries
    never = (leaving.1.essential, leaving.2.map Plan.essentialOutcome) ∧
      List.Forall₂ SameAnswer leaving.2 never.2 ∧
      never.1.plan.packages.map (·.id) = leaving.1.plan.packages.map (·.id) ∧
      (never.1.plan.edges.map fun edge => (edge.1.map (·.id), edge.2.id)) =
        leaving.1.plan.edges.map fun edge => (edge.1.map (·.id), edge.2.id) := by
  intro leaving never
  have hrun : never = (leaving.1.essential, leaving.2.map Plan.essentialOutcome) :=
    serve_essential (s := fresh index ⟨architecture, true⟩) ⟨hproviders, rfl⟩ site queries
  refine ⟨hrun, ?_, ?_, ?_⟩
  · rw [hrun]
    exact List.forall₂_map_right_iff.2
      (List.forall₂_same.2 fun r _ => sameAnswer_essentialOutcome r)
  · rw [hrun]
    simp [essential, Plan.essential, Function.comp_def]
  · rw [hrun]
    simp [essential, Plan.essential, Plan.essentialEdge, Function.comp_def]

/-! ### A shelf with recommendations -/

/-- An application that recommends its manual besides the library that it needs, and nothing but the
manual besides the tool; a package that only has something missing besides the manual; and one with
a group that has no alternatives. -/
def suggestions : Index :=
  shelf [{ name := ⟨"alpine", "manual", "1", "", false⟩ },
    { name := ⟨"alpine", "lib", "1", "", false⟩ },
    { name := ⟨"alpine", "app", "1", "", false⟩
      depends := [[⟨"alpine", "manual", "", "", true⟩, ⟨"alpine", "lib", "", "", false⟩],
        [⟨"alpine", "manual", "", "", true⟩]] },
    { name := ⟨"alpine", "broken", "1", "", false⟩
      depends := [[⟨"alpine", "manual", "", "", true⟩, ⟨"alpine", "missing", "", "", false⟩]] },
    { name := ⟨"alpine", "hollow", "1", "", false⟩, depends := [[]] }]

/-- Without the manual the application has its library and nothing else. The other two fail, as they
do where nobody has ever recommended the manual. -/
theorem suggestions_left_out :
    let never := (fresh suggestions.essential ⟨"", false⟩).serve {}
      [.parse "alpine/app", .parse "alpine/broken", .parse "alpine/hollow"]
    never.1.plan.packages.map (·.id) = ["alpine/lib@1:", "alpine/app@1:"] ∧
      never.2.tail = [
        .error (.noCandidate ⟨"alpine", "broken", "1", "", false⟩
          [⟨"alpine", "missing", "", "", false⟩]),
        .error (.noCandidate ⟨"alpine", "hollow", "1", "", false⟩ [])] := by
  intro never
  obtain ⟨hrun, -, hpackages, -⟩ := leaving_out_is_never_recommending
    (rfl : suggestions.providers = []) {} ""
    [.parse "alpine/app", .parse "alpine/broken", .parse "alpine/hollow"]
  refine ⟨hpackages.trans (by decide), ?_⟩
  have htail := congrArg (fun r => r.2.tail) hrun
  exact htail.trans (by rfl)

end Planner

end Depot
