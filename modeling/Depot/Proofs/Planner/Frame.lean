import Depot.Plan.Resolve
import Depot.Proofs.Index.Search

/-!
# What resolution can change

A resolution, however it ends, changes its planner in five ways only: a search may teach the index,
an edge is recorded, an entry is introduced, picked once nothing conflicts with it, or installed. A
property that each of them keeps is `Planner.Stable`, and every resolution keeps it
(`Stable.resolve`). So without providers no resolution changes the index (`resolve_index`).
-/

namespace Depot

namespace Planner

/-! ## Registering changes the tables only -/

theorem foldl_register_eq (e : Index.Entry) (names : List Package.Name) (p : Plan) :
    names.foldl (Plan.register e) p =
      { p with installed := (names.foldl (Plan.register e) p).installed
               installedEntries := (names.foldl (Plan.register e) p).installedEntries
               bareNames := (names.foldl (Plan.register e) p).bareNames } := by
  induction names generalizing p with
  | nil => rfl
  | cons name rest ih =>
    rw [List.foldl_cons, ih]
    rfl

section

variable (s : Planner) (e : Index.Entry)

theorem pick_plan :
    (s.pick e).plan =
      { s.plan with installed := (s.pick e).plan.installed
                    installedEntries := (s.pick e).plan.installedEntries
                    bareNames := (s.pick e).plan.bareNames
                    picked := s.plan.picked ++ [e] } :=
  foldl_register_eq e e.package.aliases { s.plan with picked := s.plan.picked ++ [e] }

@[simp] theorem pick_options : (s.pick e).plan.options = s.plan.options := by rw [pick_plan]

@[simp] theorem pick_baseImage : (s.pick e).plan.baseImage = s.plan.baseImage := by rw [pick_plan]

@[simp] theorem pick_picked : (s.pick e).plan.picked = s.plan.picked ++ [e] := by rw [pick_plan]

@[simp] theorem pick_packages : (s.pick e).plan.packages = s.plan.packages := by rw [pick_plan]

@[simp] theorem pick_edges : (s.pick e).plan.edges = s.plan.edges := by rw [pick_plan]

end

theorem conflictOf?_eq_none_iff {p : Plan} {e : Index.Entry} :
    conflictOf? p e = none ↔ p.ownConflict? e = none ∧ p.declaredConflict? e = none := by
  unfold conflictOf?
  cases p.ownConflict? e <;> simp

/-! ## What is chosen -/

theorem mem_of_choose? {o : Plan.Options} {query : Package.Name} {results : List Index.Entry}
    {e : Index.Entry} (h : Plan.choose? o query results = some e) : e ∈ results := by
  unfold Plan.choose? at h
  split at h
  · simp at h
  · simpa [eq_comm] using h
  · split at h
    · simp only [Option.some.injEq] at h
      simp [h]
    · next first rest _ _ =>
      -- the preferred entry is found in the list, and the default is its head
      simp only [Option.some.injEq] at h
      cases hfind : (first :: rest).find?
          (·.satisfies { query with architecture := o.preferArchitecture }) with
      | some e' =>
        rw [hfind, Option.getD_some] at h
        exact h ▸ List.mem_of_find?_eq_some hfind
      | none =>
        rw [hfind, Option.getD_none] at h
        exact h ▸ List.mem_cons_self

/-- A chosen entry satisfies the query. -/
theorem satisfies_of_choose? {ix found : Index} {site : Site} {o : Plan.Options}
    {query : Package.Name} {results : List Index.Entry} {e : Index.Entry}
    (hsearch : ix.search site query 0 = (found, .ok results))
    (hchoose : Plan.choose? o query results = some e) : e.satisfies query = true :=
  Index.satisfies_of_search (congrArg Prod.snd hsearch) (mem_of_choose? hchoose)

section

variable {site : Site} {depth : Nat} {parent : Option Index.Entry} {query : Package.Name}
  {s : Planner} {e : Index.Entry} {ix : Index} {results : List Index.Entry}

theorem resolve_of_registered (h : s.plan.installedEntry? query = some e) :
    resolve site (depth + 1) parent query s = (s.connect parent e, .ok (.resolved [])) := by
  simp only [resolve, h]

theorem resolve_of_unfound (h : s.plan.installedEntry? query = none)
    (hsearch : s.index.search site query 0 = (ix, .ok results))
    (hchoose : Plan.choose? s.plan.options query results = none) :
    resolve site (depth + 1) parent query s = ({ s with index := ix }, .ok (.notFound query)) := by
  simp only [resolve, h, hsearch, hchoose]

theorem resolve_of_chosen (h : s.plan.installedEntry? query = none)
    (hsearch : s.index.search site query 0 = (ix, .ok results))
    (hchoose : Plan.choose? s.plan.options query results = some e) :
    resolve site (depth + 1) parent query s =
      take (resolve site depth (some e)) parent e { s with index := ix } := by
  simp only [resolve, h, hsearch, hchoose]

end

/-! ## Single changes -/

/-- A property of planners that every single change of a resolution keeps. -/
structure Stable (site : Site) (P : Planner → Prop) : Prop where
  search : ∀ {s : Planner} {query : Package.Name},
    P s → P { s with index := (s.index.search site query 0).1 }
  connect : ∀ {s : Planner} {parent : Option Index.Entry} {e : Index.Entry},
    P s → P (s.connect parent e)
  introduce : ∀ {s : Planner} {e : Index.Entry}, P s → P (s.introduce e)
  pick : ∀ {s : Planner} {e : Index.Entry}, P s → conflictOf? s.plan e = none → P (s.pick e)
  install : ∀ {s : Planner} {e : Index.Entry}, P s → P (s.install e)

namespace Stable

variable {site : Site} {P : Planner → Prop} {s : Planner}

section

variable {resolve : Step}
  (hresolve : ∀ {query : Package.Name} {s : Planner}, P s → P (resolve query s).1)

include hresolve

theorem tryOptions {options : List Package.Name} (hs : P s) :
    P (tryOptions resolve options s).1 := by
  induction options generalizing s with
  | nil => exact hs
  | cons option rest ih =>
    have hstep : P (resolve option s).1 := hresolve hs
    simp only [Planner.tryOptions]
    split <;> rename_i heq <;> rw [heq] at hstep
    · exact hstep
    · exact hstep
    · exact ih hstep
    · exact hstep

theorem meetGroups {package : Package.Name} {groups : List (List Package.Name)}
    {added : List Index.Entry} (hs : P s) :
    P (meetGroups resolve package groups added s).1 := by
  induction groups generalizing added s with
  | nil => exact hs
  | cons group rest ih =>
    have htry : P (Planner.tryOptions resolve (kept s.plan.options group) s).1 :=
      tryOptions hresolve hs
    simp only [Planner.meetGroups]
    split
    · exact ih hs
    · split <;> rename_i heq <;> rw [heq] at htry
      · exact htry
      · exact ih htry
      · exact htry
      · exact htry

theorem take (h : Stable site P) {parent : Option Index.Entry} {e : Index.Entry}
    (hs : P (s.connect parent e)) : P (take resolve parent e s).1 := by
  have hintroduce : P ((s.connect parent e).introduce e) := h.introduce hs
  simp only [Planner.take]
  split
  · exact hintroduce
  · next hconflict =>
    have hmeet : P (Planner.meetGroups resolve e.name e.package.depends [e]
        (((s.connect parent e).introduce e).pick e)).1 :=
      meetGroups hresolve (h.pick hintroduce hconflict)
    split
    · next heq =>
      rw [heq] at hmeet
      exact h.install hmeet
    · exact hmeet

end

theorem resolve (h : Stable site P) {depth : Nat} {parent : Option Index.Entry}
    {query : Package.Name} (hs : P s) : P (resolve site depth parent query s).1 := by
  induction depth generalizing parent query s with
  | zero => exact hs
  | succ depth ih =>
    have hsearch : P { s with index := (s.index.search site query 0).1 } := h.search hs
    simp only [Planner.resolve]
    split
    · exact h.connect hs
    · split
      · next heq =>
        rw [heq] at hsearch
        exact hsearch
      · next heq =>
        rw [heq] at hsearch
        split
        · exact hsearch
        · exact h.take ih (h.connect hsearch)

/-! ## Failures -/

section

variable {F : Failure → Prop} {f : Failure}

section

variable {resolve : Step}
  (hresolve : ∀ {query : Package.Name} {s : Planner}, P s → P (resolve query s).1)
  (hcut : ∀ {query : Package.Name} {s : Planner} {f : Failure},
    P s → (resolve query s).2 = .error f → F f)

include hresolve hcut

theorem cut_tryOptions {options : List Package.Name} (hs : P s)
    (h : (Planner.tryOptions resolve options s).2 = .error f) : F f := by
  induction options generalizing s with
  | nil => cases h
  | cons option rest ih =>
    have hstep : P (resolve option s).1 := hresolve hs
    have hfails : (resolve option s).2 = .error f → F f := hcut hs
    simp only [Planner.tryOptions] at h
    split at h <;> rename_i heq <;> rw [heq] at hstep hfails
    · exact hfails (Except.error.inj h ▸ rfl)
    · cases h
    · exact ih hstep h
    · cases h

theorem cut_meetGroups {package : Package.Name} {groups : List (List Package.Name)}
    {added : List Index.Entry} (hs : P s)
    (h : (Planner.meetGroups resolve package groups added s).2 = .error f) : F f := by
  induction groups generalizing added s with
  | nil => cases h
  | cons group rest ih =>
    have htry : P (Planner.tryOptions resolve (kept s.plan.options group) s).1 :=
      tryOptions hresolve hs
    have hfails : (Planner.tryOptions resolve (kept s.plan.options group) s).2 = .error f → F f :=
      cut_tryOptions hresolve hcut hs
    simp only [Planner.meetGroups] at h
    split at h
    · exact ih hs h
    · split at h <;> rename_i heq <;> rw [heq] at htry hfails
      · exact hfails (Except.error.inj h ▸ rfl)
      · exact ih htry h
      · cases h
      · cases h

theorem cut_take (h : Stable site P) {parent : Option Index.Entry} {e : Index.Entry}
    (hs : P (s.connect parent e)) (hf : (Planner.take resolve parent e s).2 = .error f) : F f := by
  have hintroduce : P ((s.connect parent e).introduce e) := h.introduce hs
  simp only [Planner.take] at hf
  split at hf
  · cases hf
  · next hconflict =>
    split at hf
    · cases hf
    · exact cut_meetGroups @hresolve @hcut (h.pick hintroduce hconflict) hf

end

/-- While a property holds that every change keeps, a resolution is cut short by the bound for its
depth or by the failure of a search. -/
theorem cut_resolve (h : Stable site P) (hdeep : F .tooDeep)
    (hsearch : ∀ {s : Planner} {query : Package.Name} {f : Failure},
      P s → (s.index.search site query 0).2 = .error f → F f)
    {depth : Nat} {parent : Option Index.Entry} {query : Package.Name} (hs : P s)
    (hf : (Planner.resolve site depth parent query s).2 = .error f) : F f := by
  induction depth generalizing parent query s f with
  | zero => exact Except.error.inj hf ▸ hdeep
  | succ depth ih =>
    have hfound : P { s with index := (s.index.search site query 0).1 } := h.search hs
    simp only [Planner.resolve] at hf
    split at hf
    · cases hf
    · split at hf
      · next heq => exact Except.error.inj hf ▸ hsearch hs (congrArg Prod.snd heq)
      · next heq =>
        rw [heq] at hfound
        split at hf
        · cases hf
        · exact cut_take h.resolve ih h (h.connect hfound) hf

end

end Stable

/-! ## Without providers -/

theorem stable_index {index : Index} (h : index.providers = []) (site : Site) :
    Stable site fun t => t.index = index where
  search := fun {t query} ht => by
    have hproviders : t.index.providers = [] := by rw [ht, h]
    exact (congrArg Prod.fst (Index.search_eq_scan hproviders site query 0)).trans ht
  connect := id
  introduce := id
  pick := fun ht _ => ht
  install := id

theorem resolve_index {s : Planner} (h : s.index.providers = []) (site : Site) (depth : Nat)
    (parent : Option Index.Entry) (query : Package.Name) :
    (resolve site depth parent query s).1.index = s.index :=
  (stable_index h site).resolve rfl

/-- Only the bound for its depth cuts a resolution short. -/
theorem eq_tooDeep_of_resolve {s : Planner} (h : s.index.providers = []) {site : Site} {depth : Nat}
    {parent : Option Index.Entry} {query : Package.Name} {f : Failure}
    (hf : (resolve site depth parent query s).2 = .error f) : f = .tooDeep := by
  refine (stable_index h site).cut_resolve (F := (· = .tooDeep)) rfl
    (fun {t query f} ht hsearch => ?_) rfl hf
  rw [ht, Index.search_eq_scan h site query 0] at hsearch
  cases hsearch

/-- The index of one fetcher that has loaded some packages. -/
def shelf (packages : List Package) : Index :=
  let source : Fetch.Source := { fetch := fun _ => .done }
  (({} : Index).addFetcher { decl := ⟨"shelf", "", []⟩, source, packages }).rebuild

end Planner

end Depot
