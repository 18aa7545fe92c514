import Depot.Proofs.Planner.Frame

/-!
# Failed requests

A checkpoint keeps the tables of a plan, but of its lists only the lengths. That is enough because a
resolution, however far it gets, only appends to the lists (`grows_resolve`), so that cutting them
gives the old ones (`Plan.Grows.restore`). Hence a request that fails leaves the plan as it was
(`addWithin_error`), and failed requests can be left out of a sequence of requests
(`serve_marked`); `failed_requests_leave_no_trace` puts both together.
-/

namespace Depot

/-! ## Plans that only grow -/

/-- The lists of a plan as the beginnings of those of another plan with the same options and base
image. Nothing is said of the tables. -/
structure Plan.Grows (p q : Plan) : Prop where
  options : q.options = p.options
  baseImage : q.baseImage = p.baseImage
  picked : p.picked <+: q.picked
  packages : p.packages <+: q.packages
  edges : p.edges <+: q.edges

namespace Plan.Grows

variable {p q r : Plan}

theorem refl (p : Plan) : p.Grows p :=
  ⟨rfl, rfl, List.prefix_rfl, List.prefix_rfl, List.prefix_rfl⟩

theorem trans (h : p.Grows q) (h' : q.Grows r) : p.Grows r :=
  ⟨h'.options.trans h.options, h'.baseImage.trans h.baseImage, h.picked.trans h'.picked,
    h.packages.trans h'.packages, h.edges.trans h'.edges⟩

/-- Going back from a plan that has only grown gives the plan that was kept. -/
theorem restore (h : p.Grows q) : q.restore p.checkpoint = p := by
  obtain ⟨hoptions, himage, hpicked, hpackages, hedges⟩ := h
  simp only [Plan.restore, Plan.checkpoint, hoptions, himage]
  rw [← List.prefix_iff_eq_take.1 hpicked, ← List.prefix_iff_eq_take.1 hpackages,
    ← List.prefix_iff_eq_take.1 hedges]

end Plan.Grows

namespace Planner

theorem grows_connect (s : Planner) (parent : Option Index.Entry) (e : Index.Entry) :
    s.plan.Grows (s.connect parent e).plan :=
  { Plan.Grows.refl s.plan with edges := List.prefix_append _ _ }

theorem grows_introduce (s : Planner) (e : Index.Entry) : s.plan.Grows (s.introduce e).plan :=
  ⟨rfl, rfl, List.prefix_rfl, List.prefix_rfl, List.prefix_rfl⟩

theorem grows_pick (s : Planner) (e : Index.Entry) : s.plan.Grows (s.pick e).plan where
  options := s.pick_options e
  baseImage := s.pick_baseImage e
  picked := by simp
  packages := by simp
  edges := by simp

theorem grows_install (s : Planner) (e : Index.Entry) : s.plan.Grows (s.install e).plan :=
  { Plan.Grows.refl s.plan with packages := List.prefix_append _ _ }

theorem stable_grows (site : Site) (p : Plan) : Stable site fun t => p.Grows t.plan where
  search := id
  connect := fun {t parent e} h => h.trans (grows_connect t parent e)
  introduce := fun {t e} h => h.trans (grows_introduce t e)
  pick := fun {t e} h _ => h.trans (grows_pick t e)
  install := fun {t e} h => h.trans (grows_install t e)

theorem grows_resolve (site : Site) (depth : Nat) (parent : Option Index.Entry)
    (query : Package.Name) (s : Planner) :
    s.plan.Grows (resolve site depth parent query s).1.plan :=
  (stable_grows site s.plan).resolve (Plan.Grows.refl s.plan)

/-- The edge to a chosen entry is the first thing that is recorded of it, and it stays. -/
theorem grows_take (site : Site) (depth : Nat) (parent : Option Index.Entry) (e : Index.Entry)
    (s : Planner) :
    (s.connect parent e).plan.Grows (take (resolve site depth (some e)) parent e s).1.plan :=
  (stable_grows site (s.connect parent e).plan).take
    (fun h => h.trans (grows_resolve site depth (some e) _ _)) (Plan.Grows.refl _)

/-! ## A failed request -/

/-- A request ends with what `resolve` answers, or with a failure and the old plan. -/
theorem addWithin_cases (site : Site) (depth : Nat) (query : Package.Name) (s : Planner) :
    (∃ added, resolve site depth none query s =
        ((s.addWithin site depth query).1, .ok (.resolved added)) ∧
      (s.addWithin site depth query).2 = .ok added) ∨
    ∃ e, (s.addWithin site depth query).2 = .error e ∧
      (s.addWithin site depth query).1.plan = s.plan := by
  have hrestore := (grows_resolve site depth none query s).restore
  simp only [addWithin]
  rcases hresolve : resolve site depth none query s with ⟨t, e | r⟩
  · rw [hresolve] at hrestore
    exact .inr ⟨e, rfl, hrestore⟩
  · rw [hresolve] at hrestore
    cases r with
    | resolved added => exact .inl ⟨added, rfl, rfl⟩
    | notFound => exact .inr ⟨_, rfl, hrestore⟩
    | conflict => exact .inr ⟨_, rfl, hrestore⟩
    | noCandidate => exact .inr ⟨_, rfl, hrestore⟩

/-- An answered request is a resolution from outside. -/
theorem resolve_of_answered {site : Site} {depth : Nat} {query : Package.Name} {s : Planner}
    {added : List Index.Entry} (h : (s.addWithin site depth query).2 = .ok added) :
    resolve site depth none query s =
      ((s.addWithin site depth query).1, .ok (.resolved added)) := by
  rcases addWithin_cases site depth query s with ⟨added', hresolve, hok⟩ | ⟨_, herror, -⟩
  · obtain rfl : added' = added := Except.ok.inj (hok.symm.trans h)
    exact hresolve
  · simp [h] at herror

theorem addWithin_error {site : Site} {depth : Nat} {query : Package.Name} {s : Planner}
    {e : Failure} (h : (s.addWithin site depth query).2 = .error e) :
    (s.addWithin site depth query).1.plan = s.plan := by
  rcases addWithin_cases site depth query s with ⟨added, -, hok⟩ | ⟨_, -, hplan⟩
  · simp [hok] at h
  · exact hplan

theorem grows_addWithin (site : Site) (depth : Nat) (query : Package.Name) (s : Planner) :
    s.plan.Grows (s.addWithin site depth query).1.plan := by
  rcases addWithin_cases site depth query s with ⟨_, hresolve, -⟩ | ⟨_, -, hplan⟩
  · have hgrows := grows_resolve site depth none query s
    rwa [hresolve] at hgrows
  · rw [hplan]
    exact Plan.Grows.refl s.plan

/-! ## Sequences of requests -/

/-- Resolves requests from outside one after the other, whatever becomes of each of them. -/
def serve (site : Site) :
    List Package.Name → Planner → Planner × List (Outcome (List Index.Entry))
  | [], s => (s, [])
  | query :: rest, s =>
    ((serve site rest (s.add site query).1).1,
      (s.add site query).2 :: (serve site rest (s.add site query).1).2)

theorem grows_serve (site : Site) (queries : List Package.Name) (s : Planner) :
    s.plan.Grows (s.serve site queries).1.plan := by
  induction queries generalizing s with
  | nil => exact Plan.Grows.refl s.plan
  | cons query rest ih => exact (grows_addWithin site _ query s).trans (ih _)

/-- The elements at the places that are marked. -/
def marked {α : Type} (marks : List Bool) (l : List α) : List α :=
  ((marks.zip l).filter (·.1)).map (·.2)

theorem addWithin_index {s : Planner} (h : s.index.providers = []) (site : Site) (depth : Nat)
    (query : Package.Name) : (s.addWithin site depth query).1.index = s.index := by
  have hindex := resolve_index h site depth none query
  simp only [addWithin]
  split <;> rename_i heq <;> rw [heq] at hindex <;> exact hindex

/-- Without providers, a failed request changes nothing. -/
theorem add_error {site : Site} {query : Package.Name} {s : Planner} {e : Failure}
    (hproviders : s.index.providers = []) (h : (s.add site query).2 = .error e) :
    (s.add site query).1 = s := by
  have hindex : (s.add site query).1.index = s.index := addWithin_index hproviders site _ query
  have hplan : (s.add site query).1.plan = s.plan := addWithin_error h
  calc (s.add site query).1
      = ⟨(s.add site query).1.index, (s.add site query).1.plan⟩ := rfl
    _ = s := by rw [hindex, hplan]

theorem serve_marked {site : Site} {queries : List Package.Name} {marks : List Bool} {s : Planner}
    (hproviders : s.index.providers = []) (hlength : marks.length = queries.length)
    (hmarks : ∀ i : Nat, marks[i]? = some false →
      ∃ e : Failure, (s.serve site queries).2[i]? = some (.error e)) :
    s.serve site (marked marks queries) =
      ((s.serve site queries).1, marked marks (s.serve site queries).2) := by
  induction queries generalizing marks s with
  | nil =>
    obtain rfl := List.length_eq_zero_iff.1 hlength
    rfl
  | cons query rest ih =>
    obtain ⟨mark, marks, rfl⟩ := List.exists_cons_of_length_eq_add_one hlength
    have hproviders' : (s.add site query).1.index.providers = [] :=
      (congrArg _ (addWithin_index hproviders site _ query)).trans hproviders
    have hrest := ih hproviders' (Nat.succ.inj hlength) fun i hi => hmarks (i + 1) hi
    cases mark with
    | true =>
      simp only [marked, List.zip_cons_cons, List.filter_cons_of_pos, List.map_cons, serve]
        at hrest ⊢
      rw [hrest]
    | false =>
      -- the request that is left out has failed, so the others start from the same planner
      obtain ⟨e, he⟩ := hmarks 0 rfl
      simp only [serve, List.getElem?_cons_zero, Option.some.injEq] at he
      have hsame := add_error hproviders he
      rw [hsame] at hrest
      simp only [serve, hsame]
      simpa [marked] using hrest

/-- A request that fails, however it fails and whatever it has resolved by then, leaves the whole
plan as it was. Where no provider learns from it either, leaving out failed requests, all of them or
some, changes neither where a sequence of requests leads nor what the others come to. -/
theorem failed_requests_leave_no_trace (site : Site) (s : Planner) :
    (∀ (depth : Nat) (query : Package.Name) (e : Failure),
        (s.addWithin site depth query).2 = .error e →
          (s.addWithin site depth query).1.plan = s.plan) ∧
      (s.index.providers = [] → ∀ (queries : List Package.Name) (marks : List Bool),
        marks.length = queries.length →
          (∀ i : Nat, marks[i]? = some false →
            ∃ e : Failure, (s.serve site queries).2[i]? = some (.error e)) →
          s.serve site (marked marks queries) =
            ((s.serve site queries).1, marked marks (s.serve site queries).2)) := by
  constructor
  · intro depth query e herror
    exact addWithin_error herror
  · intro hproviders queries marks hlength hmarks
    exact serve_marked hproviders hlength hmarks

/-! ### A request that fails half-way -/

/-- A library, a tool, and an application under the name of the library, too, that needs the tool
and something that is missing. -/
def unfinished : Index :=
  shelf [{ name := ⟨"alpine", "lib", "1", "", false⟩ },
    { name := ⟨"alpine", "tool", "1", "", false⟩ },
    { name := ⟨"alpine", "app", "1", "", false⟩
      aliases := [⟨"alpine", "lib", "2", "", false⟩]
      depends := [[⟨"alpine", "tool", "", "", false⟩], [⟨"alpine", "missing", "", "", false⟩]] }]

/-- The planner after a request for the library. -/
def stocked : Planner := ((fresh unfinished {}).addWithin {} 3 (.parse "lib")).1

/-- The application fails after its alias has replaced the library and the tool is installed. The
library is back afterwards, and the tool comes to what it comes to without the application. -/
theorem unfinished_app_leaves_no_trace :
    (∃ e, (stocked.addWithin {} 3 (.parse "app")).2 = .error e ∧
        (stocked.addWithin {} 3 (.parse "app")).1.plan = stocked.plan) ∧
      stocked.serve {} [.parse "tool"] =
        ((stocked.serve {} [.parse "app", .parse "tool"]).1, [.ok [unfinished.entries[1]]]) := by
  have htrace := failed_requests_leave_no_trace {} stocked
  have hresults : (stocked.serve {} [.parse "app", .parse "tool"]).2 =
      [.error (.noCandidate ⟨"alpine", "app", "1", "", false⟩
        [⟨"alpine", "missing", "", "", false⟩]), .ok [unfinished.entries[1]]] := by rfl
  constructor
  · exact ⟨_, rfl, htrace.1 3 (.parse "app") _ rfl⟩
  · have hserve := htrace.2 rfl [.parse "app", .parse "tool"] [false, true] rfl fun i hi => by
      have hi : i = 0 := by
        rcases i with _ | _ | i
        · rfl
        · cases hi
        · cases hi
      rw [hi, hresults]
      exact ⟨_, rfl⟩
    rw [hresults] at hserve
    exact hserve

end Planner

end Depot
