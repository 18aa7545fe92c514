import Depot.Proofs.Planner.Breakdown
import Depot.Proofs.Planner.Choice

/-!
# Alternatives in their order

The alternatives of a group are consulted one after the other (`consulted`) up to the first one that
finds an entry, registered or chosen (`Finds`). Those before it lack and leave the plan alone, those
after it are not consulted (`consulted_of_passes`). If that one alternative breaks down, so does the
group, the entry that needs it and everything around, up to the request from outside
(`Turn.Comes.resolve_eq`).

What happens to a group is said of the moment when its turn comes (`Turn`), wherever in a request
that is (`Turn.Comes`), so it is said of requests that fail in the end, too. Every edge that a
request records, but for the first one, comes from such a turn (`newEdges_resolve`).
-/

namespace Depot

namespace Planner

open Plan (Resolution)

/-! ## Consulting alternatives -/

/-- The alternatives that are consulted, each with the planner that it is asked of. -/
def consulted (resolve : Step) : List Package.Name → Planner → List (Package.Name × Planner)
  | [], _ => []
  | option :: rest, s =>
    (option, s) ::
      match resolve option s with
      | (t, .ok (.notFound _)) => consulted resolve rest t
      | _ => []

/-- The groups that are to be met, each with the planner that finds it unmet. Groups of which
nothing counts are skipped. -/
def faced (resolve : Step) :
    List (List Package.Name) → Planner → List (List Package.Name × Planner)
  | [], _ => []
  | group :: rest, s =>
    let options := kept s.plan.options group
    if options.isEmpty && !group.isEmpty then faced resolve rest s
    else
      (group, s) ::
        match tryOptions resolve options s with
        | (t, .ok (.met _)) => faced resolve rest t
        | _ => []

/-- The entry that a request finds: the registered one, or else the one that is chosen among what a
search finds. -/
inductive Finds (site : Site) (query : Package.Name) (s : Planner) (e : Index.Entry) : Prop where
  | registered (h : s.plan.installedEntry? query = some e)
  | candidate {index : Index} {results : List Index.Entry}
      (hunregistered : s.plan.installedEntry? query = none)
      (hsearch : s.index.search site query 0 = (index, .ok results))
      (hchoose : Plan.choose? s.plan.options query results = some e)

section

variable {site : Site} {resolve : Step}

/-- An alternative that is consulted and breaks down breaks the group. -/
theorem tryOptions_of_consulted {options : List Package.Name} {s u t : Planner}
    {option : Package.Name} {r : Resolution} (hmem : (option, u) ∈ consulted resolve options s)
    (hresolve : resolve option u = (t, .ok r)) (hr : Broken r) :
    tryOptions resolve options s = (t, .ok (.broken r)) := by
  induction options generalizing s with
  | nil => simp [consulted] at hmem
  | cons first rest ih =>
    simp only [consulted, List.mem_cons, Prod.mk.injEq] at hmem
    simp only [tryOptions]
    rcases hmem with ⟨rfl, rfl⟩ | hmem
    · rw [hresolve]
      cases r with
      | resolved added => exact absurd rfl (hr.1 added)
      | notFound query => exact absurd rfl (hr.2 query)
      | conflict => rfl
      | noCandidate => rfl
    · split at hmem
      · next hfirst =>
        rw [hfirst]
        exact ih hmem
      · simp at hmem

/-- A group that breaks when its turn comes breaks all groups. -/
theorem meetGroups_of_faced {package : Package.Name} {groups : List (List Package.Name)}
    {added : List Index.Entry} {s u t : Planner} {group : List Package.Name} {r : Resolution}
    (hmem : (group, u) ∈ faced resolve groups s)
    (htry : tryOptions resolve (kept u.plan.options group) u = (t, .ok (.broken r))) :
    meetGroups resolve package groups added s = (t, .ok r) := by
  induction groups generalizing added s with
  | nil => simp [faced] at hmem
  | cons first rest ih =>
    simp only [faced] at hmem
    simp only [meetGroups]
    split at hmem
    · next hskip =>
      rw [if_pos hskip]
      exact ih hmem
    · next hskip =>
      rw [if_neg hskip]
      rcases List.mem_cons.1 hmem with hfirst | hmem
      · obtain ⟨rfl, rfl⟩ := Prod.mk.inj hfirst
        rw [htry]
      · split at hmem
        · next hmet =>
          rw [hmet]
          exact ih hmem
        · simp at hmem

theorem take_of_broken {parent : Option Index.Entry} {e : Index.Entry} {s t : Planner}
    {r : Resolution} (hconflict : conflictOf? ((s.connect parent e).introduce e).plan e = none)
    (hmeet : meetGroups resolve e.name e.package.depends [e] (s.takeUp parent e) = (t, .ok r))
    (hr : Broken r) : take resolve parent e s = (t, .ok r) := by
  simp only [takeUp] at hmeet
  simp only [take, hconflict, hmeet]
  split
  · next hresolved =>
    simp only [Prod.mk.injEq, Except.ok.injEq] at hresolved
    exact absurd hresolved.2 (hr.1 _)
  · rfl

/-- The alternatives before one that is consulted lack. -/
theorem passes_of_consulted {options : List Package.Name} {s u : Planner} {option : Package.Name}
    (hlacks : ∀ {query missing : Package.Name} {s t : Planner},
      resolve query s = (t, .ok (.notFound missing)) → Lacks site query s t)
    (hmem : (option, u) ∈ consulted resolve options s) :
    ∃ passed others, options = passed ++ option :: others ∧ Passes site passed s u := by
  induction options generalizing s with
  | nil => simp [consulted] at hmem
  | cons first rest ih =>
    simp only [consulted, List.mem_cons, Prod.mk.injEq] at hmem
    rcases hmem with ⟨rfl, rfl⟩ | hmem
    · exact ⟨[], rest, rfl, .nil⟩
    · split at hmem
      · next hfirst =>
        obtain ⟨passed, others, rfl, hpasses⟩ := ih hmem
        exact ⟨first :: passed, others, rfl, .cons (hlacks hfirst) hpasses⟩
      · simp at hmem

/-- Where all alternatives before it lack, an alternative is consulted, and if it does not lack
itself, it is the last one. -/
theorem consulted_of_passes {passed others : List Package.Name} {option : Package.Name}
    {s u : Planner}
    (hnotFound : ∀ {query : Package.Name} {s t : Planner}, Lacks site query s t →
      resolve query s = (t, .ok (.notFound query)))
    (hpasses : Passes site passed s u)
    (hlast : ∀ t missing, resolve option u ≠ (t, .ok (.notFound missing))) :
    (option, u) ∈ consulted resolve (passed ++ option :: others) s ∧
      (consulted resolve (passed ++ option :: others) s).map (·.1) = passed ++ [option] := by
  induction hpasses with
  | nil =>
    simp only [List.nil_append, consulted]
    exact ⟨List.mem_singleton_self _, rfl⟩
  | cons hlacks _ ih =>
    obtain ⟨hmem, hnames⟩ := ih hlast
    simp only [List.cons_append, consulted, hnotFound hlacks]
    exact ⟨List.mem_cons_of_mem _ hmem, by rw [List.map_cons, hnames]⟩

end

/-! ## What a request finds -/

section

variable {site : Site} {depth : Nat} {parent : Option Index.Entry} {query : Package.Name}
  {s t : Planner}

theorem resolve_of_lacks (h : Lacks site query s t) :
    resolve site (depth + 1) parent query s = (t, .ok (.notFound query)) := by
  rw [resolve_of_unfound h.unregistered h.unfound rfl]
  congr 1
  rw [← h.plan_eq]

theorem Finds.not_lacks {e : Index.Entry} (h : Finds site query s e) :
    ¬Lacks site query s t := by
  intro hlacks
  cases h with
  | registered hregistered =>
    rw [hlacks.unregistered] at hregistered
    cases hregistered
  | candidate _ hsearch hchoose =>
    obtain ⟨-, hresults⟩ := Prod.mk.inj (hsearch.symm.trans hlacks.unfound)
    obtain rfl := Except.ok.inj hresults
    cases hchoose

/-- A request that does not lack a candidate, and is not cut short, has found an entry, and the edge
to it is the first one that it records. -/
theorem finds_of_resolve {r : Resolution} (h : resolve site depth parent query s = (t, .ok r))
    (hr : ∀ missing, r ≠ .notFound missing) :
    ∃ e later, Finds site query s e ∧ t.plan.edges = s.plan.edges ++ (parent, e) :: later := by
  cases hregistered : s.plan.installedEntry? query with
  | some e =>
    cases depth with
    | zero => simp [resolve] at h
    | succ depth =>
      rw [resolve_of_registered hregistered] at h
      obtain ⟨rfl, -⟩ := Prod.mk.inj h
      exact ⟨e, [], .registered hregistered, rfl⟩
  | none =>
    rcases resolve_of_unregistered site depth parent hregistered with
      ⟨-, ⟨f, hcut⟩ | hlacking⟩ | ⟨index, results, e, later, hsearch, hchoose, hedges⟩
    · simp [h] at hcut
    · rw [h] at hlacking
      exact absurd (Except.ok.inj hlacking) (hr query)
    · rw [h] at hedges
      exact ⟨e, later, .candidate hregistered hsearch hchoose, hedges⟩

end

/-! ## Turns -/

/-- The moment when a group of an entry is to be met. -/
structure Turn where
  /-- How many requests may be inside each other from here on. -/
  depth : Nat
  entry : Index.Entry
  group : List Package.Name
  planner : Planner

namespace Turn

/-- The alternatives that count. -/
def options (turn : Turn) : List Package.Name := kept turn.planner.plan.options turn.group

/-- How an alternative is resolved. -/
def step (site : Site) (turn : Turn) : Step := resolve site turn.depth (some turn.entry)

/-- How trying the alternatives ends. -/
def attempt (site : Site) (turn : Turn) : Planner × Outcome Attempt :=
  tryOptions (turn.step site) turn.options turn.planner

/-- The alternatives that are consulted, in their order. -/
def asked (site : Site) (turn : Turn) : List Package.Name :=
  (consulted (turn.step site) turn.options turn.planner).map (·.1)

/-- The turn comes while a request is resolved: it is that of a group of the entry that the request
chooses, or it comes while an alternative is resolved that is consulted at such a turn. -/
inductive Comes (site : Site) :
    (depth : Nat) → Option Index.Entry → Package.Name → Planner → Turn → Prop where
  | own {depth : Nat} {parent : Option Index.Entry} {query : Package.Name} {s u : Planner}
      {index : Index} {results : List Index.Entry} {e : Index.Entry} {group : List Package.Name}
      (hunregistered : s.plan.installedEntry? query = none)
      (hsearch : s.index.search site query 0 = (index, .ok results))
      (hchoose : Plan.choose? s.plan.options query results = some e)
      (hconflict : conflictOf? ((s.connect parent e).introduce e).plan e = none)
      (hfaced : (group, u) ∈ faced (resolve site depth (some e)) e.package.depends
        (({ s with index } : Planner).takeUp parent e)) :
      Comes site (depth + 1) parent query s ⟨depth, e, group, u⟩
  | inner {depth : Nat} {parent : Option Index.Entry} {query option : Package.Name}
      {s u : Planner} {outer turn : Turn}
      (houter : Comes site depth parent query s outer)
      (hconsulted : (option, u) ∈ consulted (outer.step site) outer.options outer.planner)
      (hinner : Comes site outer.depth (some outer.entry) option u turn) :
      Comes site depth parent query s turn

/-- The alternatives before this one lack, and it finds an entry. -/
structure Decides (site : Site) (turn : Turn) (passed : List Package.Name)
    (option : Package.Name) (u : Planner) (e : Index.Entry) : Prop where
  options_eq : ∃ others, turn.options = passed ++ option :: others
  passes : Passes site passed turn.planner u
  finds : Finds site option u e

variable {site : Site} {depth : Nat} {parent : Option Index.Entry} {query option : Package.Name}
  {s t u : Planner} {turn : Turn} {r : Resolution} {passed : List Package.Name} {e : Index.Entry}

/-- A group that breaks when its turn comes breaks the request, which leaves off right there. -/
theorem Comes.resolve_eq (h : turn.Comes site depth parent query s)
    (hbroken : turn.attempt site = (t, .ok (.broken r))) :
    resolve site depth parent query s = (t, .ok r) := by
  have hr : Broken r := tryOptions_broken hbroken
  induction h with
  | @own depth parent _ _ _ _ _ e _ hunregistered hsearch hchoose hconflict hfaced =>
    rw [resolve_of_chosen hunregistered hsearch hchoose]
    exact take_of_broken hconflict (meetGroups_of_faced hfaced hbroken) hr
  | inner _ hconsulted _ ihouter ihinner =>
    exact ihouter (tryOptions_of_consulted hconsulted (ihinner hbroken) hr)

theorem depth_ne_zero (h : turn.step site option u = (t, .ok r)) : turn.depth ≠ 0 := by
  intro hzero
  simp [step, hzero, resolve] at h

theorem Decides.consulted (h : turn.Decides site passed option u e) (hdepth : turn.depth ≠ 0) :
    (option, u) ∈ Planner.consulted (turn.step site) turn.options turn.planner ∧
      turn.asked site = passed ++ [option] := by
  obtain ⟨others, hoptions⟩ := h.options_eq
  obtain ⟨depth, hsucc⟩ := Nat.exists_eq_succ_of_ne_zero hdepth
  simp only [asked, hoptions]
  refine consulted_of_passes (fun hlacks => ?_) h.passes fun t missing hresolve => ?_
  · rw [step, hsucc]
    exact resolve_of_lacks hlacks
  · exact h.finds.not_lacks (lacks_of_resolve hresolve).2

/-- A group is met by the one alternative that decides its turn. -/
theorem exists_decides_of_met {more : List Index.Entry}
    (h : turn.attempt site = (t, .ok (.met more))) :
    ∃ passed option u e later, turn.Decides site passed option u e ∧
      turn.asked site = passed ++ [option] ∧
      t.plan.edges = turn.planner.plan.edges ++ (some turn.entry, e) :: later := by
  obtain ⟨passed, option, others, u, hoptions, hpasses, hone, -⟩ :=
    tryOptions_met (fun _ _ => []) (fun h => (lacks_of_resolve h).2) h
  obtain ⟨e, later, hfinds, hedges⟩ := finds_of_resolve hone fun _ => by simp
  have hdecides : turn.Decides site passed option u e := ⟨⟨others, hoptions⟩, hpasses, hfinds⟩
  rw [hpasses.plan_eq] at hedges
  exact ⟨passed, option, u, e, later, hdecides, (hdecides.consulted (depth_ne_zero hone)).2,
    hedges⟩

end Turn

theorem addWithin_fails {site : Site} {depth : Nat} {query : Package.Name} {s t : Planner}
    {r : Resolution} {f : Failure} (h : resolve site depth none query s = (t, .ok r))
    (hfails : r.outcome = .error f) : (s.addWithin site depth query).2 = .error f := by
  simp only [addWithin, h]
  cases r with
  | resolved added => cases hfails
  | notFound missing => exact hfails
  | conflict package other => exact hfails
  | noCandidate package options => exact hfails

/-! ## Where edges come from -/

/-- The plan `q` has the edges of `p` and then others, each with a property. -/
def NewEdges (p q : Plan) (P : Option Index.Entry × Index.Entry → Prop) : Prop :=
  ∃ later, q.edges = p.edges ++ later ∧ ∀ edge ∈ later, P edge

namespace NewEdges

variable {p q r : Plan} {P Q : Option Index.Entry × Index.Entry → Prop}

theorem of_eq (h : q.edges = p.edges) : NewEdges p q P := ⟨[], by simp [h], by simp⟩

theorem singleton {edge : Option Index.Entry × Index.Entry} (h : q.edges = p.edges ++ [edge])
    (hedge : P edge) : NewEdges p q P :=
  ⟨[edge], h, by simpa using hedge⟩

theorem trans (h : NewEdges p q P) (h' : NewEdges q r P) : NewEdges p r P := by
  obtain ⟨later, hedges, hlater⟩ := h
  obtain ⟨more, hedges', hmore⟩ := h'
  refine ⟨later ++ more, by rw [hedges', hedges, List.append_assoc], fun edge hedge => ?_⟩
  exact (List.mem_append.1 hedge).elim (hlater edge) (hmore edge)

theorem mono (h : NewEdges p q P) (hPQ : ∀ edge, P edge → Q edge) : NewEdges p q Q := by
  obtain ⟨later, hedges, hlater⟩ := h
  exact ⟨later, hedges, fun edge hedge => hPQ edge (hlater edge hedge)⟩

end NewEdges

section

variable (resolve : Step) (P : Package.Name → Planner → Option Index.Entry × Index.Entry → Prop)

/-- The edge has the property for an alternative that is consulted. -/
def OfOption (options : List Package.Name) (s : Planner)
    (edge : Option Index.Entry × Index.Entry) : Prop :=
  ∃ option u, (option, u) ∈ consulted resolve options s ∧ P option u edge

/-- The edge has the property for an alternative that is consulted when the turn of its group
comes. -/
def OfGroup (groups : List (List Package.Name)) (s : Planner)
    (edge : Option Index.Entry × Index.Entry) : Prop :=
  ∃ group u, (group, u) ∈ faced resolve groups s ∧
    OfOption resolve P (kept u.plan.options group) u edge

/-- The edge leads to the entry from its parent, or it has the property for an alternative of a
group of the entry, which has passed the checks. -/
def OfEntry (parent : Option Index.Entry) (e : Index.Entry) (s : Planner)
    (edge : Option Index.Entry × Index.Entry) : Prop :=
  edge = (parent, e) ∨ (conflictOf? ((s.connect parent e).introduce e).plan e = none ∧
    OfGroup resolve P e.package.depends (s.takeUp parent e) edge)

variable {resolve P}
  (hresolve : ∀ query s, NewEdges s.plan (resolve query s).1.plan (P query s))

include hresolve

theorem newEdges_tryOptions (options : List Package.Name) (s : Planner) :
    NewEdges s.plan (tryOptions resolve options s).1.plan (OfOption resolve P options s) := by
  induction options generalizing s with
  | nil => exact .of_eq rfl
  | cons option rest ih =>
    have hfirst : NewEdges s.plan (resolve option s).1.plan
        (OfOption resolve P (option :: rest) s) :=
      (hresolve option s).mono fun edge hedge => ⟨option, s, List.mem_cons_self, hedge⟩
    simp only [tryOptions]
    split <;> rename_i heq <;> rw [heq] at hfirst
    · exact hfirst
    · exact hfirst
    · refine hfirst.trans ((ih _).mono ?_)
      rintro edge ⟨option', u, hmem, hedge⟩
      refine ⟨option', u, ?_, hedge⟩
      simp only [consulted, heq]
      exact List.mem_cons_of_mem _ hmem
    · exact hfirst

theorem newEdges_meetGroups (package : Package.Name) (groups : List (List Package.Name))
    (added : List Index.Entry) (s : Planner) :
    NewEdges s.plan (meetGroups resolve package groups added s).1.plan
      (OfGroup resolve P groups s) := by
  induction groups generalizing added s with
  | nil => exact .of_eq rfl
  | cons group rest ih =>
    simp only [meetGroups]
    split
    · next hskip =>
      refine (ih added s).mono ?_
      rintro edge ⟨group', u, hmem, hedge⟩
      refine ⟨group', u, ?_, hedge⟩
      simp only [faced, hskip, if_true]
      exact hmem
    · next hskip =>
      have hfirst : NewEdges s.plan (tryOptions resolve (kept s.plan.options group) s).1.plan
          (OfGroup resolve P (group :: rest) s) := by
        refine (newEdges_tryOptions hresolve _ s).mono fun edge hedge => ⟨group, s, ?_, hedge⟩
        simp only [faced, if_neg hskip]
        exact List.mem_cons_self
      split <;> rename_i heq <;> rw [heq] at hfirst
      · exact hfirst
      · refine hfirst.trans ((ih _ _).mono ?_)
        rintro edge ⟨group', u, hmem, hedge⟩
        refine ⟨group', u, ?_, hedge⟩
        simp only [faced, if_neg hskip, heq]
        exact List.mem_cons_of_mem _ hmem
      · exact hfirst
      · exact hfirst

theorem newEdges_take (parent : Option Index.Entry) (e : Index.Entry) (s : Planner) :
    NewEdges s.plan (take resolve parent e s).1.plan (OfEntry resolve P parent e s) := by
  simp only [take]
  split
  · exact .singleton rfl (.inl rfl)
  · next hconflict =>
    have hself : NewEdges s.plan (s.takeUp parent e).plan (OfEntry resolve P parent e s) :=
      .singleton (takeUp_edges s parent e) (.inl rfl)
    have hall := hself.trans
      ((newEdges_meetGroups hresolve e.name e.package.depends [e] (s.takeUp parent e)).mono
        fun edge hedge => .inr ⟨hconflict, hedge⟩)
    simp only [takeUp] at hall
    split
    · next heq =>
      rw [heq] at hall
      exact hall
    · exact hall

end

/-- How an edge comes about while a request is resolved: it leads from the parent to the entry that
the request finds, or from an entry to what the alternative has found that decides its turn. -/
inductive Explained (site : Site) (depth : Nat) (parent : Option Index.Entry)
    (query : Package.Name) (s : Planner) : Option Index.Entry × Index.Entry → Prop where
  | first {e : Index.Entry} (hfinds : Finds site query s e) :
      Explained site depth parent query s (parent, e)
  | turn {turn : Turn} {passed : List Package.Name} {option : Package.Name} {u : Planner}
      {e : Index.Entry} (hcomes : turn.Comes site depth parent query s)
      (hdecides : turn.Decides site passed option u e) :
      Explained site depth parent query s (some turn.entry, e)

/-- All edges that a request records are explained, however it ends. -/
theorem newEdges_resolve (site : Site) (depth : Nat) (parent : Option Index.Entry)
    (query : Package.Name) (s : Planner) :
    NewEdges s.plan (resolve site depth parent query s).1.plan
      (Explained site depth parent query s) := by
  induction depth generalizing parent query s with
  | zero => exact .of_eq rfl
  | succ depth ih =>
    simp only [resolve]
    split
    · next e hregistered => exact .singleton rfl (.first (.registered hregistered))
    · next hunregistered =>
      split
      · exact .of_eq rfl
      · next index results hsearch =>
        split
        · exact .of_eq rfl
        · next e hchoose =>
          refine (newEdges_take (ih (some e)) parent e { s with index }).mono ?_
          rintro edge (rfl | ⟨hconflict, group, v, hfaced, option, u, hconsulted, hedge⟩)
          · exact .first (.candidate hunregistered hsearch hchoose)
          · have hcomes : Turn.Comes site (depth + 1) parent query s ⟨depth, e, group, v⟩ :=
              .own hunregistered hsearch hchoose hconflict hfaced
            cases hedge with
            | first hfinds =>
              obtain ⟨passed, others, hoptions, hpasses⟩ :=
                passes_of_consulted (fun h => (lacks_of_resolve h).2) hconsulted
              exact .turn hcomes ⟨⟨others, hoptions⟩, hpasses, hfinds⟩
            | turn hinner hdecides => exact .turn (.inner hcomes hconsulted hinner) hdecides

/-- A request without a candidate leaves the plan alone. So the edges that a request from outside
records, the first one apart, all lead to what the first alternative finds that finds anything when
the turn of its group comes, wherever in the request that is. It is this alternative that a group is
met by, and those behind it are not asked. When it fails, the request from outside leaves off right
there and fails for the same reason. -/
theorem first_alternative_found_decides (site : Site) :
    (∀ depth parent query missing s t,
        resolve site depth parent query s = (t, .ok (.notFound missing)) → t.plan = s.plan) ∧
      ∀ depth query s,
        NewEdges s.plan (resolve site depth none query s).1.plan
            (Explained site depth none query s) ∧
          ∀ turn : Turn, turn.Comes site depth none query s →
            (∀ t more, turn.attempt site = (t, .ok (.met more)) →
                ∃ passed option u e later, turn.Decides site passed option u e ∧
                  turn.asked site = passed ++ [option] ∧
                  t.plan.edges = turn.planner.plan.edges ++ (some turn.entry, e) :: later) ∧
              ∀ passed option u e, turn.Decides site passed option u e →
                ∀ t r f, turn.step site option u = (t, .ok r) → r.outcome = .error f →
                  turn.asked site = passed ++ [option] ∧
                    resolve site depth none query s = (t, .ok r) ∧
                    (s.addWithin site depth query).2 = .error f ∧
                    (s.addWithin site depth query).1.plan = s.plan := by
  constructor
  · intro depth parent query missing s t hresolve
    exact (lacks_of_resolve hresolve).2.plan_eq
  · intro depth query s
    refine ⟨newEdges_resolve site depth none query s, fun turn hcomes => ⟨?_, ?_⟩⟩
    · intro t more hmet
      exact Turn.exists_decides_of_met hmet
    · intro passed option u e hdecides t r f hstep hfails
      obtain ⟨hconsulted, hasked⟩ := hdecides.consulted (Turn.depth_ne_zero hstep)
      have hr : Broken r := by
        constructor
        · rintro added rfl
          cases hfails
        · rintro missing rfl
          exact hdecides.finds.not_lacks (lacks_of_resolve hstep).2
      have hresolve := hcomes.resolve_eq (tryOptions_of_consulted hconsulted hstep hr)
      have herror := addWithin_fails hresolve hfails
      exact ⟨hasked, hresolve, herror, addWithin_error herror⟩

/-! ### An alternative that fails before one that would do -/

/-- An application with two groups. Of the first one the library is the first alternative that is
there; of the second one it is a tool, which needs something that is missing. -/
def substitutes : Index :=
  shelf [{ name := ⟨"alpine", "app", "1", "", false⟩
           depends := [[⟨"alpine", "missing", "", "", false⟩, ⟨"alpine", "lib", "", "", false⟩,
             ⟨"alpine", "spare", "", "", false⟩],
             [⟨"alpine", "tool", "", "", false⟩, ⟨"alpine", "lib", "", "", false⟩]] },
    { name := ⟨"alpine", "lib", "1", "", false⟩ },
    { name := ⟨"alpine", "spare", "1", "", false⟩ },
    { name := ⟨"alpine", "tool", "1", "", false⟩
      depends := [[⟨"alpine", "absent", "", "", false⟩]] }]

/-- The turn of the first group of the application. -/
def firstTurn : Turn where
  depth := 2
  entry := substitutes.entries[0]
  group := [⟨"alpine", "missing", "", "", false⟩, ⟨"alpine", "lib", "", "", false⟩,
    ⟨"alpine", "spare", "", "", false⟩]
  planner := (fresh substitutes {}).takeUp none substitutes.entries[0]

/-- The turn of its second group. -/
def secondTurn : Turn where
  depth := 2
  entry := substitutes.entries[0]
  group := [⟨"alpine", "tool", "", "", false⟩, ⟨"alpine", "lib", "", "", false⟩]
  planner := (firstTurn.attempt {}).1

theorem turns_come :
    firstTurn.Comes {} 3 none (.parse "app") (fresh substitutes {}) ∧
      secondTurn.Comes {} 3 none (.parse "app") (fresh substitutes {}) :=
  ⟨.own rfl rfl rfl rfl List.mem_cons_self,
    .own rfl rfl rfl rfl (List.mem_cons_of_mem _ List.mem_cons_self)⟩

/-- The first group is met by the library, after the missing alternative and before the spare one.
The second one fails with the tool, although the library is there by then, and with it the whole
request. -/
theorem tool_fails_before_library :
    (∃ passed option u e later, firstTurn.Decides {} passed option u e ∧
        firstTurn.asked {} = passed ++ [option] ∧
        (firstTurn.attempt {}).1.plan.edges =
          firstTurn.planner.plan.edges ++ (some firstTurn.entry, e) :: later) ∧
      secondTurn.planner.plan.installedEntry? ⟨"alpine", "lib", "", "", false⟩ =
        some substitutes.entries[1] ∧
      secondTurn.asked {} = [⟨"alpine", "tool", "", "", false⟩] ∧
      ((fresh substitutes {}).addWithin {} 3 (.parse "app")).2 =
        .error (.noCandidate substitutes.entries[3].name
          [⟨"alpine", "absent", "", "", false⟩]) := by
  obtain ⟨hfirst, hsecond⟩ := turns_come
  obtain ⟨-, hrequests⟩ := first_alternative_found_decides {}
  obtain ⟨-, hturns⟩ := hrequests 3 (.parse "app") (fresh substitutes {})
  have hmet : firstTurn.attempt {} =
      ((firstTurn.attempt {}).1, .ok (.met [substitutes.entries[1]])) := rfl
  have htool : secondTurn.Decides {} [] ⟨"alpine", "tool", "", "", false⟩ secondTurn.planner
      substitutes.entries[3] :=
    ⟨⟨_, rfl⟩, .nil, .candidate rfl rfl rfl⟩
  have hbroken : secondTurn.step {} ⟨"alpine", "tool", "", "", false⟩ secondTurn.planner =
      ((secondTurn.attempt {}).1, .ok (.noCandidate substitutes.entries[3].name
        [⟨"alpine", "absent", "", "", false⟩])) := rfl
  obtain ⟨hasked, -, herror, -⟩ := (hturns secondTurn hsecond).2 _ _ _ _ htool _ _ _ hbroken rfl
  exact ⟨(hturns firstTurn hfirst).1 _ _ hmet, by decide, hasked, herror⟩

end Planner

end Depot
