import Depot.Proofs.Planner.Rollback

/-!
# Which entry is chosen

A request for which nothing is registered is answered with one of the entries that a search finds,
be it in the index or by a provider. All of these fit the request (`Package.Name.satisfies_iff`),
and which one is taken depends on their order and on the preferred architecture
(`Plan.choose?_eq_some_iff`). The edge to the chosen entry is the first one that the request
records, so the plan shows it however the request ends (`resolve_of_unregistered`).
-/

namespace Depot

/-! ## Names that fit -/

/-- A name has all that a query says of it. What a query leaves empty may be anything, and its
version may be a bound. -/
structure Package.Name.Fits (name query : Package.Name) : Prop where
  distribution : query.distribution ≠ "" → name.distribution = query.distribution
  architecture : query.architecture ≠ "" → name.architecture = query.architecture
  bare : query.name ≠ "" → name.name = query.name
  below : ∀ bound, query.version.toList = '<' :: bound →
    Version.compare ⟨name.version⟩ ⟨String.ofList (Text.trim bound)⟩ = .lt
  above : ∀ bound, query.version.toList = '>' :: bound →
    Version.compare ⟨name.version⟩ ⟨String.ofList (Text.trim bound)⟩ = .gt
  exact : query.version ≠ "" → query.version.toList.head? ≠ some '<' →
    query.version.toList.head? ≠ some '>' → name.version = query.version

theorem Package.Name.partAccepts_iff {query part : String} :
    Package.Name.partAccepts query part = true ↔ (query ≠ "" → part = query) := by
  simp only [Package.Name.partAccepts, Bool.or_eq_true, String.isEmpty_iff, beq_iff_eq]
  constructor
  · rintro (hempty | hsame) hnonempty
    · exact absurd hempty hnonempty
    · exact hsame.symm
  · intro h
    by_cases hempty : query = ""
    · exact .inl hempty
    · exact .inr (h hempty).symm

theorem Version.satisfies_iff {version query : String} :
    Version.satisfies version query = true ↔
      (∀ bound, query.toList = '<' :: bound →
          Version.compare ⟨version⟩ ⟨String.ofList (Text.trim bound)⟩ = .lt) ∧
        (∀ bound, query.toList = '>' :: bound →
          Version.compare ⟨version⟩ ⟨String.ofList (Text.trim bound)⟩ = .gt) ∧
        (query ≠ "" → query.toList.head? ≠ some '<' → query.toList.head? ≠ some '>' →
          version = query) := by
  unfold Version.satisfies Version.Query.parse
  split
  · next hnil =>
    obtain rfl := String.toList_eq_nil_iff.1 hnil
    simp [Version.Query.accepts]
  · next bound hbelow => simp [hbelow, Version.Query.accepts]
  · next bound habove => simp [habove, Version.Query.accepts]
  · next hnonempty hbelow habove =>
    have hne : query ≠ "" := mt String.toList_eq_nil_iff.2 hnonempty
    obtain ⟨c, rest, hlist⟩ := List.exists_cons_of_ne_nil hnonempty
    have hlt : c ≠ '<' := by
      rintro rfl
      exact hbelow rest hlist
    have hgt : c ≠ '>' := by
      rintro rfl
      exact habove rest hlist
    simp only [Version.Query.accepts, beq_iff_eq, hlist, List.cons.injEq, hlt, hgt, false_and,
      false_imp_iff, implies_true, true_and, List.head?_cons, Option.some.injEq, ne_eq, hne,
      not_false_eq_true, true_imp_iff]
    exact eq_comm

/-- A name satisfies a query just when it fits. -/
theorem Package.Name.satisfies_iff {name query : Package.Name} :
    name.satisfies query = true ↔ name.Fits query := by
  simp only [Package.Name.satisfies, Bool.and_eq_true, Package.Name.partAccepts_iff,
    Version.satisfies_iff]
  constructor
  · rintro ⟨⟨⟨hdistribution, harchitecture⟩, hname⟩, hbelow, habove, hexact⟩
    exact ⟨hdistribution, harchitecture, hname, hbelow, habove, hexact⟩
  · rintro ⟨hdistribution, harchitecture, hname, hbelow, habove, hexact⟩
    exact ⟨⟨⟨hdistribution, harchitecture⟩, hname⟩, hbelow, habove, hexact⟩

/-! ## The preferred result -/

namespace Plan.Options

/-- The query with the preferred architecture in the place of its own. -/
def narrowed (o : Options) (query : Package.Name) : Package.Name :=
  { query with architecture := o.preferArchitecture }

/-- The architecture does not decide among some results: there is only one, none is preferred, or no
result satisfies the narrowed query. -/
def Indifferent (o : Options) (query : Package.Name) (results : List Index.Entry) : Prop :=
  results.length = 1 ∨ o.preferArchitecture = "" ∨
    ∀ r ∈ results, r.satisfies (o.narrowed query) = false

/-- The result to take: the first one, or the first one that satisfies the narrowed query if that
decides. -/
structure Prefers (o : Options) (query : Package.Name) (results : List Index.Entry)
    (e : Index.Entry) : Prop where
  first : o.Indifferent query results → results.head? = some e
  preferred : ¬o.Indifferent query results → e.satisfies (o.narrowed query) = true ∧
    ∃ front back, results = front ++ e :: back ∧
      ∀ r ∈ front, r.satisfies (o.narrowed query) = false

end Plan.Options

theorem Plan.choose?_eq_some_iff {o : Plan.Options} {query : Package.Name}
    {results : List Index.Entry} {e : Index.Entry} :
    Plan.choose? o query results = some e ↔ o.Prefers query results e := by
  -- where the architecture does not decide, both sides speak of the first result
  have hfirst (hindifferent : o.Indifferent query results) :
      o.Prefers query results e ↔ results.head? = some e :=
    ⟨fun h => h.first hindifferent, fun h => ⟨fun _ => h, fun hnot => absurd hindifferent hnot⟩⟩
  match results with
  | [] => simp [Plan.choose?, hfirst (.inr (.inr (by simp)))]
  | [x] => simp [Plan.choose?, hfirst (.inl rfl)]
  | x :: y :: rest =>
    simp only [Plan.choose?]
    by_cases hempty : o.preferArchitecture = ""
    · simp [hempty, hfirst (.inr (.inl hempty))]
    · rw [if_neg (mt String.isEmpty_iff.1 hempty)]
      change some (((x :: y :: rest).find? (·.satisfies (o.narrowed query))).getD x) = some e ↔ _
      cases hfind : (x :: y :: rest).find? (·.satisfies (o.narrowed query)) with
      | none =>
        have hnone : ∀ r ∈ x :: y :: rest, r.satisfies (o.narrowed query) = false := by
          simpa using List.find?_eq_none.1 hfind
        simp [hfirst (.inr (.inr hnone))]
      | some r =>
        have hdecides : ¬o.Indifferent query (x :: y :: rest) := by
          rintro (hone | hnone | hnone)
          · simp at hone
          · exact hempty hnone
          · have hr : r.satisfies (o.narrowed query) = true := by simpa using List.find?_some hfind
            rw [hnone r (List.mem_of_find?_eq_some hfind)] at hr
            cases hr
        rw [Option.getD_some, ← hfind, List.find?_eq_some_iff_append]
        simp only [Bool.not_eq_true']
        exact ⟨fun h => ⟨fun hindifferent => absurd hindifferent hdecides, fun _ => h⟩,
          fun h => h.preferred hdecides⟩

namespace Planner

/-! ## What is chosen shows in the plan -/

section

variable (site : Site) (depth : Nat) (parent : Option Index.Entry) {query : Package.Name}
  {s : Planner}

/-- A request for which nothing is registered leaves the plan alone and is cut short or lacks a
candidate, or it chooses an entry among what a search finds, and the edge to that entry is the first
one that it records. -/
theorem resolve_of_unregistered (h : s.plan.installedEntry? query = none) :
    ((resolve site depth parent query s).1.plan = s.plan ∧
        ((∃ f, (resolve site depth parent query s).2 = .error f) ∨
          (resolve site depth parent query s).2 = .ok (.notFound query))) ∨
      ∃ index results e later, s.index.search site query 0 = (index, .ok results) ∧
        Plan.choose? s.plan.options query results = some e ∧
        (resolve site depth parent query s).1.plan.edges =
          s.plan.edges ++ (parent, e) :: later := by
  cases depth with
  | zero => exact .inl ⟨rfl, .inl ⟨.tooDeep, rfl⟩⟩
  | succ depth =>
    rcases hsearch : s.index.search site query 0 with ⟨index, f | results⟩
    · have hcut : resolve site (depth + 1) parent query s = ({ s with index }, .error f) := by
        simp only [resolve, h, hsearch]
      rw [hcut]
      exact .inl ⟨rfl, .inl ⟨f, rfl⟩⟩
    · cases hchoose : Plan.choose? s.plan.options query results with
      | none =>
        rw [resolve_of_unfound h hsearch hchoose]
        exact .inl ⟨rfl, .inr rfl⟩
      | some e =>
        rw [resolve_of_chosen h hsearch hchoose]
        obtain ⟨later, hlater⟩ := (grows_take site depth parent e { s with index }).edges
        refine .inr ⟨index, results, e, later, rfl, hchoose, ?_⟩
        rw [← hlater]
        exact List.append_assoc ..

/-- A request for which nothing is registered changes the plan only when it chooses an entry, to
which the first edge leads that it records. That entry is one of the results of a search, some name
of it fits the request, and of the results it is the one that is preferred. -/
theorem chosen_entry_fits_and_is_preferred (hunregistered : s.plan.lookupKey? query = none) :
    ((resolve site depth parent query s).1.plan ≠ s.plan → ∃ e later,
        (resolve site depth parent query s).1.plan.edges =
          s.plan.edges ++ (parent, e) :: later) ∧
      ∀ e later, (resolve site depth parent query s).1.plan.edges =
          s.plan.edges ++ (parent, e) :: later →
        ∃ index results, s.index.search site query 0 = (index, .ok results) ∧ e ∈ results ∧
          (∃ name ∈ e.package.names, name.Fits query) ∧
          s.plan.options.Prefers query results e := by
  have hnone : s.plan.installedEntry? query = none := by
    rw [Plan.installedEntry?, hunregistered, Option.bind_none]
  rcases resolve_of_unregistered site depth parent hnone with
    ⟨hsame, -⟩ | ⟨index, results, e, later, hsearch, hchoose, hedges⟩
  · refine ⟨fun hchanged => absurd hsame hchanged, fun e later hedges => ?_⟩
    rw [hsame] at hedges
    simp at hedges
  · refine ⟨fun _ => ⟨e, later, hedges⟩, fun e' later' hedges' => ?_⟩
    rw [hedges] at hedges'
    obtain ⟨rfl, rfl⟩ : e = e' ∧ later = later' := by simpa using hedges'
    have hsatisfies : e.satisfies query = true := satisfies_of_choose? hsearch hchoose
    obtain ⟨name, hname, hmatch⟩ := Index.Entry.satisfies_iff.1 hsatisfies
    exact ⟨index, results, hsearch, mem_of_choose? hchoose,
      ⟨name, hname, Package.Name.satisfies_iff.1 hmatch⟩, Plan.choose?_eq_some_iff.1 hchoose⟩

end

/-! ### A preference against the architecture that was asked for -/

/-- A library for one architecture, and a replacement that provides it for two. -/
def ports : Index :=
  shelf [{ name := ⟨"alpine", "zlib", "1.3", "i386", false⟩ },
    { name := ⟨"alpine", "zlib-ng", "2", "i386", false⟩
      aliases := [⟨"alpine", "zlib", "1.2", "i386", false⟩,
        ⟨"alpine", "zlib", "1.3", "x86_64", false⟩] }]

/-- A request for the library on the first architecture, from a plan that prefers the second one.
Both packages fit the request, the replacement by its first alias. It is chosen because its other
alias is there for the preferred architecture. -/
theorem replacement_preferred :
    ∃ index results,
      ports.search {} ⟨"alpine", "zlib", "<1.4", "i386", false⟩ 0 = (index, .ok results) ∧
        ports.entries[1] ∈ results ∧
        (∃ name ∈ ports.entries[1].package.names,
          name.Fits ⟨"alpine", "zlib", "<1.4", "i386", false⟩) ∧
        ({ preferArchitecture := "x86_64" } : Plan.Options).Prefers
          ⟨"alpine", "zlib", "<1.4", "i386", false⟩ results ports.entries[1] := by
  have hunregistered : (fresh ports { preferArchitecture := "x86_64" }).plan.lookupKey?
      ⟨"alpine", "zlib", "<1.4", "i386", false⟩ = none := by decide
  obtain ⟨-, hchosen⟩ := chosen_entry_fits_and_is_preferred {} 2 none hunregistered
  exact hchosen ports.entries[1] [] (by decide)

end Planner

end Depot
