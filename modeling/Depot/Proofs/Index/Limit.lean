import Depot.Index

/-!
# Results up to a limit

A search stops as soon as it has as many results as were asked for, in the slots of the fetchers
(`gatherSlots`) as well as in the memory of a provider (`gather`). What it has by then are the first
ones of what it finds without a limit (`gatherSlots_eq`, `remembered_eq`). So it is empty with a
limit when it is empty without, and the limit changes neither who answers a search nor what a
provider learns from it (`search_eq_take`).
-/

namespace Depot.Index

variable {α : Type} {max : Nat} {l : List α} {query : Package.Name}

/-! ## Limits -/

theorem mem_of_mem_limit {a : α} (h : a ∈ limit max l) : a ∈ l := by
  unfold limit at h
  split at h
  · exact h
  · exact List.mem_of_mem_take h

theorem limit_zero (l : List α) : limit 0 l = l := rfl

theorem limit_nil (max : Nat) : limit max ([] : List α) = [] := by
  unfold limit
  split <;> simp

/-- A limit never takes the first element away. -/
theorem limit_cons (max : Nat) (a : α) (l : List α) : ∃ l', limit max (a :: l) = a :: l' := by
  cases max with
  | zero => exact ⟨l, rfl⟩
  | succ n => exact ⟨l.take n, rfl⟩

theorem prefix_limit (max : Nat) (l : List α) : limit max l <+: l := by
  unfold limit
  split
  · exact List.prefix_refl l
  · exact List.take_prefix max l

theorem isFull_eq_true_iff {found : Nat} : isFull max found = true ↔ max ≠ 0 ∧ max ≤ found := by
  simp [isFull]

theorem isFull_nil (max : Nat) : isFull max ([] : List α).length = false := by
  cases max <;> rfl

theorem limit_of_not_full (h : isFull max l.length = false) : limit max l = l := by
  unfold limit
  split
  · rfl
  · next hmax =>
    have hshort : ¬ max ≤ l.length := by simpa [isFull, hmax] using h
    exact List.take_of_length_le (by omega)

theorem limit_append_of_full (h : isFull max l.length = true) (rest : List α) :
    limit max (l ++ rest) = limit max l := by
  obtain ⟨hmax, hlong⟩ := isFull_eq_true_iff.1 h
  simp only [limit, hmax, if_false, List.take_append_of_le_length hlong]

/-- The element that makes a list full is the last one that the limit lets through. -/
theorem limit_concat_of_not_full (h : isFull max l.length = false) (a : α) :
    limit max (l ++ [a]) = l ++ [a] := by
  unfold limit
  split
  · rfl
  · next hmax =>
    have hshort : ¬ max ≤ l.length := by simpa [isFull, hmax] using h
    exact List.take_of_length_le (by simp; omega)

/-! ## Loops that stop early -/

/-- Going through entries comes to the first ones of all that satisfy the query. -/
theorem gather_eq {found : List Entry} (hroom : isFull max found.length = false)
    (l : List Entry) :
    gather query max found l =
      (limit max (found ++ l.filter (·.satisfies query)),
        isFull max (found ++ l.filter (·.satisfies query)).length) := by
  induction l generalizing found with
  | nil => simp [gather, hroom, limit_of_not_full hroom]
  | cons e rest ih =>
    unfold gather
    cases he : e.satisfies query with
    | false => simpa [he] using ih hroom
    | true =>
      have hmore : found ++ (e :: rest).filter (·.satisfies query) =
          (found ++ [e]) ++ rest.filter (·.satisfies query) := by simp [he]
      have hlength : found.length + 1 = (found ++ [e]).length := by simp
      rw [if_pos rfl, hmore, hlength]
      cases hfull : isFull max (found ++ [e]).length with
      | false => exact ih hfull
      | true =>
        obtain ⟨hmax, hlong⟩ := isFull_eq_true_iff.1 hfull
        have hlonger : isFull max (found ++ [e] ++ rest.filter (·.satisfies query)).length = true :=
          isFull_eq_true_iff.2 ⟨hmax, by simp at hlong ⊢; omega⟩
        rw [if_pos rfl, limit_append_of_full hfull, limit_concat_of_not_full hroom, hlonger]

/-- Going through slots comes to the first ones of all entries that satisfy the query, less those of
fetchers that are skipped. -/
theorem gatherSlots_eq {found : List Entry} (hroom : isFull max found.length = false)
    (slots : List (Fetch.Fetcher × List Entry)) :
    gatherSlots query max found slots =
      limit max (found ++ (slots.filter (·.1.mayHave query)).flatMap
        (·.2.filter (·.satisfies query))) := by
  induction slots generalizing found with
  | nil => simp [gatherSlots, limit_of_not_full hroom]
  | cons s rest ih =>
    obtain ⟨f, slot⟩ := s
    unfold gatherSlots
    cases hf : f.mayHave query with
    | false => simpa [hf] using ih hroom
    | true =>
      have hslots : ((f, slot) :: rest).filter (·.1.mayHave query) =
          (f, slot) :: rest.filter (·.1.mayHave query) := List.filter_cons_of_pos hf
      rw [if_pos rfl, gather_eq hroom, hslots, List.flatMap_cons, ← List.append_assoc]
      -- a slot that makes the results full ends the search, and what comes behind is cut off
      cases hfull : isFull max (found ++ slot.filter (·.satisfies query)).length with
      | true => exact (limit_append_of_full hfull _).symm
      | false =>
        rw [limit_of_not_full hfull]
        exact ih hfull

/-! ## Providers -/

namespace Provider

variable {p : Provider} {place : Nat} {site : Site}

theorem remembered_eq (p : Provider) (place : Nat) (query : Package.Name) (max : Nat) :
    p.remembered place query max = limit max ((p.entries place).filter (·.satisfies query)) := by
  rw [remembered, gather_eq (isFull_nil max), List.nil_append]

theorem map_package_remembered (p : Provider) (place : Nat) (query : Package.Name) :
    (p.remembered place query 0).map (·.package) = p.memory.filter (·.satisfies query) := by
  have hentries : (p.entries place).map (·.package) = p.memory := by
    simp [entries, Function.comp_def]
  rw [remembered_eq, limit_zero, ← hentries, List.filter_map]
  rfl

/-- Entries of what comes to a memory come behind those that were there. -/
theorem entries_of_append {p' : Provider} {more : List Package}
    (h : p'.memory = p.memory ++ more) (place : Nat) :
    p'.entries place = p.entries place ++
      (more.zipIdx p.memory.length).map fun x => ⟨x.1, .found place x.2⟩ := by
  rw [entries, entries, h, List.zipIdx_append, List.map_append, Nat.zero_add]

theorem remembered_limited (p : Provider) (place : Nat) (query : Package.Name) (max : Nat) :
    p.remembered place query max = limit max (p.remembered place query 0) := by
  rw [remembered_eq, remembered_eq]
  rfl

theorem search_of_cons {e : Entry} {rest : List Entry}
    (h : p.remembered place query max = e :: rest) :
    p.search place site query max = (p, .ok (e :: rest)) := by
  simp only [search, h]

theorem search_of_nil (h : p.remembered place query max = []) :
    p.search place site query max =
      ((p.ask site query).1,
        (p.ask site query).2.map fun _ => (p.ask site query).1.remembered place query max) := by
  simp only [search, h]
  rcases p.ask site query with ⟨p', e | u⟩ <;> rfl

/-- A provider that is asked for so many results answers, fails and learns as it does without a
limit. -/
theorem search_of_limit (p : Provider) (place : Nat) (site : Site) (query : Package.Name)
    (max : Nat) :
    p.search place site query max =
      ((p.search place site query 0).1, (p.search place site query 0).2.map (limit max)) := by
  cases hall : p.remembered place query 0 with
  | cons e rest =>
    obtain ⟨rest', hrest'⟩ := limit_cons max e rest
    have hfirst : p.remembered place query max = e :: rest' := by
      rw [remembered_limited, hall, hrest']
    rw [search_of_cons hfirst, search_of_cons hall, Except.map, hrest']
  | nil =>
    have hnothing : p.remembered place query max = [] := by
      rw [remembered_limited, hall, limit_nil]
    rw [search_of_nil hnothing, search_of_nil hall]
    cases (p.ask site query).2 with
    | error e => rfl
    | ok u => simp only [Except.map, remembered_limited _ _ _ max]

end Provider

/-! ## Indexes -/

theorem search_eq_match (ix : Index) (site : Site) (query : Package.Name) (max : Nat) :
    ix.search site query max =
      match limit max (ix.scan query) with
      | [] => ix.searchProviders site query max
      | e :: rest => (ix, .ok (e :: rest)) := by
  have hscan : gatherSlots query max [] (ix.fetchers.zip ix.slots) = limit max (ix.scan query) :=
    gatherSlots_eq (isFull_nil max) _
  show (match gatherSlots query max [] (ix.fetchers.zip ix.slots) with
    | [] => ix.searchProviders site query max
    | e :: rest => (ix, .ok (e :: rest))) = _
  rw [hscan]

theorem searchProviders_of_limit (ix : Index) (site : Site) (query : Package.Name) (max : Nat) :
    ix.searchProviders site query max =
      ((ix.searchProviders site query 0).1,
        (ix.searchProviders site query 0).2.map (limit max)) := by
  unfold searchProviders
  cases ix.providerFor? query with
  | none => simp [Except.map, limit_nil]
  | some place =>
    cases hp : ix.providers[place]? with
    | none => simp [hp, Except.map, limit_nil]
    | some p => simp only [hp, p.search_of_limit place site query max]

/-- A search for at most `n` results has the first `n` of those that a search without a limit has,
or fails with the same failure, and leaves the index in the same state. -/
theorem search_eq_take (ix : Index) (site : Site) (query : Package.Name) {n : Nat} (hn : 0 < n) :
    ix.search site query n =
      ((ix.search site query 0).1, (ix.search site query 0).2.map (List.take n)) := by
  have htake : limit n = List.take (α := Entry) n := by
    funext l
    exact if_neg (by omega)
  rw [← htake, search_eq_match, search_eq_match]
  cases ix.scan query with
  | nil => simpa only [limit_nil] using ix.searchProviders_of_limit site query n
  | cons e rest =>
    obtain ⟨rest', hrest'⟩ := limit_cons n e rest
    simp only [hrest', limit_zero, Except.map]

/-! ### The first of two versions -/

/-- A package in two versions. -/
def toolAt (version : String) : Package := { name := ⟨"pypi", "tool", version, "", false⟩ }

/-- An index with nothing but a provider, whose source hands over both versions. -/
def twoVersions : Index :=
  ({} : Index).addProvider
    { decl := ⟨"script", "pypi", []⟩
      source := { fetch := fun _ => .add (toolAt "1") fun _ => .add (toolAt "2") fun _ => .done } }

/-- The provider answers with one version and remembers both. -/
theorem first_version_of_two :
    let query : Package.Name := .parse "pypi/tool"
    0 < 1 ∧
      twoVersions.search {} query 1 =
        ((twoVersions.search {} query 0).1,
          (twoVersions.search {} query 0).2.map (List.take 1)) ∧
      (twoVersions.search {} query 1).2 = .ok [⟨toolAt "1", .found 0 0⟩] ∧
      (twoVersions.search {} query 1).1.providers.map (·.memory) = [[toolAt "1", toolAt "2"]] :=
  ⟨Nat.one_pos, search_eq_take twoVersions {} _ Nat.one_pos, rfl, by decide +kernel⟩

end Depot.Index
