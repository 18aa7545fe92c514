import Depot.Proofs.Fetch.JsonIndex
import Depot.Proofs.Index.Search

/-!
# Searches, one after the other

A provider is searched again and again. Its source may be any, so that it may hand over something
else each time it is asked, leave the query aside, or fail. What a single search does to the memory
is one of three things (`search_cases`), and in each case the memory goes on where it ended and has
each name once (`memory_prefix_search`, `nodup_search`). So the same holds of every run of searches,
and an answer from the memory is never taken back (`answered_for_good`).
-/

namespace Depot.Index

/-- A search as a provider is asked for it: what its source can see, the query and the limit. -/
structure Request where
  site : Site := {}
  query : Package.Name
  max : Nat := 0

namespace Provider

variable {p p' : Provider} {place : Nat} {site : Site} {query : Package.Name} {max : Nat}

/-- A provider that was never asked. -/
def fresh (decl : Fetch.Decl) (source : Fetch.Source) : Provider := { decl, source }

/-- A provider after some searches. -/
def after (p : Provider) (place : Nat) (requests : List Request) : Provider :=
  requests.foldl (fun p r => (p.search place r.site r.query r.max).1) p

/-! ## One search -/

theorem ask_cases (p : Provider) (site : Site) (query : Package.Name) :
    (∃ f, p.ask site query = ({ p with calls := p.calls + 1 }, .error f)) ∨
      ∃ produced : List Package, p.ask site query =
        ({ p with calls := p.calls + 1
                  memory := produced.foldl (addNew Package.name) p.memory }, .ok ()) := by
  unfold ask
  rcases (p.source.search ⟨site, p.calls, p.decl⟩ query).run { decl := p.decl } with
    ⟨handle, e | u⟩
  · exact .inl ⟨_, rfl⟩
  · exact .inr ⟨handle.packages, rfl⟩

/-- A search is answered from memory, or the source fails, or the memory answers after it has
learned from the source. -/
theorem search_cases (p : Provider) (place : Nat) (site : Site) (query : Package.Name) (max : Nat) :
    (∃ e rest, p.remembered place query max = e :: rest ∧
        p.search place site query max = (p, .ok (e :: rest))) ∨
      (∃ f, p.search place site query max = ({ p with calls := p.calls + 1 }, .error f)) ∨
      ∃ produced : List Package, ∃ p' : Provider,
        p' = { p with calls := p.calls + 1
                      memory := produced.foldl (addNew Package.name) p.memory } ∧
          p.search place site query max = (p', .ok (p'.remembered place query max)) := by
  cases hremembered : p.remembered place query max with
  | cons e rest => exact .inl ⟨e, rest, rfl, search_of_cons hremembered⟩
  | nil =>
    right
    rw [search_of_nil hremembered]
    rcases p.ask_cases site query with ⟨f, hask⟩ | ⟨produced, hask⟩
    · exact .inl ⟨f, by rw [hask]; rfl⟩
    · exact .inr ⟨produced, _, rfl, by rw [hask]; rfl⟩

theorem memory_prefix_search (p : Provider) (place : Nat) (site : Site) (query : Package.Name)
    (max : Nat) : p.memory <+: (p.search place site query max).1.memory := by
  rcases p.search_cases place site query max with
    ⟨e, rest, -, hsearch⟩ | ⟨f, hsearch⟩ | ⟨produced, p', rfl, hsearch⟩
  · exact hsearch ▸ List.prefix_refl _
  · exact hsearch ▸ List.prefix_refl _
  · obtain ⟨more, hmore, -⟩ := foldl_addNew_eq_append Package.name produced p.memory
    rw [hsearch, hmore]
    exact List.prefix_append _ _

theorem nodup_search (h : (p.memory.map (·.name)).Nodup) :
    ((p.search place site query max).1.memory.map (·.name)).Nodup := by
  rcases p.search_cases place site query max with
    ⟨e, rest, -, hsearch⟩ | ⟨f, hsearch⟩ | ⟨produced, p', rfl, hsearch⟩
  · rwa [hsearch]
  · rwa [hsearch]
  · rw [hsearch]
    exact nodup_foldl_addNew Package.name produced p.memory h

theorem memory_of_failed {f : Failure} (h : (p.search place site query max).2 = .error f) :
    (p.search place site query max).1.memory = p.memory := by
  rcases p.search_cases place site query max with
    ⟨e, rest, -, hsearch⟩ | ⟨f, hsearch⟩ | ⟨produced, p', -, hsearch⟩
  · rw [hsearch]
  · rw [hsearch]
  · rw [hsearch] at h
    cases h

/-- What a search says is what the provider remembers from then on. -/
theorem remembered_of_search {results : List Entry}
    (h : (p.search place site query max).2 = .ok results) :
    (p.search place site query max).1.remembered place query max = results := by
  rcases p.search_cases place site query max with
    ⟨e, rest, hremembered, hsearch⟩ | ⟨f, hsearch⟩ | ⟨produced, p', -, hsearch⟩
  · rw [hsearch] at h ⊢
    exact hremembered.trans (Except.ok.inj h)
  · rw [hsearch] at h
    cases h
  · rw [hsearch] at h ⊢
    exact Except.ok.inj h

/-! ## Memories that go on -/

theorem prefix_remembered (h : p.memory <+: p'.memory) (place : Nat) (query : Package.Name) :
    p.remembered place query 0 <+: p'.remembered place query 0 := by
  obtain ⟨more, hmore⟩ := h
  rw [remembered_eq, remembered_eq, entries_of_append hmore.symm]
  exact (List.prefix_append _ _).filter _

/-- A provider whose memory begins with one that has an answer needs no source, and its own answer
begins with that one. -/
theorem search_of_prefix {e : Entry} {rest : List Entry}
    (hremembered : p.remembered place query max = e :: rest) (h : p.memory <+: p'.memory) :
    ∃ more, ∀ site max', p'.search place site query max' =
      (p', .ok (limit max' (e :: rest ++ more))) := by
  have hprefix : e :: rest <+: p'.remembered place query 0 := by
    rw [← hremembered, remembered_limited]
    exact (prefix_limit max _).trans (prefix_remembered h place query)
  obtain ⟨more, hmore⟩ := hprefix
  refine ⟨more, fun site max' => ?_⟩
  obtain ⟨rest', hrest'⟩ := limit_cons max' e (rest ++ more)
  have hlimited : p'.remembered place query max' = e :: rest' := by
    rw [remembered_limited, ← hmore]
    exact hrest'
  rw [search_of_cons hlimited]
  exact congrArg (fun l => (p', Except.ok l)) hrest'.symm

/-! ## Runs -/

theorem memory_prefix_after (p : Provider) (place : Nat) (requests : List Request) :
    p.memory <+: (p.after place requests).memory := by
  induction requests generalizing p with
  | nil => exact List.prefix_refl _
  | cons r rest ih => exact (p.memory_prefix_search place r.site r.query r.max).trans (ih _)

theorem nodup_after (h : (p.memory.map (·.name)).Nodup) (place : Nat) (requests : List Request) :
    ((p.after place requests).memory.map (·.name)).Nodup := by
  induction requests generalizing p with
  | nil => exact h
  | cons r rest ih => exact ih (nodup_search h)

/-- In any run of searches of a provider with any source the memory only grows, at its end, and has
each name once; what is said satisfies the query; a failed search leaves the memory alone. When a
query has had an answer, the source is not asked for it again: the provider stays as it is, and what
it says without a limit begins with that answer. -/
theorem answered_for_good (decl : Fetch.Decl) (source : Fetch.Source) (place : Nat)
    (earlier : List Request) (now : Request) (later : List Request) :
    let p := (fresh decl source).after place earlier
    let answer := p.search place now.site now.query now.max
    let p' := answer.1.after place later
    (p.memory.map (·.name)).Nodup ∧
      p.memory <+: answer.1.memory ∧ answer.1.memory <+: p'.memory ∧
      (∀ results, answer.2 = .ok results → ∀ e ∈ results, e.satisfies now.query = true) ∧
      (∀ f, answer.2 = .error f → answer.1.memory = p.memory) ∧
      ∀ e rest, answer.2 = .ok (e :: rest) →
        (∀ site max, (p'.search place site now.query max).1 = p') ∧
          ∀ site, ∃ more, (p'.search place site now.query 0).2 = .ok (e :: rest ++ more) := by
  intro p answer p'
  have hlater : answer.1.memory <+: p'.memory := answer.1.memory_prefix_after place later
  refine ⟨nodup_after (by simp [fresh]) place earlier,
    p.memory_prefix_search place now.site now.query now.max, hlater,
    fun results h e he => satisfies_of_search h he, fun f h => memory_of_failed h,
    fun e rest h => ?_⟩
  obtain ⟨more, hagain⟩ := search_of_prefix (remembered_of_search h) hlater
  exact ⟨fun site max => by rw [hagain], fun site => ⟨more, by rw [hagain]; rfl⟩⟩

/-! ### A source that answers otherwise each time -/

/-- Fails at first, then has one version twice and another one, and then a third one, whatever it is
asked for. -/
def fickle : Fetch.Source where
  fetch := fun _ => .done
  search := fun ask _ =>
    match ask.calls with
    | 0 => .add (toolAt "1") fun _ => .fail .http
    | 1 => .add (toolAt "1") fun _ => .add (toolAt "1") fun _ => .add (toolAt "2") fun _ => .done
    | _ => .add (toolAt "1") fun _ => .add (toolAt "3") fun _ => .done

/-- The second search for the tool has the first answer, and a search for something else adds to
it. -/
theorem first_answer_stays :
    let tool : Request := { query := ⟨"pypi", "tool", "", "", false⟩, max := 1 }
    let lib : Request := { query := ⟨"pypi", "lib", "", "", false⟩ }
    let p := (fresh ⟨"script", "pypi", []⟩ fickle).after 0 [tool]
    let answer := p.search 0 tool.site tool.query tool.max
    let p' := answer.1.after 0 [lib]
    p.memory = [] ∧ p.calls = 1 ∧ answer.2 = .ok [⟨toolAt "1", .found 0 0⟩] ∧
      answer.1.memory = [toolAt "1", toolAt "2"] ∧
      p'.memory = [toolAt "1", toolAt "2", toolAt "3"] ∧ p'.calls = 3 ∧
      (∀ site max, (p'.search 0 site tool.query max).1 = p') ∧
      ∀ site, ∃ more, (p'.search 0 site tool.query 0).2 =
        .ok (⟨toolAt "1", .found 0 0⟩ :: more) := by
  intro tool lib p answer p'
  have hanswer : answer.2 = .ok [⟨toolAt "1", .found 0 0⟩] := by
    have hsome : answer.2.toOption = some [⟨toolAt "1", .found 0 0⟩] := by decide +kernel
    cases hresult : answer.2 with
    | error f => simp [hresult, Except.toOption] at hsome
    | ok results => simpa [hresult, Except.toOption] using hsome
  obtain ⟨-, -, -, -, -, hgood⟩ :=
    answered_for_good ⟨"script", "pypi", []⟩ fickle 0 [tool] tool [lib]
  obtain ⟨hsilent, hbegins⟩ := hgood _ _ hanswer
  exact ⟨by decide +kernel, by decide +kernel, hanswer, by decide +kernel, by decide +kernel,
    by decide +kernel, hsilent, hbegins⟩

end Provider

end Depot.Index
