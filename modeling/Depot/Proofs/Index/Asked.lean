import Mathlib.Data.List.Basic
import Depot.Proofs.Index.Searches

/-!
# Which provider is asked

A query that no package of an index satisfies goes to the first provider that stands for its
distribution, and to no other one (`FirstFor.searchProviders`). What that provider says is the
answer of the search, even where it is empty and a later provider of the same distribution has more
to say (`first_provider_decides`).
-/

namespace Depot.Index

variable {ix : Index} {site : Site} {query : Package.Name} {max : Nat} {front back : List Provider}
  {p : Provider}

/-- Does a provider stand for the distribution of a query? -/
def Provider.StandsFor (query : Package.Name) (p : Provider) : Prop :=
  p.decl.distribution = query.distribution

/-- The first provider that stands for the distribution of a query, between the others. -/
structure FirstFor (query : Package.Name) (ix : Index) (front : List Provider) (p : Provider)
    (back : List Provider) : Prop where
  providers : ix.providers = front ++ p :: back
  front : ∀ q ∈ front, ¬ q.StandsFor query
  stands : p.StandsFor query

/-- A search that has found something. -/
def Answers (result : Outcome (List Entry)) : Prop := ∃ e rest, result = .ok (e :: rest)

theorem scan_eq_nil (hnone : ∀ package ∈ ix.packages, package.satisfies query = false) :
    ix.scan query = [] := by
  refine List.eq_nil_iff_forall_not_mem.2 fun e he => ?_
  have hmem : e.package ∈ ix.packages := List.mem_map_of_mem (mem_entries_of_scan he)
  have hsatisfies : e.package.satisfies query = true := satisfies_of_scan he
  rw [hnone _ hmem] at hsatisfies
  cases hsatisfies

theorem search_of_scan_nil (h : ix.scan query = []) :
    ix.search site query max = ix.searchProviders site query max := by
  rw [search_eq_match, h, limit_nil]

theorem searchProviders_of_none (h : ∀ p ∈ ix.providers, ¬ p.StandsFor query) :
    ix.searchProviders site query max = (ix, .ok []) := by
  have hplace : ix.providerFor? query = none :=
    List.findIdx?_eq_none_iff.2 fun p hp => beq_eq_false_iff_ne.2 (h p hp)
  simp only [searchProviders, hplace]

theorem FirstFor.providerFor? (h : FirstFor query ix front p back) :
    ix.providerFor? query = some front.length := by
  have hskipped : front.findIdx? (·.decl.distribution == query.distribution) = none :=
    List.findIdx?_eq_none_iff.2 fun q hq => beq_eq_false_iff_ne.2 (h.front q hq)
  have hhere : (p.decl.distribution == query.distribution) = true := beq_iff_eq.2 h.stands
  rw [Index.providerFor?, h.providers, List.findIdx?_append, hskipped, List.findIdx?_cons, hhere]
  simp

/-- The first provider for a distribution is asked, and all others stay as they are. -/
theorem FirstFor.searchProviders (h : FirstFor query ix front p back) (site : Site) (max : Nat) :
    ix.searchProviders site query max =
      ({ ix with providers := front ++ (p.search front.length site query max).1 :: back },
        (p.search front.length site query max).2) := by
  simp [Index.searchProviders, h.providerFor?, h.providers]

/-- Where a provider stands for a distribution, there is a first one. -/
theorem exists_firstFor (h : p ∈ ix.providers) (hstands : p.StandsFor query) :
    ∃ front first back, FirstFor query ix front first back := by
  have hfound : (ix.providers.find? (·.decl.distribution == query.distribution)).isSome :=
    List.find?_isSome.2 ⟨p, h, beq_iff_eq.2 hstands⟩
  obtain ⟨first, hfirst⟩ := Option.isSome_iff_exists.1 hfound
  obtain ⟨hstands, front, back, hproviders, hfront⟩ := List.find?_eq_some_iff_append.1 hfirst
  exact ⟨front, first, back, hproviders,
    fun q hq => by simpa [Provider.StandsFor] using hfront q hq, beq_iff_eq.1 hstands⟩

/-- Where no two providers stand for one distribution, each of them is the first for its own. -/
theorem firstFor_of_nodup {place : Nat} (hnodup : (ix.providers.map (·.decl.distribution)).Nodup)
    (hplace : ix.providers[place]? = some p) (hstands : p.StandsFor query) :
    ∃ front back, FirstFor query ix front p back ∧ front.length = place := by
  obtain ⟨hlt, rfl⟩ := List.getElem?_eq_some_iff.1 hplace
  have hsplit : ix.providers =
      ix.providers.take place ++ ix.providers[place] :: ix.providers.drop (place + 1) := by
    rw [← List.drop_eq_getElem_cons hlt, List.take_append_drop]
  have hlength : (ix.providers.take place).length = place :=
    List.length_take_of_le (Nat.le_of_lt hlt)
  refine ⟨_, _, ⟨hsplit, fun q hq hother => ?_, hstands⟩, hlength⟩
  rw [hsplit, List.map_append, List.map_cons, List.nodup_append] at hnodup
  exact hnodup.2.2 _ (List.mem_map_of_mem hq) _ List.mem_cons_self (hother.trans hstands.symm)

theorem answers_searchProviders_iff :
    Answers (ix.searchProviders site query max).2 ↔
      ∃ front p back, FirstFor query ix front p back ∧
        Answers (p.search front.length site query max).2 := by
  constructor
  · intro hanswers
    by_cases hany : ∃ p ∈ ix.providers, p.StandsFor query
    · obtain ⟨p, hp, hstands⟩ := hany
      obtain ⟨front, first, back, hfirst⟩ := exists_firstFor hp hstands
      rw [hfirst.searchProviders] at hanswers
      exact ⟨front, first, back, hfirst, hanswers⟩
    · rw [searchProviders_of_none fun p hp hstands => hany ⟨p, hp, hstands⟩] at hanswers
      obtain ⟨e, rest, hnothing⟩ := hanswers
      cases hnothing
  · rintro ⟨front, p, back, hfirst, hanswers⟩
    rw [hfirst.searchProviders]
    exact hanswers

/-- A query that no package of the index satisfies is answered by the first provider that stands for
its distribution, with whatever that one says, and all other providers stay as they are. So the
search has found something exactly if that provider has, and every provider that has an answer gets
to give it as long as no two of them stand for one distribution. -/
theorem first_provider_decides (ix : Index) (site : Site) (query : Package.Name) (max : Nat)
    (hnone : ∀ package ∈ ix.packages, package.satisfies query = false) :
    ((∀ p ∈ ix.providers, ¬ p.StandsFor query) → ix.search site query max = (ix, .ok [])) ∧
      (∀ front p back, FirstFor query ix front p back → ix.search site query max =
        ({ ix with providers := front ++ (p.search front.length site query max).1 :: back },
          (p.search front.length site query max).2)) ∧
      (Answers (ix.search site query max).2 ↔ ∃ front p back, FirstFor query ix front p back ∧
        Answers (p.search front.length site query max).2) ∧
      ((ix.providers.map (·.decl.distribution)).Nodup →
        ∀ (place : Nat) (p : Provider), ix.providers[place]? = some p → p.StandsFor query →
          Answers (p.search place site query max).2 → Answers (ix.search site query max).2) := by
  have hsearch : ix.search site query max = ix.searchProviders site query max :=
    search_of_scan_nil (scan_eq_nil hnone)
  rw [hsearch]
  refine ⟨searchProviders_of_none, fun _ _ _ hfirst => hfirst.searchProviders site max,
    answers_searchProviders_iff, fun hnodup place p hplace hstands hanswers => ?_⟩
  obtain ⟨front, back, hfirst, rfl⟩ := firstFor_of_nodup hnodup hplace hstands
  exact answers_searchProviders_iff.2 ⟨front, p, back, hfirst, hanswers⟩

/-! ### Two files for one distribution -/

/-- A provider over one index file. -/
def overFile (file : String) : Provider :=
  .fresh ⟨"json-index", "pypi", [file]⟩ Fetch.JsonIndex.source

/-- An index with two of them. -/
def twoFiles : Index :=
  (({} : Index).addProvider (overFile "main.jsonl")).addProvider (overFile "extra.jsonl")

/-- A package in the first file, and another one in the second file. -/
def twoFilesSite : Site where
  files :=
    ⟨⟨[(["main.jsonl"], .file "\x7b\"name\":\x7b\"name\":\"bar\"\x7d\x7d".toUTF8 0),
      (["extra.jsonl"], .file "\x7b\"name\":\x7b\"name\":\"foo\"\x7d\x7d".toUTF8 0)]⟩⟩

/-- The package in the second file. -/
def inExtra : Package := { name := ⟨"pypi", "foo", "", "", false⟩ }

theorem search_main :
    ((overFile "main.jsonl").search 0 twoFilesSite inExtra.name 0).2 = .ok [] := by
  decide +kernel

theorem search_extra :
    ((overFile "extra.jsonl").search 1 twoFilesSite inExtra.name 0).2 =
      .ok [⟨inExtra, .found 1 0⟩] := by
  decide +kernel

theorem satisfies_twoFiles :
    ∀ package ∈ twoFiles.packages, package.satisfies inExtra.name = false := by
  intro package hpackage
  cases hpackage

theorem firstFor_twoFiles :
    FirstFor inExtra.name twoFiles [] (overFile "main.jsonl") [overFile "extra.jsonl"] :=
  ⟨rfl, by simp, rfl⟩

/-- The provider over the first file is asked for a package of the second one, and has nothing to
say. -/
theorem main_asked_for_extra :
    (∀ package ∈ twoFiles.packages, package.satisfies inExtra.name = false) ∧
      FirstFor inExtra.name twoFiles [] (overFile "main.jsonl") [overFile "extra.jsonl"] ∧
      twoFiles.search twoFilesSite inExtra.name 0 =
        ({ twoFiles with
            providers := [((overFile "main.jsonl").search 0 twoFilesSite inExtra.name 0).1,
              overFile "extra.jsonl"] }, .ok []) := by
  refine ⟨satisfies_twoFiles, firstFor_twoFiles, ?_⟩
  obtain ⟨-, hfirst, -, -⟩ :=
    first_provider_decides twoFiles twoFilesSite inExtra.name 0 satisfies_twoFiles
  rw [hfirst _ _ _ firstFor_twoFiles, List.length_nil, search_main]
  rfl

/-- The provider over the second file would have had the package. -/
theorem second_provider_unasked :
    ¬ ∀ (ix : Index) (site : Site) (query : Package.Name) (max : Nat),
      (∀ package ∈ ix.packages, package.satisfies query = false) →
      (∀ (place : Nat) (p : Provider), ix.providers[place]? = some p →
        ∃ results, (p.search place site query max).2 = .ok results) →
      (∃ (place : Nat) (p : Provider), ix.providers[place]? = some p ∧ p.StandsFor query ∧
        Answers (p.search place site query max).2) →
          Answers (ix.search site query max).2 := by
  intro h
  have hsucceed : ∀ (place : Nat) (p : Provider), twoFiles.providers[place]? = some p →
      ∃ results, (p.search place twoFilesSite inExtra.name 0).2 = .ok results
    | 0, _, rfl => ⟨_, search_main⟩
    | 1, _, rfl => ⟨_, search_extra⟩
  obtain ⟨e, rest, hfound⟩ := h twoFiles twoFilesSite inExtra.name 0 satisfies_twoFiles hsucceed
    ⟨1, overFile "extra.jsonl", rfl, rfl, _, _, search_extra⟩
  rw [search_of_scan_nil (scan_eq_nil satisfies_twoFiles), firstFor_twoFiles.searchProviders,
    List.length_nil, search_main] at hfound
  cases hfound

end Depot.Index
