import Depot.Proofs.Index.Arising

/-!
# Merges in any order

While the fetchers stay as they are, a slot holds what its fetcher has from the first merge of that
fetcher on, whatever is merged before and after (`Sound.slot_mergeAll`). So merges come to the same
as a rebuild as soon as every fetcher is among them whose slot is not up to date
(`merges_reach_rebuild`).
-/

namespace Depot.Index

variable {ix : Index}

/-- An index after merges of the fetchers at some places. -/
def mergeAll (ix : Index) (places : List Nat) : Index := places.foldl merge ix

/-- Does a slot hold what its fetcher has? -/
def UpToDate (ix : Index) (place : Nat) : Prop := ix.current? place = some (ix.slot place)

theorem providers_merge (ix : Index) (place : Nat) : (ix.merge place).providers = ix.providers := by
  unfold merge
  split <;> rfl

theorem current?_merge (ix : Index) (place : Nat) :
    (ix.merge place).current? = ix.current? := by
  unfold current?
  rw [fetchers_merge]

theorem fetchers_mergeAll (ix : Index) (places : List Nat) :
    (ix.mergeAll places).fetchers = ix.fetchers := by
  induction places generalizing ix with
  | nil => rfl
  | cons place rest ih => exact (ih (ix.merge place)).trans (ix.fetchers_merge place)

theorem providers_mergeAll (ix : Index) (places : List Nat) :
    (ix.mergeAll places).providers = ix.providers := by
  induction places generalizing ix with
  | nil => rfl
  | cons place rest ih => exact (ih (ix.merge place)).trans (ix.providers_merge place)

theorem Arises.mergeAll (h : ix.Arises) (places : List Nat) : (ix.mergeAll places).Arises := by
  induction places generalizing ix with
  | nil => exact h
  | cons place rest ih => exact ih (h.merge place)

/-- The slots of the fetchers that were merged hold what these have, and the other slots are as they
were. -/
theorem Sound.slot_mergeAll (h : ix.Sound) (places : List Nat) (place : Nat) :
    (ix.mergeAll places).slot place =
      (if place ∈ places then ix.current? place else none).getD (ix.slot place) := by
  induction places generalizing ix with
  | nil => rfl
  | cons first rest ih =>
    refine (ih (h.merge first)).trans ?_
    rw [current?_merge, h.slot_merge, ← Option.getD_or]
    by_cases hfirst : place = first
    · subst hfirst
      by_cases hrest : place ∈ rest <;> simp [hrest]
    · simp [hfirst]

/-- Merges come to the same as a rebuild exactly if they leave out no fetcher whose slot is not up
to date. -/
theorem Arises.mergeAll_eq_rebuild_iff (h : ix.Arises) (places : List Nat) :
    ix.mergeAll places = ix.rebuild ↔
      ∀ place < ix.fetchers.length, place ∉ places → ix.UpToDate place := by
  have hslot {place : Nat} (hplace : place < ix.fetchers.length) :
      (ix.mergeAll places).slot place = ix.rebuild.slot place ↔
        (place ∉ places → ix.UpToDate place) := by
    rw [h.sound.slot_mergeAll, h.sound.slot_rebuild, UpToDate]
    by_cases hmem : place ∈ places
    · simp [hmem]
    · obtain ⟨f, hf⟩ : ∃ f, ix.fetchers[place]? = some f := ⟨_, List.getElem?_eq_getElem hplace⟩
      simp [hmem, current?, hf, eq_comm]
  constructor
  · intro hsame place hplace
    exact (hslot hplace).1 (by rw [hsame])
  · intro hall
    refine (h.mergeAll places).sound.ext h.rebuild.sound (ix.fetchers_mergeAll places)
      (ix.providers_mergeAll places) fun place hplace => ?_
    rw [fetchers_mergeAll] at hplace
    exact (hslot hplace).2 (hall place hplace)

theorem upToDate_rebuild {place : Nat} (h : place < ix.fetchers.length) :
    ix.rebuild.UpToDate place := by
  simp [UpToDate, slot, current?, rebuild, withSlots, h]

/-- Merges of all fetchers, in any order and however often, come to the same as a rebuild, and after
a rebuild there is nothing left to merge. -/
theorem merges_reach_rebuild (h : ix.Arises) (places : List Nat) :
    ((∀ place < ix.fetchers.length, place ∈ places) → ix.mergeAll places = ix.rebuild) ∧
      ix.rebuild.mergeAll places = ix.rebuild := by
  refine ⟨fun hall => ?_, ?_⟩
  · exact (h.mergeAll_eq_rebuild_iff places).2 fun place hplace hleft =>
      absurd (hall place hplace) hleft
  · have hagain : ix.rebuild.rebuild = ix.rebuild := rfl
    refine Eq.trans ?_ hagain
    exact (h.rebuild.mergeAll_eq_rebuild_iff places).2 fun place hplace _ => upToDate_rebuild hplace

/-! ### Two fetchers with the same id -/

/-- A fetcher that has loaded a package. -/
def holding (description : String) : Fetch.Fetcher where
  decl := ⟨"list", "alpine", [description]⟩
  source := { fetch := fun _ => .done }
  packages := [{ name := ⟨"alpine", "zlib", "1", "", false⟩, description }]
  loads := 1

/-- An index that has taken nothing over so far. -/
def unmerged : Index := (({} : Index).addFetcher (holding "main")).addFetcher (holding "edge")

/-- On the way the id leads to the package of the second fetcher, which was merged first, and in the
end to that of the first. -/
theorem second_fetcher_merged_first :
    unmerged.Arises ∧
      ((unmerged.mergeAll [1]).get? "alpine/zlib@1:").map (·.package.description) = some "edge" ∧
      (unmerged.rebuild.get? "alpine/zlib@1:").map (·.package.description) = some "main" ∧
      unmerged.mergeAll [1, 0, 1] = unmerged.rebuild ∧
      unmerged.rebuild.mergeAll [1, 0, 1] = unmerged.rebuild := by
  have harises : unmerged.Arises := .addFetcher _ (.addFetcher _ .empty)
  have hall : ∀ place < unmerged.fetchers.length, place ∈ [1, 0, 1] := by decide
  obtain ⟨hsame, hagain⟩ := merges_reach_rebuild harises [1, 0, 1]
  exact ⟨harises, by decide +kernel, by decide +kernel, hsame hall, hagain⟩

end Depot.Index
