import Depot.Proofs.Version.Numbered

/-!
# Canonical forms

A text is its own canonical form exactly if it is the text of a valid semantic version
(`canonical_eq_self_iff`). Every canonical form is such a text, on whichever way it was found, and
taking the canonical form once more changes nothing (`canonical_is_fixed`).
-/

namespace Depot.Version

/-! ## Taking a version apart -/

/-- Marks and at most one letter are taken off in front. -/
theorem exists_dress (s : List Char) : ∃ marks letter, s = marks ++ (letter ++ undress s) ∧
    (∀ c ∈ marks, c ∈ ['<', '>', '~']) ∧ (letter = [] ∨ letter = ['v']) := by
  have hsplit := List.takeWhile_append_dropWhile (p := fun c => c == '<' || c == '>' || c == '~')
    (l := s)
  have hmarks : ∀ c ∈ s.takeWhile (fun c => c == '<' || c == '>' || c == '~'),
      c ∈ ['<', '>', '~'] := by
    intro c hc
    simpa [or_assoc] using List.mem_takeWhile_imp hc
  unfold undress
  split
  · next rest hrest =>
    refine ⟨_, ['v'], ?_, hmarks, .inr rfl⟩
    rw [List.singleton_append, ← hrest, hsplit]
  · exact ⟨_, [], hsplit.symm, hmarks, .inl rfl⟩

/-- The part of a version that is cut into components, and what is moved behind it. -/
def parted (s : List Char) : List Char × List Char :=
  moveLetter (Semantic.cut '_' s).1 ((Semantic.cut '_' s).2.getD [])

/-- A letter may be moved, with what comes behind an underscore. -/
theorem exists_moved (s : List Char) : ∃ letter,
    s = (parted s).1 ++ (letter ++ Semantic.behind '_' (Semantic.cut '_' s).2) ∧
      (parted s).2 = letter ++ (Semantic.cut '_' s).2.getD [] ∧ ∀ c ∈ letter, c.isLower = true := by
  have hcut := Semantic.append_behind_cut '_' s
  unfold parted moveLetter
  split
  · next c hlast =>
    split
    · next hlower =>
      refine ⟨[c], ?_, rfl, by simpa using hlower⟩
      rw [← List.append_assoc, List.dropLast_append_getLast? _ hlast, hcut]
    · exact ⟨[], hcut.symm, rfl, by simp⟩
  · exact ⟨[], hcut.symm, rfl, by simp⟩

/-- A build part with its mark, if there is one. -/
def marked : List Char → List Char
  | [] => []
  | c :: rest => '+' :: c :: rest

theorem assemble_eq (front build : List Char) :
    assemble front build = dotted ((components front).take 3) ++
      marked (extendBuild build ((components front).drop 3)) := by
  unfold assemble
  dsimp only
  generalize extendBuild build ((components front).drop 3) = b
  cases b with
  | nil => exact (List.append_nil _).symm
  | cons c rest => rfl

/-! ## Canonical forms -/

variable {v c : String}

/-- A canonical form is the text without its dress where that is semantic, and else what is
assembled from its parts. -/
theorem canonical_eq_ok_iff : canonical v = .ok c ↔
    ((Semantic.parse? (undress v.toList)).isSome = true ∧ c.toList = undress v.toList) ∨
      ((Semantic.parse? (undress v.toList)).isSome = false ∧
        (parted (undress v.toList)).1 ≠ [] ∧
        c.toList = assemble (parted (undress v.toList)).1 (parted (undress v.toList)).2 ∧
        (Semantic.parse? c.toList).isSome = true) := by
  have htext : ∀ s : List Char, String.ofList s = c ↔ c.toList = s := fun s => by
    rw [← String.toList_inj, String.toList_ofList, eq_comm]
  unfold canonical parted
  by_cases hbare : (Semantic.parse? (undress v.toList)).isSome = true
  · simp [hbare, htext]
  · have hnone : (Semantic.parse? (undress v.toList)).isSome = false := by simpa using hbare
    simp only [hnone, Bool.false_eq_true, if_false, false_and, false_or, true_and]
    generalize moveLetter _ _ = parts
    by_cases hempty : parts.1 = []
    · simp [hempty]
    · rw [if_neg (by simpa using hempty)]
      by_cases hparse : (Semantic.parse? (assemble parts.1 parts.2)).isSome = true
      · rw [if_pos hparse, Except.ok.injEq, htext]
        exact ⟨fun h => ⟨hempty, h, h ▸ hparse⟩, fun h => h.2.1⟩
      · rw [if_neg hparse]
        constructor
        · intro h
          cases h
        · rintro ⟨-, h, h'⟩
          exact absurd (h ▸ h') hparse

/-- A version starts with a digit, so that nothing is taken off it. -/
theorem undress_text (s : Semantic) : undress s.text = s.text := by
  have hne : [s.major, s.minor, s.patch] ≠ [] := List.cons_ne_nil _ _
  obtain ⟨d, rest, hhead, hd⟩ := head_dotted hne
  rw [Semantic.text, hhead, List.cons_append, List.cons_append, undress_of_digit hd]

theorem isSome_parse?_of_canonical (h : canonical v = .ok c) :
    (Semantic.parse? c.toList).isSome = true := by
  rcases canonical_eq_ok_iff.1 h with ⟨hparse, hc⟩ | ⟨-, -, -, hparse⟩
  · rwa [hc]
  · exact hparse

theorem canonical_of_valid {s : Semantic} (hvalid : s.Valid) (htext : c.toList = s.text) :
    canonical c = .ok c := by
  have hbare : undress c.toList = c.toList := by rw [htext, undress_text]
  have hparse : (Semantic.parse? c.toList).isSome = true := by
    rw [Semantic.parse?_eq_some_iff.2 ⟨hvalid, htext⟩, Option.isSome_some]
  simp only [canonical, hbare, if_pos hparse, String.ofList_toList]

theorem exists_valid_of_canonical (h : canonical v = .ok c) :
    ∃ s : Semantic, Semantic.parse? c.toList = some s ∧ s.Valid ∧ c.toList = s.text := by
  obtain ⟨s, hs⟩ := Option.isSome_iff_exists.1 (isSome_parse?_of_canonical h)
  exact ⟨s, hs, Semantic.parse?_eq_some_iff.1 hs⟩

/-- The fixed points of the canonical form are the texts of valid versions. -/
theorem canonical_eq_self_iff : canonical c = .ok c ↔ ∃ s : Semantic, s.Valid ∧ c.toList = s.text :=
  ⟨fun h => (exists_valid_of_canonical h).imp fun _ hs => hs.2,
    fun ⟨_, hvalid, htext⟩ => canonical_of_valid hvalid htext⟩

/-- A canonical form is read as a semantic version, and it is the text of this version: three
numbers that fit a word, written without leading zeros, with nothing else but identifiers behind a
hyphen and behind a plus sign. It is its own canonical form. -/
theorem canonical_is_fixed (h : canonical v = .ok c) :
    (∃ s : Semantic, Semantic.parse? c.toList = some s ∧ s.Valid ∧ c.toList = s.text) ∧
      canonical c = .ok c := by
  have hexists := exists_valid_of_canonical h
  exact ⟨hexists, canonical_eq_self_iff.2 (hexists.imp fun _ hs => hs.2)⟩

/-- Marks, leading zeros and a patch level are taken off once and for all. -/
theorem canonical_is_fixed_patch_level :
    canonical ">v1.02.3.4_p1" = .ok "1.2.3+p1.4" ∧
      (∃ s : Semantic, Semantic.parse? "1.2.3+p1.4".toList = some s ∧ s.Valid ∧
        "1.2.3+p1.4".toList = s.text) ∧
      canonical "1.2.3+p1.4" = .ok "1.2.3+p1.4" := by
  have h : canonical ">v1.02.3.4_p1" = .ok "1.2.3+p1.4" := by decide +kernel
  exact ⟨h, canonical_is_fixed h⟩

end Depot.Version
