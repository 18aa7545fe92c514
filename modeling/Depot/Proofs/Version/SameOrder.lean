import Depot.Proofs.Fetch.Handle
import Depot.Proofs.Version.Hyphen

/-!
# Versions against their canonical forms

A release equals its canonical form, as both are the same release. A version with an early hyphen is
compared with its canonical form segment by segment (`compare_canonical_eq_iff`): zeros in front of
numbers do not count (`segments_of_zerosOnly`) and neither do marks, while a leading letter is one
segment more and puts the version below its canonical form (`compare_canonical_of_letter`).
-/

namespace Depot.Version

open Text.Decimal (wordLimit)

variable {s w p : List Char} {v c : String}

/-! ## Segments of a canonical form -/

theorem segmentsOf_extendBuild (build : List Char) (extra : List (List Char)) :
    segmentsOf (extendBuild build extra) = segmentsOf build ++ extra.flatMap segmentsOf := by
  have hdot : kind? '.' = none := by decide
  unfold extendBuild
  split
  · rw [List.flatMap_nil, List.append_nil]
  · split
    · next hempty =>
      rw [List.isEmpty_iff.1 hempty, segmentsOf_nil]
      exact segmentsOf_dotted extra
    · rw [segmentsOf_append hdot]
      exact congrArg _ (segmentsOf_dotted extra)

/-- An assembled version has the segments of the first three components, of the build part and of
the components behind the third. -/
theorem segmentsOf_assemble (front build : List Char) :
    segmentsOf (assemble front build) = ((components front).take 3).flatMap segmentsOf ++
      (segmentsOf build ++ ((components front).drop 3).flatMap segmentsOf) := by
  have hplus : kind? '+' = none := by decide
  rw [assemble_eq, ← segmentsOf_extendBuild]
  cases extendBuild build ((components front).drop 3) with
  | nil => rw [marked, List.append_nil, segmentsOf_dotted, segmentsOf_nil, List.append_nil]
  | cons c rest => rw [marked, segmentsOf_append hplus, segmentsOf_dotted]

/-! ## Leading zeros -/

/-- A text starts with digits that make up a word. -/
def WordFront (s : List Char) : Prop :=
  s.head?.any Char.isDigit = true ∧ Text.Decimal.value (s.takeWhile Char.isDigit) < wordLimit

instance (s : List Char) : Decidable (WordFront s) := inferInstanceAs (Decidable (_ ∧ _))

/-- A component is there, and zeros that it loses are those of a number that fits a word. -/
def Kept (part : List Char) : Prop :=
  part ≠ [] ∧ (part.head? = some '0' → WordFront (stripZeros part))

instance (part : List Char) : Decidable (Kept part) := inferInstanceAs (Decidable (_ ∧ (_ → _)))

theorem segmentsOf_of_wordFront (h : WordFront s) : segmentsOf s =
    .number (Text.Decimal.value (s.takeWhile Char.isDigit)) ::
      segmentsOf (s.dropWhile Char.isDigit) := by
  have hne : s.takeWhile Char.isDigit ≠ [] := by
    cases s with
    | nil => cases h.1
    | cons c rest =>
      have hc : c.isDigit = true := h.1
      rw [List.takeWhile_cons_of_pos hc]
      exact List.cons_ne_nil _ _
  have hword : Text.Decimal.word? (s.takeWhile Char.isDigit) =
      some (Text.Decimal.value (s.takeWhile Char.isDigit)) := by
    rw [Text.Decimal.word?, if_pos]
    simp [hne, h.2]
  rw [segmentsOf, runs_of_head_isDigit h.1, List.map_cons, Segment.ofRun, hword]
  rfl

theorem segmentsOf_zeros_append {zeros : List Char} (hzeros : ∀ c ∈ zeros, c = '0')
    (h : WordFront s) : segmentsOf (zeros ++ s) = segmentsOf s := by
  have hdigits : ∀ c ∈ zeros, c.isDigit = true := fun c hc => by rw [hzeros c hc]; rfl
  have hfront : WordFront (zeros ++ s) := by
    refine ⟨?_, ?_⟩
    · cases zeros with
      | nil => exact h.1
      | cons c rest => exact hdigits c List.mem_cons_self
    · rw [List.takeWhile_append_of_pos hdigits, Text.Decimal.value_zeros_append hzeros]
      exact h.2
  rw [segmentsOf_of_wordFront hfront, segmentsOf_of_wordFront h,
    List.takeWhile_append_of_pos hdigits, List.dropWhile_append_of_pos hdigits,
    Text.Decimal.value_zeros_append hzeros]

theorem segmentsOf_stripZeros (h : Kept p) : segmentsOf (stripZeros p) = segmentsOf p := by
  obtain ⟨hne, hkept⟩ := h
  by_cases hhead : p.head? = some '0'
  · obtain ⟨zeros, hp, hzeros⟩ := exists_zeros hne
    conv_rhs => rw [hp, segmentsOf_zeros_append hzeros (hkept hhead)]
  · obtain ⟨c, rest, rfl⟩ := List.exists_cons_of_ne_nil hne
    have hc : c ≠ '0' := fun heq => hhead (by rw [heq]; rfl)
    rw [stripZeros, List.dropWhile_cons_of_neg (by simpa using hc)]

/-! ## The letter in front -/

/-- Behind its marks, a version starts with the letter that its canonical form drops. -/
def HasLetter (s : List Char) : Prop :=
  ∃ marks rest, s = marks ++ 'v' :: rest ∧ ∀ c ∈ marks, c ∈ ['<', '>', '~']

theorem hasLetter_iff : HasLetter s ↔
    (s.dropWhile fun c => c == '<' || c == '>' || c == '~').head? = some 'v' := by
  constructor
  · rintro ⟨marks, rest, rfl, hmarks⟩
    rw [List.dropWhile_append_of_pos fun c hc => by simpa [or_assoc] using hmarks c hc]
    rfl
  · intro h
    obtain ⟨rest, hrest⟩ := List.head?_eq_some_iff.1 h
    refine ⟨s.takeWhile fun c => c == '<' || c == '>' || c == '~', rest, ?_, fun c hc => ?_⟩
    · rw [← hrest, List.takeWhile_append_dropWhile]
    · simpa [or_assoc] using List.mem_takeWhile_imp hc

instance (s : List Char) : Decidable (HasLetter s) := decidable_of_iff _ hasLetter_iff.symm

theorem segmentsOf_marks (h : ∀ c ∈ w, c ∈ ['<', '>', '~']) (s : List Char) :
    segmentsOf (w ++ s) = segmentsOf s := by
  have hmark : ∀ c ∈ ['<', '>', '~'], kind? c = none := by simp [kind?]
  rw [segmentsOf, runs_append_left fun c hc => hmark c (h c hc), segmentsOf]

theorem segmentsOf_undress (h : ¬HasLetter s) : segmentsOf (undress s) = segmentsOf s := by
  obtain ⟨marks, letter, hs, hmarks, hletter⟩ := exists_dress s
  rcases hletter with rfl | rfl
  · conv_rhs => rw [hs, List.nil_append, segmentsOf_marks hmarks]
  · exact absurd ⟨marks, undress s, hs, hmarks⟩ h

/-- The letter makes the version start with a text. -/
theorem exists_segments_of_letter (h : HasLetter s) :
    ∃ run rest, segmentsOf s = .text run :: rest := by
  obtain ⟨marks, rest, rfl, hmarks⟩ := h
  have hv : kind? 'v' = some .letter := by decide
  have hword : ∀ more, Text.Decimal.word? ('v' :: more) = none := fun more => by
    simp [Text.Decimal.word?]
  rw [segmentsOf_marks hmarks, segmentsOf, runs]
  simp only [hv, List.map_cons]
  exact ⟨_, _, by rw [Segment.ofRun, hword]⟩

/-- A semantic version starts with a number. -/
theorem exists_segments_text {s : Semantic} (h : s.Valid) :
    ∃ rest, segmentsOf s.text = .number s.major :: rest := by
  have hdot : kind? '.' = none := by decide
  have hmajor : s.major < wordLimit := h.numbers _ List.mem_cons_self
  rw [Semantic.text, List.map_cons, dotted_cons (by simp), List.append_assoc, List.append_assoc,
    List.cons_append, segmentsOf_append hdot, segmentsOf_digits hmajor]
  exact ⟨_, rfl⟩

/-! ## Comparisons -/

theorem release?_canonical (h : canonical v = .ok c) :
    (Version.mk c).release? = (Version.mk v).release? := by
  obtain ⟨s, hparse, hvalid, htext⟩ := exists_valid_of_canonical h
  rw [release?_of_canonical (v := ⟨v⟩) h hparse,
    release?_of_canonical (v := ⟨c⟩) (canonical_of_valid hvalid htext) hparse]

theorem release?_eq_none_iff_of_canonical (h : canonical v = .ok c) :
    (Version.mk v).release? = none ↔ EarlyHyphen ⟨v⟩ := by
  rw [release?_eq_none_iff, h]
  simp

theorem compare_canonical_of_early (h : canonical v = .ok c) (hearly : EarlyHyphen ⟨v⟩) :
    compare ⟨v⟩ ⟨c⟩ = compareSegments v c :=
  compare_of_left_none ((release?_eq_none_iff_of_canonical h).2 hearly)

theorem compare_canonical_of_not_early (h : canonical v = .ok c) (hearly : ¬EarlyHyphen ⟨v⟩) :
    compare ⟨v⟩ ⟨c⟩ = .eq := by
  have hne : (Version.mk v).release? ≠ none := fun hnone =>
    hearly ((release?_eq_none_iff_of_canonical h).1 hnone)
  obtain ⟨r, hr⟩ := Option.ne_none_iff_exists'.1 hne
  rw [compare_of_releases hr ((release?_canonical h).trans hr)]
  exact Std.ReflCmp.compare_self

theorem compare_canonical_eq_iff (h : canonical v = .ok c) :
    compare ⟨v⟩ ⟨c⟩ = .eq ↔ ¬EarlyHyphen ⟨v⟩ ∨ segments v = segments c := by
  by_cases hearly : EarlyHyphen ⟨v⟩
  · rw [compare_canonical_of_early h hearly, compareSegments_eq_iff,
      or_iff_right (not_not.2 hearly)]
  · exact iff_of_true (compare_canonical_of_not_early h hearly) (.inl hearly)

theorem compare_canonical_of_letter (h : canonical v = .ok c) (hearly : EarlyHyphen ⟨v⟩)
    (hletter : HasLetter v.toList) : compare ⟨v⟩ ⟨c⟩ = .lt := by
  obtain ⟨s, -, hvalid, htext⟩ := exists_valid_of_canonical h
  obtain ⟨run, rest, hv⟩ := exists_segments_of_letter hletter
  obtain ⟨rest', hc⟩ := exists_segments_text hvalid
  rw [compare_canonical_of_early h hearly, compareSegments, segments_eq, segments_eq, hv, htext, hc]
  rfl

/-! ## Versions that lose only zeros -/

/-- With a pre-release part, there are three components. -/
theorem three_le_of_hyphenBefore {front build : List Char} {s : Semantic}
    (h : assemble front build = s.text) (hearly : hyphenBefore 3 front = true) :
    3 ≤ (front.splitOn '.').length := by
  by_contra hfew
  have htwo : hyphenBefore 2 front = true := by
    obtain ⟨x, y, rfl, hunderscore, hplus, -⟩ := hyphenBefore_eq_true_iff.1 hearly
    refine hyphenBefore_eq_true_iff.2 ⟨x, y, rfl, hunderscore, hplus, ?_⟩
    rw [Text.length_splitOn, List.count_append] at hfew
    omega
  have hlength : (components front).length = 3 := by
    simp only [components, List.length_append, List.length_map, List.length_replicate]
    omega
  -- no hyphen of a semantic version comes before its second dot
  have htext := hyphenBefore_text 0 s
  rw [← h, assemble_eq, List.take_of_length_le hlength.le,
    hyphenBefore_append_right (hyphenBefore_marked _), hyphenBefore_components, htwo,
    hyphenBefore_zero] at htext
  cases htext

/-- Nothing of a version is moved or lost but marks and zeros in front of its components. -/
structure ZerosOnly (s : List Char) : Prop where
  no_letter : ¬HasLetter s
  no_underscore : '_' ∉ s
  no_last_letter : s.getLast?.any Char.isLower = false
  kept : ∀ part ∈ (undress s).splitOn '.', Kept part

instance (s : List Char) : Decidable (ZerosOnly s) :=
  decidable_of_iff (¬HasLetter s ∧ '_' ∉ s ∧ s.getLast?.any Char.isLower = false ∧
      ∀ part ∈ (undress s).splitOn '.', Kept part)
    ⟨fun ⟨h, h', h'', h'''⟩ => ⟨h, h', h'', h'''⟩, fun ⟨h, h', h'', h'''⟩ => ⟨h, h', h'', h'''⟩⟩

theorem parted_of_zerosOnly (h : ZerosOnly s) : parted (undress s) = (undress s, []) := by
  obtain ⟨marks, letter, hs, -⟩ := exists_dress s
  have hunderscore : '_' ∉ undress s := fun hmem => h.no_underscore <| by
    rw [hs]
    exact List.mem_append_right _ (List.mem_append_right _ hmem)
  rw [parted, Semantic.cut_of_notMem hunderscore, Option.getD_none, moveLetter]
  split
  · next c hlast =>
    have hlast' : s.getLast? = some c := by
      rw [hs, ← List.append_assoc, List.getLast?_append, hlast]
      rfl
    have hlower := h.no_last_letter
    rw [hlast', Option.any_some] at hlower
    rw [hlower]
    rfl
  · rfl

theorem segments_of_zerosOnly (h : canonical v = .ok c) (hearly : EarlyHyphen ⟨v⟩)
    (hzeros : ZerosOnly v.toList) : segments v = segments c := by
  rw [segments_eq, segments_eq, ← segmentsOf_undress hzeros.no_letter]
  obtain ⟨s, -, -, htext⟩ := exists_valid_of_canonical h
  rcases canonical_eq_ok_iff.1 h with ⟨-, hc⟩ | ⟨-, -, hc, -⟩
  · rw [hc]
  · have hbare : hyphenBefore 3 (undress v.toList) = true := by
      rw [hyphenBefore_undress]
      exact hyphenBefore_iff_earlyHyphen.2 hearly
    rw [parted_of_zerosOnly hzeros] at hc
    have hthree := three_le_of_hyphenBefore (hc.symm.trans htext) hbare
    have hcomponents : components (undress v.toList) =
        ((undress v.toList).splitOn '.').map stripZeros := by
      rw [components, List.length_map, Nat.sub_eq_zero_of_le hthree]
      exact List.append_nil _
    rw [hc, segmentsOf_assemble, segmentsOf_nil, List.nil_append, ← List.flatMap_append,
      List.take_append_drop, hcomponents]
    conv_lhs => rw [← dotted_splitOn (undress v.toList), segmentsOf_dotted]
    rw [List.flatMap_map]
    exact List.flatMap_congr fun part hpart => (segmentsOf_stripZeros (hzeros.kept part hpart)).symm

/-- A canonical form has a pre-release part exactly if some hyphen of the version is early. Without
one, the version equals its canonical form. With one, neither is read as a semantic version, and
the two are compared segment by segment: they are equal exactly if they have the same segments,
which they have if only marks are dropped, or only zeros of numbers besides; and the version is
below if a leading letter is dropped. Where semantic versions are promised, the canonical form is
what a name is kept with. -/
theorem compare_with_canonical (h : canonical v = .ok c) :
    (∃ s, Semantic.parse? c.toList = some s ∧ (EarlyHyphen ⟨v⟩ ↔ s.pre ≠ "")) ∧
      (¬EarlyHyphen ⟨v⟩ → compare ⟨v⟩ ⟨c⟩ = .eq) ∧
      (EarlyHyphen ⟨v⟩ → (Version.mk v).release? = none ∧ (Version.mk c).release? = none ∧
        compare ⟨v⟩ ⟨c⟩ = compareSegments v c ∧
        (compare ⟨v⟩ ⟨c⟩ = .eq ↔ segments v = segments c) ∧
        (HasLetter v.toList → compare ⟨v⟩ ⟨c⟩ = .lt)) ∧
      (¬HasLetter v.toList → c.toList = undress v.toList → compare ⟨v⟩ ⟨c⟩ = .eq) ∧
      (ZerosOnly v.toList → compare ⟨v⟩ ⟨c⟩ = .eq) ∧
      ∀ (handle : Fetch.Handle) (n n' : Package.Name), handle.pledged = true → n.version = v →
        (handle.validate n).2 = .ok n' → n'.version = c := by
  refine ⟨?_, compare_canonical_of_not_early h, fun hearly => ⟨?_, ?_, ?_, ?_, ?_⟩, ?_, ?_, ?_⟩
  · obtain ⟨s, hparse, -⟩ := exists_valid_of_canonical h
    exact ⟨s, hparse, earlyHyphen_iff (v := ⟨v⟩) h hparse⟩
  · exact (release?_eq_none_iff_of_canonical h).2 hearly
  · exact (release?_canonical h).trans ((release?_eq_none_iff_of_canonical h).2 hearly)
  · exact compare_canonical_of_early h hearly
  · rw [compare_canonical_of_early h hearly, compareSegments_eq_iff]
  · exact compare_canonical_of_letter h hearly
  · intro hletter hc
    refine (compare_canonical_eq_iff h).2 (.inr ?_)
    rw [segments_eq, segments_eq, hc, segmentsOf_undress hletter]
  · intro hzeros
    rw [compare_canonical_eq_iff h, or_iff_not_imp_left, not_not]
    exact fun hearly => segments_of_zerosOnly h hearly hzeros
  · rintro handle n n' hpledged rfl hn'
    rw [Fetch.Handle.eq_settled_of_validate hn', hpledged]
    exact Fetch.Handle.version_settled h

/-- Zeros do not count in front of a release number, and a letter does. -/
theorem compare_with_canonical_candidates :
    (canonical "~01.02.3-r0" = .ok "1.2.3-r0" ∧ compare ⟨"~01.02.3-r0"⟩ ⟨"1.2.3-r0"⟩ = .eq) ∧
      canonical "v1.2.3-rc1" = .ok "1.2.3-rc1" ∧ compare ⟨"v1.2.3-rc1"⟩ ⟨"1.2.3-rc1"⟩ = .lt := by
  have hzeros : canonical "~01.02.3-r0" = .ok "1.2.3-r0" := by decide +kernel
  have hletter : canonical "v1.2.3-rc1" = .ok "1.2.3-rc1" := by decide +kernel
  refine ⟨⟨hzeros, ?_⟩, hletter, ?_⟩
  · obtain ⟨-, -, -, -, hequal, -⟩ := compare_with_canonical hzeros
    exact hequal (by decide)
  · obtain ⟨-, -, hearly, -⟩ := compare_with_canonical hletter
    obtain ⟨-, -, -, -, hbelow⟩ := hearly (by decide)
    exact hbelow (by decide)

/-- A release candidate with a letter in front is below its canonical form. -/
theorem letter_changes_order :
    ¬∀ v c : String, canonical v = .ok c → compare ⟨v⟩ ⟨c⟩ = .eq := by
  intro h
  have hequal := h "v1.2.3-rc1" "1.2.3-rc1" (by decide +kernel)
  have hbelow : compare ⟨"v1.2.3-rc1"⟩ ⟨"1.2.3-rc1"⟩ = .lt := by decide +kernel
  exact absurd (hequal.symm.trans hbelow) (by decide)

end Depot.Version
