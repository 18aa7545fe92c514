import Depot.Proofs.Version.Semantic

/-!
# The grammar of semantic versions

A semantic version is written as three numbers joined by dots, with identifiers joined by dots
behind a hyphen and behind a plus sign. Reading accepts exactly the texts of valid versions
(`parse?_eq_some_iff`), so every version has one text and a text that is read has no other parts.
-/

namespace Depot.Version.Semantic

open Text.Decimal (wordLimit)

/-- What follows a mark, with the mark in front. -/
def behind (mark : Char) : Option (List Char) → List Char
  | none => []
  | some s => mark :: s

/-- A part that a version may lack. -/
def part? (part : String) : Option (List Char) := if part = "" then none else some part.toList

/-- The text of a version. -/
def text (v : Semantic) : List Char :=
  dotted ([v.major, v.minor, v.patch].map digits) ++ behind '-' (part? v.pre) ++
    behind '+' (part? v.build)

/-- Identifiers of a class, joined by dots. -/
def Listed (isPart : List Char → Bool) (s : List Char) : Prop :=
  ∃ parts, (∀ part ∈ parts, isPart part = true) ∧ s = dotted parts

/-- A version as the grammar has it. -/
structure Valid (v : Semantic) : Prop where
  numbers : ∀ n ∈ [v.major, v.minor, v.patch], n < wordLimit
  pre : Listed isPreIdentifier v.pre.toList
  build : Listed isIdentifier v.build.toList

variable {mark : Char} {s front : List Char} {back : Option (List Char)} {part : String}
  {isPart : List Char → Bool}

/-! ## Parts -/

theorem notMem_cut (mark : Char) (s : List Char) : mark ∉ (cut mark s).1 := by
  intro hmem
  have hfront : (cut mark s).1 = s.takeWhile (· != mark) := by
    simp only [cut, List.span_eq_takeWhile_dropWhile]
    split <;> rename_i heq <;> exact (Prod.mk.inj heq).1.symm
  rw [hfront] at hmem
  exact absurd (List.mem_takeWhile_imp hmem) (by simp)

theorem append_behind_cut (mark : Char) (s : List Char) :
    (cut mark s).1 ++ behind mark (cut mark s).2 = s := by
  by_cases hmem : mark ∈ s
  · obtain ⟨front, back, rfl, hnot⟩ := List.eq_append_cons_of_mem hmem
    rw [cut_append hnot]
    rfl
  · rw [cut_of_notMem hmem]
    exact List.append_nil s

/-- A text is cut at the first mark, if it has one. -/
theorem cut_eq_iff : cut mark s = (front, back) ↔ mark ∉ front ∧ s = front ++ behind mark back := by
  constructor
  · intro h
    have hnot := notMem_cut mark s
    have happend := append_behind_cut mark s
    rw [h] at hnot happend
    exact ⟨hnot, happend.symm⟩
  · rintro ⟨hnot, rfl⟩
    cases back with
    | none => rw [behind, List.append_nil, cut_of_notMem hnot]
    | some back => exact cut_append hnot back

theorem component?_eq_some_iff {n : Nat} :
    component? s = some n ↔ s = digits n ∧ n < wordLimit := by
  constructor
  · intro h
    unfold component? Text.Decimal.word? at h
    split at h
    · next hnumeral =>
      split at h
      · next hword =>
        obtain rfl := Option.some.inj h
        simp only [Bool.and_eq_true, decide_eq_true_eq] at hword
        exact ⟨(Text.Decimal.toDigits_value hnumeral).symm, hword.2⟩
      · cases h
    · cases h
  · rintro ⟨rfl, hlt⟩
    exact component?_digits hlt

theorem tail?_eq_some_iff (hempty : isPart [] = false) (hdot : ∀ s, isPart s = true → '.' ∉ s) :
    tail? isPart back = some part ↔ Listed isPart part.toList ∧ back = part? part := by
  cases back with
  | none =>
    rw [tail?, Option.some_inj, part?]
    refine ⟨fun h => ?_, fun ⟨_, h⟩ => ?_⟩
    · subst h
      exact ⟨⟨[], by simp, rfl⟩, rfl⟩
    · split at h
      · next hpart => exact hpart.symm
      · cases h
  | some s =>
    simp only [tail?, part?]
    constructor
    · intro h
      split at h
      · next hall =>
        obtain rfl := Option.some.inj h
        have hne : String.ofList s ≠ "" := by
          intro hnil
          obtain rfl : s = [] := by simpa using congrArg String.toList hnil
          simp [hempty] at hall
        rw [String.toList_ofList, if_neg hne]
        exact ⟨⟨_, List.all_eq_true.1 hall, (dotted_splitOn s).symm⟩, rfl⟩
      · cases h
    · rintro ⟨⟨parts, hparts, hlist⟩, hback⟩
      split at hback
      · cases hback
      · next hne =>
        obtain rfl : s = part.toList := Option.some.inj hback
        have hsome : parts ≠ [] := by
          rintro rfl
          exact hne (String.toList_eq_nil_iff.1 hlist)
        rw [hlist, splitOn_dotted hsome fun p hp => hdot p (hparts p hp),
          if_pos (List.all_eq_true.2 hparts), ← hlist, String.ofList_toList]

/-! ## Versions -/

theorem dot_not_mem_of_isPreIdentifier (h : isPreIdentifier s = true) : '.' ∉ s :=
  dot_not_mem_of_isIdentifier (Bool.and_eq_true_iff.1 h).1

theorem pre?_eq_some_iff :
    tail? isPreIdentifier back = some part ↔
      Listed isPreIdentifier part.toList ∧ back = part? part :=
  tail?_eq_some_iff rfl fun _ => dot_not_mem_of_isPreIdentifier

theorem build?_eq_some_iff :
    tail? isIdentifier back = some part ↔ Listed isIdentifier part.toList ∧ back = part? part :=
  tail?_eq_some_iff rfl fun _ => dot_not_mem_of_isIdentifier

/-- Identifiers consist of letters, digits and hyphens, and so have no plus sign. -/
theorem plus_not_mem_of_listed (h : Listed isPreIdentifier s) : '+' ∉ s := by
  obtain ⟨parts, hparts, rfl⟩ := h
  intro hmem
  rcases mem_dotted hmem with heq | ⟨part, hpart, hc⟩
  · exact absurd heq (by decide)
  · have hidentifier := (Bool.and_eq_true_iff.1 (hparts part hpart)).1
    rw [isIdentifier, Bool.and_eq_true, List.all_eq_true] at hidentifier
    exact absurd (hidentifier.2 _ hc) (by decide)

theorem notMem_numbers {numbers : List Nat} (hdot : mark ≠ '.') (hdigit : mark.isDigit = false) :
    mark ∉ dotted (numbers.map digits) := by
  intro hmem
  rcases mem_dotted_digits hmem with rfl | htrue
  · exact hdot rfl
  · rw [hdigit] at htrue
    cases htrue

theorem plus_not_mem_behind {v : Semantic} (h : Listed isPreIdentifier v.pre.toList) :
    '+' ∉ behind '-' (part? v.pre) := by
  unfold part?
  split
  · exact List.not_mem_nil
  · rw [behind, List.mem_cons, not_or]
    exact ⟨by decide, plus_not_mem_of_listed h⟩

/-- A text is cut into the parts of the version that it writes. -/
theorem cut_text {v : Semantic} (h : Listed isPreIdentifier v.pre.toList) :
    cut '+' v.text = (dotted ([v.major, v.minor, v.patch].map digits) ++ behind '-' (part? v.pre),
        part? v.build) ∧
      cut '-' (dotted ([v.major, v.minor, v.patch].map digits) ++ behind '-' (part? v.pre)) =
        (dotted ([v.major, v.minor, v.patch].map digits), part? v.pre) := by
  have hplus : '+' ∉ dotted ([v.major, v.minor, v.patch].map digits) :=
    notMem_numbers (by decide) (by decide)
  have hhyphen : '-' ∉ dotted ([v.major, v.minor, v.patch].map digits) :=
    notMem_numbers (by decide) (by decide)
  refine ⟨cut_eq_iff.2 ⟨?_, rfl⟩, cut_eq_iff.2 ⟨hhyphen, rfl⟩⟩
  rw [List.mem_append, not_or]
  exact ⟨hplus, plus_not_mem_behind h⟩

theorem parse?_text {v : Semantic} (h : v.Valid) : parse? v.text = some v := by
  obtain ⟨hnumbers, hpre, hbuild⟩ := h
  obtain ⟨hplus, hhyphen⟩ := cut_text hpre
  have hsplit : (dotted ([v.major, v.minor, v.patch].map digits)).splitOn '.' = _ :=
    splitOn_dotted_digits (by simp)
  have hcomponent : ∀ n ∈ [v.major, v.minor, v.patch], component? (digits n) = some n :=
    fun n hn => component?_digits (hnumbers n hn)
  generalize dotted ([v.major, v.minor, v.patch].map digits) = numbers at *
  simp only [parse?, hplus, hhyphen, hsplit, List.map_cons, List.map_nil,
    hcomponent v.major (by simp), hcomponent v.minor (by simp), hcomponent v.patch (by simp),
    pre?_eq_some_iff.2 ⟨hpre, rfl⟩, build?_eq_some_iff.2 ⟨hbuild, rfl⟩]
  rfl

theorem valid_of_parse? {v : Semantic} (h : parse? s = some v) : v.Valid ∧ s = v.text := by
  rcases hplus : cut '+' s with ⟨front, build⟩
  rcases hhyphen : cut '-' front with ⟨numbers, pre⟩
  obtain ⟨-, rfl⟩ := cut_eq_iff.1 hplus
  obtain ⟨-, rfl⟩ := cut_eq_iff.1 hhyphen
  simp only [parse?, hplus, hhyphen] at h
  split at h
  · next a b c hsplit =>
    simp only [Option.bind_eq_bind, Option.bind_eq_some_iff] at h
    obtain ⟨major, hmajor, minor, hminor, patch, hpatch, pre', hpre, build', hbuild, hv⟩ := h
    obtain rfl := Option.some.inj hv
    obtain ⟨rfl, hlt⟩ := component?_eq_some_iff.1 hmajor
    obtain ⟨rfl, hlt'⟩ := component?_eq_some_iff.1 hminor
    obtain ⟨rfl, hlt''⟩ := component?_eq_some_iff.1 hpatch
    obtain ⟨hpre', rfl⟩ := pre?_eq_some_iff.1 hpre
    obtain ⟨hbuild', rfl⟩ := build?_eq_some_iff.1 hbuild
    have hjoined : dotted ([major, minor, patch].map digits) = numbers := by
      rw [List.map_cons, List.map_cons, List.map_cons, List.map_nil, ← hsplit]
      exact dotted_splitOn numbers
    refine ⟨⟨by simp [hlt, hlt', hlt''], hpre', hbuild'⟩, ?_⟩
    rw [text, hjoined]
  · cases h

/-- Reading accepts the texts of valid versions and nothing else. -/
theorem parse?_eq_some_iff {v : Semantic} : parse? s = some v ↔ v.Valid ∧ s = v.text :=
  ⟨valid_of_parse?, fun ⟨hvalid, heq⟩ => heq ▸ parse?_text hvalid⟩

/-! ## Versions without a pre-release -/

/-- What follows the three numbers: nothing, or a plus sign and identifiers joined by dots. -/
def plus : List (List Char) → List Char
  | [] => []
  | parts => '+' :: dotted parts

theorem plus_of_ne_nil {parts : List (List Char)} (h : parts ≠ []) :
    plus parts = '+' :: dotted parts := by
  cases parts with
  | nil => exact absurd rfl h
  | cons part rest => rfl

theorem dotted_ne_nil {parts : List (List Char)} (hne : parts ≠ [])
    (h : ∀ part ∈ parts, isIdentifier part = true) : dotted parts ≠ [] := by
  obtain ⟨part, rest, rfl⟩ := List.exists_cons_of_ne_nil hne
  have hpart : part ≠ [] := by
    rintro rfl
    exact absurd (h [] List.mem_cons_self) (by decide)
  rcases eq_or_ne rest [] with rfl | hrest
  · rwa [dotted_singleton]
  · rw [dotted_cons hrest]
    simp

theorem behind_plus {parts : List (List Char)} (h : ∀ part ∈ parts, isIdentifier part = true) :
    behind '+' (part? (String.ofList (dotted parts))) = plus parts := by
  rcases eq_or_ne parts [] with rfl | hne
  · rfl
  · have hsome : String.ofList (dotted parts) ≠ "" := fun heq =>
      dotted_ne_nil hne h (by simpa using congrArg String.toList heq)
    rw [plus_of_ne_nil hne, part?, if_neg hsome, String.toList_ofList, behind]

/-- Three numbers with identifiers after a plus sign are read as what they write. -/
theorem parse?_assembled {major minor patch : Nat}
    (h : ∀ n ∈ [major, minor, patch], n < wordLimit) {parts : List (List Char)}
    (hparts : ∀ part ∈ parts, isIdentifier part = true) :
    parse? (dotted ([major, minor, patch].map digits) ++ plus parts) =
      some ⟨major, minor, patch, "", String.ofList (dotted parts)⟩ := by
  have hnone : Listed isPreIdentifier "".toList := ⟨[], by simp, rfl⟩
  have hbuild : Listed isIdentifier (String.ofList (dotted parts)).toList :=
    ⟨parts, hparts, String.toList_ofList⟩
  refine parse?_eq_some_iff.2 ⟨⟨h, hnone, hbuild⟩, ?_⟩
  rw [text, behind_plus hparts]
  exact congrArg (· ++ plus parts) (List.append_nil _).symm

/-- A text without a plus sign and a hyphen that is read has three numbers and nothing else. -/
theorem three_numbers_of_parse? (hplus : '+' ∉ s) (hhyphen : '-' ∉ s)
    (h : (parse? s).isSome = true) :
    (s.splitOn '.').length = 3 ∧ ∀ c ∈ s, c = '.' ∨ c.isDigit = true := by
  obtain ⟨v, hv⟩ := Option.isSome_iff_exists.1 h
  obtain ⟨-, rfl⟩ := parse?_eq_some_iff.1 hv
  simp only [text, List.mem_append, not_or] at hplus hhyphen
  have hbuild : part? v.build = none := by
    by_contra hsome
    obtain ⟨build, heq⟩ := Option.ne_none_iff_exists'.1 hsome
    exact hplus.2 (heq ▸ List.mem_cons_self)
  have hpre : part? v.pre = none := by
    by_contra hsome
    obtain ⟨pre, heq⟩ := Option.ne_none_iff_exists'.1 hsome
    exact hhyphen.1.2 (heq ▸ List.mem_cons_self)
  rw [text, hbuild, hpre, behind, behind, List.append_nil, List.append_nil]
  refine ⟨?_, fun c hc => mem_dotted_digits hc⟩
  rw [splitOn_dotted_digits (by simp)]
  rfl

end Depot.Version.Semantic
