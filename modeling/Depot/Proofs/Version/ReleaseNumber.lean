import Depot.Proofs.Version.Hyphen

/-!
# Release numbers

A hyphen and a number at the end of a version, its release number, stay together: they end up in the
last segment of the version and in one segment of its canonical form. Whether the version is a
release does not depend on the number, and if it is one, another number changes this segment of the
build part and nothing else (`exists_releases`). So two versions that differ in their release
numbers are compared by them as segments (`compare_numberedRelease`), which is the order of the
numbers as long as both fit a word (`compare_release_numbers`).
-/

namespace Depot.Version

open Text.Decimal (wordLimit)

/-- A text with a hyphen and a number behind it. -/
def numberedRelease (b : String) (n : Nat) : Version := ⟨b ++ "-" ++ toString n⟩

/-- A release number with components behind it. -/
def ending (n : Nat) (more : List (List Char)) : List Char := '-' :: dotted (digits n :: more)

/-- The texts differ in a release number only, and components may follow it. -/
def NumberOnly (f : Nat → List Char) : Prop :=
  ∃ x more, (∀ part ∈ more, '.' ∉ part) ∧ ∀ n, f n = x ++ ending n more

variable {b : String} {p : List Char} {f : Nat → List Char} {more : List (List Char)} {m n : Nat}

theorem ending_eq (n : Nat) (more : List (List Char)) :
    ending n more = '-' :: digits n ++ more.flatMap ('.' :: ·) := by
  rw [ending, dotted_cons_eq, List.cons_append]

theorem numberOnly_ending (s : List Char) : NumberOnly fun n => s ++ ending n [] :=
  ⟨s, [], by simp, fun _ => rfl⟩

theorem toList_numberedRelease (b : String) (n : Nat) :
    (numberedRelease b n).text.toList = b.toList ++ ending n [] := by
  simp [numberedRelease, Nat.toString_eq_repr, ending, dotted_singleton]

/-! ## Reading -/

/-- A text in the middle of joined parts. -/
theorem dotted_middle (front : List (List Char)) (last t : List Char) (more : List (List Char)) :
    dotted (front ++ (last ++ t) :: more) =
      dotted (front ++ [last]) ++ (t ++ more.flatMap ('.' :: ·)) := by
  rcases eq_or_ne front [] with rfl | hfront
  · simp [dotted_cons_eq]
  · simp [dotted_append hfront]

theorem exists_dotted (s : List Char) :
    ∃ front last, s = dotted (front ++ [last]) ∧ s.splitOn '.' = front ++ [last] := by
  have hne := List.splitOn_ne_nil '.' s
  have hsplit := (List.dropLast_append_getLast hne).symm
  refine ⟨_, _, ?_, hsplit⟩
  rw [← hsplit, dotted_splitOn]

theorem dot_notMem_release (n : Nat) : '.' ∉ '-' :: digits n := by
  rw [List.mem_cons, not_or]
  exact ⟨by decide, dot_not_mem_digits n⟩

/-- A release number goes to the last component of what is in front of it. -/
theorem exists_splitOn_ending (s : List Char) : ∃ front last, s = dotted (front ++ [last]) ∧
    ∀ n more, (∀ part ∈ more, '.' ∉ part) →
      (s ++ ending n more).splitOn '.' = front ++ (last ++ '-' :: digits n) :: more := by
  obtain ⟨front, last, hs, hsplit⟩ := exists_dotted s
  have hdot : ∀ part ∈ front ++ [last], '.' ∉ part := fun part hpart =>
    Text.notMem_of_mem_splitOn (hsplit ▸ hpart)
  rw [List.forall_mem_append, List.forall_mem_singleton] at hdot
  refine ⟨front, last, hs, fun n more hmore => ?_⟩
  have hlast : '.' ∉ last ++ '-' :: digits n := by
    rw [List.mem_append, not_or]
    exact ⟨hdot.2, dot_notMem_release n⟩
  conv_lhs => rw [hs, ending_eq, ← dotted_middle]
  refine splitOn_dotted (by simp) ?_
  rw [List.forall_mem_append, List.forall_mem_cons]
  exact ⟨hdot.1, hlast, hmore⟩

theorem isIdentifier_release {s : List Char}
    (h : Semantic.isIdentifier (s ++ '-' :: digits m) = true) (n : Nat) :
    Semantic.isIdentifier (s ++ '-' :: digits n) = true := by
  have hdigits := (Bool.and_eq_true_iff.1 (isIdentifier_digits n)).2
  rw [Semantic.isIdentifier, Bool.and_eq_true, List.all_append, Bool.and_eq_true] at h ⊢
  refine ⟨by simp, h.2.1, ?_⟩
  rw [List.all_cons, hdigits]
  rfl

/-- Among identifiers, the release number may be another one. -/
theorem listed_ending (hmore : ∀ part ∈ more, '.' ∉ part)
    (h : Semantic.Listed Semantic.isIdentifier (p ++ ending m more)) (n : Nat) :
    Semantic.Listed Semantic.isIdentifier (p ++ ending n more) := by
  obtain ⟨front, last, -, hsplit⟩ := exists_splitOn_ending p
  obtain ⟨parts, hparts, heq⟩ := h
  have hne : parts ≠ [] := by
    rintro rfl
    simp [dotted, ending] at heq
  have hpieces : parts = front ++ (last ++ '-' :: digits m) :: more := by
    rw [← hsplit m more hmore, heq, splitOn_dotted hne fun part hpart =>
      Semantic.dot_not_mem_of_isIdentifier (hparts part hpart)]
  rw [hpieces, List.forall_mem_append, List.forall_mem_cons] at hparts
  refine ⟨front ++ (last ++ '-' :: digits n) :: more, ?_, ?_⟩
  · rw [List.forall_mem_append, List.forall_mem_cons]
    exact ⟨hparts.1, isIdentifier_release hparts.2.1 n, hparts.2.2⟩
  · rw [← hsplit n more hmore]
    exact (dotted_splitOn _).symm

/-- If a semantic version has a release number in its build part, any other number makes one that
differs in the build part only, and there in the number only. -/
theorem exists_parse?_numberOnly {s : Semantic} (hf : NumberOnly f)
    (h : Semantic.parse? (f m) = some s) (hpre : s.pre = "") : ∃ g, NumberOnly g ∧
      ∀ n, Semantic.parse? (f n) = some { s with build := String.ofList (g n) } := by
  obtain ⟨x, more, hmore, hx⟩ := hf
  obtain ⟨⟨hnumbers, hlisted, hbuild⟩, htext⟩ := Semantic.parse?_eq_some_iff.1 h
  obtain ⟨p, rfl, hp⟩ := exists_build_of_hyphen hpre (htext.symm.trans (hx m))
  refine ⟨_, ⟨p, more, hmore, fun _ => rfl⟩, fun n => ?_⟩
  refine Semantic.parse?_eq_some_iff.2 ⟨⟨hnumbers, hlisted, ?_⟩, ?_⟩
  · rw [String.toList_ofList]
    exact listed_ending hmore (hp ▸ hbuild) n
  · have hfront : Semantic.behind '-' (Semantic.part? s.pre) = [] := by
      rw [Semantic.part?, if_pos hpre, Semantic.behind]
    have hback : Semantic.part? (String.ofList (p ++ ending n more)) =
        some (p ++ ending n more) := by
      rw [Semantic.part?, if_neg, String.toList_ofList]
      exact fun hnil => by simpa [ending] using congrArg String.toList hnil
    rw [hx, Semantic.text, hfront, hback, Semantic.behind, List.append_nil, List.append_assoc,
      List.cons_append]

/-! ## The canonical form -/

theorem undress_ending (s : List Char) (n : Nat) (more : List (List Char)) :
    undress (s ++ ending n more) = undress s ++ ending n more := by
  have hstop : (fun c : Char => c == '<' || c == '>' || c == '~') '-' = false := rfl
  unfold undress
  rw [ending, dropWhile_append_stop hstop]
  cases s.dropWhile (fun c => c == '<' || c == '>' || c == '~') with
  | nil => rfl
  | cons c rest =>
    by_cases hc : c = 'v'
    · subst hc
      rfl
    · simp [hc]

theorem stripZeros_release (s : List Char) (n : Nat) :
    stripZeros (s ++ '-' :: digits n) = s.dropWhile (· == '0') ++ '-' :: digits n := by
  have hstop : (fun c : Char => c == '0') '-' = false := rfl
  rw [stripZeros, dropWhile_append_stop (p := (· == '0')) hstop]
  cases s.dropWhile (· == '0') <;> rfl

/-- The components of a text that ends with a release number. -/
theorem exists_components_ending (s : List Char) :
    ∃ front last, ∀ n, components (s ++ ending n []) =
      front ++ (last ++ '-' :: digits n) :: List.replicate (2 - front.length) ['0'] := by
  obtain ⟨front, last, -, hsplit⟩ := exists_splitOn_ending s
  refine ⟨front.map stripZeros, last.dropWhile (· == '0'), fun n => ?_⟩
  have hcount : 3 - ((front ++ [last ++ '-' :: digits n]).map stripZeros).length =
      2 - (front.map stripZeros).length := by
    simp
  unfold components
  rw [hsplit n [] (by simp)]
  dsimp only
  rw [hcount, List.map_append, List.map_singleton, stripZeros_release, List.append_assoc,
    List.singleton_append]

theorem extendBuild_nil (extra : List (List Char)) : extendBuild [] extra = dotted extra := by
  cases extra <;> rfl

theorem extendBuild_ending (s : List Char) (n : Nat) (extra : List (List Char)) :
    extendBuild (s ++ ending n []) extra = s ++ ending n extra := by
  cases extra with
  | nil => rfl
  | cons part rest =>
    have hne : (s ++ ending n []).isEmpty = false := by simp [ending]
    simp only [extendBuild, hne, Bool.false_eq_true, if_false]
    rw [ending, ending, dotted_singleton, dotted_cons (List.cons_ne_nil _ _), List.append_assoc]
    rfl

theorem marked_ending (s : List Char) (n : Nat) (more : List (List Char)) :
    marked (s ++ ending n more) = '+' :: s ++ ending n more := by
  cases s <;> rfl

/-- A release number behind an underscore is followed by the components after the third. -/
theorem numberOnly_assemble_build (front build : List Char) :
    NumberOnly fun n => assemble front (build ++ ending n []) := by
  refine ⟨dotted ((components front).take 3) ++ '+' :: build, (components front).drop 3,
    fun part hpart => ?_, fun n => ?_⟩
  · exact dot_notMem_of_mem_components (List.mem_of_mem_drop hpart)
  · beta_reduce
    rw [assemble_eq, extendBuild_ending, marked_ending, List.append_assoc]

/-- A release number in a component stays there, and only zeros may follow. -/
theorem numberOnly_assemble_front (front : List Char) :
    NumberOnly fun n => assemble (front ++ ending n []) [] := by
  obtain ⟨parts, last, hcomponents⟩ := exists_components_ending front
  rcases Nat.lt_or_ge parts.length 3 with hfew | hmany
  -- in one of the first three components, with zeros for those that are missing
  · refine ⟨dotted (parts ++ [last]), List.replicate (2 - parts.length) ['0'], ?_, fun n => ?_⟩
    · intro part hpart
      rw [List.eq_of_mem_replicate hpart]
      decide
    · have hlength : (components (front ++ ending n [])).length = 3 := by
        rw [hcomponents n]
        simp
        omega
      beta_reduce
      rw [assemble_eq, List.take_of_length_le hlength.le, List.drop_of_length_le hlength.le,
        hcomponents n, dotted_middle, ending_eq]
      exact List.append_nil _
  -- behind the third component, at the end of the build part
  · refine ⟨dotted (parts.take 3) ++ '+' :: dotted (parts.drop 3 ++ [last]), [], by simp,
      fun n => ?_⟩
    have hnone : 2 - parts.length = 0 := by omega
    have hextra : extendBuild [] (parts.drop 3 ++ [last ++ '-' :: digits n]) =
        dotted (parts.drop 3 ++ [last]) ++ ending n [] := by
      rw [extendBuild_nil, dotted_middle, ending_eq]
    beta_reduce
    rw [assemble_eq, hcomponents n, hnone, List.replicate_zero, List.take_append_of_le_length hmany,
      List.drop_append_of_le_length hmany, hextra, marked_ending, List.append_assoc]

theorem moveLetter_eq (front build : List Char) :
    moveLetter front build = ((moveLetter front []).1, (moveLetter front []).2 ++ build) := by
  unfold moveLetter
  split
  · split <;> rfl
  · rfl

theorem getLast?_ending (s : List Char) (n : Nat) :
    ∃ c, (s ++ ending n []).getLast? = some c ∧ c.isLower = false := by
  have hne : digits n ≠ [] := Nat.toDigits_ne_nil
  refine ⟨(digits n).getLast hne, ?_, isLower_eq_false_of_isDigit ?_⟩
  · rw [ending, dotted_singleton, List.append_cons, List.getLast?_append_of_ne_nil _ hne,
      List.getLast?_eq_some_getLast hne]
  · exact Text.Decimal.isDigit_of_mem_toDigits (List.getLast_mem hne)

theorem underscore_notMem_ending (n : Nat) : '_' ∉ ending n [] := by
  rw [ending, dotted_singleton, List.mem_cons, not_or]
  refine ⟨by decide, fun hmem => ?_⟩
  exact absurd (Text.Decimal.isDigit_of_mem_toDigits hmem) (by decide)

/-- A release number is cut off with an underscore in front of it, or stays with the components. -/
theorem parted_ending (s : List Char) :
    (∃ front build, ∀ n, parted (s ++ ending n []) = (front, build ++ ending n [])) ∨
      ∀ n, parted (s ++ ending n []) = (s ++ ending n [], []) := by
  by_cases hmem : '_' ∈ s
  · obtain ⟨front, build, rfl, hnot⟩ := List.eq_append_cons_of_mem hmem
    refine .inl ⟨(moveLetter front []).1, (moveLetter front []).2 ++ build, fun n => ?_⟩
    rw [parted, List.append_assoc, List.cons_append, Semantic.cut_append hnot, Option.getD_some,
      moveLetter_eq, List.append_assoc]
  · refine .inr fun n => ?_
    have hnot : '_' ∉ s ++ ending n [] := by
      rw [List.mem_append, not_or]
      exact ⟨hmem, underscore_notMem_ending n⟩
    obtain ⟨c, hlast, hlower⟩ := getLast?_ending s n
    rw [parted, Semantic.cut_of_notMem hnot, Option.getD_none, moveLetter, hlast]
    simp [hlower]

theorem numberOnly_assemble (s : List Char) : NumberOnly fun n =>
    assemble (parted (s ++ ending n [])).1 (parted (s ++ ending n [])).2 := by
  rcases parted_ending s with ⟨front, build, hparted⟩ | hparted
  · simp only [hparted]
    exact numberOnly_assemble_build front build
  · simp only [hparted]
    exact numberOnly_assemble_front s

theorem parted_ending_ne_nil {s : List Char} (h : (parted (s ++ ending m [])).1 ≠ []) (n : Nat) :
    (parted (s ++ ending n [])).1 ≠ [] := by
  rcases parted_ending s with ⟨front, build, hparted⟩ | hparted
  · rw [hparted] at h ⊢
    exact h
  · rw [hparted]
    simp [ending]

/-! ## Releases -/

/-- Whether a hyphen is early does not depend on the release number. -/
theorem earlyHyphen_numberedRelease (b : String) (m n : Nat) :
    EarlyHyphen (numberedRelease b m) ↔ EarlyHyphen (numberedRelease b n) := by
  rw [← hyphenBefore_iff_earlyHyphen, ← hyphenBefore_iff_earlyHyphen, toList_numberedRelease,
    toList_numberedRelease, ending, ending, hyphenBefore_append_hyphen]

theorem undress_numberedRelease (b : String) (n : Nat) :
    undress (numberedRelease b n).text.toList = undress b.toList ++ ending n [] := by
  rw [toList_numberedRelease, undress_ending]

/-- Without an early hyphen, canonical forms differ in the release number only. -/
theorem exists_canonical_numberOnly {c : String} (hearly : ¬EarlyHyphen (numberedRelease b m))
    (h : canonical (numberedRelease b m).text = .ok c) :
    ∃ f, NumberOnly f ∧ c.toList = f m ∧ ∀ n, (Semantic.parse? (f n)).isSome = true →
      canonical (numberedRelease b n).text = .ok (String.ofList (f n)) := by
  let bare n := undress b.toList ++ ending n []
  have hbare : ∀ n, (Semantic.parse? (bare n)).isSome = true →
      canonical (numberedRelease b n).text = .ok (String.ofList (bare n)) := by
    intro n hparse
    refine canonical_eq_ok_iff.2 (.inl ?_)
    rw [undress_numberedRelease, String.toList_ofList]
    exact ⟨hparse, rfl⟩
  rcases canonical_eq_ok_iff.1 h with ⟨-, hc⟩ | ⟨hnone, hfront, hc, -⟩
  · rw [undress_numberedRelease] at hc
    exact ⟨bare, numberOnly_ending _, hc, hbare⟩
  · rw [undress_numberedRelease] at hnone hfront hc
    -- no other release number makes the version semantic as it is
    have hother : ∀ n, (Semantic.parse? (bare n)).isSome = false := by
      intro n
      refine Bool.eq_false_iff.2 fun hsome => ?_
      obtain ⟨s, hparse⟩ := Option.isSome_iff_exists.1 hsome
      have hpre : s.pre = "" := by
        by_contra hpre
        have hn := earlyHyphen_iff (hbare n hsome) (by rwa [String.toList_ofList])
        exact hearly ((earlyHyphen_numberedRelease b n m).1 (hn.2 hpre))
      obtain ⟨g, -, hg⟩ := exists_parse?_numberOnly (numberOnly_ending _) hparse hpre
      rw [hg m] at hnone
      cases hnone
    refine ⟨_, numberOnly_assemble (undress b.toList), hc, fun n hparse => ?_⟩
    refine canonical_eq_ok_iff.2 (.inr ?_)
    rw [undress_numberedRelease, String.toList_ofList]
    exact ⟨hother n, parted_ending_ne_nil hfront n, rfl, hparse⟩

/-- If a text with a release number is a release, so it is with any other number, which is the only
difference between the two. -/
theorem exists_releases {r : Release} (h : (numberedRelease b m).release? = some r) :
    ∃ (r : Release) (f : Nat → List Char), NumberOnly f ∧
      ∀ n, (numberedRelease b n).release? = some { r with build := String.ofList (f n) } := by
  cases hcanonical : canonical (numberedRelease b m).text with
  | error e =>
    rw [release?_of_error hcanonical] at h
    cases h
  | ok c =>
    obtain ⟨s, hparse, -⟩ := exists_valid_of_canonical hcanonical
    have hpre : s.pre = "" := by
      by_contra hpre
      rw [release?_of_canonical hcanonical hparse, if_neg hpre] at h
      cases h
    have hearly := fun hearly => (earlyHyphen_iff hcanonical hparse).1 hearly hpre
    obtain ⟨f, hf, hc, hother⟩ := exists_canonical_numberOnly hearly hcanonical
    obtain ⟨g, hg, hparses⟩ := exists_parse?_numberOnly hf (hc ▸ hparse) hpre
    refine ⟨⟨s.major, s.minor, s.patch, s.build⟩, g, hg, fun n => ?_⟩
    rw [release?_of_canonical (hother n (by rw [hparses n, Option.isSome_some]))
      (by rw [String.toList_ofList]; exact hparses n), if_pos hpre]

/-! ## The order -/

theorem segmentsOf_ending (s : List Char) (n : Nat) (more : List (List Char)) :
    segmentsOf (s ++ ending n more) =
      segmentsOf s ++ Segment.ofRun (digits n) :: more.flatMap segmentsOf := by
  have hhyphen : kind? '-' = none := by decide
  rw [ending, segmentsOf_append hhyphen, segmentsOf_dotted, List.flatMap_cons]
  congr 1
  rw [segmentsOf, runs_digits, List.map_singleton, List.singleton_append]

/-- Texts that differ in a release number only are compared by this number as a segment. -/
theorem NumberOnly.compareSegments (hf : NumberOnly f) (m n : Nat) :
    Version.compareSegments (String.ofList (f m)) (String.ofList (f n)) =
      Segment.compare (.ofRun (digits m)) (.ofRun (digits n)) := by
  obtain ⟨x, more, -, hx⟩ := hf
  have hback : List.compareLex Segment.compare (more.flatMap segmentsOf)
      (more.flatMap segmentsOf) = .eq := Std.ReflCmp.compare_self
  rw [Version.compareSegments, segments_ofList, segments_ofList, hx, hx, segmentsOf_ending,
    segmentsOf_ending, compareLex_append_left, List.compareLex_cons_cons, hback, Ordering.then_eq]

/-- Release numbers are compared as segments, whatever is in front of them. -/
theorem compare_numberedRelease (b : String) (m n : Nat) :
    compare (numberedRelease b m) (numberedRelease b n) =
      Segment.compare (.ofRun (digits m)) (.ofRun (digits n)) := by
  cases hm : (numberedRelease b m).release? with
  | some r =>
    obtain ⟨r, f, hf, hr⟩ := exists_releases hm
    rw [compare_of_releases (hr m) (hr n)]
    simp only [Release.compare, hf.compareSegments, Std.ReflCmp.compare_self, Ordering.then]
  | none =>
    have htext : ∀ n, (numberedRelease b n).text = String.ofList (b.toList ++ ending n []) :=
      fun n => by rw [← toList_numberedRelease, String.ofList_toList]
    rw [compare_of_left_none hm, htext, htext, (numberOnly_ending b.toList).compareSegments]

theorem ofRun_digits_of_lt (h : n < wordLimit) : Segment.ofRun (digits n) = .number n := by
  rw [Segment.ofRun, Text.Decimal.word?_toDigits h]

theorem ofRun_digits_of_le (h : wordLimit ≤ n) : Segment.ofRun (digits n) = .text (digits n) := by
  rw [Segment.ofRun, Text.Decimal.word?_toDigits_of_le h]

theorem compareLex_digits (h : (digits m).length = (digits n).length) :
    List.compareLex Ord.compare (digits m) (digits n) = Ord.compare m n := by
  have hdigit : ∀ n, ∀ c ∈ digits n, c.isDigit = true := fun _ _ =>
    Text.Decimal.isDigit_of_mem_toDigits
  rw [Text.Decimal.compareLex_eq_compare_value (hdigit m) (hdigit n) h,
    Text.Decimal.value_toDigits, Text.Decimal.value_toDigits]

theorem compare_ofRun_digits (m n : Nat) :
    Segment.compare (.ofRun (digits m)) (.ofRun (digits n)) =
      if m < wordLimit then if n < wordLimit then Ord.compare m n else .gt
      else if n < wordLimit then .lt
      else if (digits m).length = (digits n).length then Ord.compare m n
      else List.compareLex Ord.compare (digits m) (digits n) := by
  rcases Nat.lt_or_ge m wordLimit with hm | hm
  · rw [ofRun_digits_of_lt hm, if_pos hm]
    rcases Nat.lt_or_ge n wordLimit with hn | hn
    · rw [ofRun_digits_of_lt hn, if_pos hn]
      rfl
    · rw [ofRun_digits_of_le hn, if_neg hn.not_gt]
      rfl
  · rw [ofRun_digits_of_le hm, if_neg hm.not_gt]
    rcases Nat.lt_or_ge n wordLimit with hn | hn
    · rw [ofRun_digits_of_lt hn, if_pos hn]
      rfl
    · rw [ofRun_digits_of_le hn, if_neg hn.not_gt]
      split
      · next hlength => exact compareLex_digits hlength
      · rfl

/-- Release numbers that fit a word are in the order of their values, whatever is in front of them.
So are numbers that do not fit and have equally many digits; with different numbers of digits they
are in the order of their texts. A number that fits is above every number that does not. -/
theorem compare_release_numbers (b : String) (m n : Nat) :
    compare (numberedRelease b m) (numberedRelease b n) =
        (if m < wordLimit then if n < wordLimit then Ord.compare m n else .gt
        else if n < wordLimit then .lt
        else if (digits m).length = (digits n).length then Ord.compare m n
        else List.compareLex Ord.compare (digits m) (digits n)) ∧
      (compare (numberedRelease b m) (numberedRelease b n) = Ord.compare m n ↔
        (m < wordLimit ∧ n < wordLimit) ∨ (wordLimit ≤ m ∧ wordLimit ≤ n ∧
          ((digits m).length = (digits n).length ∨
            List.compareLex Ord.compare (digits m) (digits n) = Ord.compare m n))) := by
  have hcompare := (compare_numberedRelease b m n).trans (compare_ofRun_digits m n)
  refine ⟨hcompare, ?_⟩
  rw [hcompare]
  rcases Nat.lt_or_ge m wordLimit with hm | hm <;> rcases Nat.lt_or_ge n wordLimit with hn | hn
  · simp [hm, hn]
  · have hlt : Ord.compare m n = .lt := Nat.compare_eq_lt.2 (hm.trans_le hn)
    simp [hm, hm.not_ge, hn.not_gt, hlt]
  · have hgt : Ord.compare m n = .gt := Nat.compare_eq_gt.2 (hn.trans_le hm)
    simp [hm.not_gt, hn, hn.not_ge, hgt]
  · by_cases hlength : (digits m).length = (digits n).length
    · simp [hm, hm.not_gt, hn, hn.not_gt, hlength]
    · simp [hm, hm.not_gt, hn, hn.not_gt, hlength]

/-- The release number 9 is above `2 ^ 64`, which does not fit a word. -/
theorem wide_number_below_digit : ¬∀ (b : String) (m n : Nat),
    compare (numberedRelease b m) (numberedRelease b n) = Ord.compare m n := by
  intro h
  have hgt : compare (numberedRelease "1.0" 9)
      (numberedRelease "1.0" 18446744073709551616) = .gt := by
    decide +kernel
  exact absurd (hgt.symm.trans (h "1.0" 9 18446744073709551616)) (by decide)

end Depot.Version
