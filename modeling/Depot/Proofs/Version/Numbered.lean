import Depot.Proofs.Version.Grammar
import Depot.Proofs.Version.Order

/-!
# Versions that are numbers with a suffix

A version of numbers joined by dots, with nothing, a letter or a word behind them, is a release
whatever the number of its numbers (`release?_numbered`). The first three numbers are the numbers of
the release. The suffix and then the numbers after the third make up its build part, so that two
such versions are compared by their first three numbers, then by their suffixes and only then by
what is left of their numbers (`compare_numbered`). Hence an earlier number outranks any suffix
among the first three only (`earlier_number_decides`, `suffix_outranks_fourth_number`).
-/

namespace Depot.Version

open Text.Decimal (wordLimit)

/-- What may follow the numbers of a version. -/
inductive Suffix where
  | none
  /-- A lower-case letter. -/
  | letter (c : Char) (hc : c.isLower = true)
  /-- An underscore and a word. -/
  | word (s : List Char) (hne : s ≠ []) (hs : ∀ c ∈ s, c.isAlphanum = true)

namespace Suffix

/-- A suffix as it is written. -/
def text : Suffix → List Char
  | .none => []
  | .letter c _ => [c]
  | .word s _ _ => '_' :: s

/-- What a suffix adds to the build part. -/
def build : Suffix → List (List Char)
  | .none => []
  | .letter c _ => [[c]]
  | .word s _ _ => [s]

/-- The segments of a suffix. -/
def segments (s : Suffix) : List Segment := s.build.flatMap segmentsOf

end Suffix

/-- The version of numbers joined by dots with a suffix behind them. -/
def numbered (numbers : List Nat) (s : Suffix) : Version :=
  ⟨".".intercalate (numbers.map toString) ++ String.ofList s.text⟩

/-- The first three numbers, with zeros for missing ones. -/
def firstThree (numbers : List Nat) : List Nat :=
  [numbers.getD 0 0, numbers.getD 1 0, numbers.getD 2 0]

/-- The parts behind the plus sign: the suffix, and the numbers after the third. -/
def buildParts (numbers : List Nat) (s : Suffix) : List (List Char) :=
  s.build ++ (numbers.drop 3).map digits

/-- The release of numbers with a suffix. -/
def releaseOf (numbers : List Nat) (s : Suffix) : Release :=
  ⟨numbers.getD 0 0, numbers.getD 1 0, numbers.getD 2 0,
    String.ofList (dotted (buildParts numbers s))⟩

theorem toList_numbered (numbers : List Nat) (s : Suffix) :
    (numbered numbers s).text.toList = dotted (numbers.map digits) ++ s.text := by
  have hdigits : String.toList ∘ toString = digits := by
    funext n
    simp [Nat.toString_eq_repr]
  simp only [numbered, String.toList_append, String.toList_intercalate, String.toList_ofList,
    List.map_map, hdigits]
  rfl

/-! ## Characters -/

theorem isLower_eq_false_of_isDigit {c : Char} (h : c.isDigit = true) : c.isLower = false := by
  have hdigit : c.val ≤ '9'.val := of_decide_eq_true (Bool.and_eq_true_iff.1 h).2
  refine Bool.eq_false_iff.2 fun hlower => ?_
  have hletter : 'a'.val ≤ c.val := of_decide_eq_true (Bool.and_eq_true_iff.1 hlower).1
  exact absurd (UInt32.le_trans hletter hdigit) (by decide)

theorem isAlphanum_of_isLower {c : Char} (h : c.isLower = true) : c.isAlphanum = true := by
  show ((c.isUpper || c.isLower) || c.isDigit) = true
  rw [h, Bool.or_true, Bool.true_or]

theorem isAlphanum_of_isDigit {c : Char} (h : c.isDigit = true) : c.isAlphanum = true := by
  show (c.isAlpha || c.isDigit) = true
  rw [h, Bool.or_true]

theorem isIdentifier_of_isAlphanum {s : List Char} (hne : s ≠ [])
    (h : ∀ c ∈ s, c.isAlphanum = true) : Semantic.isIdentifier s = true := by
  rw [Semantic.isIdentifier, Bool.and_eq_true, List.all_eq_true]
  refine ⟨by simpa using hne, fun c hc => ?_⟩
  rw [Semantic.isIdentifierChar, h c hc, Bool.true_or]

namespace Suffix

variable {s : Suffix}

theorem isIdentifier_of_mem_build {part : List Char} (h : part ∈ s.build) :
    Semantic.isIdentifier part = true := by
  cases s with
  | none => cases h
  | letter c hc =>
    obtain rfl := List.mem_singleton.1 h
    exact isIdentifier_of_isAlphanum (by simp) (by simpa using isAlphanum_of_isLower hc)
  | word w hne hw =>
    obtain rfl := List.mem_singleton.1 h
    exact isIdentifier_of_isAlphanum hne hw

/-- A suffix has neither of the marks of a semantic version. -/
theorem notMem_text {mark : Char} (h : mark = '+' ∨ mark = '-') : mark ∉ s.text := by
  have hplain : mark.isLower = false ∧ mark.isAlphanum = false ∧ mark ≠ '_' := by
    rcases h with rfl | rfl <;> decide
  intro hmem
  cases s with
  | none => cases hmem
  | letter c hc =>
    obtain rfl := List.mem_singleton.1 hmem
    rw [hc] at hplain
    cases hplain.1
  | word w _ hw =>
    rcases List.mem_cons.1 hmem with rfl | hmem
    · exact hplain.2.2 rfl
    · rw [hw _ hmem] at hplain
      cases hplain.2.1

end Suffix

theorem isIdentifier_digits (n : Nat) : Semantic.isIdentifier (digits n) = true :=
  isIdentifier_of_isAlphanum Nat.toDigits_ne_nil fun _ hc =>
    isAlphanum_of_isDigit (Text.Decimal.isDigit_of_mem_toDigits hc)

section

variable {numbers : List Nat} {c : Char}

theorem isLower_eq_false_of_mem (h : c ∈ dotted (numbers.map digits)) : c.isLower = false := by
  rcases mem_dotted_digits h with rfl | hdigit
  · decide
  · exact isLower_eq_false_of_isDigit hdigit

variable (numbers) in
theorem underscore_notMem_dotted : '_' ∉ dotted (numbers.map digits) := by
  intro h
  rcases mem_dotted_digits h with h | h
  · exact absurd h (by decide)
  · exact absurd h (by decide)

theorem head_dotted (hne : numbers ≠ []) :
    ∃ d rest, dotted (numbers.map digits) = d :: rest ∧ d.isDigit = true := by
  obtain ⟨n, more, rfl⟩ := List.exists_cons_of_ne_nil hne
  obtain ⟨d, ds, hdigits⟩ := List.exists_cons_of_ne_nil (Nat.toDigits_ne_nil (b := 10) (n := n))
  have hd : d.isDigit = true :=
    Text.Decimal.isDigit_of_mem_toDigits (hdigits ▸ List.mem_cons_self)
  rcases eq_or_ne more [] with rfl | hmore
  · refine ⟨d, ds, ?_, hd⟩
    rw [List.map_singleton, dotted_singleton, digits, hdigits]
  · refine ⟨d, ds ++ '.' :: dotted (more.map digits), ?_, hd⟩
    rw [List.map_cons, dotted_cons (by simpa using hmore), digits, hdigits, List.cons_append]

end

/-! ## The canonical form -/

theorem undress_of_digit {c : Char} (h : c.isDigit = true) (rest : List Char) :
    undress (c :: rest) = c :: rest := by
  have hmark : ∀ mark : Char, mark.isDigit = false → c ≠ mark := by
    rintro mark hmark rfl
    rw [h] at hmark
    cases hmark
  have hstop : (c == '<' || c == '>' || c == '~') = false := by
    simp [hmark '<' (by decide), hmark '>' (by decide), hmark '~' (by decide)]
  rw [undress, List.dropWhile_cons_of_neg (by simp [hstop])]
  split
  · next heq => exact absurd (List.cons.inj heq).1 (hmark 'v' (by decide))
  · rfl

theorem stripZeros_digits (n : Nat) : stripZeros (digits n) = digits n := by
  rcases Nat.eq_zero_or_pos n with rfl | hn
  · decide
  · obtain ⟨c, rest, hdigits, hc⟩ := Text.Decimal.head_toDigits hn
    rw [digits, hdigits, stripZeros, List.dropWhile_cons_of_neg (by simpa using hc)]

theorem moveLetter_of_no_lower {front : List Char} (h : ∀ c ∈ front, c.isLower = false)
    (build : List Char) : moveLetter front build = (front, build) := by
  unfold moveLetter
  split
  · next c hlast => rw [if_neg (by simp [h c (List.mem_of_getLast? hlast)])]
  · rfl

/-- The suffix is taken off. -/
theorem moveLetter_cut {front : List Char} (hlower : ∀ c ∈ front, c.isLower = false)
    (hunderscore : '_' ∉ front) (s : Suffix) :
    ∃ f b, Semantic.cut '_' (front ++ s.text) = (f, b) ∧
      moveLetter f (b.getD []) = (front, s.build.flatten) := by
  cases s with
  | none =>
    refine ⟨front, none, ?_, moveLetter_of_no_lower hlower _⟩
    rw [Suffix.text, List.append_nil, Semantic.cut_of_notMem hunderscore]
  | letter c hc =>
    refine ⟨front ++ [c], none, Semantic.cut_of_notMem fun h => ?_, ?_⟩
    · rcases List.mem_append.1 h with h | h
      · exact hunderscore h
      · obtain rfl := List.mem_singleton.1 h
        cases hc
    · simp [moveLetter, hc, Suffix.build]
  | word w _ _ =>
    refine ⟨front, some w, Semantic.cut_append hunderscore w, ?_⟩
    rw [Option.getD_some, moveLetter_of_no_lower hlower]
    simp [Suffix.build]

theorem components_dotted {numbers : List Nat} (hne : numbers ≠ []) :
    components (dotted (numbers.map digits)) =
      numbers.map digits ++ List.replicate (3 - numbers.length) (digits 0) := by
  have hstrip : stripZeros ∘ digits = digits := funext stripZeros_digits
  rw [components, splitOn_dotted_digits hne, List.map_map, hstrip, List.length_map]
  rfl

theorem take_components {numbers : List Nat} (hne : numbers ≠ []) :
    (components (dotted (numbers.map digits))).take 3 = (firstThree numbers).map digits := by
  rw [components_dotted hne]
  match numbers with
  | [] => exact absurd rfl hne
  | [_] => rfl
  | [_, _] => rfl
  | _ :: _ :: _ :: _ => rfl

theorem drop_components {numbers : List Nat} (hne : numbers ≠ []) :
    (components (dotted (numbers.map digits))).drop 3 = (numbers.drop 3).map digits := by
  rw [components_dotted hne]
  match numbers with
  | [] => exact absurd rfl hne
  | [_] => rfl
  | [_, _] => rfl
  | a :: b :: c :: rest =>
    have hnone : 3 - (a :: b :: c :: rest).length = 0 := by simp
    rw [hnone, List.replicate_zero, List.append_nil, List.map_drop]

theorem extendBuild_flatten (s : Suffix) (extra : List (List Char)) :
    extendBuild s.build.flatten extra = dotted (s.build ++ extra) := by
  cases extra with
  | nil => cases s <;> simp [extendBuild, Suffix.build, dotted]
  | cons part rest =>
    cases s with
    | none => rfl
    | letter c _ => rfl
    | word w hne _ => simp [extendBuild, Suffix.build, dotted, hne]

theorem isIdentifier_of_mem_buildParts {numbers : List Nat} {s : Suffix} {part : List Char}
    (h : part ∈ buildParts numbers s) : Semantic.isIdentifier part = true := by
  rcases List.mem_append.1 h with h | h
  · exact Suffix.isIdentifier_of_mem_build h
  · obtain ⟨n, -, rfl⟩ := List.mem_map.1 h
    exact isIdentifier_digits n

theorem assemble_dotted {numbers : List Nat} (hne : numbers ≠ []) (s : Suffix) :
    assemble (dotted (numbers.map digits)) s.build.flatten =
      dotted ((firstThree numbers).map digits) ++ Semantic.plus (buildParts numbers s) := by
  simp only [assemble, take_components hne, drop_components hne, extendBuild_flatten]
  rw [← buildParts]
  rcases eq_or_ne (buildParts numbers s) [] with hnil | hparts
  · rw [hnil, Semantic.plus, List.append_nil]
    rfl
  · have hsome := Semantic.dotted_ne_nil hparts fun _ => isIdentifier_of_mem_buildParts
    obtain ⟨c, rest, hbuild⟩ := List.exists_cons_of_ne_nil hsome
    rw [Semantic.plus_of_ne_nil hparts, hbuild]
    rfl

theorem lt_of_mem_firstThree {numbers : List Nat} (hlt : ∀ n ∈ numbers, n < wordLimit) :
    ∀ n ∈ firstThree numbers, n < wordLimit := by
  have hgetD : ∀ i, numbers.getD i 0 < wordLimit := by
    intro i
    rw [List.getD_eq_getElem?_getD]
    cases hi : numbers[i]? with
    | none => decide
    | some n => exact hlt n (List.mem_of_getElem? hi)
  intro n hn
  simp only [firstThree, List.mem_cons, List.not_mem_nil, or_false] at hn
  rcases hn with rfl | rfl | rfl <;> exact hgetD _

section

variable {numbers : List Nat} (hne : numbers ≠ []) (hlt : ∀ n ∈ numbers, n < wordLimit) (s : Suffix)

include hlt in
theorem parse?_numbered :
    Semantic.parse? (dotted ((firstThree numbers).map digits) ++
        Semantic.plus (buildParts numbers s)) =
      some ⟨numbers.getD 0 0, numbers.getD 1 0, numbers.getD 2 0, "",
        String.ofList (dotted (buildParts numbers s))⟩ :=
  Semantic.parse?_assembled (lt_of_mem_firstThree hlt) fun _ => isIdentifier_of_mem_buildParts

include hne in
/-- Numbers with a suffix that are read as they are: three numbers without a suffix. -/
theorem eq_of_parse?_isSome
    (h : (Semantic.parse? (dotted (numbers.map digits) ++ s.text)).isSome = true) :
    dotted (numbers.map digits) ++ s.text =
      dotted ((firstThree numbers).map digits) ++ Semantic.plus (buildParts numbers s) := by
  have hmark : ∀ mark : Char, mark = '+' ∨ mark = '-' →
      mark ∉ dotted (numbers.map digits) ++ s.text := by
    intro mark hmark hmem
    rcases List.mem_append.1 hmem with hmem | hmem
    · rcases mem_dotted_digits hmem with rfl | hdigit
      · exact absurd hmark (by decide)
      · rcases hmark with rfl | rfl <;> cases hdigit
    · exact Suffix.notMem_text hmark hmem
  obtain ⟨hlength, hdigits⟩ :=
    Semantic.three_numbers_of_parse? (hmark '+' (.inl rfl)) (hmark '-' (.inr rfl)) h
  cases s with
  | letter c hc =>
    rcases hdigits c (by simp [Suffix.text]) with rfl | hdigit
    · cases hc
    · rw [isLower_eq_false_of_isDigit hdigit] at hc
      cases hc
  | word w hw _ => exact absurd (hdigits '_' (by simp [Suffix.text])) (by decide)
  | none =>
    rw [Suffix.text, List.append_nil] at hlength ⊢
    rw [splitOn_dotted_digits hne, List.length_map] at hlength
    match numbers, hlength with
    | [a, b, c], _ => simp [firstThree, buildParts, Suffix.build, Semantic.plus]

include hne hlt in
theorem canonical_numbered :
    canonical (numbered numbers s).text =
      .ok (String.ofList (dotted ((firstThree numbers).map digits) ++
        Semantic.plus (buildParts numbers s))) := by
  obtain ⟨d, rest, hhead, hd⟩ := head_dotted hne
  have hundress : undress (dotted (numbers.map digits) ++ s.text) =
      dotted (numbers.map digits) ++ s.text := by
    rw [hhead, List.cons_append, undress_of_digit hd]
  obtain ⟨f, b, hcut, hmove⟩ :=
    moveLetter_cut (fun _ => isLower_eq_false_of_mem) (underscore_notMem_dotted numbers) s
  have hfront : (dotted (numbers.map digits)).isEmpty = false := by
    rw [hhead, List.isEmpty_cons]
  have hparse : (Semantic.parse? (dotted ((firstThree numbers).map digits) ++
      Semantic.plus (buildParts numbers s))).isSome = true := by
    rw [parse?_numbered hlt, Option.isSome_some]
  simp only [canonical, toList_numbered, hundress]
  split
  · next h => rw [eq_of_parse?_isSome hne s h]
  · simp only [hcut, hmove, hfront, assemble_dotted hne, hparse, Bool.false_eq_true, if_false,
      if_true]

include hne hlt in
/-- Numbers with a suffix are a release. -/
theorem release?_numbered : (numbered numbers s).release? = some (releaseOf numbers s) := by
  simp only [release?, canonical_numbered hne hlt, String.toList_ofList, parse?_numbered hlt]
  rfl

include hlt in
/-- The build part of the release has the segments of the suffix and the numbers after the third. -/
theorem segments_releaseOf :
    Version.segments (releaseOf numbers s).build =
      s.segments ++ (numbers.drop 3).map Segment.number := by
  have hdrop : ∀ n ∈ numbers.drop 3, n < wordLimit := fun n hn => hlt n (List.mem_of_mem_drop hn)
  rw [releaseOf, segments_ofList, segmentsOf_dotted, buildParts, List.flatMap_append,
    segmentsOf_numbers hdrop, Suffix.segments]

end

/-! ## The order -/

section

variable {a b : List Nat} (ha : ∀ n ∈ a, n < wordLimit) (hb : ∀ n ∈ b, n < wordLimit)
  (hane : a ≠ []) (hbne : b ≠ []) (s t : Suffix)

include ha hb hane hbne

/-- Numbers with suffixes are compared by the first three numbers, then by the suffixes and then by
the numbers after the third. -/
theorem compare_numbered :
    compare (numbered a s) (numbered b t) =
      (List.compareLex Ord.compare (firstThree a) (firstThree b)).then
        (List.compareLex Segment.compare (s.segments ++ (a.drop 3).map .number)
          (t.segments ++ (b.drop 3).map .number)) := by
  rw [compare_of_releases (release?_numbered hane ha s) (release?_numbered hbne hb t),
    Release.compare, compareSegments, segments_releaseOf ha, segments_releaseOf hb]
  simp only [firstThree, List.compareLex_cons_cons, List.compareLex_nil_nil, releaseOf,
    Ordering.then_assoc, Ordering.then_eq]

end

theorem compareLex_append_left {α : Type} {cmp : α → α → Ordering} [Std.ReflCmp cmp]
    (front l l' : List α) :
    List.compareLex cmp (front ++ l) (front ++ l') = List.compareLex cmp l l' := by
  induction front with
  | nil => rfl
  | cons x rest ih =>
    have hx : cmp x x = .eq := Std.ReflCmp.compare_self
    rw [List.cons_append, List.cons_append, List.compareLex_cons_cons, hx, ih]
    rfl

theorem compareLex_of_first_lt {α : Type} {cmp : α → α → Ordering} [Std.ReflCmp cmp] {x y : α}
    (h : cmp x y = .lt) (front l l' : List α) :
    List.compareLex cmp (front ++ x :: l) (front ++ y :: l') = .lt := by
  rw [compareLex_append_left, List.compareLex_cons_cons, h]
  rfl

section

variable {before rest rest' : List Nat} {m n : Nat}

theorem compare_firstThree (h : m < n) (hfew : before.length < 3) :
    List.compareLex Ord.compare (firstThree (before ++ m :: rest))
      (firstThree (before ++ n :: rest')) = .lt := by
  have hlt : Ord.compare m n = .lt := Nat.compare_eq_lt.2 h
  match before with
  | [] => exact compareLex_of_first_lt hlt [] _ _
  | [x] => exact compareLex_of_first_lt hlt [x] _ _
  | [x, y] => exact compareLex_of_first_lt hlt [x, y] _ _

theorem firstThree_append (hmany : 3 ≤ before.length) :
    firstThree (before ++ rest) = firstThree before := by
  match before with
  | x :: y :: z :: more => rfl

end

/-- With the same numbers before it, the smaller one of two numbers makes the version the lower one,
when it is one of the first three or the suffixes have the same segments. A number after the third
comes behind the suffix: there the segments of the suffixes are compared first. -/
theorem earlier_number_decides (before rest rest' : List Nat) {m n : Nat} (hmn : m < n)
    (ha : ∀ k ∈ before ++ m :: rest, k < wordLimit)
    (hb : ∀ k ∈ before ++ n :: rest', k < wordLimit) (s t : Suffix) :
    (before.length < 3 →
        compare (numbered (before ++ m :: rest) s) (numbered (before ++ n :: rest') t) = .lt) ∧
      (3 ≤ before.length →
        compare (numbered (before ++ m :: rest) s) (numbered (before ++ n :: rest') t) =
          List.compareLex Segment.compare
            (s.segments ++ (before.drop 3 ++ m :: rest).map .number)
            (t.segments ++ (before.drop 3 ++ n :: rest').map .number)) ∧
      (s.segments = t.segments →
        compare (numbered (before ++ m :: rest) s) (numbered (before ++ n :: rest') t) = .lt) := by
  have hcompare := compare_numbered ha hb (by simp) (by simp) s t
  have hfew : before.length < 3 →
      compare (numbered (before ++ m :: rest) s) (numbered (before ++ n :: rest') t) = .lt := by
    intro hfew
    rw [hcompare, compare_firstThree hmn hfew]
    rfl
  have hmany : 3 ≤ before.length →
      compare (numbered (before ++ m :: rest) s) (numbered (before ++ n :: rest') t) =
        List.compareLex Segment.compare
          (s.segments ++ (before.drop 3 ++ m :: rest).map .number)
          (t.segments ++ (before.drop 3 ++ n :: rest').map .number) := by
    intro hmany
    have hthree : List.compareLex Ord.compare (firstThree before) (firstThree before) = .eq :=
      Std.ReflCmp.compare_self
    rw [hcompare, firstThree_append hmany, firstThree_append hmany, hthree,
      List.drop_append_of_le_length hmany, List.drop_append_of_le_length hmany]
    rfl
  refine ⟨hfew, hmany, fun hsame => ?_⟩
  rcases Nat.lt_or_ge before.length 3 with h | h
  · exact hfew h
  · have hlt : Segment.compare (.number m) (.number n) = .lt := Nat.compare_eq_lt.2 hmn
    rw [hmany h, hsame, compareLex_append_left, List.map_append, List.map_append, List.map_cons,
      List.map_cons]
    exact compareLex_of_first_lt hlt _ _ _

/-! ### A letter and a patch level -/

/-- The suffix `a`. -/
def letterA : Suffix := .letter 'a' (by decide)

/-- The suffix `_p2`. -/
def patch2 : Suffix := .word ['p', '2'] (by decide) (List.all_eq_true.1 (by decide))

/-- The third number decides whatever the suffixes are, and the fourth one if they are the same.
Otherwise the fourth number comes behind the letter that the suffix starts with. -/
theorem third_and_fourth_number_decide :
    compare (numbered [1, 2, 3, 9] patch2) (numbered [1, 2, 4] letterA) = .lt ∧
      compare (numbered [1, 2, 3, 4] letterA) (numbered [1, 2, 3, 5, 1] letterA) = .lt ∧
      compare (numbered [1, 2, 3, 4] .none) (numbered [1, 2, 3, 5] letterA) =
        List.compareLex Segment.compare [.number 4] [.text ['a'], .number 5] := by
  have hthird := earlier_number_decides [1, 2] [9] [] (by decide : 3 < 4) (by decide) (by decide)
    patch2 letterA
  have hfourth := earlier_number_decides [1, 2, 3] [] [1] (by decide : 4 < 5) (by decide)
    (by decide) letterA letterA
  have hbehind := (earlier_number_decides [1, 2, 3] [] [] (by decide : 4 < 5) (by decide)
    (by decide) .none letterA).2.1 (by decide)
  have hletter : letterA.segments = [.text ['a']] := by decide +kernel
  rw [hletter] at hbehind
  exact ⟨hthird.1 (by decide), hfourth.2.2 rfl, hbehind⟩

/-- A letter behind the larger one of two fourth numbers makes the version the lower one. -/
theorem suffix_outranks_fourth_number :
    ¬∀ (before rest rest' : List Nat) (m n : Nat) (s t : Suffix), m < n →
        rest.length = rest'.length →
        (∀ k ∈ before ++ m :: rest, k < wordLimit) → (∀ k ∈ before ++ n :: rest', k < wordLimit) →
          compare (numbered (before ++ m :: rest) s) (numbered (before ++ n :: rest') t) = .lt := by
  intro h
  have hlt := h [1, 2, 3] [] [] 4 5 .none letterA (by decide) rfl (by decide) (by decide)
  have hgt : compare (numbered [1, 2, 3, 4] .none) (numbered [1, 2, 3, 5] letterA) = .gt := by
    decide +kernel
  exact absurd (hlt.symm.trans hgt) (by decide)

end Depot.Version
