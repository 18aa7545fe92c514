import Depot.Proofs.Version.Canonical

/-!
# Hyphens in a version

A hyphen is early when it comes before every underscore, every plus sign and the third dot of a
version, so that it stands in one of the components that the three numbers are read from. The
canonical form keeps this (`hyphenBefore_canonical`), and a semantic version has an early hyphen
just when it has a pre-release part (`hyphenBefore_text_eq_true_iff`). So the versions that are no
releases are those with an early hyphen and those without a canonical form (`release?_eq_none_iff`).
A hyphen behind an underscore, a plus sign or the third dot ends up in the build part, and leaves
the version a release (`early_hyphen_decides`).
-/

namespace Depot.Version

/-! ## Looking for a hyphen -/

/-- Does a hyphen come before every underscore, every plus sign and the `n`-th dot? -/
def hyphenBefore : Nat → List Char → Bool
  | 0, _ => false
  | _, [] => false
  | n + 1, c :: rest =>
    if c = '-' then true
    else if c = '_' ∨ c = '+' then false
    else hyphenBefore (if c = '.' then n else n + 1) rest

/-- A character that neither divides a version nor is a hyphen. -/
def Plain (c : Char) : Prop := c ∉ ['-', '_', '+', '.']

instance (c : Char) : Decidable (Plain c) := inferInstanceAs (Decidable (_ ∉ _))

variable {n : Nat} {s t w p : List Char} {c : Char}

theorem plain_of_isAlphanum (h : c.isAlphanum = true) : Plain c := by
  intro hmem
  simp only [List.mem_cons, List.not_mem_nil, or_false] at hmem
  rcases hmem with rfl | rfl | rfl | rfl <;> cases h

theorem hyphenBefore_zero (s : List Char) : hyphenBefore 0 s = false := by
  cases s <;> rfl

theorem hyphenBefore_nil (n : Nat) : hyphenBefore n [] = false := by
  cases n <;> rfl

theorem hyphenBefore_hyphen (n : Nat) (s : List Char) : hyphenBefore (n + 1) ('-' :: s) = true :=
  rfl

theorem hyphenBefore_dot (n : Nat) (s : List Char) :
    hyphenBefore (n + 1) ('.' :: s) = hyphenBefore n s := rfl

theorem hyphenBefore_mark (h : c = '_' ∨ c = '+') (n : Nat) (s : List Char) :
    hyphenBefore n (c :: s) = false := by
  cases n with
  | zero => rfl
  | succ n => rcases h with rfl | rfl <;> rfl

theorem hyphenBefore_plain (h : Plain c) (n : Nat) (s : List Char) :
    hyphenBefore n (c :: s) = hyphenBefore n s := by
  simp only [Plain, List.mem_cons, List.not_mem_nil, or_false, not_or] at h
  cases n with
  | zero => simp [hyphenBefore_zero]
  | succ n => simp [hyphenBefore, h]

/-- The hyphen that is found, with what is in front of it. -/
theorem hyphenBefore_eq_true_iff : hyphenBefore n s = true ↔
    ∃ front back, s = front ++ '-' :: back ∧ '_' ∉ front ∧ '+' ∉ front ∧ front.count '.' < n := by
  induction s generalizing n with
  | nil => simp [hyphenBefore_nil]
  | cons c rest ih =>
    cases n with
    | zero => simp [hyphenBefore_zero]
    | succ n =>
      by_cases hhyphen : c = '-'
      · subst hhyphen
        refine ⟨fun _ => ⟨[], rest, rfl, by simp⟩, fun _ => rfl⟩
      · have hdots : ∀ front : List Char,
            (c :: front).count '.' < n + 1 ↔ front.count '.' < if c = '.' then n else n + 1 := by
          intro front
          by_cases hdot : c = '.' <;> simp [hdot]
        rw [hyphenBefore, if_neg hhyphen]
        constructor
        · intro h
          split at h
          · cases h
          · next hmark =>
            rw [not_or] at hmark
            obtain ⟨front, back, rfl, hunderscore, hplus, hcount⟩ := ih.1 h
            refine ⟨c :: front, back, rfl, ?_, ?_, (hdots front).2 hcount⟩
            · rw [List.mem_cons, not_or]
              exact ⟨Ne.symm hmark.1, hunderscore⟩
            · rw [List.mem_cons, not_or]
              exact ⟨Ne.symm hmark.2, hplus⟩
        · rintro ⟨front, back, heq, hunderscore, hplus, hcount⟩
          cases front with
          | nil => exact absurd (List.cons.inj heq).1 hhyphen
          | cons d front =>
            obtain ⟨rfl, rfl⟩ := List.cons.inj heq
            rw [List.mem_cons, not_or] at hunderscore hplus
            rw [if_neg (not_or.2 ⟨Ne.symm hunderscore.1, Ne.symm hplus.1⟩)]
            exact ih.2 ⟨front, back, rfl, hunderscore.2, hplus.2, (hdots front).1 hcount⟩

theorem hyphenBefore_append_left (h : ∀ c ∈ w, Plain c) (n : Nat) (s : List Char) :
    hyphenBefore n (w ++ s) = hyphenBefore n s := by
  induction w with
  | nil => rfl
  | cons c rest ih =>
    rw [List.forall_mem_cons] at h
    rw [List.cons_append, hyphenBefore_plain h.1, ih h.2]

/-- Two texts in which the same is found still are when a text comes in front of both. -/
theorem hyphenBefore_congr (h : ∀ n, hyphenBefore n s = hyphenBefore n t) (n : Nat)
    (front : List Char) : hyphenBefore n (front ++ s) = hyphenBefore n (front ++ t) := by
  induction front generalizing n with
  | nil => exact h n
  | cons c rest ih =>
    cases n with
    | zero => rw [hyphenBefore_zero, hyphenBefore_zero]
    | succ n => simp only [List.cons_append, hyphenBefore, ih]

/-- Where nothing is found in a text, it may follow another one. -/
theorem hyphenBefore_append_right (h : ∀ n, hyphenBefore n w = false) (n : Nat) (s : List Char) :
    hyphenBefore n (s ++ w) = hyphenBefore n s := by
  have hcongr := hyphenBefore_congr (t := []) (fun n => (h n).trans (hyphenBefore_nil n).symm) n s
  rwa [List.append_nil] at hcongr

theorem hyphenBefore_of_notMem (h : '-' ∉ s) (n : Nat) : hyphenBefore n s = false := by
  refine Bool.eq_false_iff.2 fun htrue => h ?_
  obtain ⟨front, back, rfl, -⟩ := hyphenBefore_eq_true_iff.1 htrue
  exact List.mem_append_right _ List.mem_cons_self

/-- What comes behind a hyphen does not count. -/
theorem hyphenBefore_append_hyphen (n : Nat) (front s t : List Char) :
    hyphenBefore n (front ++ '-' :: s) = hyphenBefore n (front ++ '-' :: t) := by
  refine hyphenBefore_congr (fun n => ?_) n front
  cases n with
  | zero => rw [hyphenBefore_zero, hyphenBefore_zero]
  | succ n => rw [hyphenBefore_hyphen, hyphenBefore_hyphen]

/-- A component uses up one dot. -/
theorem hyphenBefore_component (hp : '.' ∉ p) (h : hyphenBefore n s = hyphenBefore n t) :
    hyphenBefore (n + 1) (p ++ '.' :: s) = hyphenBefore (n + 1) (p ++ '.' :: t) := by
  induction p with
  | nil => exact h
  | cons c rest ih =>
    rw [List.mem_cons, not_or] at hp
    simp only [List.cons_append, hyphenBefore, if_neg (Ne.symm hp.1), ih hp.2]


/-! ## Components -/

theorem plain_zero : Plain '0' := by decide

theorem exists_zeros (hne : p ≠ []) :
    ∃ zeros, p = zeros ++ stripZeros p ∧ ∀ c ∈ zeros, c = '0' := by
  have hsplit := List.takeWhile_append_dropWhile (p := (· == '0')) (l := p)
  have hzeros : ∀ c ∈ p.takeWhile (· == '0'), c = '0' := fun c hc => by
    simpa using List.mem_takeWhile_imp hc
  unfold stripZeros
  split
  · next hnil =>
    -- zeros only: the last one stays
    rw [hnil, List.append_nil] at hsplit
    rw [hsplit] at hzeros
    refine ⟨p.dropLast, ?_, fun c hc => hzeros c (List.dropLast_subset p hc)⟩
    rw [← hzeros _ (List.getLast_mem hne), List.dropLast_append_getLast]
  · exact ⟨_, hsplit.symm, hzeros⟩

theorem hyphenBefore_stripZeros (n : Nat) (p s : List Char) :
    hyphenBefore n (stripZeros p ++ s) = hyphenBefore n (p ++ s) := by
  rcases eq_or_ne p [] with rfl | hne
  · exact hyphenBefore_plain plain_zero n s
  · obtain ⟨zeros, hp, hzeros⟩ := exists_zeros hne
    conv_rhs => rw [hp, List.append_assoc]
    exact (hyphenBefore_append_left (fun c hc => hzeros c hc ▸ plain_zero) n _).symm

theorem mem_stripZeros (hc : c ≠ '0') : c ∈ stripZeros p ↔ c ∈ p := by
  rcases eq_or_ne p [] with rfl | hne
  · simp [stripZeros, hc]
  · obtain ⟨zeros, hp, hzeros⟩ := exists_zeros hne
    have hnot : c ∉ zeros := fun hmem => hc (hzeros c hmem)
    conv_rhs => rw [hp, List.mem_append, or_iff_right hnot]

theorem hyphenBefore_dotted_stripZeros {parts : List (List Char)} (h : ∀ part ∈ parts, '.' ∉ part)
    (n : Nat) : hyphenBefore n (dotted (parts.map stripZeros)) = hyphenBefore n (dotted parts) := by
  induction parts generalizing n with
  | nil => rfl
  | cons part rest ih =>
    rw [List.forall_mem_cons] at h
    rcases eq_or_ne rest [] with rfl | hrest
    · have hstrip := hyphenBefore_stripZeros n part []
      rw [List.append_nil, List.append_nil] at hstrip
      rwa [List.map_singleton, dotted_singleton, dotted_singleton]
    · rw [List.map_cons, dotted_cons (by simpa using hrest), dotted_cons hrest,
        hyphenBefore_stripZeros]
      cases n with
      | zero => rw [hyphenBefore_zero, hyphenBefore_zero]
      | succ n => exact hyphenBefore_component h.1 (ih h.2 n)

/-- Only as many components count as dots may come. -/
theorem hyphenBefore_take {parts : List (List Char)} (h : ∀ part ∈ parts, '.' ∉ part)
    (hw : ∀ n, hyphenBefore n w = false) (n : Nat) :
    hyphenBefore n (dotted (parts.take n) ++ w) = hyphenBefore n (dotted parts) := by
  rw [hyphenBefore_append_right hw]
  induction parts generalizing n with
  | nil => rw [List.take_nil]
  | cons part rest ih =>
    rw [List.forall_mem_cons] at h
    cases n with
    | zero => rw [hyphenBefore_zero, hyphenBefore_zero]
    | succ n =>
      rcases eq_or_ne rest [] with rfl | hrest
      · rw [List.take_succ_cons, List.take_nil]
      · rw [List.take_succ_cons, dotted_cons hrest]
        rcases Nat.eq_zero_or_pos n with rfl | hn
        · rw [List.take_zero, dotted_singleton]
          -- the dot behind the first component is one too many
          have hstop : hyphenBefore 1 (part ++ '.' :: dotted rest) =
              hyphenBefore 1 (part ++ ['.']) :=
            hyphenBefore_component h.1 ((hyphenBefore_zero _).trans (hyphenBefore_zero _).symm)
          rw [hstop, hyphenBefore_append_right fun n => hyphenBefore_of_notMem (by decide) n]
        · have hne : rest.take n ≠ [] := by
            simp [hrest, Nat.pos_iff_ne_zero.1 hn]
          rw [dotted_cons hne]
          exact hyphenBefore_component h.1 (ih h.2 n)

/-- The components are joined to the text again, but for zeros. -/
theorem hyphenBefore_components (n : Nat) (front : List Char) :
    hyphenBefore n (dotted (components front)) = hyphenBefore n front := by
  have hne : (front.splitOn '.').map stripZeros ≠ [] := by simp
  have hzeros : ∀ k n, hyphenBefore n ((List.replicate k ['0']).flatMap ('.' :: ·)) = false := by
    intro k n
    refine hyphenBefore_of_notMem (fun hmem => ?_) n
    obtain ⟨part, hpart, hc⟩ := List.mem_flatMap.1 hmem
    rw [List.eq_of_mem_replicate hpart] at hc
    exact absurd hc (by decide)
  unfold components
  rw [dotted_append hne, hyphenBefore_append_right (hzeros _),
    hyphenBefore_dotted_stripZeros fun _ => Text.notMem_of_mem_splitOn, dotted_splitOn]

theorem dot_notMem_of_mem_components {front part : List Char} (h : part ∈ components front) :
    '.' ∉ part := by
  rcases List.mem_append.1 h with h | h
  · obtain ⟨other, hother, rfl⟩ := List.mem_map.1 h
    rw [mem_stripZeros (by decide)]
    exact Text.notMem_of_mem_splitOn hother
  · rw [List.eq_of_mem_replicate h]
    decide

/-! ## The canonical form -/

theorem hyphenBefore_marked (build : List Char) (n : Nat) :
    hyphenBefore n (marked build) = false := by
  cases build with
  | nil => exact hyphenBefore_nil n
  | cons c rest => exact hyphenBefore_mark (.inr rfl) n (c :: rest)

theorem hyphenBefore_assemble (front build : List Char) :
    hyphenBefore 3 (assemble front build) = hyphenBefore 3 front := by
  rw [assemble_eq, hyphenBefore_take (fun _ => dot_notMem_of_mem_components)
    (hyphenBefore_marked _), hyphenBefore_components]

theorem hyphenBefore_parted (n : Nat) (s : List Char) :
    hyphenBefore n (parted s).1 = hyphenBefore n s := by
  obtain ⟨letter, hs, -, hlower⟩ := exists_moved s
  have hbehind : ∀ n, hyphenBefore n (Semantic.behind '_' (Semantic.cut '_' s).2) = false := by
    intro n
    cases (Semantic.cut '_' s).2 with
    | none => exact hyphenBefore_nil n
    | some build => exact hyphenBefore_mark (.inl rfl) n build
  conv_rhs => rw [hs]
  refine (hyphenBefore_append_right (fun n => ?_) n _).symm
  rw [hyphenBefore_append_left fun c hc =>
    plain_of_isAlphanum (isAlphanum_of_isLower (hlower c hc)), hbehind]

theorem hyphenBefore_undress (n : Nat) (s : List Char) :
    hyphenBefore n (undress s) = hyphenBefore n s := by
  obtain ⟨marks, letter, hs, hmarks, hletter⟩ := exists_dress s
  have hmark : ∀ c ∈ ['<', '>', '~'], Plain c := by simp [Plain]
  have hplain : ∀ c ∈ marks, Plain c := fun c hc => hmark c (hmarks c hc)
  conv_rhs => rw [hs, hyphenBefore_append_left hplain]
  rcases hletter with rfl | rfl
  · rfl
  · exact (hyphenBefore_plain (by decide) n _).symm

section

variable {v c : String}

/-- A canonical form has an early hyphen if the version has. -/
theorem hyphenBefore_canonical (h : canonical v = .ok c) :
    hyphenBefore 3 c.toList = hyphenBefore 3 v.toList := by
  rcases canonical_eq_ok_iff.1 h with ⟨-, hc⟩ | ⟨-, -, hc, -⟩
  · rw [hc, hyphenBefore_undress]
  · rw [hc, hyphenBefore_assemble, hyphenBefore_parted, hyphenBefore_undress]

end

/-- The hyphen of a semantic version opens its pre-release part, behind two dots. -/
theorem hyphenBefore_text (n : Nat) (s : Semantic) :
    hyphenBefore (n + 2) s.text = hyphenBefore n (Semantic.behind '-' (Semantic.part? s.pre)) := by
  have hdigits : ∀ n, ∀ c ∈ digits n, Plain c := fun n c hc =>
    plain_of_isAlphanum (isAlphanum_of_isDigit (Text.Decimal.isDigit_of_mem_toDigits hc))
  have hbuild : ∀ n, hyphenBefore n (Semantic.behind '+' (Semantic.part? s.build)) = false := by
    intro n
    cases Semantic.part? s.build with
    | none => exact hyphenBefore_nil n
    | some build => exact hyphenBefore_mark (.inr rfl) n build
  rw [Semantic.text, hyphenBefore_append_right hbuild]
  simp only [List.map_cons, List.map_nil, dotted_cons (List.cons_ne_nil _ _), dotted_singleton,
    List.append_assoc, List.cons_append]
  rw [hyphenBefore_append_left (hdigits _), hyphenBefore_dot, hyphenBefore_append_left (hdigits _),
    hyphenBefore_dot, hyphenBefore_append_left (hdigits _)]

theorem hyphenBefore_text_eq_true_iff (s : Semantic) :
    hyphenBefore 3 s.text = true ↔ s.pre ≠ "" := by
  rw [hyphenBefore_text 1, Semantic.part?]
  split
  · next h => simp [h, Semantic.behind, hyphenBefore_nil]
  · next h => simp [h, Semantic.behind, hyphenBefore_hyphen]

/-! ## Releases -/

/-- Some hyphen of the version comes before every underscore, every plus sign and the third dot. -/
def EarlyHyphen (v : Version) : Prop :=
  ∃ front back, v.text.toList = front ++ '-' :: back ∧ '_' ∉ front ∧ '+' ∉ front ∧
    front.count '.' < 3

theorem hyphenBefore_iff_earlyHyphen {v : Version} :
    hyphenBefore 3 v.text.toList = true ↔ EarlyHyphen v := hyphenBefore_eq_true_iff

instance (v : Version) : Decidable (EarlyHyphen v) :=
  decidable_of_iff _ hyphenBefore_iff_earlyHyphen

theorem release?_of_error {v : Version} {e : NotCanonical} (h : canonical v.text = .error e) :
    v.release? = none := by
  rw [release?, h]

section

variable {v : Version} {c : String} {s : Semantic} (h : canonical v.text = .ok c)
  (hparse : Semantic.parse? c.toList = some s)

include h hparse

theorem earlyHyphen_iff : EarlyHyphen v ↔ s.pre ≠ "" := by
  obtain ⟨-, htext⟩ := Semantic.parse?_eq_some_iff.1 hparse
  rw [← hyphenBefore_iff_earlyHyphen, ← hyphenBefore_canonical h, htext,
    hyphenBefore_text_eq_true_iff]

theorem release?_of_canonical :
    v.release? = if s.pre = "" then some ⟨s.major, s.minor, s.patch, s.build⟩ else none := by
  simp only [release?, h, hparse, String.isEmpty_iff]

end

/-- A version is no release exactly if it has no canonical form or an early hyphen. -/
theorem release?_eq_none_iff {v : Version} :
    v.release? = none ↔ EarlyHyphen v ∨ ∃ e, canonical v.text = .error e := by
  cases h : canonical v.text with
  | error e => simp [release?_of_error h]
  | ok c =>
    obtain ⟨s, hparse, -⟩ := exists_valid_of_canonical h
    rw [release?_of_canonical h hparse, earlyHyphen_iff h hparse]
    simp

/-! ## What becomes of a hyphen -/

theorem hyphen_mem_components {front : List Char} (h : '-' ∈ front) :
    ∃ part ∈ components front, '-' ∈ part := by
  rw [← dotted_splitOn front] at h
  rcases mem_dotted h with heq | ⟨part, hpart, hc⟩
  · exact absurd heq (by decide)
  · exact ⟨stripZeros part, List.mem_append_left _ (List.mem_map_of_mem hpart),
      (mem_stripZeros (by decide)).2 hc⟩

theorem mem_extendBuild {build : List Char} {extra : List (List Char)} {c : Char}
    (h : c ∈ build ∨ ∃ part ∈ extra, c ∈ part) : c ∈ extendBuild build extra := by
  have hextra : (∃ part ∈ extra, c ∈ part) → c ∈ dotted extra :=
    fun ⟨_, hpart, hc⟩ => mem_dotted_of_mem hpart hc
  unfold extendBuild
  split
  · simpa using h
  · split
    · next hempty =>
      rw [List.isEmpty_iff.1 hempty] at h
      exact hextra (h.resolve_left List.not_mem_nil)
    · rw [List.mem_append]
      exact h.imp_right fun hex => List.mem_cons_of_mem _ (hextra hex)

theorem mem_marked {build : List Char} {c : Char} (h : c ∈ build) : c ∈ marked build := by
  cases build with
  | nil => exact h
  | cons d rest => exact List.mem_cons_of_mem _ h

theorem hyphen_mem_assemble {front build : List Char} (h : '-' ∈ front ∨ '-' ∈ build) :
    '-' ∈ assemble front build := by
  rw [assemble_eq, List.mem_append]
  rcases h with hfront | hbuild
  · obtain ⟨part, hpart, hc⟩ := hyphen_mem_components hfront
    rw [← List.take_append_drop 3 (components front), List.mem_append] at hpart
    rcases hpart with hpart | hpart
    · exact .inl (mem_dotted_of_mem hpart hc)
    · exact .inr (mem_marked (mem_extendBuild (.inr ⟨part, hpart, hc⟩)))
  · exact .inr (mem_marked (mem_extendBuild (.inl hbuild)))

theorem hyphen_mem_parted {s : List Char} (h : '-' ∈ s) :
    '-' ∈ (parted s).1 ∨ '-' ∈ (parted s).2 := by
  obtain ⟨letter, hs, hbuild, hlower⟩ := exists_moved s
  rw [hs, List.mem_append, List.mem_append] at h
  rw [hbuild, List.mem_append]
  rcases h with hfront | hletter | hbehind
  · exact .inl hfront
  · cases hlower _ hletter
  · refine .inr (.inr ?_)
    cases hback : (Semantic.cut '_' s).2 with
    | none => rw [hback] at hbehind; cases hbehind
    | some build =>
      rw [hback] at hbehind
      exact (List.mem_cons.1 hbehind).resolve_left (by decide)

theorem hyphen_mem_undress {s : List Char} (h : '-' ∈ s) : '-' ∈ undress s := by
  obtain ⟨marks, letter, hs, hmarks, hletter⟩ := exists_dress s
  rw [hs, List.mem_append, List.mem_append] at h
  rcases h with hmem | hmem | hmem
  · exact absurd (hmarks _ hmem) (by decide)
  · rcases hletter with rfl | rfl <;> exact absurd hmem (by decide)
  · exact hmem

theorem hyphen_mem_canonical {v c : String} (h : canonical v = .ok c) (hv : '-' ∈ v.toList) :
    '-' ∈ c.toList := by
  rcases canonical_eq_ok_iff.1 h with ⟨-, hc⟩ | ⟨-, -, hc, -⟩
  · rw [hc]
    exact hyphen_mem_undress hv
  · rw [hc]
    exact hyphen_mem_assemble (hyphen_mem_parted (hyphen_mem_undress hv))

/-- Without a pre-release part, a hyphen comes behind the plus sign. -/
theorem exists_build_of_hyphen {s : Semantic} {x y : List Char} (hpre : s.pre = "")
    (h : s.text = x ++ '-' :: y) :
    ∃ p, x = dotted ([s.major, s.minor, s.patch].map digits) ++ '+' :: p ∧
      s.build.toList = p ++ '-' :: y := by
  have hnumbers : '-' ∉ dotted ([s.major, s.minor, s.patch].map digits) :=
    Semantic.notMem_numbers (by decide) (by decide)
  have hnone : Semantic.part? s.pre = none := if_pos hpre
  rw [Semantic.text, hnone, Semantic.behind, List.append_nil] at h
  generalize dotted ([s.major, s.minor, s.patch].map digits) = numbers at h hnumbers ⊢
  rcases List.append_eq_append_iff.1 h with ⟨z, rfl, hz⟩ | ⟨z, rfl, hz⟩
  · unfold Semantic.part? at hz
    split at hz
    · cases z <;> cases hz
    · cases z with
      | nil => cases hz
      | cons c p =>
        obtain ⟨rfl, hbuild⟩ := List.cons.inj hz
        exact ⟨p, rfl, hbuild⟩
  · cases z with
    | nil =>
      unfold Semantic.part? at hz
      split at hz <;> cases hz
    | cons c p =>
      obtain ⟨rfl, -⟩ := List.cons.inj hz
      exact absurd (List.mem_append_right x List.mem_cons_self) hnumbers

theorem hyphen_mem_build {a : Version} {r : Release} (hyphen : '-' ∈ a.text.toList)
    (h : a.release? = some r) : '-' ∈ r.build.toList := by
  cases hcanonical : canonical a.text with
  | error e =>
    rw [release?_of_error hcanonical] at h
    cases h
  | ok c =>
    obtain ⟨s, hparse, -, htext⟩ := exists_valid_of_canonical hcanonical
    obtain ⟨x, y, hxy⟩ := List.append_of_mem (hyphen_mem_canonical hcanonical hyphen)
    rw [release?_of_canonical hcanonical hparse] at h
    split at h
    · next hpre =>
      obtain rfl := Option.some.inj h
      obtain ⟨p, -, hbuild⟩ := exists_build_of_hyphen hpre (htext.symm.trans hxy)
      exact hbuild ▸ List.mem_append_right p List.mem_cons_self
    · cases h

/-- A version with a hyphen is no release exactly if it has no canonical form or a hyphen in it is
early, that is, comes before every underscore, every plus sign and the third dot. Then it is
compared with every version segment by segment. Otherwise its hyphens have gone to the build part of
the release that it is. -/
theorem early_hyphen_decides {a : Version} (hyphen : '-' ∈ a.text.toList) :
    (a.release? = none ↔ EarlyHyphen a ∨ ∃ e, canonical a.text = .error e) ∧
      (a.release? = none → ∀ b, compare a b = compareSegments a.text b.text ∧
        compare b a = compareSegments b.text a.text) ∧
      (∀ r, a.release? = some r → '-' ∈ r.build.toList) := by
  refine ⟨release?_eq_none_iff, fun hnone b => ?_, fun r => hyphen_mem_build hyphen⟩
  exact ⟨compare_of_left_none hnone, compare_of_right_none hnone⟩

/-- The hyphen of a release candidate is early, and that of a release number behind a patch level is
not. -/
theorem early_hyphen_decides_candidate :
    (EarlyHyphen ⟨"1.2.3-rc1"⟩ ∧
      ∀ b, compare ⟨"1.2.3-rc1"⟩ b = compareSegments "1.2.3-rc1" b.text) ∧
    ¬EarlyHyphen ⟨"9.7_p1-r4"⟩ ∧ (Version.mk "9.7_p1-r4").release? ≠ none := by
  have hcandidate := early_hyphen_decides (a := ⟨"1.2.3-rc1"⟩) (by decide)
  have hpatched := early_hyphen_decides (a := ⟨"9.7_p1-r4"⟩) (by decide)
  have hearly : EarlyHyphen ⟨"1.2.3-rc1"⟩ := by decide
  have hlate : ¬EarlyHyphen ⟨"9.7_p1-r4"⟩ := by decide
  have hcanonical : ¬∃ e, canonical "9.7_p1-r4" = .error e := by
    have hok : canonical "9.7_p1-r4" = .ok "9.7.0+p1-r4" := by decide +kernel
    simp [hok]
  exact ⟨⟨hearly, fun b => (hcandidate.2.1 (hcandidate.1.2 (.inl hearly)) b).1⟩, hlate,
    fun hnone => (hpatched.1.1 hnone).elim hlate hcanonical⟩

/-- With its hyphen in the build part, a release number behind a patch level leaves a release, which
equals one that differs from it segment by segment. -/
theorem patch_release_is_release :
    ¬∀ a b : Version, '-' ∈ a.text.toList →
      a.release? = none ∧ compare a b = compareSegments a.text b.text := by
  intro h
  have hsegments := (h ⟨"9.7_p1-r4"⟩ ⟨"9.7.0_p1-r4"⟩ (by decide)).2
  have hequal : compare ⟨"9.7_p1-r4"⟩ ⟨"9.7.0_p1-r4"⟩ = .eq := by decide +kernel
  have hbelow : compareSegments "9.7_p1-r4" "9.7.0_p1-r4" = .lt := by decide +kernel
  exact absurd (hequal.symm.trans (hsegments.trans hbelow)) (by decide)

end Depot.Version
