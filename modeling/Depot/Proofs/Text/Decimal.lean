import Mathlib.Algebra.Group.Nat.Defs
import Depot.Text.Decimal

/-!
# Numbers written in decimal

The digits that a number is written with are a numeral (`isNumeral_toDigits`) and have its value
(`value_toDigits`). They are read back when the number fits a word (`word?_toDigits`), and a numeral
is what its value is written with (`toDigits_value`). Numbers with equally many digits are in the
order of their digits (`compareLex_eq_compare_value`).
-/

namespace Depot.Text.Decimal

theorem value_toDigits (n : Nat) : value (Nat.toDigits 10 n) = n := by
  have h := Nat.ofDigitChars_ten_toDigits (n := n)
  rwa [Nat.ofDigitChars_eq_foldl] at h

theorem isDigit_of_mem_toDigits {n : Nat} {c : Char} (h : c ∈ Nat.toDigits 10 n) :
    c.isDigit = true :=
  Nat.isDigit_of_mem_toDigits (by decide) (by decide) h

theorem digitChar_ne_zero : ∀ d < 10, 0 < d → d.digitChar ≠ '0' := by decide

/-- Only zero starts with a zero. -/
theorem head_toDigits {n : Nat} (hn : 0 < n) :
    ∃ c rest, Nat.toDigits 10 n = c :: rest ∧ c ≠ '0' := by
  induction n using Nat.strongRecOn with
  | ind n ih =>
    by_cases hlt : n < 10
    · exact ⟨n.digitChar, [], Nat.toDigits_of_lt_base hlt, digitChar_ne_zero n hlt hn⟩
    · obtain ⟨c, rest, hdigits, hc⟩ := ih (n / 10) (by omega) (by omega)
      refine ⟨c, rest ++ [(n % 10).digitChar], ?_, hc⟩
      rw [Nat.toDigits_of_base_le (by decide) (by omega), hdigits, List.cons_append]

theorem isNumeral_toDigits (n : Nat) : isNumeral (Nat.toDigits 10 n) = true := by
  rcases Nat.eq_zero_or_pos n with rfl | hn
  · simp [isNumeral]
  · obtain ⟨c, rest, hdigits, hc⟩ := head_toDigits hn
    have hall : ∀ d ∈ c :: rest, d.isDigit = true :=
      fun d hd => isDigit_of_mem_toDigits (hdigits ▸ hd)
    rw [hdigits]
    cases rest with
    | nil => exact hall c (by simp)
    | cons d rest =>
      simp only [isNumeral, Bool.and_eq_true, List.all_eq_true, bne_iff_ne]
      exact ⟨⟨hc, hall c (by simp)⟩, fun e he => hall e (by simp [List.mem_cons.1 he])⟩

theorem word?_toDigits {n : Nat} (h : n < wordLimit) : word? (Nat.toDigits 10 n) = some n := by
  have hall : (Nat.toDigits 10 n).all Char.isDigit = true :=
    List.all_eq_true.2 fun _ hc => isDigit_of_mem_toDigits hc
  have hempty : (Nat.toDigits 10 n).isEmpty = false :=
    List.isEmpty_eq_false_iff.2 Nat.toDigits_ne_nil
  simp [word?, hall, hempty, value_toDigits, h]

theorem word?_toDigits_of_le {n : Nat} (h : wordLimit ≤ n) :
    word? (Nat.toDigits 10 n) = none := by
  rw [word?, value_toDigits, if_neg]
  simp only [Bool.and_eq_true, decide_eq_true_eq]
  omega

/-! ## Numerals -/

theorem toNat_of_isDigit {c : Char} (h : c.isDigit = true) :
    c.toNat = 48 + digit c ∧ digit c < 10 := by
  have hrange : '0'.toNat ≤ c.toNat ∧ c.toNat ≤ '9'.toNat := by
    simpa [Char.isDigit, UInt32.le_iff_toNat_le] using h
  have hzero : '0'.toNat = 48 := rfl
  have hnine : '9'.toNat = 57 := rfl
  unfold digit
  omega

theorem digit_lt_ten {c : Char} (h : c.isDigit = true) : digit c < 10 := (toNat_of_isDigit h).2

theorem digitChar_digit {c : Char} (h : c.isDigit = true) : (digit c).digitChar = c := by
  apply Char.toNat_inj.1
  rw [Nat.toNat_digitChar_of_lt_ten (digit_lt_ten h), (toNat_of_isDigit h).1]

/-- Digits behind those of a number, which is what `value` goes through. -/
theorem toDigits_foldl {n : Nat} (hn : 0 < n) {s : List Char} (h : ∀ c ∈ s, c.isDigit = true) :
    Nat.toDigits 10 (s.foldl (fun n c => 10 * n + digit c) n) = Nat.toDigits 10 n ++ s := by
  induction s generalizing n with
  | nil => simp
  | cons c rest ih =>
    have hc := h c List.mem_cons_self
    have hlt := digit_lt_ten hc
    have hnext : Nat.toDigits 10 (10 * n + digit c) = Nat.toDigits 10 n ++ [c] := by
      have hquotient : (10 * n + digit c) / 10 = n := by omega
      have hremainder : (10 * n + digit c) % 10 = digit c := by omega
      rw [Nat.toDigits_of_base_le (by decide) (by omega), hquotient, hremainder,
        digitChar_digit hc]
    rw [List.foldl_cons, ih (by omega) fun d hd => h d (List.mem_cons_of_mem c hd), hnext,
      List.append_assoc, List.singleton_append]

/-- A numeral is what its value is written with. -/
theorem toDigits_value {s : List Char} (h : isNumeral s = true) :
    Nat.toDigits 10 (value s) = s := by
  match s with
  | [] => cases h
  | [c] =>
    have hvalue : value [c] = digit c := by simp [value]
    rw [hvalue, Nat.toDigits_of_lt_base (digit_lt_ten h), digitChar_digit h]
  | c :: d :: rest =>
    simp only [isNumeral, Bool.and_eq_true, List.all_eq_true, bne_iff_ne] at h
    obtain ⟨⟨hne, hc⟩, hrest⟩ := h
    have hpos : 0 < digit c := by
      refine Nat.pos_of_ne_zero fun hzero => hne ?_
      rw [← digitChar_digit hc, hzero]
      rfl
    have hvalue : value (c :: d :: rest) =
        (d :: rest).foldl (fun n c => 10 * n + digit c) (digit c) := by simp [value]
    rw [hvalue, toDigits_foldl hpos hrest, Nat.toDigits_of_lt_base (digit_lt_ten hc),
      digitChar_digit hc, List.singleton_append]

/-! ## Numbers in the order of their texts -/

theorem foldl_value (s : List Char) (n : Nat) :
    s.foldl (fun n c => 10 * n + digit c) n = n * 10 ^ s.length + value s := by
  induction s generalizing n with
  | nil => simp [value]
  | cons c rest ih =>
    have hfirst : value (c :: rest) = digit c * 10 ^ rest.length + value rest := by
      rw [value, List.foldl_cons, ih, Nat.mul_zero, Nat.zero_add]
    rw [List.foldl_cons, ih, hfirst, List.length_cons, Nat.pow_succ, Nat.add_mul, Nat.mul_comm 10 n,
      Nat.mul_assoc, Nat.mul_comm 10, Nat.add_assoc]

theorem value_cons (c : Char) (s : List Char) :
    value (c :: s) = digit c * 10 ^ s.length + value s := by
  rw [value, List.foldl_cons, foldl_value, Nat.mul_zero, Nat.zero_add]

theorem value_zeros_append {zeros : List Char} (h : ∀ c ∈ zeros, c = '0') (s : List Char) :
    value (zeros ++ s) = value s := by
  induction zeros with
  | nil => rfl
  | cons c rest ih =>
    rw [List.forall_mem_cons] at h
    have hzero : digit c = 0 := by rw [h.1]; rfl
    rw [List.cons_append, value_cons, hzero, Nat.zero_mul, Nat.zero_add, ih h.2]

theorem value_lt {s : List Char} (h : ∀ c ∈ s, c.isDigit = true) : value s < 10 ^ s.length := by
  induction s with
  | nil => simp [value]
  | cons c rest ih =>
    rw [List.forall_mem_cons] at h
    have hrest := ih h.2
    have hc : (digit c + 1) * 10 ^ rest.length ≤ 10 * 10 ^ rest.length :=
      Nat.mul_le_mul_right _ (digit_lt_ten h.1)
    rw [Nat.add_mul] at hc
    rw [value_cons, List.length_cons, Nat.pow_succ]
    omega

theorem compare_digit {c d : Char} (hc : c.isDigit = true) (hd : d.isDigit = true) :
    Ord.compare c d = Ord.compare (digit c) (digit d) := by
  have hc' := (toNat_of_isDigit hc).1
  have hd' := (toNat_of_isDigit hd).1
  have hlt : c < d ↔ digit c < digit d := by
    rw [Char.lt_def, UInt32.lt_iff_toNat_lt]
    show c.toNat < d.toNat ↔ _
    omega
  have heq : c = d ↔ digit c = digit d := by
    rw [← Char.toNat_inj]
    omega
  show compareOfLessAndEq c d = compareOfLessAndEq (digit c) (digit d)
  simp only [compareOfLessAndEq, hlt, heq]

theorem compare_mul_add {a b v w k : Nat} (hv : v < k) (hw : w < k) :
    Ord.compare (a * k + v) (b * k + w) = (Ord.compare a b).then (Ord.compare v w) := by
  have hbelow : ∀ {a b v : Nat}, v < k → a < b → a * k + v < b * k := by
    intro a b v hv hab
    have hle : (a + 1) * k ≤ b * k := Nat.mul_le_mul_right k hab
    rw [Nat.add_mul] at hle
    omega
  rcases Nat.lt_trichotomy a b with hab | rfl | hab
  · have hlt := hbelow hv hab
    rw [Nat.compare_eq_lt.2 hab, Nat.compare_eq_lt.2 (by omega)]
    rfl
  · have hself : Ord.compare a a = .eq := Nat.compare_eq_eq.2 rfl
    rw [hself]
    show _ = Ord.compare v w
    simp only [Nat.compare_eq_ite_lt]
    simp
  · have hlt := hbelow hw hab
    rw [Nat.compare_eq_gt.2 hab, Nat.compare_eq_gt.2 (by omega)]
    rfl

/-- Among texts of digits of one length, the order of the texts is that of the numbers. -/
theorem compareLex_eq_compare_value {s t : List Char} (hs : ∀ c ∈ s, c.isDigit = true)
    (ht : ∀ c ∈ t, c.isDigit = true) (hlength : s.length = t.length) :
    List.compareLex Ord.compare s t = Ord.compare (value s) (value t) := by
  induction s generalizing t with
  | nil =>
    obtain rfl := List.length_eq_zero_iff.1 hlength.symm
    rfl
  | cons c rest ih =>
    cases t with
    | nil => cases hlength
    | cons d more =>
      rw [List.forall_mem_cons] at hs ht
      have hlength' : rest.length = more.length := Nat.succ.inj hlength
      rw [List.compareLex_cons_cons, ih hs.2 ht.2 hlength', compare_digit hs.1 ht.1, value_cons,
        value_cons, hlength', compare_mul_add (hlength' ▸ value_lt hs.2) (value_lt ht.2)]

end Depot.Text.Decimal
