import Mathlib.Data.List.TakeDrop
import Depot.Proofs.Text.Joined
import Depot.Proofs.Version.Segment
import Depot.Version.Semantic

/-!
# The parts of a semantic version

What is joined by dots is split there again (`splitOn_dotted`), a text is cut at the first mark
(`cut_append`), and a component that fits a word is read back (`component?_digits`).
-/

namespace Depot.Version

open Text.Decimal (wordLimit)

/-- Parts joined by dots. -/
def dotted (parts : List (List Char)) : List Char := ['.'].intercalate parts

theorem dotted_singleton (part : List Char) : dotted [part] = part := List.intercalate_singleton

theorem dotted_cons {rest : List (List Char)} (h : rest ≠ []) (part : List Char) :
    dotted (part :: rest) = part ++ '.' :: dotted rest := by
  rw [dotted, List.intercalate_cons_of_ne_nil h, List.append_assoc, List.singleton_append, dotted]

/-- Each part but the first has a dot in front. -/
theorem dotted_cons_eq (part : List Char) (rest : List (List Char)) :
    dotted (part :: rest) = part ++ rest.flatMap ('.' :: ·) := by
  induction rest generalizing part with
  | nil => rw [dotted_singleton, List.flatMap_nil, List.append_nil]
  | cons next more ih =>
    rw [dotted_cons (List.cons_ne_nil next more), ih, List.flatMap_cons, List.cons_append]

theorem dotted_append {parts : List (List Char)} (h : parts ≠ []) (more : List (List Char)) :
    dotted (parts ++ more) = dotted parts ++ more.flatMap ('.' :: ·) := by
  obtain ⟨part, rest, rfl⟩ := List.exists_cons_of_ne_nil h
  rw [List.cons_append, dotted_cons_eq, dotted_cons_eq, List.flatMap_append, List.append_assoc]

theorem mem_dotted {parts : List (List Char)} {c : Char} (h : c ∈ dotted parts) :
    c = '.' ∨ ∃ part ∈ parts, c ∈ part := by
  induction parts with
  | nil => cases h
  | cons part rest ih =>
    rcases eq_or_ne rest [] with rfl | hrest
    · rw [dotted_singleton] at h
      exact .inr ⟨part, List.mem_cons_self, h⟩
    · rw [dotted_cons hrest, List.mem_append, List.mem_cons] at h
      rcases h with h | rfl | h
      · exact .inr ⟨part, List.mem_cons_self, h⟩
      · exact .inl rfl
      · rcases ih h with rfl | ⟨other, hother, hc⟩
        · exact .inl rfl
        · exact .inr ⟨other, List.mem_cons_of_mem part hother, hc⟩

theorem mem_dotted_of_mem {parts : List (List Char)} {part : List Char} {c : Char}
    (hpart : part ∈ parts) (hc : c ∈ part) : c ∈ dotted parts := by
  induction parts with
  | nil => cases hpart
  | cons first rest ih =>
    rcases eq_or_ne rest [] with rfl | hrest
    · obtain rfl := List.mem_singleton.1 hpart
      rwa [dotted_singleton]
    · rw [dotted_cons hrest]
      rcases List.mem_cons.1 hpart with rfl | hpart
      · exact List.mem_append_left _ hc
      · exact List.mem_append_right _ (List.mem_cons_of_mem _ (ih hpart))

/-- Digits and dots only. -/
theorem mem_dotted_digits {numbers : List Nat} {c : Char}
    (h : c ∈ dotted (numbers.map digits)) : c = '.' ∨ c.isDigit = true := by
  refine (mem_dotted h).imp_right fun ⟨part, hpart, hc⟩ => ?_
  obtain ⟨n, -, rfl⟩ := List.mem_map.1 hpart
  exact Text.Decimal.isDigit_of_mem_toDigits hc

theorem splitOn_dotted {parts : List (List Char)} (hne : parts ≠ [])
    (h : ∀ part ∈ parts, '.' ∉ part) : (dotted parts).splitOn '.' = parts :=
  List.splitOn_intercalate '.' h hne

theorem dotted_splitOn (s : List Char) : dotted (s.splitOn '.') = s := List.intercalate_splitOn '.'

theorem segmentsOf_dotted (parts : List (List Char)) :
    segmentsOf (dotted parts) = parts.flatMap segmentsOf :=
  segmentsOf_intercalate (by decide) parts

theorem dot_not_mem_digits (n : Nat) : '.' ∉ digits n := fun h =>
  absurd (Text.Decimal.isDigit_of_mem_toDigits h) (by decide)

theorem splitOn_dotted_digits {numbers : List Nat} (hne : numbers ≠ []) :
    (dotted (numbers.map digits)).splitOn '.' = numbers.map digits := by
  refine splitOn_dotted (by simpa using hne) fun part hpart => ?_
  obtain ⟨n, -, rfl⟩ := List.mem_map.1 hpart
  exact dot_not_mem_digits n

namespace Semantic

/-! ## Cutting -/

theorem cut_of_notMem {mark : Char} {s : List Char} (h : mark ∉ s) : cut mark s = (s, none) := by
  have hpass : ∀ c ∈ s, (c != mark) = true := fun c hc => bne_iff_ne.2 fun heq => h (heq ▸ hc)
  simp only [cut, List.span_eq_takeWhile_dropWhile]
  rw [List.takeWhile_eq_self_iff.2 hpass, List.dropWhile_eq_nil_iff.2 hpass]

theorem cut_append {mark : Char} {front : List Char} (h : mark ∉ front) (back : List Char) :
    cut mark (front ++ mark :: back) = (front, some back) := by
  have hpass : ∀ c ∈ front, (c != mark) = true := fun c hc => bne_iff_ne.2 fun heq => h (heq ▸ hc)
  have hstop : (mark != mark) = false := bne_self_eq_false mark
  have htake := takeWhile_append_stop (p := (· != mark)) hstop front back
  have hdrop := dropWhile_append_stop (p := (· != mark)) hstop front back
  rw [List.takeWhile_eq_self_iff.2 hpass] at htake
  rw [List.dropWhile_eq_nil_iff.2 hpass] at hdrop
  simp only [cut, List.span_eq_takeWhile_dropWhile, htake, hdrop, List.nil_append]

/-! ## Reading -/

theorem component?_digits {n : Nat} (h : n < wordLimit) : component? (digits n) = some n := by
  rw [component?, if_pos (Text.Decimal.isNumeral_toDigits n), Text.Decimal.word?_toDigits h]

theorem dot_not_mem_of_isIdentifier {part : List Char} (h : isIdentifier part = true) :
    '.' ∉ part := by
  intro hdot
  rw [isIdentifier, Bool.and_eq_true, List.all_eq_true] at h
  exact absurd (h.2 _ hdot) (by decide)

end Semantic

end Depot.Version
