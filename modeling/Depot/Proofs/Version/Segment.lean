import Mathlib.Data.List.TakeWhile
import Depot.Proofs.Text.Decimal
import Depot.Version.Segment

/-!
# Segments of texts that are put together

A character that separates cuts the runs of a text (`runs_append`), so the runs of parts joined by
separators are those of the parts (`runs_intercalate`), and a part of one kind is a run of its own
(`runs_of_kind`). Hence numbers joined by separators have themselves as segments
(`segmentsOf_numbers`).
-/

namespace Depot.Version

open Text.Decimal (wordLimit)

/-- The digits of a number. -/
abbrev digits (n : Nat) : List Char := Nat.toDigits 10 n

/-- The segments of some characters, in order. -/
def segmentsOf (s : List Char) : List Segment := (runs s).map Segment.ofRun

theorem segments_eq (v : String) : segments v = segmentsOf v.toList := rfl

theorem segments_ofList (s : List Char) : segments (String.ofList s) = segmentsOf s := by
  rw [segments, String.toList_ofList, segmentsOf]

/-! ## Runs -/

section

variable {p : Char → Bool} {c : Char} (hc : p c = false)

include hc

theorem takeWhile_append_stop (front back : List Char) :
    (front ++ c :: back).takeWhile p = front.takeWhile p := by
  induction front with
  | nil => simp [hc]
  | cons d rest ih => simp only [List.cons_append, List.takeWhile_cons, ih]

theorem dropWhile_append_stop (front back : List Char) :
    (front ++ c :: back).dropWhile p = front.dropWhile p ++ c :: back := by
  induction front with
  | nil => simp [hc]
  | cons d rest ih =>
    simp only [List.cons_append, List.dropWhile_cons, ih]
    split <;> rfl

end

theorem runs_append {c : Char} (hc : kind? c = none) (front back : List Char) :
    runs (front ++ c :: back) = runs front ++ runs back := by
  induction front using runs.induct with
  | case1 => simp [runs, hc]
  | case2 d rest hd ih =>
    rw [List.cons_append, runs, runs]
    simp only [hd, ih]
  | case3 d rest k hd ih =>
    have hstop : (fun d => kind? d == some k) c = false := by simp [hc]
    rw [List.cons_append, runs, runs]
    simp only [hd]
    rw [takeWhile_append_stop hstop, dropWhile_append_stop hstop, ih, List.cons_append]

theorem runs_append_left {w : List Char} (h : ∀ c ∈ w, kind? c = none) (s : List Char) :
    runs (w ++ s) = runs s := by
  induction w with
  | nil => rfl
  | cons c rest ih =>
    rw [List.forall_mem_cons] at h
    rw [List.cons_append, runs, h.1]
    exact ih h.2

theorem runs_of_kind {k : Kind} {s : List Char} (hne : s ≠ []) (hs : ∀ c ∈ s, kind? c = some k) :
    runs s = [s] := by
  obtain ⟨c, rest, rfl⟩ := List.exists_cons_of_ne_nil hne
  have hrest : ∀ d ∈ rest, (kind? d == some k) = true := by
    intro d hd
    rw [hs d (List.mem_cons_of_mem c hd), beq_self_eq_true]
  rw [runs]
  simp only [hs c List.mem_cons_self]
  rw [List.takeWhile_eq_self_iff.2 hrest, List.dropWhile_eq_nil_iff.2 hrest, runs]

theorem runs_intercalate {c : Char} (hc : kind? c = none) (parts : List (List Char)) :
    runs ([c].intercalate parts) = parts.flatMap runs := by
  induction parts with
  | nil => rw [List.intercalate_nil, runs, List.flatMap_nil]
  | cons part rest ih =>
    rcases eq_or_ne rest [] with rfl | hrest
    · rw [List.intercalate_singleton, List.flatMap_singleton]
    · rw [List.intercalate_cons_of_ne_nil hrest, List.append_assoc, List.singleton_append,
        runs_append hc, ih, List.flatMap_cons]

theorem segmentsOf_nil : segmentsOf [] = [] := by
  rw [segmentsOf, runs, List.map_nil]

theorem segmentsOf_append {c : Char} (hc : kind? c = none) (front back : List Char) :
    segmentsOf (front ++ c :: back) = segmentsOf front ++ segmentsOf back := by
  rw [segmentsOf, runs_append hc, List.map_append]
  rfl

theorem segmentsOf_intercalate {c : Char} (hc : kind? c = none) (parts : List (List Char)) :
    segmentsOf ([c].intercalate parts) = parts.flatMap segmentsOf := by
  rw [segmentsOf, runs_intercalate hc, List.map_flatMap]
  rfl

/-! ## Numbers -/

theorem kind?_of_isDigit {c : Char} (h : c.isDigit = true) : kind? c = some .digit := by
  rw [kind?, if_pos h]

theorem kind?_beq_digit (c : Char) : (kind? c == some .digit) = c.isDigit := by
  unfold kind?
  cases c.isDigit
  · cases c.isAlpha <;> rfl
  · rfl

theorem runs_digits (n : Nat) : runs (digits n) = [digits n] :=
  runs_of_kind Nat.toDigits_ne_nil fun _ hc =>
    kind?_of_isDigit (Text.Decimal.isDigit_of_mem_toDigits hc)

/-- The digits at the start of a text are a run of it. -/
theorem runs_of_head_isDigit {s : List Char} (h : s.head?.any Char.isDigit = true) :
    runs s = s.takeWhile Char.isDigit :: runs (s.dropWhile Char.isDigit) := by
  cases s with
  | nil => cases h
  | cons c rest =>
    have hc : c.isDigit = true := h
    rw [runs]
    simp only [kind?_of_isDigit hc, kind?_beq_digit, List.takeWhile_cons, List.dropWhile_cons, hc,
      if_true]

theorem segmentsOf_digits {n : Nat} (h : n < wordLimit) : segmentsOf (digits n) = [.number n] := by
  rw [segmentsOf, runs_digits, List.map_singleton, Segment.ofRun, Text.Decimal.word?_toDigits h]

theorem segmentsOf_numbers {numbers : List Nat} (h : ∀ n ∈ numbers, n < wordLimit) :
    (numbers.map digits).flatMap segmentsOf = numbers.map .number := by
  induction numbers with
  | nil => rfl
  | cons n rest ih =>
    rw [List.forall_mem_cons] at h
    rw [List.map_cons, List.flatMap_cons, segmentsOf_digits h.1, ih h.2, List.map_cons,
      List.singleton_append]

end Depot.Version
