import Mathlib.Data.List.Basic

/-!
# Texts joined by a separator

A text that was joined from two parts with a separator between them can be cut again at each place
where the separator occurs. So two pairs of parts give one text just when they are the same pair, or
one pair is the other one cut at a later place (`join_eq_join_iff`); and where the separator cannot
occur in one of the parts, the text tells both parts (`join_inj_left`, `join_inj_right`). A text of
many parts tells the pieces between its separators and nothing else (`splitOn_intercalate_eq`), also
where the separator stands behind each part (`splitOn_flatMap_ended`).
-/

namespace Depot.Text

theorem length_splitOn {α : Type} [BEq α] (sep : α) (s : List α) :
    (s.splitOn sep).length = s.count sep + 1 := by
  induction s with
  | nil => rfl
  | cons c rest ih =>
    rw [List.splitOn_cons_eq_if_modifyHead, List.count_cons]
    split
    · rw [List.length_cons, ih]
    · rw [List.length_modifyHead, ih]

section

variable {α : Type} [BEq α] [LawfulBEq α] {sep : α}

theorem splitOn_append_left {front : List α} (h : sep ∉ front) (s : List α) :
    (front ++ s).splitOn sep = (s.splitOn sep).modifyHead (front ++ ·) := by
  induction front with
  | nil =>
    obtain ⟨piece, rest, hs⟩ := List.exists_cons_of_ne_nil (List.splitOn_ne_nil sep s)
    rw [List.nil_append, hs]
    rfl
  | cons c front ih =>
    rw [List.mem_cons, not_or] at h
    have hc : (c == sep) = false := beq_eq_false_iff_ne.2 (Ne.symm h.1)
    rw [List.cons_append, List.splitOn_cons_eq_if_modifyHead, hc, ih h.2]
    exact List.modifyHead_modifyHead ..

/-- A text is told by its pieces. -/
theorem splitOn_inj (sep : α) {s t : List α} : s.splitOn sep = t.splitOn sep ↔ s = t := by
  refine ⟨fun h => ?_, fun h => by rw [h]⟩
  have hjoin := congrArg (List.intercalate [sep]) h
  rwa [List.intercalate_splitOn, List.intercalate_splitOn] at hjoin

theorem notMem_of_mem_splitOn {s piece : List α} (h : piece ∈ s.splitOn sep) : sep ∉ piece := by
  induction s generalizing piece with
  | nil =>
    obtain rfl : piece = [] := by simpa using h
    exact List.not_mem_nil
  | cons c rest ih =>
    rw [List.splitOn_cons_eq_if_modifyHead] at h
    split at h
    · rcases List.mem_cons.1 h with rfl | hmem
      · exact List.not_mem_nil
      · exact ih hmem
    · next hc =>
      obtain ⟨first, more, hsplit⟩ := List.exists_cons_of_ne_nil (List.splitOn_ne_nil sep rest)
      rw [hsplit, List.modifyHead_cons] at h
      rw [hsplit] at ih
      rcases List.mem_cons.1 h with rfl | hmem
      · rw [List.mem_cons, not_or]
        exact ⟨fun heq => hc (beq_iff_eq.2 heq.symm), ih List.mem_cons_self⟩
      · exact ih (List.mem_cons_of_mem _ hmem)

/-- Texts with a separator behind each fall into their own pieces, and nothing comes last. -/
theorem splitOn_flatMap_ended (sep : α) (texts : List (List α)) :
    (texts.flatMap fun text => text ++ [sep]).splitOn sep =
      (texts.flatMap fun text => text.splitOn sep) ++ [[]] := by
  induction texts with
  | nil => rfl
  | cons text rest ih =>
    rw [List.flatMap_cons, List.append_assoc, List.singleton_append, List.splitOn_append_cons_self,
      ih, List.flatMap_cons, List.append_assoc]

end

theorem append_cons_eq_append_cons_iff {α : Type} {a a' b b' : List α} {c : α} :
    a ++ c :: b = a' ++ c :: b' ↔ (a = a' ∧ b = b') ∨
      (∃ x, a' = a ++ c :: x ∧ b = x ++ c :: b') ∨ ∃ x, a = a' ++ c :: x ∧ b' = x ++ c :: b := by
  constructor
  · intro h
    rcases List.append_eq_append_iff.1 h with ⟨x, ha, hx⟩ | ⟨x, ha, hx⟩
    · rcases List.cons_eq_append_iff.1 hx with ⟨rfl, hb⟩ | ⟨y, rfl, hb⟩
      · exact .inl ⟨by simp [ha], (List.cons.inj hb).2.symm⟩
      · exact .inr (.inl ⟨y, ha, hb⟩)
    · rcases List.cons_eq_append_iff.1 hx with ⟨rfl, hb⟩ | ⟨y, rfl, hb⟩
      · exact .inl ⟨by simp [ha], (List.cons.inj hb).2⟩
      · exact .inr (.inr ⟨y, ha, hb⟩)
  · rintro (⟨rfl, rfl⟩ | ⟨x, rfl, rfl⟩ | ⟨x, rfl, rfl⟩)
    · rfl
    · simp
    · simp

section

variable {sep a a' b b' : String} {c : Char} (hsep : sep.toList = [c])

include hsep

/-- Two pairs of parts give one text if they are the same, or one of them is cut at a later
place. -/
theorem join_eq_join_iff : a ++ sep ++ b = a' ++ sep ++ b' ↔ (a = a' ∧ b = b') ∨
    (∃ x, a' = a ++ sep ++ x ∧ b = x ++ sep ++ b') ∨
      ∃ x, a = a' ++ sep ++ x ∧ b' = x ++ sep ++ b := by
  have htext (s t u : String) : s = t ++ sep ++ u ↔ s.toList = t.toList ++ c :: u.toList := by
    simp [← String.toList_inj, hsep]
  have hexists (p : List Char → Prop) : (∃ x : String, p x.toList) ↔ ∃ x, p x :=
    ⟨fun ⟨x, hx⟩ => ⟨_, hx⟩, fun ⟨x, hx⟩ => ⟨.ofList x, by simpa using hx⟩⟩
  have hjoin : a.toList ++ c :: b.toList = a'.toList ++ c :: b'.toList ↔ _ :=
    append_cons_eq_append_cons_iff
  simp only [htext, String.toList_append, hsep, List.append_assoc, List.singleton_append, hjoin,
    String.toList_inj]
  rw [hexists fun x => a'.toList = a.toList ++ c :: x ∧ b.toList = x ++ c :: b'.toList,
    hexists fun x => a.toList = a'.toList ++ c :: x ∧ b'.toList = x ++ c :: b.toList]

/-- Without separators in the first parts, a text tells both parts. -/
theorem join_inj_left (ha : c ∉ a.toList) (ha' : c ∉ a'.toList) :
    a ++ sep ++ b = a' ++ sep ++ b' ↔ a = a' ∧ b = b' := by
  rw [join_eq_join_iff hsep]
  refine ⟨?_, .inl⟩
  rintro (h | ⟨x, rfl, -⟩ | ⟨x, rfl, -⟩)
  · exact h
  · exact absurd (by simp [hsep]) ha'
  · exact absurd (by simp [hsep]) ha

/-- Without separators in the second parts, a text tells both parts. -/
theorem join_inj_right (hb : c ∉ b.toList) (hb' : c ∉ b'.toList) :
    a ++ sep ++ b = a' ++ sep ++ b' ↔ a = a' ∧ b = b' := by
  rw [join_eq_join_iff hsep]
  refine ⟨?_, .inl⟩
  rintro (h | ⟨x, -, rfl⟩ | ⟨x, -, rfl⟩)
  · exact h
  · exact absurd (by simp [hsep]) hb
  · exact absurd (by simp [hsep]) hb'

/-- The pieces of a text of many parts are those of its parts. -/
theorem splitOn_intercalate_eq (parts : List String) (hparts : parts ≠ []) :
    (sep.intercalate parts).toList.splitOn c = parts.flatMap fun part => part.toList.splitOn c := by
  induction parts with
  | nil => exact absurd rfl hparts
  | cons first rest ih =>
    cases rest with
    | nil => simp
    | cons second rest =>
      rw [String.intercalate_cons_cons, String.toList_append, String.toList_append, hsep,
        List.append_assoc, List.singleton_append, List.splitOn_append_cons_self, ih (by simp)]
      rfl

/-- Two texts of many parts are the same just when their parts fall into the same pieces. -/
theorem intercalate_eq_intercalate_iff {parts parts' : List String} (hparts : parts ≠ [])
    (hparts' : parts' ≠ []) : sep.intercalate parts = sep.intercalate parts' ↔
      (parts.flatMap fun part => part.toList.splitOn c) =
        parts'.flatMap fun part => part.toList.splitOn c := by
  rw [← splitOn_intercalate_eq hsep parts hparts, ← splitOn_intercalate_eq hsep parts' hparts',
    splitOn_inj, String.toList_inj]

end

end Depot.Text
