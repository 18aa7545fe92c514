import Mathlib.Data.String.Basic
import Mathlib.Order.Defs.Unbundled
import Depot.Proofs.Version.Segment
import Depot.Version.Span

/-!
# Segments are maximal runs

A span of a text is a run when its characters are all digits or all letters (`IsRun`), and spans are
ordered by inclusion. To find the maximal runs, places are counted in characters (`spanAt`): a run
is maximal when neither neighbour is of its kind (`maximal_iff`). The pass over a text goes over a
separator (`spansFrom_separator`) or through a whole run at once (`spansFrom_run`). So by induction
on the runs (`runsInduction`) it lists the maximal ones, in order (`lists_spansFrom`), and the texts
that it takes out are the segments (`texts_spansFrom`). `spans_are_maximal_runs` puts this together.
-/

namespace Depot.Version

open String (utf8Len)

/-- A span lies within another one. -/
instance : LE Span := ⟨fun p q => q.start ≤ p.start ∧ p.stop ≤ q.stop⟩

theorem Span.le_def {p q : Span} : p ≤ q ↔ q.start ≤ p.start ∧ p.stop ≤ q.stop := Iff.rfl

/-- All characters are ASCII digits, or all are ASCII letters. -/
def OneKind (t : List Char) : Prop := (∀ c ∈ t, c.isDigit) ∨ ∀ c ∈ t, c.isAlpha

/-- A span of a text with characters in it, all of one kind. -/
def IsRun (s : String) (p : Span) : Prop := ∃ t, p.text? s = some t ∧ t ≠ "" ∧ OneKind t.toList

/-! ## Kinds -/

theorem kind?_eq_digit_iff {c : Char} : kind? c = some .digit ↔ c.isDigit := by
  rw [← kind?_beq_digit, beq_iff_eq]

theorem not_isAlpha_of_isDigit {c : Char} (h : c.isDigit) : ¬ c.isAlpha := by
  have hdigit : c.val ≤ '9'.val := of_decide_eq_true (Bool.and_eq_true_iff.1 h).2
  intro ha
  have hletter : '9'.val < c.val := by
    rcases Bool.or_eq_true_iff.1 ha with hupper | hlower
    · have hle : 'A'.val ≤ c.val := (of_decide_eq_true hupper).1
      exact UInt32.lt_of_lt_of_le (by decide) hle
    · have hle : 'a'.val ≤ c.val := of_decide_eq_true (Bool.and_eq_true_iff.1 hlower).1
      exact UInt32.lt_of_lt_of_le (by decide) hle
  exact UInt32.not_lt.2 hdigit hletter

theorem kind?_eq_letter_iff {c : Char} : kind? c = some .letter ↔ c.isAlpha := by
  unfold kind?
  by_cases hd : c.isDigit
  · simp [hd, not_isAlpha_of_isDigit hd]
  · simp [hd]

theorem isSome_kind? (c : Char) : (kind? c).isSome = c.isAlphanum := by
  unfold kind? Char.isAlphanum
  cases c.isDigit <;> cases c.isAlpha <;> rfl

theorem oneKind_iff {t : List Char} : OneKind t ↔ ∃ k, ∀ c ∈ t, kind? c = some k := by
  constructor
  · rintro (h | h)
    · exact ⟨.digit, fun c hc => kind?_eq_digit_iff.2 (h c hc)⟩
    · exact ⟨.letter, fun c hc => kind?_eq_letter_iff.2 (h c hc)⟩
  · rintro ⟨_ | _, h⟩
    · exact .inl fun c hc => kind?_eq_digit_iff.1 (h c hc)
    · exact .inr fun c hc => kind?_eq_letter_iff.1 (h c hc)

theorem isDigit_ne_of_kind?_ne {c d : Char} {k k' : Kind} (hc : kind? c = some k)
    (hd : kind? d = some k') (hne : k ≠ k') : c.isDigit ≠ d.isDigit := by
  rw [← kind?_beq_digit, ← kind?_beq_digit, hc, hd]
  revert hne
  cases k <;> cases k' <;> decide

/-! ## Texts that are taken out -/

namespace Span

theorem extract_middle (front t back : String) :
    (front ++ t ++ back).toByteArray.extract front.utf8ByteSize
      (front.utf8ByteSize + t.utf8ByteSize) = t.toByteArray := by
  rw [String.append_assoc, String.toByteArray_append, ← String.size_toByteArray (s := front)]
  have hshift := ByteArray.extract_append_size_add (a := front.toByteArray)
    (b := (t ++ back).toByteArray) (i := 0) (j := t.utf8ByteSize)
  rw [Nat.add_zero] at hshift
  rw [hshift, String.toByteArray_append,
    ByteArray.extract_append_eq_left String.size_toByteArray.symm]

theorem text?_middle (front t back : String) :
    (⟨front.utf8ByteSize, front.utf8ByteSize + t.utf8ByteSize⟩ : Span).text? (front ++ t ++ back) =
      some t := by
  have hstart : (⟨front.utf8ByteSize⟩ : String.Pos.Raw).IsValid (front ++ t ++ back) :=
    String.Pos.Raw.isValid_iff_exists_append.2 ⟨front, t ++ back, String.append_assoc, rfl⟩
  have hstop : (⟨front.utf8ByteSize + t.utf8ByteSize⟩ : String.Pos.Raw).IsValid
      (front ++ t ++ back) := by
    refine String.Pos.Raw.isValid_iff_exists_append.2 ⟨front ++ t, back, rfl, ?_⟩
    rw [← String.utf8ByteSize_append]
    rfl
  unfold text?
  rw [dif_pos ⟨hstart, hstop, Nat.le_add_right _ _⟩, Option.some.injEq, ← String.toByteArray_inj,
    String.toByteArray_extract, String.offset_pos, String.offset_pos]
  exact extract_middle front t back

/-- Two boundaries of characters cut a text into three. -/
theorem exists_middle {s : String} {p : Span} (hstart : (⟨p.start⟩ : String.Pos.Raw).IsValid s)
    (hstop : (⟨p.stop⟩ : String.Pos.Raw).IsValid s) (hle : p.start ≤ p.stop) :
    ∃ front t back, s = front ++ t ++ back ∧
      p = ⟨front.utf8ByteSize, front.utf8ByteSize + t.utf8ByteSize⟩ := by
  obtain ⟨front, behind, hfront, hoffset⟩ := String.Pos.Raw.isValid_iff_exists_append.1 hstart
  obtain ⟨before, back, hback, hoffset'⟩ := String.Pos.Raw.isValid_iff_exists_append.1 hstop
  have hp : p.start = front.utf8ByteSize := congrArg String.Pos.Raw.byteIdx hoffset
  have hq : p.stop = before.utf8ByteSize := congrArg String.Pos.Raw.byteIdx hoffset'
  have hsame : front.toList ++ behind.toList = before.toList ++ back.toList := by
    rw [← String.toList_append, ← String.toList_append, ← hfront, ← hback]
  have hsplit : ∃ t : List Char, before.toList = front.toList ++ t := by
    rcases List.append_eq_append_iff.1 hsame with ⟨t, ht, -⟩ | ⟨t, ht, -⟩
    · exact ⟨t, ht⟩
    · -- the first boundary is not behind the second, so nothing is between them
      have hbytes : utf8Len front.toList = utf8Len before.toList + utf8Len t := by
        rw [ht, String.utf8Len_append]
      rw [String.utf8Len_toList, String.utf8Len_toList] at hbytes
      have ht0 : t = [] := String.utf8Len_eq_zero.1 (by omega)
      exact ⟨[], by rw [ht, ht0, List.append_nil, List.append_nil]⟩
  obtain ⟨t, ht⟩ := hsplit
  have hbefore : before = front ++ String.ofList t := by
    rw [← String.toList_inj, String.toList_append, String.toList_ofList, ht]
  refine ⟨front, String.ofList t, back, by rw [← hbefore, hback], ?_⟩
  rw [← String.utf8ByteSize_append, ← hbefore, ← hp, ← hq]

theorem text?_eq_some_iff {s t : String} {p : Span} :
    p.text? s = some t ↔ ∃ front back, s = front ++ t ++ back ∧
      p = ⟨front.utf8ByteSize, front.utf8ByteSize + t.utf8ByteSize⟩ := by
  constructor
  · intro h
    have hvalid : (⟨p.start⟩ : String.Pos.Raw).IsValid s ∧ (⟨p.stop⟩ : String.Pos.Raw).IsValid s ∧
        p.start ≤ p.stop := by
      by_contra hnot
      rw [text?, dif_neg hnot] at h
      cases h
    obtain ⟨front, middle, back, rfl, rfl⟩ := exists_middle hvalid.1 hvalid.2.1 hvalid.2.2
    rw [text?_middle, Option.some.injEq] at h
    exact ⟨front, back, by rw [h], by rw [h]⟩
  · rintro ⟨front, back, rfl, rfl⟩
    exact text?_middle front t back

end Span

/-! ## Places of characters -/

/-- The number of bytes in front of a character. -/
def byteAt (l : List Char) (i : Nat) : Nat := utf8Len (l.take i)

/-- The span of the characters from one place up to another. -/
def spanAt (l : List Char) (i j : Nat) : Span := ⟨byteAt l i, byteAt l j⟩

/-- The kind of the character at a place; behind the end there is none. -/
def kindAt (l : List Char) (i : Nat) : Option Kind := l[i]?.bind kind?

section

variable {l : List Char} {i j : Nat}

theorem lt_length_of_kindAt {k : Kind} (h : kindAt l i = some k) : i < l.length := by
  obtain ⟨c, hc, -⟩ := Option.bind_eq_some_iff.1 h
  exact (List.getElem?_eq_some_iff.1 hc).1

theorem byteAt_succ (h : i < l.length) : byteAt l i < byteAt l (i + 1) := by
  have hpos : 0 < l[i].utf8Size := Char.utf8Size_pos _
  rw [byteAt, byteAt, List.take_add_one, List.getElem?_eq_getElem h, Option.toList_some,
    String.utf8Len_append, String.utf8Len_cons, String.utf8Len_nil]
  omega

theorem byteAt_mono (h : i ≤ j) : byteAt l i ≤ byteAt l j :=
  String.utf8Len_le_of_prefix (List.take_prefix_take_left h)

theorem byteAt_lt (hj : j ≤ l.length) (h : i < j) : byteAt l i < byteAt l j :=
  Nat.lt_of_lt_of_le (byteAt_succ (by omega)) (byteAt_mono h)

theorem byteAt_le_iff (hi : i ≤ l.length) : byteAt l i ≤ byteAt l j ↔ i ≤ j := by
  constructor
  · intro h
    by_contra hlt
    have hless := byteAt_lt hi (Nat.lt_of_not_le hlt)
    omega
  · exact byteAt_mono

theorem byteAt_append_length (front back : List Char) :
    byteAt (front ++ back) front.length = utf8Len front := by
  rw [byteAt, List.take_left]

theorem kindAt_append_length_add (front back : List Char) (n : Nat) :
    kindAt (front ++ back) (front.length + n) = kindAt back n := by
  rw [kindAt, List.getElem?_append_right (Nat.le_add_right _ _), Nat.add_sub_cancel_left, kindAt]

theorem kindAt_append_length (front back : List Char) :
    kindAt (front ++ back) front.length = back.head?.bind kind? := by
  rw [kindAt, List.getElem?_append_right (Nat.le_refl _), Nat.sub_self, List.head?_eq_getElem?]

end

/-! ## Maximal runs -/

/-- There are characters from one place up to another, and all are of one kind. -/
structure Uniform (l : List Char) (i j : Nat) (k : Kind) : Prop where
  lt : i < j
  kind : ∀ n, i ≤ n → n < j → kindAt l n = some k

/-- Characters of one kind between characters that are not of that kind. -/
structure Whole (l : List Char) (i j : Nat) (k : Kind) : Prop extends Uniform l i j k where
  left : ∀ n, n + 1 = i → kindAt l n ≠ some k
  right : kindAt l j ≠ some k

section

variable {l : List Char} {i j : Nat} {k : Kind}

theorem Uniform.le_length (h : Uniform l i j k) : j ≤ l.length := by
  have hlt := h.lt
  have hlast := lt_length_of_kindAt (h.kind (j - 1) (by omega) (by omega))
  omega

/-- One character decides the kind. -/
theorem Uniform.kind_eq {k' : Kind} {n : Nat} (h : Uniform l i j k) (hle : i ≤ n) (hlt : n < j)
    (hkind : kindAt l n = some k') : k' = k := by
  rw [h.kind n hle hlt] at hkind
  exact (Option.some.inj hkind).symm

theorem Uniform.grow_left (h : Uniform l (i + 1) j k) (hkind : kindAt l i = some k) :
    Uniform l i j k := by
  have hlt := h.lt
  refine ⟨by omega, fun n hle hless => ?_⟩
  by_cases hn : n = i
  · rw [hn, hkind]
  · exact h.kind n (by omega) hless

theorem Uniform.grow_right (h : Uniform l i j k) (hkind : kindAt l j = some k) :
    Uniform l i (j + 1) k := by
  have hlt := h.lt
  refine ⟨by omega, fun n hle hless => ?_⟩
  by_cases hn : n = j
  · rw [hn, hkind]
  · exact h.kind n hle (by omega)

theorem uniform_middle (front back : List Char) {t : List Char} (hne : t ≠ [])
    (ht : ∀ c ∈ t, kind? c = some k) :
    Uniform (front ++ t ++ back) front.length (front.length + t.length) k := by
  refine ⟨Nat.lt_add_of_pos_right (List.length_pos_iff.2 hne), fun n hle hlt => ?_⟩
  obtain ⟨m, rfl⟩ := Nat.exists_eq_add_of_le hle
  have hm : m < t.length := by omega
  rw [List.append_assoc, kindAt_append_length_add, kindAt, List.getElem?_append_left hm,
    List.getElem?_eq_getElem hm, Option.bind_some]
  exact ht _ (List.getElem_mem hm)

theorem Uniform.exists_middle (h : Uniform l i j k) :
    ∃ front t back, l = front ++ t ++ back ∧ i = front.length ∧ j = front.length + t.length ∧
      t ≠ [] ∧ ∀ c ∈ t, kind? c = some k := by
  have hlt := h.lt
  have hle := h.le_length
  have hfront : (l.take i).length = i := List.length_take_of_le (by omega)
  have hmiddle : ((l.drop i).take (j - i)).length = j - i :=
    List.length_take_of_le (by rw [List.length_drop]; omega)
  have hsplit : l = l.take i ++ (l.drop i).take (j - i) ++ (l.drop i).drop (j - i) := by
    rw [List.append_assoc, List.take_append_drop, List.take_append_drop]
  refine ⟨_, _, _, hsplit, hfront.symm, by omega, ?_, fun c hc => ?_⟩
  · rw [← List.length_pos_iff]
    omega
  · obtain ⟨n, hn, rfl⟩ := List.getElem_of_mem hc
    have hkind := h.kind (i + n) (by omega) (by omega)
    rw [List.getElem_take, List.getElem_drop]
    rwa [kindAt, List.getElem?_eq_getElem (by omega), Option.bind_some] at hkind

theorem spanAt_middle (front t back : List Char) :
    spanAt (front ++ t ++ back) front.length (front.length + t.length) =
      ⟨utf8Len front, utf8Len front + utf8Len t⟩ := by
  have hstart : byteAt (front ++ t ++ back) front.length = utf8Len front := by
    rw [List.append_assoc, byteAt_append_length]
  have hstop : byteAt (front ++ t ++ back) (front.length + t.length) =
      utf8Len front + utf8Len t := by
    rw [← List.length_append, byteAt_append_length, String.utf8Len_append]
  rw [spanAt, hstart, hstop]

theorem Uniform.exists_text {s : String} (h : Uniform s.toList i j k) :
    ∃ t, (spanAt s.toList i j).text? s = some t ∧ t ≠ "" ∧ ∀ c ∈ t.toList, kind? c = some k := by
  obtain ⟨front, t, back, hsplit, rfl, rfl, hne, hk⟩ := h.exists_middle
  have hs : s = String.ofList front ++ String.ofList t ++ String.ofList back := by
    rw [← String.toList_inj, hsplit, ← String.ofList_append, ← String.ofList_append,
      String.toList_ofList]
  refine ⟨String.ofList t, Span.text?_eq_some_iff.2 ⟨_, _, hs, ?_⟩, fun hnil => hne ?_, ?_⟩
  · rw [hsplit, spanAt_middle, String.utf8ByteSize_ofList, String.utf8ByteSize_ofList]
  · exact String.ofList_eq_empty_iff.1 hnil
  · rwa [String.toList_ofList]

theorem Uniform.kind_of_text? {s t : String} (h : Uniform s.toList i j k)
    (ht : (spanAt s.toList i j).text? s = some t) : ∀ c ∈ t.toList, kind? c = some k := by
  obtain ⟨t', ht', -, hk⟩ := h.exists_text
  rw [ht', Option.some.injEq] at ht
  rwa [← ht]

end

theorem isRun_iff {s : String} {p : Span} :
    IsRun s p ↔ ∃ i j k, Uniform s.toList i j k ∧ p = spanAt s.toList i j := by
  constructor
  · rintro ⟨t, htext, hne, hone⟩
    obtain ⟨k, hk⟩ := oneKind_iff.1 hone
    obtain ⟨front, back, rfl, rfl⟩ := Span.text?_eq_some_iff.1 htext
    have ht : t.toList ≠ [] := fun h => hne (String.toList_eq_nil_iff.1 h)
    refine ⟨front.toList.length, front.toList.length + t.toList.length, k, ?_, ?_⟩
    · rw [String.toList_append, String.toList_append]
      exact uniform_middle _ _ ht hk
    · rw [String.toList_append, String.toList_append, spanAt_middle, String.utf8Len_toList,
        String.utf8Len_toList]
  · rintro ⟨i, j, k, huniform, rfl⟩
    obtain ⟨t, htext, hne, hk⟩ := huniform.exists_text
    exact ⟨t, htext, hne, oneKind_iff.2 ⟨k, hk⟩⟩

/-- A run is maximal when neither neighbour is of its kind. -/
theorem maximal_iff {s : String} {p : Span} :
    Maximal (IsRun s) p ↔ ∃ i j k, Whole s.toList i j k ∧ p = spanAt s.toList i j := by
  constructor
  · rintro ⟨hrun, hmax⟩
    obtain ⟨i, j, k, huniform, rfl⟩ := isRun_iff.1 hrun
    have hlt := huniform.lt
    have hle := huniform.le_length
    refine ⟨i, j, k, ⟨huniform, fun n hn hkind => ?_, fun hkind => ?_⟩, rfl⟩
    · subst hn
      have hback := (hmax (isRun_iff.2 ⟨n, j, k, huniform.grow_left hkind, rfl⟩)
        ⟨byteAt_mono (by omega), Nat.le_refl _⟩).1
      have hplace := (byteAt_le_iff (by omega)).1 hback
      omega
    · have hback := (hmax (isRun_iff.2 ⟨i, j + 1, k, huniform.grow_right hkind, rfl⟩)
        ⟨Nat.le_refl _, byteAt_mono (by omega)⟩).2
      have hplace := (byteAt_le_iff (lt_length_of_kindAt hkind)).1 hback
      omega
  · rintro ⟨i, j, k, hwhole, rfl⟩
    have hlt := hwhole.lt
    have hle := hwhole.le_length
    refine ⟨isRun_iff.2 ⟨i, j, k, hwhole.toUniform, rfl⟩, fun q hq hpq => ?_⟩
    obtain ⟨a, b, k', huniform, rfl⟩ := isRun_iff.1 hq
    have hb := huniform.le_length
    obtain ⟨hstart, hstop⟩ := Span.le_def.1 hpq
    have hai : a ≤ i := (byteAt_le_iff (by have := huniform.lt; omega)).1 hstart
    have hjb : j ≤ b := (byteAt_le_iff hle).1 hstop
    -- the two runs share a character, so they are of one kind
    have hk : k' = k :=
      hwhole.kind_eq (Nat.le_refl i) hlt (huniform.kind i hai (by omega))
    subst hk
    refine Span.le_def.2 ⟨byteAt_mono ?_, byteAt_mono ?_⟩
    · by_contra hless
      exact hwhole.left (i - 1) (by omega) (huniform.kind (i - 1) (by omega) (by omega))
    · by_contra hless
      exact hwhole.right (huniform.kind j (by omega) (by omega))

/-! ## The pass over a text -/

/-- A text is empty, or it starts with a separator, or with a run that what follows does not
continue. -/
theorem runsInduction {motive : List Char → Prop} (nil : motive [])
    (separator : ∀ c rest, kind? c = none → motive rest → motive (c :: rest))
    (run : ∀ k w rest, w ≠ [] → (∀ c ∈ w, kind? c = some k) →
      (∀ c ∈ rest.head?, kind? c ≠ some k) → motive rest → motive (w ++ rest))
    (l : List Char) : motive l := by
  induction l using runs.induct with
  | case1 => exact nil
  | case2 c rest hc ih => exact separator c rest hc ih
  | case3 c rest k hc ih =>
    have hsplit : c :: rest = (c :: rest.takeWhile (kind? · == some k)) ++
        rest.dropWhile (kind? · == some k) := by
      rw [List.cons_append, List.takeWhile_append_dropWhile]
    rw [hsplit]
    refine run k _ _ (List.cons_ne_nil _ _) ?_ (fun d hd hkind => ?_) ih
    · rintro d (_ | ⟨_, hd⟩)
      · exact hc
      · exact beq_iff_eq.1 (List.mem_takeWhile_imp (p := (kind? · == some k)) hd)
    · have hstops := List.head?_dropWhile_not (kind? · == some k) rest
      rw [hd] at hstops
      simp [hkind] at hstops

section

variable {k : Kind} {w rest : List Char} {c : Char} (place start : Nat)

theorem runs_separator (hc : kind? c = none) (rest : List Char) : runs (c :: rest) = runs rest := by
  rw [runs, hc]

theorem runs_run (hne : w ≠ []) (hw : ∀ c ∈ w, kind? c = some k)
    (hrest : ∀ c ∈ rest.head?, kind? c ≠ some k) : runs (w ++ rest) = w :: runs rest := by
  obtain ⟨c, w, rfl⟩ := List.exists_cons_of_ne_nil hne
  obtain ⟨hc, hw⟩ := List.forall_mem_cons.1 hw
  have hwithin : ∀ d ∈ w, (kind? d == some k) = true := fun d hd => beq_iff_eq.2 (hw d hd)
  have hstops : rest.takeWhile (kind? · == some k) = [] ∧
      rest.dropWhile (kind? · == some k) = rest := by
    cases rest with
    | nil => exact ⟨rfl, rfl⟩
    | cons d rest =>
      have hd : (kind? d == some k) = false := beq_eq_false_iff_ne.2 (hrest d rfl)
      rw [List.takeWhile_cons, List.dropWhile_cons, hd]
      exact ⟨rfl, rfl⟩
  rw [List.cons_append, runs, hc]
  simp only
  rw [List.takeWhile_append_of_pos hwithin, List.dropWhile_append_of_pos hwithin, hstops.1,
    hstops.2, List.append_nil]

theorem spansFrom_nil : spansFrom none place [] = [] := rfl

theorem spansFrom_separator (hc : kind? c = none) (rest : List Char) :
    spansFrom none place (c :: rest) = spansFrom none (place + c.utf8Size) rest := by
  simp only [spansFrom, hc]

/-- Within a run the pass only goes on. -/
theorem spansFrom_within (hw : ∀ c ∈ w, kind? c = some k) (rest : List Char) :
    spansFrom (some ⟨start, k⟩) place (w ++ rest) =
      spansFrom (some ⟨start, k⟩) (place + utf8Len w) rest := by
  induction w generalizing place with
  | nil => rfl
  | cons c w ih =>
    obtain ⟨hc, hw⟩ := List.forall_mem_cons.1 hw
    have hstep : spansFrom (some ⟨start, k⟩) place (c :: (w ++ rest)) =
        spansFrom (some ⟨start, k⟩) (place + c.utf8Size) (w ++ rest) := by
      simp only [spansFrom, hc, if_true]
    rw [List.cons_append, hstep, ih _ hw, String.utf8Len_cons, Nat.add_assoc,
      Nat.add_comm c.utf8Size]

/-- At the end of a run the pass takes it down and goes on as if nothing were pending. -/
theorem spansFrom_end (hrest : ∀ c ∈ rest.head?, kind? c ≠ some k) :
    spansFrom (some ⟨start, k⟩) place rest = ⟨start, place⟩ :: spansFrom none place rest := by
  cases rest with
  | nil => rfl
  | cons c rest =>
    have hc : kind? c ≠ some k := hrest c rfl
    cases hkind : kind? c with
    | none => simp only [spansFrom, hkind]
    | some k' =>
      have hne : k' ≠ k := fun h => hc (h ▸ hkind)
      simp only [spansFrom, hkind, if_neg hne]

theorem spansFrom_run (hne : w ≠ []) (hw : ∀ c ∈ w, kind? c = some k)
    (hrest : ∀ c ∈ rest.head?, kind? c ≠ some k) :
    spansFrom none place (w ++ rest) =
      ⟨place, place + utf8Len w⟩ :: spansFrom none (place + utf8Len w) rest := by
  obtain ⟨c, w, rfl⟩ := List.exists_cons_of_ne_nil hne
  obtain ⟨hc, hw⟩ := List.forall_mem_cons.1 hw
  have hstart : spansFrom none place (c :: (w ++ rest)) =
      spansFrom (some ⟨place, k⟩) (place + c.utf8Size) (w ++ rest) := by
    simp only [spansFrom, hc]
  have hplace : place + c.utf8Size + utf8Len w = place + utf8Len (c :: w) := by
    rw [String.utf8Len_cons]
    omega
  rw [List.cons_append, hstart, spansFrom_within _ _ hw, spansFrom_end _ _ hrest, hplace]

end

/-! ## What the pass lists -/

/-- No run goes on across a place. -/
def Fresh (l : List Char) (i : Nat) : Prop :=
  ∀ n k, n + 1 = i → kindAt l n = some k → kindAt l i ≠ some k

/-- Spans that are, in order, the maximal runs from a place on. -/
structure Lists (l : List Char) (i : Nat) (out : List Span) : Prop where
  sorted : out.Pairwise (·.stop ≤ ·.start)
  mem_iff : ∀ p, p ∈ out ↔ ∃ a b k, i ≤ a ∧ Whole l a b k ∧ p = spanAt l a b

section

variable {l : List Char} {i j : Nat} {k : Kind} {out : List Span}

theorem Whole.fresh (h : Whole l i j k) : Fresh l j := by
  intro n k' hn hk'
  have hlt := h.lt
  rw [h.kind_eq (by omega) (by omega) hk']
  exact h.right

/-- A maximal run that does not start in front of another one is that one or lies behind it. -/
theorem Whole.eq_or_le {a b : Nat} {k' : Kind} (h : Whole l i j k) (h' : Whole l a b k')
    (hle : i ≤ a) : (a = i ∧ b = j) ∨ j ≤ a := by
  by_contra hnot
  have hk : k' = k := h.kind_eq hle (by omega) (h'.kind a (Nat.le_refl a) h'.lt)
  subst hk
  have hlt := h.lt
  have hlt' := h'.lt
  have ha : a = i := by
    by_contra hne
    exact h'.left (a - 1) (by omega) (h.kind (a - 1) (by omega) (by omega))
  rcases Nat.lt_trichotomy b j with hb | hb | hb
  · exact h'.right (h.kind b (by omega) hb)
  · exact hnot (.inl ⟨ha, hb⟩)
  · exact h.right (h'.kind j (by omega) hb)

theorem Lists.nil (l : List Char) : Lists l l.length [] := by
  refine ⟨.nil, fun p => iff_of_false List.not_mem_nil ?_⟩
  rintro ⟨a, b, k, hle, hwhole, -⟩
  have hlt := hwhole.lt
  have hlength := hwhole.le_length
  omega

theorem Lists.separator (hi : kindAt l i = none) (h : Lists l (i + 1) out) : Lists l i out := by
  refine ⟨h.sorted, fun p => (h.mem_iff p).trans ?_⟩
  constructor
  · rintro ⟨a, b, k, hle, hp⟩
    exact ⟨a, b, k, by omega, hp⟩
  · rintro ⟨a, b, k, hle, hwhole, hp⟩
    have hne : a ≠ i := by
      rintro rfl
      have hkind := hwhole.kind a hle hwhole.lt
      rw [hi] at hkind
      cases hkind
    exact ⟨a, b, k, by omega, hwhole, hp⟩

theorem Lists.run (hwhole : Whole l i j k) (h : Lists l j out) :
    Lists l i (spanAt l i j :: out) := by
  have hlt := hwhole.lt
  constructor
  · refine List.pairwise_cons.2 ⟨fun q hq => ?_, h.sorted⟩
    obtain ⟨a, b, k', hle, -, rfl⟩ := (h.mem_iff q).1 hq
    exact byteAt_mono hle
  · intro p
    rw [List.mem_cons, h.mem_iff]
    constructor
    · rintro (rfl | ⟨a, b, k', hle, hp⟩)
      · exact ⟨i, j, k, Nat.le_refl i, hwhole, rfl⟩
      · exact ⟨a, b, k', by omega, hp⟩
    · rintro ⟨a, b, k', hle, hwhole', rfl⟩
      rcases hwhole.eq_or_le hwhole' hle with ⟨rfl, rfl⟩ | hja
      · exact .inl rfl
      · exact .inr ⟨a, b, k', hja, hwhole', rfl⟩

end

theorem lists_spansFrom (front back : List Char) (hfresh : Fresh (front ++ back) front.length) :
    Lists (front ++ back) front.length (spansFrom none (utf8Len front) back) := by
  induction back using runsInduction generalizing front with
  | nil =>
    rw [List.append_nil, spansFrom_nil]
    exact .nil front
  | separator c rest hc ih =>
    have hnone : kindAt (front ++ c :: rest) front.length = none := by
      rw [kindAt_append_length]
      exact hc
    have hsplit : front ++ [c] ++ rest = front ++ c :: rest := List.append_cons _ _ _ |>.symm
    have hplace : utf8Len (front ++ [c]) = utf8Len front + c.utf8Size := by
      rw [String.utf8Len_append, String.utf8Len_cons, String.utf8Len_nil, Nat.zero_add]
    have hrest := ih (front ++ [c])
    rw [hsplit, List.length_append, List.length_singleton, hplace] at hrest
    rw [spansFrom_separator _ hc]
    refine .separator hnone (hrest fun n k hn hk => ?_)
    rw [show n = front.length by omega, hnone] at hk
    cases hk
  | run k w rest hne hw hstops ih =>
    have hwhole : Whole (front ++ (w ++ rest)) front.length (front.length + w.length) k := by
      have huniform := uniform_middle front rest hne hw
      rw [List.append_assoc] at huniform
      refine ⟨huniform, fun n hn hk => ?_, fun hk => ?_⟩
      · exact hfresh n k hn hk (huniform.kind _ (Nat.le_refl _) huniform.lt)
      · rw [← List.append_assoc, ← List.length_append, kindAt_append_length] at hk
        obtain ⟨c, hc, hkind⟩ := Option.bind_eq_some_iff.1 hk
        exact hstops c hc hkind
    have hspan : spanAt (front ++ (w ++ rest)) front.length (front.length + w.length) =
        ⟨utf8Len front, utf8Len front + utf8Len w⟩ := by
      rw [← List.append_assoc, spanAt_middle]
    have hrest := ih (front ++ w)
    rw [List.append_assoc, List.length_append, String.utf8Len_append] at hrest
    rw [spansFrom_run _ hne hw hstops, ← hspan]
    exact .run hwhole (hrest hwhole.fresh)

theorem texts_spansFrom (front back : List Char) :
    (spansFrom none (utf8Len front) back).map (·.text? (String.ofList (front ++ back))) =
      (runs back).map fun run => some (String.ofList run) := by
  induction back using runsInduction generalizing front with
  | nil => rw [spansFrom_nil, runs, List.map_nil, List.map_nil]
  | separator c rest hc ih =>
    have hrest := ih (front ++ [c])
    rw [String.utf8Len_append, String.utf8Len_cons, String.utf8Len_nil, Nat.zero_add,
      ← List.append_cons] at hrest
    rw [spansFrom_separator _ hc, runs_separator hc, hrest]
  | run k w rest hne hw hstops ih =>
    have htext : (⟨utf8Len front, utf8Len front + utf8Len w⟩ : Span).text?
        (String.ofList (front ++ (w ++ rest))) = some (String.ofList w) := by
      refine Span.text?_eq_some_iff.2 ⟨String.ofList front, String.ofList rest, ?_, ?_⟩
      · rw [String.ofList_append, String.ofList_append, String.append_assoc]
      · rw [String.utf8ByteSize_ofList, String.utf8ByteSize_ofList]
    have hrest := ih (front ++ w)
    rw [String.utf8Len_append, List.append_assoc] at hrest
    rw [spansFrom_run _ hne hw hstops, runs_run hne hw hstops, List.map_cons, List.map_cons, htext,
      hrest]

theorem lists_spans (s : String) : Lists s.toList 0 (spans s) :=
  lists_spansFrom [] s.toList fun _ _ hn => absurd hn (Nat.succ_ne_zero _)

theorem texts_spans (s : String) :
    (spans s).map (·.text? s) = (runs s.toList).map fun run => some (String.ofList run) := by
  have htexts := texts_spansFrom [] s.toList
  rwa [List.nil_append, String.ofList_toList] at htexts

theorem mem_spans_iff {s : String} {p : Span} : p ∈ spans s ↔ Maximal (IsRun s) p := by
  rw [(lists_spans s).mem_iff, maximal_iff]
  simp only [Nat.zero_le, true_and]

/-- Where one segment ends and the next one starts, the kind changes. -/
theorem kinds_differ {s t u : String} {p q : Span} (hp : p ∈ spans s) (hq : q ∈ spans s)
    (htouch : p.stop = q.start) (ht : p.text? s = some t) (hu : q.text? s = some u) :
    ∀ c ∈ t.toList, ∀ d ∈ u.toList, c.isDigit ≠ d.isDigit := by
  obtain ⟨i, j, k, hwhole, rfl⟩ := maximal_iff.1 (mem_spans_iff.1 hp)
  obtain ⟨a, b, k', hwhole', rfl⟩ := maximal_iff.1 (mem_spans_iff.1 hq)
  have hlt := hwhole'.lt
  have hlength := hwhole'.le_length
  have hja : j = a := by
    have hle := (byteAt_le_iff hwhole.le_length).1 (Nat.le_of_eq htouch)
    have hge := (byteAt_le_iff (by omega)).1 (Nat.le_of_eq htouch.symm)
    omega
  subst hja
  have hk : k ≠ k' := by
    rintro rfl
    exact hwhole.right (hwhole'.kind j (Nat.le_refl j) hlt)
  intro c hc d hd
  exact isDigit_ne_of_kind?_ne (hwhole.kind_of_text? ht c hc) (hwhole'.kind_of_text? hu d hd) hk

/-! ## The segments of a text -/

theorem runs_ne_nil_and_oneKind (l : List Char) : ∀ run ∈ runs l, run ≠ [] ∧ OneKind run := by
  induction l using runsInduction with
  | nil => rw [runs]; exact fun _ h => absurd h List.not_mem_nil
  | separator c rest hc ih => rwa [runs_separator hc]
  | run k w rest hne hw hstops ih =>
    rw [runs_run hne hw hstops]
    exact List.forall_mem_cons.2 ⟨⟨hne, oneKind_iff.2 ⟨k, hw⟩⟩, ih⟩

theorem flatten_runs (l : List Char) : (runs l).flatten = l.filter Char.isAlphanum := by
  induction l using runsInduction with
  | nil => rw [runs]; rfl
  | separator c rest hc ih =>
    have hnot : ¬ c.isAlphanum := by rw [← isSome_kind?, hc]; decide
    rw [runs_separator hc, ih, List.filter_cons_of_neg hnot]
  | run k w rest hne hw hstops ih =>
    have hall : w.filter Char.isAlphanum = w := by
      refine List.filter_eq_self.2 fun c hc => ?_
      rw [← isSome_kind?, hw c hc, Option.isSome_some]
    rw [runs_run hne hw hstops, List.flatten_cons, ih, List.filter_append, hall]

/-- The segments of a text are its maximal runs of ASCII digits or of ASCII letters, in order. Every
one is taken out between two boundaries of characters, has characters in it, and holds digits only
or letters only; where two of them touch, one holds digits and the other letters; and together they
are the text without its other characters. -/
theorem spans_are_maximal_runs (s : String) :
    segments s = ((spans s).filterMap (·.text? s)).map (fun t => Segment.ofRun t.toList) ∧
      (spans s).map (·.text? s) = (runs s.toList).map (fun run => some (String.ofList run)) ∧
      (spans s).Pairwise (·.stop ≤ ·.start) ∧
      (∀ p, p ∈ spans s ↔ Maximal (IsRun s) p) ∧
      (∀ p ∈ spans s, ∀ q ∈ spans s, p.stop = q.start →
        ∀ t u, p.text? s = some t → q.text? s = some u →
          ∀ c ∈ t.toList, ∀ d ∈ u.toList, c.isDigit ≠ d.isDigit) ∧
      (∀ run ∈ runs s.toList, run ≠ [] ∧ OneKind run) ∧
      (runs s.toList).flatten = s.toList.filter Char.isAlphanum := by
  refine ⟨?_, texts_spans s, (lists_spans s).sorted, fun p => mem_spans_iff,
    fun p hp q hq htouch t u ht hu => kinds_differ hp hq htouch ht hu,
    runs_ne_nil_and_oneKind s.toList, flatten_runs s.toList⟩
  have htexts : (spans s).filterMap (·.text? s) = (runs s.toList).map String.ofList := by
    calc (spans s).filterMap (·.text? s)
        = ((spans s).map (·.text? s)).filterMap id := by
          rw [List.filterMap_map]
          rfl
      _ = ((runs s.toList).map fun run => some (String.ofList run)).filterMap id := by
          rw [texts_spans]
      _ = (runs s.toList).map String.ofList := by
          rw [List.filterMap_map]
          exact congrFun List.filterMap_eq_map _
  rw [htexts, List.map_map, segments]
  refine List.map_congr_left fun run _ => ?_
  rw [Function.comp_apply, String.toList_ofList]

/-- A letter that is not ASCII separates, and `2` ends where `b` starts. -/
example : spans "1ä2b" = [⟨0, 1⟩, ⟨3, 4⟩, ⟨4, 5⟩] ∧
    (spans "1ä2b").map (·.text? "1ä2b") = [some "1", some "2", some "b"] := by cbv

end Depot.Version
