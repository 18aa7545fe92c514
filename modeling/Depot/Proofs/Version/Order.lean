import Depot.Version.Query

/-!
# Laws of the order of versions

Segments are ordered totally (`Segment.compare`), so that lists of segments are compared by a total
preorder (`compareSegments`), and so are releases (`Release.compare`). A comparison of two versions
is one of the two, by whether both are releases. So it is reflexive and turns round with its sides
whatever the versions are (`compare_swap`), and a candidate is below, equal to or above the operand
of a query (`oneOf_accepts`). Transitivity needs three versions of one class, all releases or none
of them (`isLE_trans_of_alike`).
-/

namespace Depot.Version

open Std (LawfulEqCmp OrientedCmp ReflCmp TransCmp)

/-- Both are releases, or neither is. -/
def Alike (a b : Version) : Prop := a.release?.isSome = b.release?.isSome

instance (a b : Version) : Decidable (Alike a b) := inferInstanceAs (Decidable (_ = _))

/-- One of three holds and the other two do not. -/
def OneOf (p q r : Prop) : Prop := (p ∧ ¬q ∧ ¬r) ∨ (¬p ∧ q ∧ ¬r) ∨ (¬p ∧ ¬q ∧ r)

/-- The version that the operand of a comparison writes. -/
def operand (s : String) : Version := ⟨String.ofList (Text.trim s.toList)⟩

/-! ## Segments -/

instance : TransCmp Segment.compare where
  eq_swap {a b} := by
    cases a with
    | number m =>
      cases b with
      | number n =>
        show Ord.compare m n = (Ord.compare n m).swap
        exact OrientedCmp.eq_swap
      | text t => rfl
    | text s =>
      cases b with
      | number n => rfl
      | text t =>
        show List.compareLex Ord.compare s t = (List.compareLex Ord.compare t s).swap
        exact OrientedCmp.eq_swap
  isLE_trans {a b c} hab hbc := by
    cases b with
    | number n =>
      cases c with
      | number o =>
        cases a with
        | number m =>
          show (Ord.compare m o).isLE
          exact TransCmp.isLE_trans (b := n) hab hbc
        | text s => rfl
      | text t => cases hbc
    | text t =>
      cases a with
      | number m => cases hab
      | text s =>
        cases c with
        | number o => rfl
        | text u =>
          show (List.compareLex Ord.compare s u).isLE
          exact TransCmp.isLE_trans (b := t) hab hbc

instance : LawfulEqCmp Segment.compare where
  eq_of_compare {a b} h := by
    cases a with
    | number m =>
      cases b with
      | number n => exact congrArg Segment.number (Nat.compare_eq_eq.1 h)
      | text t => cases h
    | text s =>
      cases b with
      | number n => cases h
      | text t =>
        have hs : List.compareLex Ord.compare s t = .eq := h
        exact congrArg Segment.text (LawfulEqCmp.eq_of_compare hs)

instance : TransCmp compareSegments where
  eq_swap {s t} := by
    unfold compareSegments
    exact OrientedCmp.eq_swap
  isLE_trans {s t u} hst htu := by
    unfold compareSegments at hst htu ⊢
    exact TransCmp.isLE_trans hst htu

theorem compareSegments_eq_iff {s t : String} :
    compareSegments s t = .eq ↔ segments s = segments t := by
  unfold compareSegments
  exact LawfulEqCmp.compare_eq_iff_eq

/-! ## Releases -/

instance : TransCmp fun a b : Release => compareSegments a.build b.build where
  eq_swap := OrientedCmp.eq_swap
  isLE_trans := TransCmp.isLE_trans

instance : TransCmp Release.compare :=
  inferInstanceAs <| TransCmp <|
    compareLex (compareOn Release.major) <| compareLex (compareOn Release.minor) <|
      compareLex (compareOn Release.patch) fun a b => compareSegments a.build b.build

/-! ## Versions -/

theorem compare_of_releases {a b : Version} {r s : Release} (ha : a.release? = some r)
    (hb : b.release? = some s) : compare a b = r.compare s := by
  simp only [compare, ha, hb]

theorem compare_of_left_none {a b : Version} (ha : a.release? = none) :
    compare a b = compareSegments a.text b.text := by
  simp only [compare, ha]

theorem compare_of_right_none {a b : Version} (hb : b.release? = none) :
    compare a b = compareSegments a.text b.text := by
  unfold compare
  split
  · next hb' => simp [hb] at hb'
  · rfl

theorem compare_swap (a b : Version) : compare a b = (compare b a).swap := by
  cases ha : a.release? with
  | none =>
    rw [compare_of_left_none ha, compare_of_right_none ha]
    exact OrientedCmp.eq_swap
  | some r =>
    cases hb : b.release? with
    | none =>
      rw [compare_of_right_none hb, compare_of_left_none hb]
      exact OrientedCmp.eq_swap
    | some s =>
      rw [compare_of_releases ha hb, compare_of_releases hb ha]
      exact OrientedCmp.eq_swap

instance : OrientedCmp compare := ⟨fun {a b} => compare_swap a b⟩

theorem isLE_trans_of_alike {a b c : Version} (hab : Alike a b) (hbc : Alike b c)
    (h : (compare a b).isLE) (h' : (compare b c).isLE) : (compare a c).isLE := by
  unfold Alike at hab hbc
  cases hb : b.release? with
  | none =>
    rw [hb, Option.isSome_none, Option.isSome_eq_false_iff, Option.isNone_iff_eq_none] at hab
    rw [compare_of_left_none hab] at h ⊢
    rw [compare_of_left_none hb] at h'
    exact TransCmp.isLE_trans h h'
  | some s =>
    rw [hb, Option.isSome_some] at hab hbc
    obtain ⟨r, ha⟩ := Option.isSome_iff_exists.1 hab
    obtain ⟨t, hc⟩ := Option.isSome_iff_exists.1 hbc.symm
    rw [compare_of_releases ha hb] at h
    rw [compare_of_releases hb hc] at h'
    rw [compare_of_releases ha hc]
    exact TransCmp.isLE_trans h h'

/-! ## Queries -/

theorem parse_below (s : String) : Query.parse ("<" ++ s) = .below (operand s) := by
  simp [Query.parse, operand]

theorem parse_above (s : String) : Query.parse (">" ++ s) = .above (operand s) := by
  simp [Query.parse, operand]

/-- A candidate is below a bound, equal to it or above it. -/
theorem oneOf_accepts (candidate : String) (v : Version) :
    OneOf ((Query.below v).accepts candidate = true) (((⟨candidate⟩ : Version) == v) = true)
      ((Query.above v).accepts candidate = true) := by
  have hbeq : ((⟨candidate⟩ : Version) == v) = (compare ⟨candidate⟩ v == .eq) := rfl
  simp only [OneOf, Query.accepts, hbeq, beq_iff_eq]
  cases compare ⟨candidate⟩ v <;> simp

/-- Comparison is reflexive, and with the sides exchanged it turns round. So every candidate is
below the operand of a query, equal to it or above it, and only one of these. On releases, and
likewise on versions that are none, comparison is transitive as well. -/
theorem compare_orders_each_class :
    (∀ a : Version, compare a a = .eq) ∧
      (∀ a b : Version, compare a b = (compare b a).swap) ∧
      (∀ (candidate : String) (v : Version),
        OneOf ((Query.below v).accepts candidate = true) (((⟨candidate⟩ : Version) == v) = true)
          ((Query.above v).accepts candidate = true)) ∧
      (∀ candidate s : String,
        OneOf (satisfies candidate ("<" ++ s) = true)
          (((⟨candidate⟩ : Version) == operand s) = true)
          (satisfies candidate (">" ++ s) = true)) ∧
      (∀ a b c : Version, Alike a b → Alike b c →
        (compare a b).isLE → (compare b c).isLE → (compare a c).isLE) := by
  refine ⟨fun a => ?_, compare_swap, oneOf_accepts, fun candidate s => ?_, fun a b c => ?_⟩
  · exact ReflCmp.compare_self
  · unfold satisfies
    rw [parse_below, parse_above]
    exact oneOf_accepts candidate (operand s)
  · exact isLE_trans_of_alike

/-- Three patch levels that are releases, and three package releases that are none. The middle one
of each three leads from the first to the last. -/
theorem patches_and_package_releases_ordered :
    (compare ⟨"1.2.3_p9"⟩ ⟨"1.2.3.4"⟩).isLE ∧ (compare ⟨"1.0-01"⟩ ⟨"1.0-1.el9"⟩).isLE := by
  obtain ⟨-, -, -, -, htrans⟩ := compare_orders_each_class
  constructor
  · exact htrans ⟨"1.2.3_p9"⟩ ⟨"1.2.3_p10"⟩ ⟨"1.2.3.4"⟩ (by decide +kernel) (by decide +kernel)
      (by decide +kernel) (by decide +kernel)
  · exact htrans ⟨"1.0-01"⟩ ⟨"1.0-1"⟩ ⟨"1.0-1.el9"⟩ (by decide +kernel) (by decide +kernel)
      (by decide +kernel) (by decide +kernel)

/-- Across the classes transitivity fails: `2` is below `2-0`, which is below `2.0.0`, and yet `2`
and `2.0.0` are equal. -/
example : compare ⟨"2"⟩ ⟨"2-0"⟩ = .lt ∧ compare ⟨"2-0"⟩ ⟨"2.0.0"⟩ = .lt ∧
    compare ⟨"2"⟩ ⟨"2.0.0"⟩ = .eq := by
  decide +kernel

end Depot.Version
