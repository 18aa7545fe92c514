/-!
# Tables

A finite map as the list of its entries, in the order in which the keys came. Every operation is
described by what it does to `get?`; where each key occurs once (`Table.Distinct`), it still does
after a value is set.
-/

namespace Depot

/-- A finite map as a list of entries. -/
structure Table (κ ν : Type) where
  entries : List (κ × ν) := []
  deriving DecidableEq, Repr

namespace Table

variable {κ ν : Type} [DecidableEq κ]

instance : Inhabited (Table κ ν) := ⟨{}⟩

/-- The value of a key in a list of entries. -/
def find? (key : κ) : List (κ × ν) → Option ν
  | [] => none
  | (k, v) :: rest => if k = key then some v else find? key rest

/-- The value of a key. -/
def get? (t : Table κ ν) (key : κ) : Option ν := find? key t.entries

/-- The keys, in order. -/
def keys (t : Table κ ν) : List κ := t.entries.map (·.1)

/-- The values, in order. -/
def values (t : Table κ ν) : List ν := t.entries.map (·.2)

/-- Is there a value for the key? -/
def contains (t : Table κ ν) (key : κ) : Bool := (t.get? key).isSome

/-- Entries with the value of a key replaced, or added at the end. -/
def put (key : κ) (value : ν) : List (κ × ν) → List (κ × ν)
  | [] => [(key, value)]
  | (k, v) :: rest => if k = key then (key, value) :: rest else (k, v) :: put key value rest

/-- Sets the value of a key. -/
def insert (t : Table κ ν) (key : κ) (value : ν) : Table κ ν := ⟨put key value t.entries⟩

/-- Sets the value of a key that has none. -/
def insertNew (t : Table κ ν) (key : κ) (value : ν) : Table κ ν :=
  if t.contains key then t else t.insert key value

/-- Changes the value of a key, which starts from `initial`. -/
def modify (t : Table κ ν) (key : κ) (initial : ν) (f : ν → ν) : Table κ ν :=
  t.insert key (f ((t.get? key).getD initial))

/-- Without a key. -/
def erase (t : Table κ ν) (key : κ) : Table κ ν := ⟨t.entries.filter (·.1 ≠ key)⟩

/-- The table of a list of entries, in which the last value of a key counts. -/
def ofList (l : List (κ × ν)) : Table κ ν := l.foldl (fun t (k, v) => t.insert k v) {}

theorem find?_put (key j : κ) (value : ν) (l : List (κ × ν)) :
    find? j (put key value l) = if j = key then some value else find? j l := by
  induction l with
  | nil => simp [put, find?, eq_comm]
  | cons e rest ih =>
    obtain ⟨k, v⟩ := e
    simp only [put]
    by_cases hk : k = key
    · subst hk
      by_cases hj : k = j
      · simp [find?, hj]
      · simp [find?, hj, Ne.symm hj]
    · by_cases hj : k = j
      · subst hj
        simp [find?, hk]
      · simp [find?, hk, hj, ih]

@[simp] theorem get?_insert (t : Table κ ν) (key j : κ) (value : ν) :
    (t.insert key value).get? j = if j = key then some value else t.get? j :=
  find?_put key j value t.entries

@[simp] theorem get?_insertNew (t : Table κ ν) (key j : κ) (value : ν) :
    (t.insertNew key value).get? j = (t.get? j).or (if j = key then some value else none) := by
  unfold insertNew contains
  by_cases hj : j = key
  · subst hj
    cases h : t.get? j <;> simp [h]
  · split <;> simp [hj]

@[simp] theorem get?_empty (j : κ) : ({} : Table κ ν).get? j = none := rfl

theorem find?_filter_ne (key j : κ) (l : List (κ × ν)) :
    find? j (l.filter (·.1 ≠ key)) = if j = key then none else find? j l := by
  induction l with
  | nil => simp [find?]
  | cons e rest ih =>
    obtain ⟨k, v⟩ := e
    by_cases hk : k = key
    · subst hk
      by_cases hj : j = k
      · simpa [find?, hj] using ih
      · simpa [find?, hj, Ne.symm hj] using ih
    · by_cases hj : k = j
      · subst hj
        simp [find?, hk]
      · simp only [ne_eq, hk, not_false_eq_true, decide_true, List.filter_cons_of_pos, find?, hj,
          if_false]
        simpa using ih

@[simp] theorem get?_erase (t : Table κ ν) (key j : κ) :
    (t.erase key).get? j = if j = key then none else t.get? j :=
  find?_filter_ne key j t.entries

/-! ## Keys and values -/

/-- Each key occurs once. -/
def Distinct (t : Table κ ν) : Prop := t.keys.Nodup

theorem mem_keys_iff {t : Table κ ν} {key : κ} :
    key ∈ t.keys ↔ ∃ value, t.get? key = some value := by
  obtain ⟨entries⟩ := t
  unfold keys get?
  induction entries with
  | nil => simp [find?]
  | cons e rest ih =>
    obtain ⟨k, v⟩ := e
    by_cases hk : k = key
    · simp [find?, hk]
    · have hne : ¬key = k := fun h => hk h.symm
      simpa [find?, hk, hne] using ih

theorem get?_of_mem {t : Table κ ν} (h : t.Distinct) {key : κ} {value : ν}
    (hmem : (key, value) ∈ t.entries) : t.get? key = some value := by
  obtain ⟨entries⟩ := t
  unfold Distinct keys at h
  unfold get?
  induction entries with
  | nil => cases hmem
  | cons e rest ih =>
    obtain ⟨k, v⟩ := e
    obtain ⟨hnotMem, hrest⟩ := List.nodup_cons.1 h
    rcases List.mem_cons.1 hmem with heq | hmem
    · obtain ⟨rfl, rfl⟩ := Prod.mk.inj heq
      simp [find?]
    · have hne : k ≠ key := by
        rintro rfl
        exact hnotMem (List.mem_map.2 ⟨(k, value), hmem, rfl⟩)
      rw [find?, if_neg hne]
      exact ih hrest hmem

theorem exists_get?_of_mem_values {t : Table κ ν} (h : t.Distinct) {value : ν}
    (hmem : value ∈ t.values) : ∃ key, t.get? key = some value := by
  obtain ⟨⟨key, _⟩, hentry, rfl⟩ := List.mem_map.1 hmem
  exact ⟨key, get?_of_mem h hentry⟩

theorem mem_map_put (key j : κ) (value : ν) (l : List (κ × ν)) :
    j ∈ (put key value l).map (·.1) ↔ j = key ∨ j ∈ l.map (·.1) := by
  induction l with
  | nil => simp [put]
  | cons e rest ih =>
    obtain ⟨k, v⟩ := e
    simp only [put]
    split
    · next hk => simp [hk]
    · simp only [List.map_cons, List.mem_cons, ih]
      exact or_left_comm

theorem distinct_insert {t : Table κ ν} (h : t.Distinct) (key : κ) (value : ν) :
    (t.insert key value).Distinct := by
  obtain ⟨entries⟩ := t
  unfold Distinct keys at h ⊢
  simp only [insert]
  induction entries with
  | nil => simp [put]
  | cons e rest ih =>
    obtain ⟨k, v⟩ := e
    obtain ⟨hnotMem, hrest⟩ := List.nodup_cons.1 h
    simp only [put]
    split
    · next hk =>
      subst hk
      exact List.nodup_cons.2 ⟨hnotMem, hrest⟩
    · next hk =>
      refine List.nodup_cons.2 ⟨fun hmem => ?_, ih hrest⟩
      rcases (mem_map_put key k value rest).1 hmem with heq | hmem
      · exact hk heq
      · exact hnotMem hmem

theorem distinct_insertNew {t : Table κ ν} (h : t.Distinct) (key : κ) (value : ν) :
    (t.insertNew key value).Distinct := by
  unfold insertNew
  split
  · exact h
  · exact distinct_insert h key value

end Table

end Depot
