import Mathlib.Data.List.TakeDrop
import Depot.Json.Printer
import Depot.Json.Reader
import Depot.Proofs.Text.Decimal

/-!
# Reading what was printed

The compact text of a value reads as that value (`parse?_text`), when the value is made of what the
printer writes as it is: integers that fit 64 bits, and no unusable part. Strings may hold any
characters. The reading of a value stops where its text ends, whatever follows, as long as that
cannot be part of a number (`Ends`), and its bound only has to exceed the length of the text.
-/

namespace Depot.Json

/-- Made of what the printer writes as it is. -/
inductive Printable : Json → Prop where
  | null : Printable .null
  | bool (b : Bool) : Printable (.bool b)
  | integer {n : Int} (hlow : -(Nat.pow 2 63 : Nat) ≤ n) (hhigh : n < Text.Decimal.wordLimit) :
      Printable (.integer n)
  | string (s : String) : Printable (.string s)
  | array {items : List Json} (h : ∀ v ∈ items, Printable v) : Printable (.array items)
  | object {members : List (String × Json)} (h : ∀ m ∈ members, Printable m.2) :
      Printable (.object members)

attribute [simp] Printable.null Printable.bool Printable.string

@[simp] theorem printable_array_iff {items : List Json} :
    (Json.array items).Printable ↔ ∀ v ∈ items, v.Printable :=
  ⟨fun | .array h => h, .array⟩

@[simp] theorem printable_object_iff {members : List (String × Json)} :
    (Json.object members).Printable ↔ ∀ m ∈ members, m.2.Printable :=
  ⟨fun | .object h => h, .object⟩

@[simp] theorem printable_natCast_iff {n : Nat} :
    (Json.integer n).Printable ↔ n < Text.Decimal.wordLimit :=
  ⟨fun | .integer _ hhigh => by omega, fun h => .integer (by omega) (by omega)⟩

/-- Behind a value comes a comma or a closing bracket, or nothing. -/
def Ends (rest : List Char) : Prop := ∀ c ∈ rest.head?, c = ',' ∨ c = ']' ∨ c = '}'

theorem ends_nil : Ends [] := by simp [Ends]

theorem ends_renderItems (items : List Json) (rest : List Char) :
    Ends (renderItems items ++ rest) := by
  cases items <;> simp [Ends, renderItems]

theorem ends_renderMembers (members : List (String × Json)) (rest : List Char) :
    Ends (renderMembers members ++ rest) := by
  cases members <;> simp [Ends, renderMembers]

/-! ## Strings -/

theorem hex4?_of_lt {n : Nat} (h : n < 32) :
    hex4? '0' '0' (Text.Hex.lower (n / 16)) (Text.Hex.lower (n % 16)) = some n := by
  have hzero : Text.Hex.value? '0' = some 0 := by decide
  have hhigh := Text.Hex.value?_lower (n / 16) (by omega)
  have hlow := Text.Hex.value?_lower (n % 16) (by omega)
  simp only [hex4?, hzero, hhigh, hlow, Option.pure_def, Option.bind_eq_bind, Option.bind_some]
  congr 1
  omega

theorem pieces_escape (c : Char) (s : List Char) :
    pieces (escape c ++ s) = (pieces s).map fun (ps, rest) => (.char c :: ps, rest) := by
  unfold escape
  -- the seven short escapes, then control characters by their code, then what stands for itself
  iterate 7
    split
    · next h =>
      subst h
      simp [pieces, shortEscape?]
  split
  · next h =>
    have hcode : Piece.ofCode c.toNat = .char c := by
      simp only [Piece.ofCode, Char.ofNat_toNat]
      rw [if_neg (by omega), if_neg (by omega)]
    simp [pieces, hex4?_of_lt h, hcode]
  · next hquote hslash _ _ _ _ _ hprintable =>
    simp only [List.cons_append, List.nil_append]
    rw [pieces.eq_def]
    split
    · simp_all
    · simp_all
    · simp_all
    · simp_all
    · next heq =>
      obtain ⟨rfl, rfl⟩ := List.cons.inj heq
      rw [if_neg hprintable]

theorem pieces_flatMap_escape (s rest : List Char) :
    pieces (s.flatMap escape ++ '"' :: rest) = some (s.map .char, rest) := by
  induction s with
  | nil => simp [pieces]
  | cons c s ih => simp [pieces_escape, ih]

theorem joinPieces_map_char (s : List Char) : joinPieces (s.map .char) = some s := by
  induction s with
  | nil => rfl
  | cons c s ih => simp [joinPieces, ih]

theorem stringBody_quoted (s : String) (rest : List Char) :
    stringBody (s.toList.flatMap escape ++ '"' :: rest) = some (some s, rest) := by
  simp [stringBody, pieces_flatMap_escape, joinPieces_map_char]

theorem key_quote (s : String) (rest : List Char) :
    key (quote s ++ ':' :: rest) = some (some s, rest) := by
  have hskip (t : List Char) : skipSpace ('"' :: t) = '"' :: t := by simp [skipSpace, isSpace]
  have hcolon : skipSpace (':' :: rest) = ':' :: rest := by simp [skipSpace, isSpace]
  simp only [key, quote, List.cons_append, List.append_assoc, List.nil_append, hskip,
    stringBody_quoted, Option.bind_eq_bind, Option.bind_some, hcolon]

/-! ## Numbers -/

theorem not_isDigit_of_ends {rest : List Char} (h : Ends rest) :
    ∀ c ∈ rest.head?, c.isDigit = false := by
  intro c hc
  rcases h c hc with rfl | rfl | rfl <;> decide

theorem takeWhile_digits {digits rest : List Char} (hdigits : ∀ c ∈ digits, c.isDigit = true)
    (hrest : Ends rest) : (digits ++ rest).takeWhile Char.isDigit = digits := by
  rw [List.takeWhile_append_of_pos hdigits]
  cases rest with
  | nil => simp
  | cons c rest => simp [not_isDigit_of_ends hrest c (by simp)]

theorem dropWhile_digits {digits rest : List Char} (hdigits : ∀ c ∈ digits, c.isDigit = true)
    (hrest : Ends rest) : (digits ++ rest).dropWhile Char.isDigit = rest := by
  rw [List.dropWhile_append_of_pos hdigits]
  cases rest with
  | nil => rfl
  | cons c rest => simp [not_isDigit_of_ends hrest c (by simp)]

theorem fractionDigits_of_ends {rest : List Char} (h : Ends rest) :
    fractionDigits rest = some ([], rest) := by
  cases rest with
  | nil => rfl
  | cons c rest => rcases h c (by simp) with rfl | rfl | rfl <;> rfl

theorem exponent_of_ends {rest : List Char} (h : Ends rest) :
    exponent rest = some (none, rest) := by
  cases rest with
  | nil => rfl
  | cons c rest => rcases h c (by simp) with rfl | rfl | rfl <;> simp [exponent]

theorem toList_toString_ofNat (n : Nat) :
    (toString (n : Int)).toList = Nat.toDigits 10 n := by
  rw [Int.toString_eq_repr, Int.repr_eq_if, if_pos (Int.natCast_nonneg n), Int.toNat_natCast,
    Nat.toList_repr]

theorem toList_toString_neg {n : Nat} (hn : 0 < n) :
    (toString (-(n : Int))).toList = '-' :: Nat.toDigits 10 n := by
  rw [Int.toString_eq_repr, Int.repr_eq_if, if_neg (by omega), Int.neg_neg, Int.toNat_natCast]
  simp

theorem render_integer_head (n : Int) :
    ∃ c s, render (.integer n) = c :: s ∧ (c = '-' ∨ c.isDigit = true) := by
  rcases Int.eq_nat_or_neg n with ⟨m, rfl | rfl⟩
  · obtain ⟨c, s, hs⟩ := List.exists_cons_of_ne_nil (Nat.toDigits_ne_nil (n := m) (b := 10))
    refine ⟨c, s, ?_, .inr (Text.Decimal.isDigit_of_mem_toDigits (hs ▸ List.mem_cons_self))⟩
    rw [render, toList_toString_ofNat, hs]
  · rcases Nat.eq_zero_or_pos m with rfl | hm
    · exact ⟨'0', [], rfl, .inr rfl⟩
    · exact ⟨'-', _, by rw [render, toList_toString_neg hm], .inl rfl⟩

theorem number_digits {m : Nat} (hm : m < Text.Decimal.wordLimit) {rest : List Char}
    (hrest : Ends rest) : number (Nat.toDigits 10 m ++ rest) = some (.integer m, rest) := by
  have hdigits : ∀ c ∈ Nat.toDigits 10 m, c.isDigit = true :=
    fun c hc => Text.Decimal.isDigit_of_mem_toDigits hc
  unfold number
  split
  next negative body heq =>
    have hbody : (negative, body) = (false, Nat.toDigits 10 m ++ rest) := by
      rw [← heq]
      split
      · next tail hminus =>
        have hfirst : '-' ∈ Nat.toDigits 10 m := by
          obtain ⟨c, s, hs⟩ := List.exists_cons_of_ne_nil (Nat.toDigits_ne_nil (n := m) (b := 10))
          rw [hs, List.cons_append] at hminus
          rw [hs, (List.cons.inj hminus).1]
          exact List.mem_cons_self
        exact absurd (hdigits _ hfirst) (by decide)
      · rfl
    cases hbody
    simp [takeWhile_digits hdigits hrest, dropWhile_digits hdigits hrest,
      Text.Decimal.isNumeral_toDigits, fractionDigits_of_ends hrest, exponent_of_ends hrest,
      numberOfParts, integer?, Text.Decimal.value_toDigits, hm]

theorem number_minus_digits {m : Nat} (hm : 0 < m) (hlow : m ≤ Nat.pow 2 63) {rest : List Char}
    (hrest : Ends rest) :
    number ('-' :: (Nat.toDigits 10 m ++ rest)) = some (.integer (-m), rest) := by
  have hdigits : ∀ c ∈ Nat.toDigits 10 m, c.isDigit = true :=
    fun c hc => Text.Decimal.isDigit_of_mem_toDigits hc
  unfold number
  have hlow' : m ≤ 9223372036854775808 := hlow
  simp [takeWhile_digits hdigits hrest, dropWhile_digits hdigits hrest,
    Text.Decimal.isNumeral_toDigits, fractionDigits_of_ends hrest, exponent_of_ends hrest,
    numberOfParts, integer?, Text.Decimal.value_toDigits, hm, hlow']

theorem number_render {n : Int} (hlow : -(Nat.pow 2 63 : Nat) ≤ n)
    (hhigh : n < Text.Decimal.wordLimit) {rest : List Char} (hrest : Ends rest) :
    number (render (.integer n) ++ rest) = some (.integer n, rest) := by
  rcases Int.eq_nat_or_neg n with ⟨m, rfl | rfl⟩
  · rw [render, toList_toString_ofNat]
    exact number_digits (by omega) hrest
  · rcases Nat.eq_zero_or_pos m with rfl | hm
    · exact number_digits (m := 0) (by decide) hrest
    · rw [render, toList_toString_neg hm]
      exact number_minus_digits hm (by omega) hrest

/-! ## Values -/

/-- The text of a value starts with a character that is no blank and closes nothing. -/
theorem render_head {v : Json} (hv : v.Printable) :
    ∃ c s, render v = c :: s ∧ isSpace c = false ∧ c ≠ ']' ∧ c ≠ '}' := by
  cases hv with
  | null => exact ⟨_, _, rfl, by decide⟩
  | bool b => cases b <;> exact ⟨_, _, rfl, by decide⟩
  | @integer n _ _ =>
    obtain ⟨c, s, hs, hc⟩ := render_integer_head n
    refine ⟨c, s, hs, ?_⟩
    rcases hc with rfl | hc
    · decide
    · refine ⟨?_, ?_, ?_⟩
      · cases hspace : isSpace c with
        | false => rfl
        | true =>
          simp only [isSpace, Bool.or_eq_true, beq_iff_eq] at hspace
          rcases hspace with ((rfl | rfl) | rfl) | rfl <;> exact absurd hc (by decide)
      · rintro rfl
        exact absurd hc (by decide)
      · rintro rfl
        exact absurd hc (by decide)
  | string s => exact ⟨'"', _, rfl, by decide⟩
  | @array items _ => cases items <;> exact ⟨'[', _, rfl, by decide⟩
  | @object members _ => rcases members with _ | ⟨⟨k, v⟩, rest⟩ <;> exact ⟨'{', _, rfl, by decide⟩

theorem skipSpace_render {v : Json} (hv : v.Printable) (rest : List Char) :
    skipSpace (render v ++ rest) = render v ++ rest := by
  obtain ⟨c, s, hs, hc, -⟩ := render_head hv
  simp [skipSpace, hs, hc]

theorem value_integer {n : Int} (hlow : -(Nat.pow 2 63 : Nat) ≤ n)
    (hhigh : n < Text.Decimal.wordLimit) (bound : Nat) {rest : List Char} (hrest : Ends rest) :
    value (bound + 1) (render (.integer n) ++ rest) = some (.integer n, rest) := by
  have hnumber := number_render hlow hhigh hrest
  obtain ⟨c, s, hs, hc⟩ := render_integer_head n
  rw [value, skipSpace_render (.integer hlow hhigh)]
  have hhead : ∀ d t, render (.integer n) ++ rest = d :: t → d = '-' ∨ d.isDigit = true := by
    intro d t heq
    rw [hs, List.cons_append] at heq
    exact (List.cons.inj heq).1 ▸ hc
  split
  case h_7 => exact hnumber
  all_goals
    next heq => exact absurd (hhead _ _ heq) (by decide)

theorem mapM_map_some {α β : Type} {f : α → β} {read : β → Option α}
    (h : ∀ a, read (f a) = some a) (l : List α) : (l.map f).mapM read = some l := by
  induction l with
  | nil => rfl
  | cons a rest ih => simp [List.mapM_cons, h, ih]

theorem ofMembers_map_some (members : List (String × Json)) :
    ofMembers (members.map fun m => (some m.1, m.2)) = .object members := by
  rw [ofMembers, mapM_map_some]
  intro m
  rfl

-- The bound has to exceed the length of a text; each part is read with one less than the whole.
mutual
theorem value_render : ∀ (v : Json) (bound : Nat) (rest : List Char), v.Printable →
    (render v).length < bound → Ends rest → value bound (render v ++ rest) = some (v, rest)
  | _, 0, _, _, hbound, _ => absurd hbound (Nat.not_lt_zero _)
  | .null, bound + 1, rest, _, _, _ => by simp [render, value, skipSpace, isSpace]
  | .bool true, bound + 1, rest, _, _, _ => by simp [render, value, skipSpace, isSpace]
  | .bool false, bound + 1, rest, _, _, _ => by simp [render, value, skipSpace, isSpace]
  | .integer _, bound + 1, _, .integer hlow hhigh, _, hrest =>
    value_integer hlow hhigh bound hrest
  | .string s, bound + 1, rest, _, _, _ => by
    simp [render, quote, value, skipSpace, isSpace, stringBody_quoted]
  | .array [], bound + 1, rest, _, _, _ => by simp [render, value, skipSpace, isSpace]
  | .array (v :: items), bound + 1, rest, .array h, hbound, hrest => by
    have hprintable : v.Printable := h v (by simp)
    simp only [render, List.length_cons, List.length_append] at hbound
    have hv := value_render v bound (renderItems items ++ rest) hprintable (by omega)
      (ends_renderItems items rest)
    have hitems := items_render items bound rest (fun w hw => h w (by simp [hw])) (by omega) hrest
    have hopen : skipSpace ('[' :: (render v ++ (renderItems items ++ rest))) =
        '[' :: (render v ++ (renderItems items ++ rest)) := by simp [skipSpace, isSpace]
    simp only [render, List.cons_append, List.append_assoc, value, hopen,
      skipSpace_render hprintable]
    split
    · next heq =>
      obtain ⟨c, s, hs, -, hc, -⟩ := render_head hprintable
      rw [hs, List.cons_append] at heq
      exact absurd (List.cons.inj heq).1 hc
    · simp [hv, hitems]
  | .object [], bound + 1, rest, _, _, _ => by simp [render, value, skipSpace, isSpace]
  | .object ((k, v) :: members), bound + 1, rest, .object h, hbound, hrest => by
    have hprintable : v.Printable := h (k, v) (by simp)
    simp only [render, List.length_cons, List.length_append] at hbound
    have hv := value_render v bound (renderMembers members ++ rest) hprintable (by omega)
      (ends_renderMembers members rest)
    have hmembers := members_render members bound rest (fun m hm => h m (by simp [hm])) (by omega)
      hrest
    have hkey := key_quote k (render v ++ (renderMembers members ++ rest))
    have hmap := ofMembers_map_some ((k, v) :: members)
    simp only [quote, List.cons_append, List.append_assoc, List.nil_append] at hkey
    rw [List.map_cons] at hmap
    simp [render, quote, value, skipSpace, isSpace, hkey, hv, hmembers, hmap]

theorem items_render : ∀ (items : List Json) (bound : Nat) (rest : List Char),
    (∀ v ∈ items, v.Printable) → (renderItems items).length < bound → Ends rest →
      Json.items bound (renderItems items ++ rest) = some (items, rest)
  | _, 0, _, _, hbound, _ => absurd hbound (Nat.not_lt_zero _)
  | [], bound + 1, rest, _, _, _ => by simp [renderItems, Json.items, skipSpace, isSpace]
  | v :: items, bound + 1, rest, h, hbound, hrest => by
    simp only [renderItems, List.length_cons, List.length_append] at hbound
    have hv := value_render v bound (renderItems items ++ rest) (h v (by simp)) (by omega)
      (ends_renderItems items rest)
    have hitems := items_render items bound rest (fun w hw => h w (by simp [hw])) (by omega) hrest
    simp [renderItems, Json.items, skipSpace, isSpace, hv, hitems]

theorem members_render : ∀ (members : List (String × Json)) (bound : Nat) (rest : List Char),
    (∀ m ∈ members, m.2.Printable) → (renderMembers members).length < bound → Ends rest →
      Json.members bound (renderMembers members ++ rest) =
        some (members.map fun (key, v) => (some key, v), rest)
  | _, 0, _, _, hbound, _ => absurd hbound (Nat.not_lt_zero _)
  | [], bound + 1, rest, _, _, _ => by simp [renderMembers, Json.members, skipSpace, isSpace]
  | (k, v) :: members, bound + 1, rest, h, hbound, hrest => by
    simp only [renderMembers, List.length_cons, List.length_append] at hbound
    have hv := value_render v bound (renderMembers members ++ rest) (h (k, v) (by simp)) (by omega)
      (ends_renderMembers members rest)
    have hmembers := members_render members bound rest (fun m hm => h m (by simp [hm])) (by omega)
      hrest
    have hkey := key_quote k (render v ++ (renderMembers members ++ rest))
    simp [renderMembers, Json.members, skipSpace, isSpace, hkey, hv, hmembers]
end

/-- Reading gives back what was printed. -/
theorem parse?_text {v : Json} (h : v.Printable) : parse? v.text = some v := by
  have hvalue := value_render v ((render v).length + 1) [] h (by omega) ends_nil
  rw [List.append_nil] at hvalue
  simp [parse?, text, hvalue, skipSpace]

/-! ## One line -/

theorem control_free_of_all {l : List Char} (h : l.all (32 ≤ ·.toNat) = true) :
    ∀ c ∈ l, 32 ≤ c.toNat := by
  simpa using h

theorem control_free_escape (c : Char) : ∀ d ∈ escape c, 32 ≤ d.toNat := by
  have hlower : ∀ n < 16, 32 ≤ (Text.Hex.lower n).toNat := by decide
  unfold escape
  iterate 7
    split
    · exact control_free_of_all rfl
  split
  · have hhigh := hlower (c.toNat / 16) (by omega)
    have hlow := hlower (c.toNat % 16) (by omega)
    simp only [List.forall_mem_cons]
    exact ⟨by decide, by decide, by decide, by decide, hhigh, hlow, nofun⟩
  · next hprintable =>
    simpa using hprintable

theorem control_free_quote (s : String) : ∀ c ∈ quote s, 32 ≤ c.toNat := by
  simp only [quote, List.forall_mem_cons, List.forall_mem_append, List.mem_flatMap]
  refine ⟨by decide, fun c ⟨d, _, hc⟩ => control_free_escape d c hc, by decide, nofun⟩

theorem control_free_integer (n : Int) : ∀ c ∈ render (.integer n), 32 ≤ c.toNat := by
  have hdigits (m : Nat) : ∀ c ∈ Nat.toDigits 10 m, 32 ≤ c.toNat := by
    intro c hc
    have hdigit := Text.Decimal.isDigit_of_mem_toDigits hc
    simp only [Char.isDigit, Bool.and_eq_true, decide_eq_true_eq, UInt32.le_iff_toNat_le] at hdigit
    exact Nat.le_trans (by decide) hdigit.1
  rcases Int.eq_nat_or_neg n with ⟨m, rfl | rfl⟩
  · rw [render, toList_toString_ofNat]
    exact hdigits m
  · rcases Nat.eq_zero_or_pos m with rfl | hm
    · exact hdigits 0
    · rw [render, toList_toString_neg hm]
      exact List.forall_mem_cons.2 ⟨by decide, hdigits m⟩

mutual
/-- The text of a value has no control characters below the space, so it is one line. -/
theorem control_free_render : ∀ v : Json, v.Printable → ∀ c ∈ render v, 32 ≤ c.toNat
  | .null, _ => control_free_of_all rfl
  | .bool true, _ => control_free_of_all rfl
  | .bool false, _ => control_free_of_all rfl
  | .integer n, _ => control_free_integer n
  | .string s, _ => control_free_quote s
  | .array [], _ => control_free_of_all rfl
  | .array (v :: items), .array h => by
    have hv := control_free_render v (h v (by simp))
    have hitems := control_free_renderItems items fun w hw => h w (by simp [hw])
    simp only [render, List.forall_mem_cons, List.forall_mem_append]
    exact ⟨by decide, hv, hitems⟩
  | .object [], _ => control_free_of_all rfl
  | .object ((k, v) :: members), .object h => by
    have hv := control_free_render v (h (k, v) (by simp))
    have hmembers := control_free_renderMembers members fun m hm => h m (by simp [hm])
    simp only [render, List.forall_mem_cons, List.forall_mem_append]
    exact ⟨by decide, control_free_quote k, by decide, hv, hmembers⟩

theorem control_free_renderItems : ∀ items : List Json, (∀ v ∈ items, v.Printable) →
    ∀ c ∈ renderItems items, 32 ≤ c.toNat
  | [], _ => control_free_of_all rfl
  | v :: items, h => by
    have hv := control_free_render v (h v (by simp))
    have hitems := control_free_renderItems items fun w hw => h w (by simp [hw])
    simp only [renderItems, List.forall_mem_cons, List.forall_mem_append]
    exact ⟨by decide, hv, hitems⟩

theorem control_free_renderMembers : ∀ members : List (String × Json),
    (∀ m ∈ members, m.2.Printable) → ∀ c ∈ renderMembers members, 32 ≤ c.toNat
  | [], _ => control_free_of_all rfl
  | (k, v) :: members, h => by
    have hv := control_free_render v (h (k, v) (by simp))
    have hmembers := control_free_renderMembers members fun m hm => h m (by simp [hm])
    simp only [renderMembers, List.forall_mem_cons, List.forall_mem_append]
    exact ⟨by decide, control_free_quote k, by decide, hv, hmembers⟩
end

end Depot.Json
