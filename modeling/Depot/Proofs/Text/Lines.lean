import Depot.Text.Utf8
import Depot.Proofs.Text.Joined

/-!
# Lines of bytes

Texts without a line end, written one behind the other with a line end after each, are cut into the
same texts again (`splitOn_flatMap_lines`). A text is told by its bytes (`ofUtf8?_bytes`), and only
a line end is written with the byte of one (`newline_not_mem_bytes`).
-/

namespace Depot.Text

/-- The bytes of a text in UTF-8. -/
def bytes (s : String) : List UInt8 := s.toUTF8.data.toList

theorem bytes_eq_flatMap (s : String) : bytes s = s.toList.flatMap String.utf8EncodeChar := by
  unfold bytes
  rw [String.toUTF8_eq_toByteArray, ← String.utf8Encode_toList, List.utf8Encode,
    List.toList_data_toByteArray]

theorem bytes_append (s t : String) : bytes (s ++ t) = bytes s ++ bytes t := by
  simp [bytes_eq_flatMap]

theorem ofUtf8?_bytes (s : String) : ofUtf8? (bytes s) = some s := by
  have hbytes : (⟨(bytes s).toArray⟩ : ByteArray) = s.toByteArray := by simp [bytes]
  unfold ofUtf8? String.fromUTF8?
  rw [dif_pos (hbytes ▸ s.isValidUTF8)]
  exact congrArg some (String.toByteArray_inj.1 hbytes)

theorem newline_not_mem_utf8EncodeChar {c : Char} (hc : c ≠ '\n') :
    10 ∉ String.utf8EncodeChar c := by
  have hval : c.val.toNat ≠ 10 := fun h => hc (Char.toNat_inj.1 h)
  have hne (n : Nat) (h : n % 256 ≠ 10) : (10 : UInt8) ≠ UInt8.ofNat n := by
    intro heq
    apply h
    rw [← UInt8.toNat_ofNat', ← heq]
    rfl
  fun_cases String.utf8EncodeChar c
  · simp only [List.mem_singleton]
    exact hne _ (by omega)
  · simp only [List.mem_cons, List.not_mem_nil, or_false, not_or]
    exact ⟨hne _ (by omega), hne _ (by omega)⟩
  · simp only [List.mem_cons, List.not_mem_nil, or_false, not_or]
    exact ⟨hne _ (by omega), hne _ (by omega), hne _ (by omega)⟩
  · simp only [List.mem_cons, List.not_mem_nil, or_false, not_or]
    exact ⟨hne _ (by omega), hne _ (by omega), hne _ (by omega), hne _ (by omega)⟩

theorem newline_not_mem_bytes {s : String} (h : '\n' ∉ s.toList) : 10 ∉ bytes s := by
  rw [bytes_eq_flatMap, List.mem_flatMap]
  rintro ⟨c, hc, hmem⟩
  exact newline_not_mem_utf8EncodeChar (fun heq => h (heq ▸ hc)) hmem

theorem splitOn_flatMap_lines {lines : List (List UInt8)} (h : ∀ line ∈ lines, 10 ∉ line) :
    (lines.flatMap fun line => line ++ [10]).splitOn 10 = lines ++ [[]] := by
  have hsingle : (lines.flatMap fun line => line.splitOn 10) = lines.flatMap fun line => [line] :=
    List.flatMap_congr fun line hline => List.splitOn_eq_singleton (h line hline)
  rw [splitOn_flatMap_ended, hsingle, List.flatMap_singleton']

end Depot.Text
