import Depot.Digest
import Depot.Proofs.Text.Lines

/-!
# Digests as names

A digest is a text of hexadecimal digits, so it has no slash and no dot in it. How many digits it
has depends on the algorithm only, and as a name it takes as many bytes (`utf8ByteSize_ofBytes`).
-/

namespace Depot

namespace Text.Hex

theorem value?_of_mem_digits {count n : Nat} {c : Char} (h : c ∈ digits count n) :
    (value? c).isSome = true := by
  induction count generalizing n with
  | zero => simp [digits] at h
  | succ count ih =>
    rcases List.mem_append.1 h with h | h
    · exact ih h
    · obtain rfl := List.mem_singleton.1 h
      rw [value?_lower _ (Nat.mod_lt n (by decide))]
      rfl

theorem length_digits (count n : Nat) : (digits count n).length = count := by
  induction count generalizing n with
  | zero => rfl
  | succ count ih => simp [digits, ih]

theorem utf8Size_of_value? {c : Char} (h : (value? c).isSome = true) : c.utf8Size = 1 := by
  refine Char.utf8Size_eq_one_iff.2 ?_
  unfold value? at h
  split at h
  · next hdigit =>
    simp only [Char.isDigit, ge_iff_le, Bool.and_eq_true, decide_eq_true_eq] at hdigit
    exact UInt32.le_trans hdigit.2 (by decide)
  · split at h
    · next hlower => exact UInt32.le_trans (show c.val ≤ 'f'.val from hlower.2) (by decide)
    · split at h
      · next hupper => exact UInt32.le_trans (show c.val ≤ 'F'.val from hupper.2) (by decide)
      · cases h

end Text.Hex

theorem Text.utf8ByteSize_eq_length {s : String} (h : ∀ c ∈ s.toList, c.utf8Size = 1) :
    s.utf8ByteSize = s.length := by
  have hbytes : s.utf8ByteSize = (bytes s).length := by simp [bytes]
  have hone : s.toList.map (fun c => (String.utf8EncodeChar c).length) =
      s.toList.map fun _ => 1 :=
    List.map_congr_left fun c hc => (String.length_utf8EncodeChar c).trans (h c hc)
  rw [hbytes, bytes_eq_flatMap, List.length_flatMap, hone]
  rw [List.map_const', List.sum_replicate_nat, Nat.mul_one, String.length_toList]

namespace Digest

/-- The number of digits of a digest. -/
def width : Algorithm → Nat
  | .sha256 => 64
  | .xxh128 => 32

variable {algorithm : Algorithm} {data : ByteArray} {text : String} {c : Char}

theorem value?_of_mem_ofBytes (h : c ∈ (ofBytes algorithm data).toList) :
    (Text.Hex.value? c).isSome = true := by
  simp only [ofBytes, String.toList_ofList] at h
  cases algorithm with
  | sha256 =>
    obtain ⟨word, -, h⟩ := List.mem_flatMap.1 h
    exact Text.Hex.value?_of_mem_digits h
  | xxh128 => rcases List.mem_append.1 h with h | h <;> exact Text.Hex.value?_of_mem_digits h

theorem length_ofBytes (algorithm : Algorithm) (data : ByteArray) :
    (ofBytes algorithm data).length = width algorithm := by
  cases algorithm with
  | sha256 => simp [ofBytes, Sha256.digest, Text.Hex.length_digits, width]
  | xxh128 => simp [ofBytes, Text.Hex.length_digits, width]

theorem utf8ByteSize_ofBytes (algorithm : Algorithm) (data : ByteArray) :
    (ofBytes algorithm data).utf8ByteSize = width algorithm := by
  have hdigits : ∀ c ∈ (ofBytes algorithm data).toList, c.utf8Size = 1 := fun c hc =>
    Text.Hex.utf8Size_of_value? (value?_of_mem_ofBytes hc)
  rw [Text.utf8ByteSize_eq_length hdigits, length_ofBytes]

theorem value?_of_mem_ofText (h : c ∈ (ofText algorithm text).toList) :
    (Text.Hex.value? c).isSome = true :=
  value?_of_mem_ofBytes h

theorem utf8ByteSize_ofText (text : String) : (ofText .sha256 text).utf8ByteSize = 64 :=
  utf8ByteSize_ofBytes .sha256 text.toUTF8

end Digest

end Depot
