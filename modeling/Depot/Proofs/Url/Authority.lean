import Mathlib.Data.List.TakeDrop
import Depot.Url

/-!
# Hosts in addresses

The host of an address whose scheme is no special one is taken from the text as it is, or is an
address of version 6 in brackets. In either case nothing in it ends an authority
(`not_endsAuthority_host`).
-/

namespace Depot.Url

variable {c : Char} {s : List Char} {host scheme text : String} {style : Style} {u : Url}

/-! ## Characters of a host -/

theorem endsAuthority_digitChar : ∀ d < 16, endsAuthority .plain d.digitChar = false := by decide

theorem endsAuthority_of_mem_toDigits {n : Nat} (h : c ∈ Nat.toDigits 16 n) :
    endsAuthority .plain c = false := by
  induction n using Nat.strongRecOn with
  | ind n ih =>
    by_cases hlt : n < 16
    · rw [Nat.toDigits_of_lt_base hlt, List.mem_singleton] at h
      rw [h]
      exact endsAuthority_digitChar n hlt
    · rw [Nat.toDigits_of_base_le (by decide) (by omega), List.mem_append,
        List.mem_singleton] at h
      rcases h with h | rfl
      · exact ih (n / 16) (by omega) h
      · exact endsAuthority_digitChar _ (Nat.mod_lt n (by decide))

theorem mem_intercalate_cases {sep : List Char} {l : List (List Char)} (h : c ∈ sep.intercalate l) :
    c ∈ sep ∨ ∃ t ∈ l, c ∈ t := by
  induction l with
  | nil => simp [List.intercalate] at h
  | cons t rest ih =>
    cases rest with
    | nil =>
      rw [List.intercalate_singleton] at h
      exact .inr ⟨t, List.mem_cons_self, h⟩
    | cons t' rest =>
      rw [List.intercalate_cons_cons, List.mem_append, List.mem_append] at h
      rcases h with (h | h) | h
      · exact .inr ⟨t, List.mem_cons_self, h⟩
      · exact .inl h
      · exact (ih h).imp_right fun ⟨t, ht, hc⟩ => ⟨t, List.mem_cons_of_mem _ ht, hc⟩

theorem endsAuthority_of_mem_groupsText {l : List Nat} (h : c ∈ (groupsText l).toList) :
    endsAuthority .plain c = false := by
  rw [groupsText, String.toList_intercalate] at h
  rcases mem_intercalate_cases h with h | ⟨t, ht, hc⟩
  · rw [List.mem_singleton.1 h]
    rfl
  · simp only [List.map_map, List.mem_map, Function.comp_apply, String.toList_ofList] at ht
    obtain ⟨n, -, rfl⟩ := ht
    exact endsAuthority_of_mem_toDigits hc

theorem endsAuthority_of_mem_ipv6Text {l : List Nat} (h : c ∈ (ipv6Text l).toList) :
    endsAuthority .plain c = false := by
  simp only [ipv6Text] at h
  split at h
  · exact endsAuthority_of_mem_groupsText h
  · simp only [String.toList_append, List.mem_append] at h
    rcases h with (h | h) | h
    · exact endsAuthority_of_mem_groupsText h
    · have hcolons : "::".toList = [':', ':'] := by decide
      simp only [hcolons, List.mem_cons, List.not_mem_nil, or_false, or_self] at h
      rw [h]
      rfl
    · exact endsAuthority_of_mem_groupsText h

theorem endsAuthority_of_mem_bracketed (h : bracketed s = .ok host) (hc : c ∈ host.toList) :
    endsAuthority .plain c = false := by
  unfold bracketed at h
  split at h
  · split at h
    · obtain rfl := Except.ok.inj h
      have hopen : "[".toList = ['['] := by decide
      have hclose : "]".toList = [']'] := by decide
      simp only [String.toList_append, List.mem_append, hopen, hclose, List.mem_singleton] at hc
      rcases hc with (rfl | hc) | rfl
      · rfl
      · exact endsAuthority_of_mem_ipv6Text hc
      · rfl
    · cases h
  · cases h

theorem endsAuthority_of_mem_encodeByte {b : UInt8} (h : c ∈ encodeByte b) :
    endsAuthority .plain c = false := by
  have hdigits : ∀ d < 16, endsAuthority .plain (Text.Hex.upper d) = false := by decide
  simp only [encodeByte, List.mem_cons, List.not_mem_nil, or_false] at h
  have hlt := b.toNat_lt
  rcases h with rfl | rfl | rfl
  · rfl
  · exact hdigits _ (by omega)
  · exact hdigits _ (Nat.mod_lt _ (by decide))

theorem forbiddenInOpaque_of_endsAuthority (h : endsAuthority .plain c = true) :
    forbiddenInOpaque c = true := by
  simp only [endsAuthority, bne_self_eq_false, Bool.and_false, Bool.or_false, Bool.or_eq_true,
    beq_iff_eq] at h
  rcases h with (rfl | rfl) | rfl <;> decide

theorem endsAuthority_of_mem_opaqueHost (h : opaqueHost s = .ok host) (hc : c ∈ host.toList) :
    endsAuthority .plain c = false := by
  unfold opaqueHost at h
  split at h
  · exact endsAuthority_of_mem_bracketed h hc
  · split at h
    · cases h
    · next hallowed =>
      obtain rfl := Except.ok.inj h
      rw [String.toList_ofList, encode, List.mem_flatMap] at hc
      obtain ⟨a, ha, hc⟩ := hc
      unfold encodeChar at hc
      split at hc
      · obtain ⟨b, -, hb⟩ := List.mem_flatMap.1 hc
        exact endsAuthority_of_mem_encodeByte hb
      · obtain rfl := List.mem_singleton.1 hc
        rw [← Bool.not_eq_true]
        exact fun hends =>
          hallowed (List.any_eq_true.2 ⟨c, ha, forbiddenInOpaque_of_endsAuthority hends⟩)

theorem withAuthority_eq_ok (h : withAuthority scheme style s = .ok u) :
    u.scheme = scheme ∧ (style ≠ .special → ∃ name, opaqueHost name = .ok u.host) := by
  simp only [withAuthority, bind, Except.bind, pure, Except.pure] at h
  split at h
  · cases h
  · by_cases hspecial : style = .special
    · subst hspecial
      simp only [if_true] at h
      split at h
      · cases h
      · split at h
        · cases h
        · split at h
          · cases h
          · split at h
            · cases h
            · obtain rfl := Except.ok.inj h
              exact ⟨rfl, fun hne => absurd rfl hne⟩
    · simp only [if_neg hspecial] at h
      split at h
      · cases h
      · next hhost =>
        split at h
        · cases h
        · split at h
          · cases h
          · obtain rfl := Except.ok.inj h
            exact ⟨rfl, fun _ => ⟨_, hhost⟩⟩

/-- The scheme of a file address is `file`. -/
theorem scheme_ofFile (h : ofFile s = .ok u) : u.scheme = "file" := by
  simp only [ofFile, bind, Except.bind, pure, Except.pure] at h
  split at h
  · split at h
    · split at h
      · obtain rfl := Except.ok.inj h
        rfl
      · split at h
        · cases h
        · obtain rfl := Except.ok.inj h
          rfl
    · obtain rfl := Except.ok.inj h
      rfl
  · obtain rfl := Except.ok.inj h
    rfl

/-- Nothing in the host ends the authority, unless the scheme is a special one. -/
theorem not_endsAuthority_host (h : parse text = .ok u) (hstyle : styleOf u.scheme = .plain)
    (hc : c ∈ u.host.toList) : endsAuthority .plain c = false := by
  unfold parse at h
  split at h
  · cases h
  · next scheme rest hscheme =>
    split at h
    · rw [scheme_ofFile h] at hstyle
      cases hstyle
    · next hspecial =>
      rw [(withAuthority_eq_ok h).1, hspecial] at hstyle
      cases hstyle
    · split at h
      · obtain ⟨name, hname⟩ := (withAuthority_eq_ok h).2 (by decide)
        exact endsAuthority_of_mem_opaqueHost hname hc
      · obtain rfl := Except.ok.inj h
        simp at hc

end Depot.Url
