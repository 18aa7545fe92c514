import Mathlib.Data.List.TakeDrop
import Mathlib.Data.List.TakeWhile
import Depot.Package.Architecture
import Depot.Package.Name
import Depot.Proofs.Text.Joined

/-!
# Names by their texts

The text of a name tells its architecture, since no architecture has a colon, and otherwise only the
text of distribution, name and version with a slash and an `@` between them. So two names have one
text if they are alike, or if that text can be cut in two ways (`display_eq_iff`): at a slash inside
the distribution of one of them, or at an `@` inside the version of one of them.

The path of a name tells its distribution up to the release `latest`, which is also that of a
distribution without a release (`distributionParts_eq_iff`). Joined by slashes, it tells the pieces
between slashes, and so the name up to that release if no part has a slash (`pieces_eq_iff`).
-/

namespace Depot.Package

theorem colon_not_mem_architecture : ∀ a ∈ architectures, ':' ∉ a.toList := by decide

namespace Name

variable {n m : Name}

/-- The same distribution, name, version and architecture. -/
structure Alike (n m : Name) : Prop where
  distribution : n.distribution = m.distribution
  name : n.name = m.name
  version : n.version = m.version
  architecture : n.architecture = m.architecture

/-- The text of distribution, name and version is that of another name, which is cut at a later
place: its distribution goes on behind the slash, or its name goes on behind the `@`. -/
def CutEarlier (n m : Name) : Prop :=
  (∃ x, m.distribution = n.distribution ++ "/" ++ x ∧
    n.name ++ "@" ++ n.version = x ++ "/" ++ (m.name ++ "@" ++ m.version)) ∨
  (n.distribution = m.distribution ∧ ∃ x, m.name = n.name ++ "@" ++ x ∧
    n.version = x ++ "@" ++ m.version)

/-- No slash in the distribution and no `@` in the version, where the text of a name could be cut in
a second way. -/
structure Clear (n : Name) : Prop where
  distribution : '/' ∉ n.distribution.toList
  version : '@' ∉ n.version.toList

theorem display_eq_join (n : Name) : n.display =
    n.distribution ++ "/" ++ (n.name ++ "@" ++ n.version) ++ ":" ++ n.architecture := by
  simp [display, String.append_assoc]

/-- Names with known architectures have one text if they are alike, or if the text can be cut in two
ways. -/
theorem display_eq_iff (hn : n.architecture ∈ architectures) (hm : m.architecture ∈ architectures) :
    n.display = m.display ↔
      n.Alike m ∨ (n.architecture = m.architecture ∧ (n.CutEarlier m ∨ m.CutEarlier n)) := by
  rw [display_eq_join, display_eq_join, Text.join_inj_right rfl (colon_not_mem_architecture _ hn)
    (colon_not_mem_architecture _ hm), Text.join_eq_join_iff rfl]
  constructor
  · rintro ⟨⟨hdistribution, hrest⟩ | hlater | hearlier, harchitecture⟩
    · rcases (Text.join_eq_join_iff rfl).1 hrest with ⟨hname, hversion⟩ | hlater | hearlier
      · exact .inl ⟨hdistribution, hname, hversion, harchitecture⟩
      · exact .inr ⟨harchitecture, .inl (.inr ⟨hdistribution, hlater⟩)⟩
      · exact .inr ⟨harchitecture, .inr (.inr ⟨hdistribution.symm, hearlier⟩)⟩
    · exact .inr ⟨harchitecture, .inl (.inl hlater)⟩
    · exact .inr ⟨harchitecture, .inr (.inl hearlier)⟩
  · rintro (⟨hdistribution, hname, hversion, harchitecture⟩ | ⟨harchitecture, hcut⟩)
    · exact ⟨.inl ⟨hdistribution, by rw [hname, hversion]⟩, harchitecture⟩
    · refine ⟨?_, harchitecture⟩
      rcases hcut with (hlater | ⟨hdistribution, hlater⟩) | (hearlier | ⟨hdistribution, hearlier⟩)
      · exact .inr (.inl hlater)
      · exact .inl ⟨hdistribution, (Text.join_eq_join_iff rfl).2 (.inr (.inl hlater))⟩
      · exact .inr (.inr hearlier)
      · exact .inl ⟨hdistribution.symm, (Text.join_eq_join_iff rfl).2 (.inr (.inr hearlier))⟩

theorem CutEarlier.not_clear (h : n.CutEarlier m) : ¬n.Clear ∨ ¬m.Clear := by
  rcases h with ⟨x, hdistribution, -⟩ | ⟨-, x, -, hversion⟩
  · exact .inr fun hm => hm.distribution (by simp [hdistribution])
  · exact .inl fun hn => hn.version (by simp [hversion])

/-- Clear names are told by their texts. -/
theorem display_eq_iff_of_clear (hn : n.Clear) (hm : m.Clear) (hn' : n.architecture ∈ architectures)
    (hm' : m.architecture ∈ architectures) : n.display = m.display ↔ n.Alike m := by
  rw [display_eq_iff hn' hm']
  refine ⟨?_, .inl⟩
  rintro (halike | ⟨-, hcut | hcut⟩)
  · exact halike
  · exact absurd hcut.not_clear (by simp [hn, hm])
  · exact absurd hcut.not_clear (by simp [hn, hm])

/-! ## Distributions in paths -/

theorem distributionParts_of_not_mem (h : '@' ∉ n.distribution.toList) :
    n.distributionParts = (n.distribution, "latest") := by
  have hall : ∀ c ∈ n.distribution.toList, (c != '@') = true :=
    fun c hc => bne_iff_ne.2 fun hat => h (hat ▸ hc)
  simp [distributionParts, List.span_eq_takeWhile_dropWhile, List.dropWhile_eq_nil_iff.2 hall]

theorem distributionParts_of_release {distribution release : String}
    (h : n.distribution = distribution ++ "@" ++ release) (hat : '@' ∉ distribution.toList) :
    n.distributionParts = (distribution, release) := by
  have hall : ∀ c ∈ distribution.toList, (c != '@') = true :=
    fun c hc => bne_iff_ne.2 fun heq => hat (heq ▸ hc)
  have hlist : n.distribution.toList = distribution.toList ++ '@' :: release.toList := by
    simp [h]
  simp [distributionParts, List.span_eq_takeWhile_dropWhile, hlist,
    List.takeWhile_append_of_pos hall, List.dropWhile_append_of_pos hall]

theorem exists_release (h : '@' ∈ n.distribution.toList) : ∃ distribution release : String,
    n.distribution = distribution ++ "@" ++ release ∧ '@' ∉ distribution.toList := by
  obtain ⟨front, back, hsplit, hfront⟩ := List.eq_append_cons_of_mem h
  exact ⟨.ofList front, .ofList back, String.toList_inj.1 (by simp [hsplit]), by simpa using hfront⟩

/-- The other distribution names the release `latest`, and otherwise they are the same. -/
def LatestOf (n m : Name) : Prop :=
  '@' ∉ n.distribution.toList ∧ m.distribution = n.distribution ++ "@" ++ "latest"

/-- Distributions have the same parts if they are the same up to the release `latest`. -/
theorem distributionParts_eq_iff : n.distributionParts = m.distributionParts ↔
    n.distribution = m.distribution ∨ n.LatestOf m ∨ m.LatestOf n := by
  constructor
  · intro h
    by_cases hn : '@' ∈ n.distribution.toList <;> by_cases hm : '@' ∈ m.distribution.toList
    · obtain ⟨d, r, hdr, hd⟩ := exists_release hn
      obtain ⟨d', r', hdr', hd'⟩ := exists_release hm
      rw [distributionParts_of_release hdr hd, distributionParts_of_release hdr' hd',
        Prod.mk.injEq] at h
      exact .inl (by rw [hdr, hdr', h.1, h.2])
    · obtain ⟨d, r, hdr, hd⟩ := exists_release hn
      rw [distributionParts_of_release hdr hd, distributionParts_of_not_mem hm,
        Prod.mk.injEq] at h
      exact .inr (.inr ⟨hm, by rw [hdr, h.1, h.2]⟩)
    · obtain ⟨d, r, hdr, hd⟩ := exists_release hm
      rw [distributionParts_of_not_mem hn, distributionParts_of_release hdr hd,
        Prod.mk.injEq] at h
      exact .inr (.inl ⟨hn, by rw [hdr, h.1, h.2]⟩)
    · rw [distributionParts_of_not_mem hn, distributionParts_of_not_mem hm, Prod.mk.injEq] at h
      exact .inl h.1
  · rintro (h | ⟨hn, hm⟩ | ⟨hm, hn⟩)
    · unfold distributionParts
      rw [h]
    · rw [distributionParts_of_not_mem hn, distributionParts_of_release hm hn]
    · rw [distributionParts_of_not_mem hm, distributionParts_of_release hn hm]

/-! ## Paths -/

/-- The parts of a name's path, cut at their slashes. -/
def pieces (n : Name) : List (List Char) := n.path.flatMap fun part => part.toList.splitOn '/'

/-- No part has a slash. -/
def Whole (n : Name) : Prop := ∀ part ∈ n.path, '/' ∉ part.toList

theorem Whole.pieces_eq (h : n.Whole) : n.pieces = n.path.map String.toList := by
  rw [pieces, ← List.flatMap_singleton' (n.path.map String.toList), List.flatMap_map]
  exact List.flatMap_congr fun part hpart => List.splitOn_eq_singleton (h part hpart)

/-- Names whose parts have no slashes have the same pieces if they are the same up to the release
`latest`. -/
theorem pieces_eq_iff (hn : n.Whole) (hm : m.Whole) : n.pieces = m.pieces ↔
    n.name = m.name ∧ n.version = m.version ∧ n.architecture = m.architecture ∧
      (n.distribution = m.distribution ∨ n.LatestOf m ∨ m.LatestOf n) := by
  rw [hn.pieces_eq, hm.pieces_eq, ← distributionParts_eq_iff, Prod.ext_iff,
    List.map_inj_right fun a b => String.toList_inj.1]
  simp only [path, List.cons.injEq, and_true]
  tauto

end Name

end Depot.Package
