import Depot.Proofs.Fetch.Handle
import Depot.Proofs.Package.Identity

/-!
# Packages dropped as duplicates

A handle takes a package for a duplicate if one with its id is there, and the id is the text of the
name. So a package that is handed over leaves one with its text and its architecture, and nothing is
lost among names whose texts can be cut in one way only (`added_or_repeated`). Where they can be cut
in two ways, a package is dropped for one with another name (`scoped_name_dropped`).
-/

namespace Depot.Fetch.Handle

variable {h : Handle} {d : Decl} {p q : Package} {calls : List Call}

theorem after_decl (d : Decl) (calls : List Call) :
    (({ decl := d } : Handle).after calls).decl = d :=
  (({ decl := d } : Handle).handed_after calls).decl

theorem tidy_of_mem_after (hq : q ∈ (({ decl := d } : Handle).after calls).packages) :
    Tidy d q := by
  rw [(({ decl := d } : Handle).handed_after calls).packages] at hq
  obtain ⟨more, hmore, hmem⟩ := foldl_addNew_eq_append Package.id (accepted d false calls) []
  rw [hmore] at hq
  exact tidy_of_mem_accepted (hmem q hq).1

theorem add_packages (hp : Known p) :
    (h.add p).1.packages = addNew Package.id h.packages (keptAs h.decl h.pledged p) := by
  obtain ⟨log, hadd⟩ := h.add_of_known hp
  rw [hadd]
  exact push_packages

theorem add_packages_eq_self_iff (hp : Known p) : (h.add p).1.packages = h.packages ↔
    ∃ q ∈ h.packages, q.id = (keptAs h.decl h.pledged p).id := by
  rw [add_packages hp, addNew]
  split
  · next hthere => simpa using hthere
  · next hnew => simpa using hnew

theorem exists_id_of_added (hp : Known p) :
    ∃ q ∈ (h.add p).1.packages, q.id = (keptAs h.decl h.pledged p).id := by
  rw [add_packages hp]
  exact exists_key_of_mem Package.id [keptAs h.decl h.pledged p] h.packages
    (List.mem_singleton_self _)

theorem mem_of_mem_added (hp : Known p) (hq : q ∈ (h.add p).1.packages) :
    q ∈ h.packages ∨ q = keptAs h.decl h.pledged p := by
  rw [add_packages hp, addNew] at hq
  split at hq
  · exact .inl hq
  · simpa using hq

theorem tidy_of_mem_added (hq : q ∈ ((({ decl := d } : Handle).after calls).add p).1.packages) :
    Tidy d q := by
  have hcalls : ((({ decl := d } : Handle).after calls).add p).1 =
      ({ decl := d } : Handle).after (calls ++ [.add p]) := by
    simp [after, Call.perform]
  rw [hcalls] at hq
  exact tidy_of_mem_after hq

/-- Packages in a handle have one id if their names are alike, or have one architecture and a text
that can be cut in two ways. -/
theorem id_eq_iff (hp : Tidy d p) (hq : Tidy d q) : q.id = p.id ↔ q.name.Alike p.name ∨
    (q.name.architecture = p.name.architecture ∧
      (q.name.CutEarlier p.name ∨ p.name.CutEarlier q.name)) :=
  Package.Name.display_eq_iff (hq.known _ List.mem_cons_self) (hp.known _ List.mem_cons_self)

/-- Packages with clear names have one id if their names are alike. -/
theorem id_eq_iff_of_clear (hp : Tidy d p) (hq : Tidy d q) (hpclear : p.name.Clear)
    (hqclear : q.name.Clear) : q.id = p.id ↔ q.name.Alike p.name :=
  Package.Name.display_eq_iff_of_clear hqclear hpclear (hq.known _ List.mem_cons_self)
    (hp.known _ List.mem_cons_self)

/-- A package that is handed over leaves a package with its text and its architecture, whatever
comes before and after it. It is dropped exactly if one with its text is there, and that may have
another name only where the text can be cut in two ways: at a slash inside a distribution or at an
`@` inside a version. -/
theorem added_or_repeated (d : Decl) (front rest : List Call) (p : Package)
    (hok : ((({ decl := d } : Handle).after front).add p).2 = .ok ()) :
    let h := ({ decl := d } : Handle).after front
    let taken := keptAs d h.pledged p
    let later := (h.add p).1.after rest
    (∃ q ∈ later.packages, q.id = taken.id ∧ q.name.architecture = taken.name.architecture) ∧
      ((h.add p).1.packages = h.packages ++ [taken] ∨
        ((h.add p).1.packages = h.packages ∧ ∃ q ∈ h.packages, q.id = taken.id)) ∧
      (∀ q ∈ h.packages, q.id = taken.id ↔ q.name.Alike taken.name ∨
        (q.name.architecture = taken.name.architecture ∧
          (q.name.CutEarlier taken.name ∨ taken.name.CutEarlier q.name))) ∧
      (taken.name.Clear → (∀ q ∈ h.packages, q.name.Clear) →
        (∃ q ∈ later.packages, q.name.Alike taken.name) ∧
          ((h.add p).1.packages = h.packages ↔ ∃ q ∈ h.packages, q.name.Alike taken.name)) := by
  intro h taken later
  have hp : Known p := known_of_add (Prod.ext rfl hok)
  have hdecl : h.decl = d := after_decl d front
  have htaken : keptAs h.decl h.pledged p = taken := by rw [hdecl]
  have htidy : Tidy d taken := tidy_keptAs hp
  have htext (q : Package) (hq : q ∈ h.packages) := id_eq_iff htidy (tidy_of_mem_after hq)
  have hdropped := add_packages_eq_self_iff (h := h) hp
  rw [htaken] at hdropped
  have hadded := add_packages (h := h) hp
  rw [htaken] at hadded
  -- the package itself or the one that it was dropped for stays to the end
  obtain ⟨q, hq, hid⟩ : ∃ q ∈ (h.add p).1.packages, q.id = taken.id :=
    htaken ▸ exists_id_of_added hp
  have hlater : q ∈ later.packages := (prefix_after (h.add p).1 rest).1.subset hq
  have hqtidy : Tidy d q := tidy_of_mem_added hq
  refine ⟨⟨q, hlater, hid, ?_⟩, ?_, htext, fun hclear hclears => ⟨⟨q, hlater, ?_⟩, ?_⟩⟩
  · rcases (id_eq_iff htidy hqtidy).1 hid with halike | ⟨harchitecture, -⟩
    · exact halike.architecture
    · exact harchitecture
  · by_cases hthere : ∃ q ∈ h.packages, q.id = taken.id
    · exact .inr ⟨hdropped.2 hthere, hthere⟩
    · exact .inl (hadded.trans (if_neg (by simpa using hthere)))
  · have hqclear : q.name.Clear := by
      rcases mem_of_mem_added hp hq with hold | rfl
      · exact hclears q hold
      · rwa [htaken]
    exact (id_eq_iff_of_clear htidy hqtidy hclear hqclear).1 hid
  · rw [hdropped]
    refine exists_congr fun q => and_congr_right fun hq => ?_
    exact id_eq_iff_of_clear htidy (tidy_of_mem_after hq) hclear (hclears q hq)

/-! ### A name with a scope -/

/-- A package whose name has a scope. -/
def withScope : Package := { name := ⟨"npm", "@types/node", "1", "", false⟩ }

/-- The same text with the scope in the distribution. -/
def scopeApart : Package := { name := ⟨"npm/@types", "node", "1", "", false⟩ }

/-- A package may be dropped for one with another name. -/
theorem scoped_name_dropped :
    ¬∀ (d : Decl) (front rest : List Call) (p : Package),
      ((({ decl := d } : Handle).after front).add p).2 = .ok () →
        ∃ q ∈ ((((({ decl := d } : Handle).after front).add p).1).after rest).packages,
          q.name.Alike (keptAs d (({ decl := d } : Handle).after front).pledged p).name := by
  intro hall
  obtain ⟨q, hq, halike⟩ :=
    hall ⟨"list", "npm", []⟩ [.add withScope] [] scopeApart (by decide +kernel)
  have hpackages : ((((({ decl := ⟨"list", "npm", []⟩ } : Handle).after [.add withScope]).add
      scopeApart).1).after []).packages = [withScope] := by
    decide +kernel
  rw [hpackages] at hq
  obtain rfl := List.mem_singleton.1 hq
  exact absurd halike.distribution (by decide)

/-- The second package is dropped, because its text is also that of the first one. A third one with
another version is taken, and it is still there when both have come again. -/
theorem scope_read_in_two_ways :
    let d : Decl := ⟨"list", "npm", []⟩
    let h := ({ decl := d } : Handle).after [.add withScope]
    let newer : Package := { name := ⟨"", "@types/node", "2", "", false⟩ }
    (h.add scopeApart).2 = .ok () ∧ withScope.name.CutEarlier scopeApart.name ∧
      (h.add scopeApart).1.packages = h.packages ∧
      (h.add newer).2 = .ok () ∧ (h.add newer).1.packages ≠ h.packages ∧
      ∃ q ∈ ((h.add newer).1.after [.add scopeApart, .add newer]).packages,
        q.name.Alike ⟨"npm", "@types/node", "2", "", false⟩ := by
  intro d h newer
  have hpackages : (({ decl := d } : Handle).after [.add withScope]).packages = [withScope] := by
    decide +kernel
  have hcut : withScope.name.CutEarlier scopeApart.name := .inl ⟨"@types", by decide, by decide⟩
  have hok : (h.add scopeApart).2 = .ok () := by decide +kernel
  have hok' : (h.add newer).2 = .ok () := by decide +kernel
  obtain ⟨-, hdropped, -, -⟩ := added_or_repeated d [.add withScope] [] scopeApart hok
  obtain ⟨-, -, -, hclear⟩ :=
    added_or_repeated d [.add withScope] [.add scopeApart, .add newer] newer hok'
  obtain ⟨hlater, htaken⟩ := hclear ⟨by decide, by decide⟩ (by
    rw [hpackages]
    simp only [List.mem_singleton, forall_eq]
    exact ⟨by decide, by decide⟩)
  refine ⟨hok, hcut, (hdropped.resolve_left (by decide +kernel)).1, hok', fun hsame => ?_, hlater⟩
  obtain ⟨q, hq, halike⟩ := htaken.1 hsame
  rw [hpackages] at hq
  obtain rfl := List.mem_singleton.1 hq
  exact absurd halike.version (by decide)

end Depot.Fetch.Handle
