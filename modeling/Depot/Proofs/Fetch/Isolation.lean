import Depot.Proofs.Fetch.Coherence

/-!
# Fetchers that share a store

The key of a declaration is the digest of a text in which source, distribution and arguments are
joined by underscores. That text says which pieces they fall into at underscores, and no more
(`Decl.keyText_eq_iff`). Fetchers with different keys do not see each other's results, because the
calls of one are changes that the other does not notice (`Coherent.drift_other`). Fetchers with one
key serve each other (`fetch_of_same_entry`).
-/

namespace Depot.Fetch

/-- The source, the distribution if there is one, and the arguments, all cut at underscores. -/
def Decl.pieces (d : Decl) : List (List Char) :=
  (d.source :: d.tokens).flatMap fun text => text.toList.splitOn '_'

theorem Decl.keyText_eq_intercalate (d : Decl) :
    d.keyText = "_".intercalate (d.source :: d.tokens) := by
  have hfold (tokens : List String) (text : String) :
      tokens.foldl (fun text token => text ++ "_" ++ token) text =
        "_".intercalate (text :: tokens) := by
    induction tokens generalizing text with
    | nil => simp
    | cons token rest ih =>
      rw [List.foldl_cons, ih, String.intercalate_cons_cons]
      cases rest with
      | nil => simp
      | cons next rest => simp only [String.intercalate_cons_cons, String.append_assoc]
  exact hfold d.tokens d.source

/-- Two declarations have one text exactly if they fall into the same pieces. -/
theorem Decl.keyText_eq_iff (d d' : Decl) : d.keyText = d'.keyText ↔ d.pieces = d'.pieces := by
  rw [keyText_eq_intercalate, keyText_eq_intercalate]
  exact Text.intercalate_eq_intercalate_iff rfl (List.cons_ne_nil _ _) (List.cons_ne_nil _ _)

namespace Fetcher

variable {f g f' g' f₀ g₀ : Fetcher} {store store' store₀ : Store} {force : Bool}
  {last lastF lastG : Option (List Package)}

/-! ## Different entries -/

/-- A fetcher with another key takes a call for a change that it does not notice. -/
theorem Coherent.drift_other (hg : g.Coherent store lastG) (hkey : f.key ≠ g.key) (force : Bool) :
    g.Drift store (f.fetch store force).2.1 := by
  have hsame := f.sameBut_fetch store force
  have hapart : ∀ p, store.site.files.locate (g.entryPath store) = .ok p → p ∉ f.spots store := by
    intro p hp
    have hmem : p ∈ g.spots store := Cache.mem_spots_of_locate hp
    exact spots_apart hkey.symm hmem
  refine .of_sameBut (f.fetch_cache store force) hsame hg.free ?_
  rw [hsame.fileOf?_eq hapart]

/-- The calls of two fetchers on one store, in any order, with changes of the store between them
that neither of them notices. -/
inductive Shared (f₀ g₀ : Fetcher) (store₀ : Store) :
    Fetcher → Fetcher → Store → Option (List Package) → Option (List Package) → Prop
  | start : Shared f₀ g₀ store₀ f₀ g₀ store₀ none none
  | left {f g : Fetcher} {store : Store} {lastF lastG : Option (List Package)} (force : Bool) :
    Shared f₀ g₀ store₀ f g store lastF lastG →
      Shared f₀ g₀ store₀ (f.fetch store force).1 g (f.fetch store force).2.1
        (f.recorded store force lastF) lastG
  | right {f g : Fetcher} {store : Store} {lastF lastG : Option (List Package)} (force : Bool) :
    Shared f₀ g₀ store₀ f g store lastF lastG →
      Shared f₀ g₀ store₀ f (g.fetch store force).1 (g.fetch store force).2.1 lastF
        (g.recorded store force lastG)
  | drift {f g : Fetcher} {store store' : Store} {lastF lastG : Option (List Package)} :
    Shared f₀ g₀ store₀ f g store lastF lastG → f.Drift store store' → g.Drift store store' →
      Shared f₀ g₀ store₀ f g store' lastF lastG

namespace Shared

theorem key_eq (h : Shared f₀ g₀ store₀ f g store lastF lastG) :
    f.key = f₀.key ∧ g.key = g₀.key := by
  have hkey (f : Fetcher) (store : Store) (force : Bool) : (f.fetch store force).1.key = f.key := by
    unfold key
    rw [fetch_decl]
  induction h with
  | start => exact ⟨rfl, rfl⟩
  | left force _ ih => exact ⟨(hkey _ _ _).trans ih.1, ih.2⟩
  | right force _ ih => exact ⟨ih.1, (hkey _ _ _).trans ih.2⟩
  | drift _ _ _ ih => exact ih

/-- With different keys, each of the two fetchers runs as if it had the store for itself. -/
theorem runs (h : Shared f₀ g₀ store₀ f g store lastF lastG) (hkey : f₀.key ≠ g₀.key)
    (hf : f₀.Coherent store₀ none) (hg : g₀.Coherent store₀ none) :
    Run f₀ store₀ f store lastF ∧ Run g₀ store₀ g store lastG := by
  induction h with
  | start => exact ⟨.start, .start⟩
  | @left f g store lastF lastG force h ih =>
    -- what is a call for the one fetcher is a change from outside for the other
    have hkeys : f.key ≠ g.key := by rwa [h.key_eq.1, h.key_eq.2]
    exact ⟨ih.1.call force, ih.2.drift ((ih.2.coherent hg).drift_other hkeys force)⟩
  | @right f g store lastF lastG force h ih =>
    have hkeys : g.key ≠ f.key := by rw [h.key_eq.1, h.key_eq.2]; exact hkey.symm
    exact ⟨ih.1.drift ((ih.1.coherent hf).drift_other hkeys force), ih.2.call force⟩
  | drift h hdriftF hdriftG ih => exact ⟨ih.1.drift hdriftF, ih.2.drift hdriftG⟩

end Shared

/-! ## One entry -/

/-- What a due call has written is what any fetcher with the same entry loads, without asking its
own source. -/
theorem fetch_of_same_entry (hpath : g.entryPath store = f.entryPath store) (httl : 0 < store.ttl)
    (hdue : f.Due store force) (hcall : f.fetch store force = (f', store', .ok ())) :
    g.fetch store' false =
      (g.start.loaded none f'.packages, archived store' f'.packages, .ok ()) := by
  obtain ⟨⟨p, q, hready⟩, hsource⟩ := ready_of_ok hdue (by rw [hcall])
  obtain ⟨files, -, hage, hheld, hfetch⟩ := fetch_of_done hready hdue hsource
  obtain ⟨rfl, rfl⟩ : _ ∧ _ := by simpa using hcall.symm.trans hfetch
  have hpath' : g.entryPath (archived (withFiles store files) (f.sourceRun store).1.packages) =
      f.entryPath store := hpath
  apply fetch_of_not_due
  · rw [Due, not_or, not_not, hpath']
    exact ⟨by simp, 0, hage, Int.le_refl 0, by exact_mod_cast httl⟩
  · rw [hpath']
    exact hheld

/-! ## Both together -/

/-- Two fetchers share an entry exactly if their declarations fall into the same pieces. If not,
every call that goes well leaves what the fetcher's own source has recorded last, whatever the other
one does. If so, what one has fetched is what the other loads without asking its own source. -/
theorem isolated_by_pieces (hdigest : f₀.decl.keyText ≠ g₀.decl.keyText → f₀.key ≠ g₀.key) :
    (f₀.decl.pieces ≠ g₀.decl.pieces →
      store₀.site.files.age? (f₀.entryPath store₀) = none →
      store₀.site.files.age? (g₀.entryPath store₀) = none →
      ∀ f g store lastF lastG, Shared f₀ g₀ store₀ f g store lastF lastG →
        (∀ force f' store', f.fetch store force = (f', store', .ok ()) →
          f.recorded store force lastF = some f'.packages) ∧
        (∀ force g' store', g.fetch store force = (g', store', .ok ()) →
          g.recorded store force lastG = some g'.packages)) ∧
    (f₀.decl.pieces = g₀.decl.pieces → 0 < store₀.ttl →
      ∀ force f' store', f₀.Due store₀ force → f₀.fetch store₀ force = (f', store', .ok ()) →
        ∃ g' store'', g₀.fetch store' false = (g', store'', .ok ()) ∧
          g'.packages = f'.packages ∧ g'.calls = g₀.calls) := by
  constructor
  · intro hpieces hnoF hnoG f g store lastF lastG hshared
    have hkey := hdigest (mt (Decl.keyText_eq_iff _ _).1 hpieces)
    have hf := coherent_of_absent hnoF
    have hg := coherent_of_absent hnoG
    obtain ⟨hrunF, hrunG⟩ := hshared.runs hkey hf hg
    exact ⟨fun _ _ _ => (hrunF.coherent hf).recorded_of_ok,
      fun _ _ _ => (hrunG.coherent hg).recorded_of_ok⟩
  · intro hpieces httl force f' store' hdue hcall
    have hpath : g₀.entryPath store₀ = f₀.entryPath store₀ := by
      unfold entryPath key Decl.key
      rw [(Decl.keyText_eq_iff _ _).2 hpieces]
    exact ⟨_, _, fetch_of_same_entry hpath httl hdue hcall, by simp, by simp⟩

/-! Declarations with the argument `a_b`, with the arguments `a` and `b`, and with the argument
`c`. -/

/-- A fetcher whose source always has one package. -/
def listing (args : List String) (name : String) : Fetcher where
  decl := ⟨"list", "alpine", args⟩
  source := { fetch := fun _ => .add { name := ⟨"alpine", name, "1", "", false⟩ } fun _ => .done }

theorem fetch_listing {args : List String} {name : String}
    (h : (listing args name).Coherent store last) (hdue : (listing args name).Due store force)
    (hstart : (listing args name).Startable store) :
    ∃ f' store', (listing args name).fetch store force = (f', store', .ok ()) ∧
      f'.packages.map (·.name.name) = [name] := by
  obtain ⟨p, q, hready⟩ := h.ready hstart
  obtain ⟨files, -, -, -, hfetch⟩ := fetch_of_done hready hdue rfl
  exact ⟨_, _, hfetch, rfl⟩

/-- Different declarations are no reason for different entries. -/
theorem not_isolated_by_declarations :
    ¬∀ (f₀ g₀ : Fetcher) (store₀ : Store), f₀.decl ≠ g₀.decl →
      Cache.Writable store₀.site.files (f₀.entryPath store₀) →
      Cache.Writable store₀.site.files (g₀.entryPath store₀) →
      Cache.held store₀.site.files (f₀.entryPath store₀) = none →
      Cache.held store₀.site.files (g₀.entryPath store₀) = none →
      (f₀.decl.keyText ≠ g₀.decl.keyText → f₀.key ≠ g₀.key) →
      ∀ f g store lastF lastG, Shared f₀ g₀ store₀ f g store lastF lastG →
        ∀ force g' store', g.fetch store force = (g', store', .ok ()) →
          g.recorded store force lastG = some g'.packages := by
  intro hall
  have hf := emptyStore_coherent (listing ["a_b"] "zlib")
  have hg := emptyStore_coherent (listing ["a", "b"] "musl")
  obtain ⟨_, _, hreadyF⟩ := emptyStore_ready (listing ["a_b"] "zlib")
  obtain ⟨_, _, hreadyG⟩ := emptyStore_ready (listing ["a", "b"] "musl")
  have htext : (listing ["a_b"] "zlib").decl.keyText =
      (listing ["a", "b"] "musl").decl.keyText := by
    decide
  have hpath : (listing ["a", "b"] "musl").entryPath emptyStore =
      (listing ["a_b"] "zlib").entryPath emptyStore := by
    unfold entryPath key Decl.key
    rw [htext]
  obtain ⟨f', store', hcall, -⟩ :=
    fetch_listing hf (hf.due_of_none false) (startable_emptyStore _)
  have hloaded := fetch_of_same_entry hpath (by decide) (hf.due_of_none false) hcall
  have hshared := Shared.left false (Shared.start : Shared (listing ["a_b"] "zlib")
    (listing ["a", "b"] "musl") emptyStore _ _ _ _ _)
  rw [hcall] at hshared
  have hrecorded := hall _ _ _ (by decide) hreadyF.writable hreadyG.writable hf.held hg.held
    (fun h => absurd htext h) _ _ _ _ _ hshared false _ _ hloaded
  rw [recorded_of_calls_eq (by rw [hloaded]; rfl)] at hrecorded
  cases hrecorded

/-- After a call for `a_b`, the fetcher for `a` and `b` has what that call has found, and the
fetcher for `c` has its own package. -/
theorem isolated_by_pieces_listing :
    ∃ f' store', (listing ["a_b"] "zlib").fetch emptyStore true = (f', store', .ok ()) ∧
      f'.packages.map (·.name.name) = ["zlib"] ∧
      (∃ g' store'', (listing ["a", "b"] "musl").fetch store' false = (g', store'', .ok ()) ∧
        g'.packages = f'.packages) ∧
      (∃ g' store'', (listing ["c"] "curl").fetch store' false = (g', store'', .ok ()) ∧
        g'.packages.map (·.name.name) = ["curl"] ∧
        (listing ["c"] "curl").recorded store' false none = some g'.packages) := by
  have hf := emptyStore_coherent (listing ["a_b"] "zlib")
  have hc := emptyStore_coherent (listing ["c"] "curl")
  obtain ⟨f', store', hcall, hnames⟩ :=
    fetch_listing hf (hf.due_of_none true) (startable_emptyStore _)
  obtain ⟨g', store'', hserved, hsame, -⟩ :=
    (@isolated_by_pieces _ (listing ["a", "b"] "musl") _ fun h => absurd (by decide) h).2
      (by decide) (by decide) true f' store' (hf.due_of_none true) hcall
  have hkey : (listing ["a_b"] "zlib").key ≠ (listing ["c"] "curl").key := by decide +kernel
  have hshared := Shared.left true (Shared.start : Shared (listing ["a_b"] "zlib")
    (listing ["c"] "curl") emptyStore _ _ _ _ _)
  have hc' := hc.drift (hc.drift_other hkey true)
  have hstart := (startable_fetch_iff (listing ["a_b"] "zlib") _ emptyStore true).2
    (startable_emptyStore (listing ["c"] "curl"))
  rw [hcall] at hshared hc' hstart
  obtain ⟨-, hown⟩ := (isolated_by_pieces fun _ => hkey).1 (by decide)
    (emptyStore_absent _) (emptyStore_absent _) _ _ _ _ _ hshared
  obtain ⟨c', storeC, hcallC, hnamesC⟩ := fetch_listing hc' (hc'.due_of_none false) hstart
  exact ⟨f', store', hcall, hnames, ⟨g', store'', hserved, hsame⟩,
    ⟨c', storeC, hcallC, hnamesC, hown _ _ _ hcallC⟩⟩

end Fetcher

end Depot.Fetch
