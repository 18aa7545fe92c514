import Depot.Package.Json
import Depot.Proofs.Json.RoundTrip

/-!
# Reading package records back

A record is written as one line and reads back as the same package, in every field
(`ofText?_text`): each part of a record is read back by its own reader (`ofJson?_toJson` of names,
downloaders, directives and metadata), and a whole record is a value that the printer writes as it
is (`printable_toJson`).
-/

namespace Depot

namespace Json

/-! ## Readers of lists and words -/

theorem listOf?_map {α : Type} {f : α → Json} {read : Json → Option α}
    (h : ∀ a, read (f a) = some a) (l : List α) : listOf? read (.array (l.map f)) = some l :=
  mapM_map_some h l

theorem listOf?_ofStrings (l : List String) : listOf? string? (.ofStrings l) = some l :=
  listOf?_map (f := Json.string) (fun _ => rfl) l

theorem printable_ofStrings (l : List String) : (Json.ofStrings l).Printable := by
  simp [Json.ofStrings]

theorem word64?_toNat (n : UInt64) : word64? (.integer n.toNat) = some n := by
  show (if n.toNat < UInt64.size then some n.toNat else none).map UInt64.ofNat = some n
  rw [if_pos n.toNat_lt_size, Option.map_some, UInt64.ofNat_toNat]

theorem word16?_toNat (n : UInt16) : word16? (.integer n.toNat) = some n := by
  show (if n.toNat < UInt16.size then some n.toNat else none).map UInt16.ofNat = some n
  rw [if_pos n.toNat_lt_size, Option.map_some, UInt16.ofNat_toNat]

theorem printable_word64 (n : UInt64) : (Json.integer n.toNat).Printable :=
  printable_natCast_iff.2 n.toNat_lt_size

theorem printable_word16 (n : UInt16) : (Json.integer n.toNat).Printable := by
  have hlt : n.toNat < 2 ^ 16 := n.toNat_lt_size
  have hlimit : 2 ^ 16 ≤ Text.Decimal.wordLimit := by decide
  exact printable_natCast_iff.2 (by omega)

end Json

namespace Package

/-! ## Names -/

theorem Name.ofJson?_toJson (n : Name) : Name.ofJson? n.toJson = some n := by
  obtain ⟨distribution, name, version, architecture, recommended⟩ := n
  cases recommended <;> rfl

theorem Name.printable_toJson (n : Name) : n.toJson.Printable := by
  cases hrecommended : n.recommended <;> simp [Name.toJson, hrecommended]

/-! ## Downloaders -/

theorem printable_sizeJson (size : Option UInt64) : (sizeJson size).Printable := by
  cases size with
  | none => exact .null
  | some n => exact Json.printable_word64 n

theorem nullable?_sizeJson (size : Option UInt64) :
    Json.nullable? Json.word64? (sizeJson size) = some size := by
  cases size with
  | none => rfl
  | some n => exact congrArg (·.map some) (Json.word64?_toNat n)

theorem Downloader.ofJson?_toJson (d : Downloader) :
    Downloader.ofJson? (nestingLimit - 3) d.toJson = some d := by
  cases d with
  | http url size =>
    have hsize := nullable?_sizeJson size
    have husable : Json.usableMembers (nestingLimit - 3)
        [("url", .string url), ("expected_size", sizeJson size)] = true := by
      cases size <;> rfl
    simp [Downloader.ofJson?, Downloader.toJson, Json.tagged?, Json.member?, husable, Json.fields?,
      Json.field, Json.fieldD, Json.string?, hsize]
  | content fetcher url => rfl

theorem Downloader.printable_toJson (d : Downloader) : d.toJson.Printable := by
  cases d <;> simp [Downloader.toJson, printable_sizeJson]

end Package

/-! ## Directives -/

theorem Directive.ofJson?_toJson (d : Directive) :
    Directive.ofJson? (Package.nestingLimit - 3) d.toJson = some d := by
  cases d with
  | baseImage image => rfl
  | runCommand command => rfl
  | environment key value => rfl
  | addFile filename contents executable => rfl
  | exportPort name port =>
    have hport := Json.word16?_toNat port
    have husable : Json.usableMembers (Package.nestingLimit - 3)
        [("name", .string name), ("port", .integer port.toNat)] = true := rfl
    simp [Directive.ofJson?, Directive.toJson, Directive.kind, Json.tagged?, Json.member?, husable,
      Json.fields?, Json.field, Json.string?, hport]

theorem Directive.printable_toJson (d : Directive) : d.toJson.Printable := by
  cases d <;> simp [Directive.toJson, Json.printable_word16, -Json.printable_natCast_iff]

namespace Package

/-! ## Metadata -/

namespace Metadata

theorem insertEntry_of_lt {key value : String} {l : List (String × String)}
    (h : ∀ e ∈ l, e.1 < key) : insertEntry key value l = l ++ [(key, value)] := by
  induction l with
  | nil => rfl
  | cons e rest ih =>
    obtain ⟨k, v⟩ := e
    have hk : k < key := h (k, v) (by simp)
    have hnot : ¬key < k := fun hlt => String.lt_irrefl k (String.lt_trans hk hlt)
    have hne : key ≠ k := by
      rintro rfl
      exact String.lt_irrefl key hk
    simp only [insertEntry, if_neg hnot, if_neg hne, ih fun e he => h e (by simp [he])]
    rfl

/-- Entries with increasing keys are taken in as they are. -/
theorem foldl_insert (l : List (String × String)) (m : Metadata)
    (h : (m.entries ++ l).Pairwise (fun a b => a.1 < b.1)) :
    (l.foldl (fun m (key, value) => m.insert key value) m).entries = m.entries ++ l := by
  induction l generalizing m with
  | nil => simp
  | cons e rest ih =>
    obtain ⟨key, value⟩ := e
    have hlt : ∀ e ∈ m.entries, e.1 < key :=
      fun e he => (List.pairwise_append.1 h).2.2 e he (key, value) (by simp)
    have hentries : (m.insert key value).entries = m.entries ++ [(key, value)] :=
      insertEntry_of_lt hlt
    rw [List.foldl_cons, ih, hentries, List.append_assoc, List.singleton_append]
    rwa [hentries, List.append_assoc, List.singleton_append]

theorem ofList_entries (m : Metadata) : ofList m.entries = m := by
  have h := foldl_insert m.entries empty m.increasing
  obtain ⟨entries, increasing⟩ := m
  unfold ofList
  generalize hm : entries.foldl (fun m (key, value) => m.insert key value) empty = other at h ⊢
  obtain ⟨entries', increasing'⟩ := other
  cases h
  rfl

theorem ofJson?_toJson (m : Metadata) : ofJson? m.toJson = some m := by
  rw [toJson, ofJson?, Json.mapM_map_some]
  · exact congrArg some (ofList_entries m)
  · intro e
    rfl

theorem printable_toJson (m : Metadata) : m.toJson.Printable := by
  simp +contextual [toJson, eq_comm]

end Metadata

/-! ## Packages -/

theorem listOf?_groupsJson (groups : List (List Name)) :
    Json.listOf? (Json.listOf? Name.ofJson?) (groupsJson groups) = some groups :=
  Json.listOf?_map (f := fun group : List Name => .array (group.map Name.toJson))
    (Json.listOf?_map Name.ofJson?_toJson) groups

theorem printable_groupsJson (groups : List (List Name)) : (groupsJson groups).Printable := by
  simp [groupsJson, Name.printable_toJson]

theorem ofJson?_toJson (p : Package) : ofJson? p.toJson = some p := by
  have hfields : Json.fields? fieldNames p.toJson =
      some [some p.name.toJson, some (.string p.description), some (.string p.license),
        some (.integer p.size.toNat), some (.integer p.installedSize.toNat),
        some (.ofStrings p.downloadUrls), some (.array (p.downloaders.map Downloader.toJson)),
        some p.metadata.toJson, some (groupsJson p.depends), some (groupsJson p.conflicts),
        some (.array (p.aliases.map Name.toJson)),
        some (.array (p.directives.map Directive.toJson))] := rfl
  have hdownloaders := Json.listOf?_map Downloader.ofJson?_toJson p.downloaders
  have haliases := Json.listOf?_map Name.ofJson?_toJson p.aliases
  have hdirectives := Json.listOf?_map Directive.ofJson?_toJson p.directives
  simp [ofJson?, hfields, Json.fieldD, Json.string?, Name.ofJson?_toJson, Json.word64?_toNat,
    Json.listOf?_ofStrings, hdownloaders, Metadata.ofJson?_toJson, listOf?_groupsJson, haliases,
    hdirectives]

theorem printable_toJson (p : Package) : p.toJson.Printable := by
  simp [toJson, Name.printable_toJson, Json.printable_word64, Json.printable_ofStrings,
    Downloader.printable_toJson, Metadata.printable_toJson, printable_groupsJson,
    Directive.printable_toJson, -Json.printable_natCast_iff]

/-- Reading a record gives back the package. -/
theorem ofText?_text (p : Package) : ofText? p.text = some p := by
  simp [ofText?, text, Json.parse?_text p.printable_toJson, ofJson?_toJson]

end Package

end Depot
