import Depot.Cache
import Depot.Proofs.Package.RoundTrip
import Depot.Proofs.Text.Lines

/-!
# Records in an entry

An entry that was written with one record for each package is read back as the same packages, in
the same order, whoever takes them (`readObjects_handOver`). Where a record ends is told by the
bytes alone, because the text of a record is one line that is not blank.
-/

namespace Depot

theorem Package.control_free_text (p : Package) : ∀ c ∈ p.text.toList, 32 ≤ c.toNat := by
  have h := Json.control_free_render p.toJson p.printable_toJson
  simpa [Package.text, Json.text] using h

theorem Package.newline_not_mem_text (p : Package) : '\n' ∉ p.text.toList :=
  fun h => absurd (p.control_free_text _ h) (by decide)

theorem Package.not_allBlank_text (p : Package) : Text.allBlank p.text.toList = false := by
  simp [Package.text, Json.text, Package.toJson, Json.render, Text.allBlank, Text.isBlank]

namespace Cache

theorem bytes_linesOf (texts : List String) :
    Text.bytes (linesOf texts) = (texts.map Text.bytes).flatMap fun line => line ++ [10] := by
  have hnewline : Text.bytes "\n" = [10] := rfl
  have hfold (whole : String) :
      Text.bytes (texts.foldl (fun whole text => whole ++ text ++ "\n") whole) =
        Text.bytes whole ++ (texts.map Text.bytes).flatMap fun line => line ++ [10] := by
    induction texts generalizing whole with
    | nil => simp
    | cons text rest ih => simp [ih, Text.bytes_append, hnewline]
  exact hfold ""

theorem readLine_text (p : Package) :
    readLine Package.ofJson? (Text.bytes p.text) = .ok (some p) := by
  have hparse : (Json.parse? p.text).bind Package.ofJson? = some p := p.ofText?_text
  simp [readLine, Text.ofUtf8?_bytes, p.not_allBlank_text, hparse]

theorem readLine_nil (decode : Json → Option Package) : readLine decode [] = .ok none := by
  have hnil : Text.ofUtf8? [] = some "" := Text.ofUtf8?_bytes ""
  simp [readLine, hnil, Text.allBlank]

/-- Hands values to `take` one after the other, until one is refused. -/
def handOver {σ α : Type} (take : σ → α → Outcome σ) : σ → List α → σ × Outcome Unit
  | s, [] => (s, .ok ())
  | s, v :: rest =>
    match take s v with
    | .error e => (s, .error e)
    | .ok s => handOver take s rest

theorem handOver_collect {α : Type} (values before : List α) :
    handOver (fun l v => .ok (l ++ [v])) before values = (before ++ values, .ok ()) := by
  induction values generalizing before with
  | nil => simp [handOver]
  | cons v rest ih => simp [handOver, ih]

section

variable {σ : Type} (take : σ → Package → Outcome σ) (packages : List Package)

theorem readLines_records (s : σ) :
    readLines Package.ofJson? take s (packages.map (fun p => Text.bytes p.text) ++ [[]]) =
      handOver take s packages := by
  induction packages generalizing s with
  | nil => simp [readLines, readLine_nil, handOver]
  | cons p rest ih =>
    simp only [List.map_cons, List.cons_append, readLines, readLine_text, handOver]
    cases take s p with
    | error e => rfl
    | ok t => exact ih t

theorem readObjects_handOver (s : σ) :
    readObjects Package.ofJson? take s (.ok (linesOf (packages.map Package.text)).toUTF8) =
      handOver take s packages := by
  have hlines : Text.lineBytes (linesOf (packages.map Package.text)).toUTF8 =
      packages.map (fun p => Text.bytes p.text) ++ [[]] := by
    show (Text.bytes (linesOf (packages.map Package.text))).splitOn 10 = _
    rw [bytes_linesOf, List.map_map, Text.splitOn_flatMap_lines]
    · rfl
    · intro line hline
      obtain ⟨p, -, rfl⟩ := List.mem_map.1 hline
      exact Text.newline_not_mem_bytes p.newline_not_mem_text
  simp only [readObjects, hlines, readLines_records]

/-- What is read from an entry is what was written to it. -/
theorem readObjects_records :
    readObjects Package.ofJson? (fun ps p => .ok (ps ++ [p])) []
      (.ok (linesOf (packages.map Package.text)).toUTF8) = (packages, .ok ()) := by
  rw [readObjects_handOver, handOver_collect, List.nil_append]

end

end Cache

end Depot
