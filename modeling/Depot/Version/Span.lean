import Depot.Version.Segment

/-!
# Where the segments of a version text are

One pass over a text finds the places of its segments (`spans`). All that it remembers is the
segment that it is in, by its start and its kind. A separator ends that segment, a character of the
other kind ends it and starts the next one, and the end of the text ends the last one. Places are
counted in bytes, so that a text can be taken out only between two of its characters (`Span.text?`).
-/

namespace Depot.Version

/-- A part of a text, from one byte up to another. -/
structure Span where
  start : Nat
  stop : Nat
  deriving DecidableEq, Repr

/-- The text at a span. There is none unless both ends are boundaries of characters, in this
order. -/
def Span.text? (s : String) (p : Span) : Option String :=
  if h : (⟨p.start⟩ : String.Pos.Raw).IsValid s ∧ (⟨p.stop⟩ : String.Pos.Raw).IsValid s ∧
      p.start ≤ p.stop then
    some (s.extract (s.pos ⟨p.start⟩ h.1) (s.pos ⟨p.stop⟩ h.2.1))
  else none

/-- A segment that has started and not ended yet. -/
structure Pending where
  start : Nat
  kind : Kind

/-- The spans that end in the characters from a place on, the pending one first. -/
def spansFrom : (pending : Option Pending) → (place : Nat) → List Char → List Span
  | none, _, [] => []
  | some segment, place, [] => [⟨segment.start, place⟩]
  | pending, place, c :: rest =>
    let next := place + c.utf8Size
    match pending, kind? c with
    | none, none => spansFrom none next rest
    | none, some k => spansFrom (some ⟨place, k⟩) next rest
    | some segment, none => ⟨segment.start, place⟩ :: spansFrom none next rest
    | some segment, some k =>
      if k = segment.kind then spansFrom (some segment) next rest
      else ⟨segment.start, place⟩ :: spansFrom (some ⟨place, k⟩) next rest

/-- The spans of the segments of a text, in order. -/
def spans (s : String) : List Span := spansFrom none 0 s.toList

end Depot.Version
