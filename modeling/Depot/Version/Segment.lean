import Depot.Text.Decimal

/-!
# Segments of a version text

A version text is cut into its maximal runs of ASCII digits and of ASCII letters; everything else
only separates (`runs`). A run of digits that fits a 64-bit word counts as a number, any other run
as text (`Segment.ofRun`). Two texts are compared run by run (`compareSegments`): numbers by value,
texts by their characters, a number above a text, and when one list of runs starts the other the
shorter one is below.
-/

namespace Depot.Version

/-- The two kinds of character that a segment can hold. -/
inductive Kind where
  | digit
  | letter
  deriving DecidableEq, Repr

/-- The kind of an ASCII digit or letter; other characters separate segments. -/
def kind? (c : Char) : Option Kind :=
  if c.isDigit then some .digit else if c.isAlpha then some .letter else none

/-- The maximal runs of characters of one kind, in order. -/
def runs (s : List Char) : List (List Char) :=
  match s with
  | [] => []
  | c :: rest =>
    match kind? c with
    | none => runs rest
    | some k =>
      (c :: rest.takeWhile (kind? · == some k)) :: runs (rest.dropWhile (kind? · == some k))
termination_by s.length
decreasing_by
  · simp
  · have := (List.dropWhile_sublist (l := rest) (kind? · == some k)).length_le
    simp only [List.length_cons]
    omega

/-- A segment as it counts in a comparison. -/
inductive Segment where
  | number (n : Nat)
  | text (s : List Char)
  deriving DecidableEq, Repr

namespace Segment

/-- A run of digits that fits a 64-bit word is a number. -/
def ofRun (run : List Char) : Segment :=
  match Text.Decimal.word? run with
  | some n => .number n
  | none => .text run

/-- Numbers by value, texts by their characters, and every number above every text. -/
def compare : Segment → Segment → Ordering
  | .number m, .number n => Ord.compare m n
  | .number _, .text _ => .gt
  | .text _, .number _ => .lt
  | .text s, .text t => List.compareLex Ord.compare s t

end Segment

/-- The segments of a version text, in order. -/
def segments (s : String) : List Segment := (runs s.toList).map Segment.ofRun

/-- Segment by segment; when one list starts the other, the shorter is below. -/
def compareSegments (s t : String) : Ordering :=
  List.compareLex Segment.compare (segments s) (segments t)

end Depot.Version
