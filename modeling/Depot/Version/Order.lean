import Depot.Version.Canonical
import Depot.Version.Segment

/-!
# The order of versions

A version is its text. When both texts have a canonical form without a pre-release part they are
compared as releases: by the three numbers and then by the segments of the build part. Otherwise the
two texts are compared segment by segment. A suffix after a hyphen is a distribution's release and
no pre-release, which is why such a text never counts as a release here.
-/

namespace Depot

/-- The version of a package, as its distribution writes it. -/
structure Version where
  text : String
  deriving Repr

namespace Version

/-- A semantic version without a pre-release part, as far as the order looks at it. -/
structure Release where
  major : Nat
  minor : Nat
  patch : Nat
  build : String
  deriving DecidableEq, Repr

/-- By the three numbers, then by the segments of the build part. -/
def Release.compare (a b : Release) : Ordering :=
  (Ord.compare a.major b.major).then <|
    (Ord.compare a.minor b.minor).then <|
      (Ord.compare a.patch b.patch).then <| compareSegments a.build b.build

/-- The release that a version stands for, when its canonical form has no pre-release part. -/
def release? (v : Version) : Option Release :=
  match canonical v.text with
  | .error _ => none
  | .ok text =>
    match Semantic.parse? text.toList with
    | none => none
    | some s => if s.pre.isEmpty then some ⟨s.major, s.minor, s.patch, s.build⟩ else none

/-- As releases when both are, else segment by segment. -/
def compare (a b : Version) : Ordering :=
  match a.release?, b.release? with
  | some r, some s => r.compare s
  | _, _ => compareSegments a.text b.text

instance : Ord Version := ⟨compare⟩

/-- Versions are equal when neither is above the other; their texts may differ. -/
instance : BEq Version := ⟨fun a b => a.compare b == .eq⟩

/-- The greatest version in a fold from the left that keeps the later of two equal ones. -/
def max? : List Version → Option Version
  | [] => none
  | v :: vs => some (vs.foldl (fun best w => if best.compare w == .gt then best else w) v)

end Version

end Depot
