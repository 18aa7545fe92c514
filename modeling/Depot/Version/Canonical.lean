import Depot.Version.Semantic

/-!
# Canonical form of a distribution's version

Many distribution versions are semantic versions but for their dress. `canonical` drops the leading
marks `<`, `>`, `~` and one `v`; a text that is semantic then is its own canonical form. Otherwise a
part after an underscore and a single trailing lower-case letter move into the build part, leading
zeros go, missing components become `0` and components after the third join the build part, and the
result is kept if it is a semantic version.
-/

namespace Depot.Version

/-- Why a version has no canonical form. -/
inductive NotCanonical where
  /-- Nothing is left before the build part. -/
  | empty (text : String)
  /-- The assembled text is no semantic version either. -/
  | notSemantic (text assembled : String)
  deriving DecidableEq, Repr

namespace NotCanonical

/-- The wording of a rejection. -/
def message : NotCanonical → String
  | .empty text => "could not canonicalize: " ++ text
  | .notSemantic text assembled =>
    "could not canonicalize: old=" ++ text ++ " new=" ++ assembled

end NotCanonical

/-- Without leading comparison marks and without one `v` after them. -/
def undress (s : List Char) : List Char :=
  match s.dropWhile (fun c => c == '<' || c == '>' || c == '~') with
  | 'v' :: rest => rest
  | rest => rest

/-- Without leading zeros, but never empty. -/
def stripZeros (s : List Char) : List Char :=
  match s.dropWhile (· == '0') with
  | [] => ['0']
  | rest => rest

/-- Moves a trailing lower-case letter in front of the build part. -/
def moveLetter (front build : List Char) : List Char × List Char :=
  match front.getLast? with
  | some c => if c.isLower then (front.dropLast, c :: build) else (front, build)
  | none => (front, build)

/-- The components before the build part: stripped, and at least three of them. -/
def components (front : List Char) : List (List Char) :=
  let parts := (front.splitOn '.').map stripZeros
  parts ++ List.replicate (3 - parts.length) ['0']

/-- The build part with the components after the third. -/
def extendBuild (build : List Char) (extra : List (List Char)) : List Char :=
  match extra with
  | [] => build
  | _ => if build.isEmpty then ['.'].intercalate extra else build ++ '.' :: ['.'].intercalate extra

/-- Three components, a build part with what is left over, joined. -/
def assemble (front build : List Char) : List Char :=
  let parts := components front
  let numbers := ['.'].intercalate (parts.take 3)
  match extendBuild build (parts.drop 3) with
  | [] => numbers
  | build => numbers ++ '+' :: build

/-- The semantic version that a distribution's version stands for. -/
def canonical (text : String) : Except NotCanonical String :=
  let bare := undress text.toList
  if (Semantic.parse? bare).isSome then .ok (String.ofList bare)
  else
    let (front, build) := Semantic.cut '_' bare
    let (front, build) := moveLetter front (build.getD [])
    if front.isEmpty then .error (.empty text)
    else
      let assembled := assemble front build
      if (Semantic.parse? assembled).isSome then .ok (String.ofList assembled)
      else .error (.notSemantic text (String.ofList assembled))

end Depot.Version
