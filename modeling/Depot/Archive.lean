import Depot.Cache
import Depot.Package.Json
import Depot.Table

/-!
# The archive

A second store of package records, filed under the path of a package's name. Every fetch that goes
well files its packages there; a package with the same path takes the place of an older one.
-/

namespace Depot

/-- Records by the text of their path. -/
structure Archive where
  records : Table String String := {}

namespace Archive

/-- The text under which a package is filed. -/
def pathOf (p : Package) : String := "/".intercalate p.name.path

/-- Files some packages. -/
def putAll (a : Archive) (packages : List Package) : Archive :=
  ⟨packages.foldl (fun t p => t.insert (pathOf p) p.text) a.records⟩

/-- The package filed under a path. -/
def get (a : Archive) (path : String) : Outcome (Option Package) :=
  match a.records.get? path with
  | none => .ok none
  | some text =>
    match Package.ofText? text with
    | some p => .ok (some p)
    | none => .error .json

/-- The number of packages. -/
def size (a : Archive) : Nat := a.records.entries.length

/-- The first bytes of a database file. -/
def header : ByteArray := "SQLite format 3\x00".toUTF8

/-- Why a file cannot be opened at all. -/
def unopened (path : String) : Failure := .database ("unable to open database file: " ++ path)

/-- Starts a new archive in a file. -/
def create (fs : Files) (path : String) : Outcome (Files × Archive) :=
  match fs.write path header with
  | .ok fs => .ok (fs, {})
  | .error _ => .error (unopened path)

/-- Opens the archive of a file, which is created if it is missing. The file has to be one that
holds nothing or starts like a database; `:memory:` and the empty path need no file. -/
def openFile (fs : Files) (path : String) : Outcome (Files × Archive) :=
  if path = ":memory:" ∨ path = "" then .ok (fs, {})
  else
    match fs.read path with
    | .ok bytes =>
      if bytes.size = 0 then create fs path
      else if bytes.extract 0 header.size == header then .ok (fs, {})
      else .error (.database "file is not a database")
    | .error .missing => create fs path
    | .error _ => .error (unopened path)

end Archive

end Depot
