import Depot.Failure
import Depot.Files
import Depot.Json.Reader
import Depot.Text.Blank
import Depot.Text.Utf8

/-!
# The object cache

An entry of the cache is a file named by its key and version, with one JSON value on each line. An
entry younger than an expiry is used as it is. Any other one is produced anew: into a temporary file
beside it, which takes the place of the entry only when everything has been written.
-/

namespace Depot

/-- A failure of the file system. -/
def Failure.ofPath (e : PathError) : Failure := .io e.message

/-- A cache, by the directory that holds it. -/
structure Cache where
  root : String
  deriving DecidableEq, Repr

namespace Cache

/-- The directory of the entries. -/
def directory (c : Cache) : String := Files.join c.root "managed"

/-- Creates the directory of the entries. -/
def create (c : Cache) (fs : Files) : Outcome Files :=
  (fs.makeDir c.directory).mapError .ofPath

/-- The path of an entry. -/
def entryPath (c : Cache) (key : String) (version : Nat) : String :=
  Files.join c.directory (key ++ "_" ++ toString version ++ ".bin")

/-- Where an entry is written until it is complete. -/
def temporary (path : String) : String := path ++ ".tmp"

/-- Is there something at the path that is younger than `expire` seconds and not from the future? -/
def isFresh (fs : Files) (path : String) (expire : Nat) : Bool :=
  match fs.age? path with
  | some age => 0 ≤ age && age < expire
  | none => false

/-- The files without a file that may not be there. -/
def discard (fs : Files) (path : String) : Files :=
  match fs.remove path with
  | .ok fs => fs
  | .error _ => fs

/-- What producing an entry gives: the bytes written, whether that went well, and a report. -/
structure Produced (α : Type) where
  bytes : ByteArray
  result : Outcome Unit
  report : α

/-- What opening an entry gives: the files after it, the report if the entry had to be produced, and
the bytes of the entry. -/
structure Opened (α : Type) where
  files : Files
  report : Option α
  contents : Outcome ByteArray

/-- Puts what was produced in the place of an entry. -/
def publish (fs : Files) (path : String) (bytes : ByteArray) : Except PathError Files := do
  (← fs.write (temporary path) bytes).rename (temporary path) path

/-- The bytes of an entry, which is produced if it is not fresh. -/
def openEntry (fs : Files) (path : String) (expire : Nat) (produce : Files → Produced α) :
    Opened α :=
  if isFresh fs path expire then ⟨fs, none, (fs.read path).mapError .ofPath⟩
  else
    match fs.write (temporary path) .empty with
    | .error e => ⟨discard fs (temporary path), none, .error (.ofPath e)⟩
    | .ok started =>
      let produced := produce started
      match produced.result with
      | .error e => ⟨discard started (temporary path), some produced.report, .error e⟩
      | .ok () =>
        match publish started path produced.bytes with
        | .error e => ⟨discard started (temporary path), some produced.report, .error (.ofPath e)⟩
        | .ok done => ⟨done, some produced.report, (done.read path).mapError .ofPath⟩

/-! ## Lines of an entry -/

/-- The text of an entry with these values, one on each line. -/
def linesOf (texts : List String) : String :=
  texts.foldl (fun whole text => whole ++ text ++ "\n") ""

/-- The value on a line, unless the line is blank. -/
def readLine (decode : Json → Option α) (line : List UInt8) : Outcome (Option α) :=
  match Text.ofUtf8? line with
  | none => .error (.ofPath .notText)
  | some text =>
    if Text.allBlank text.toList then .ok none
    else
      match (Json.parse? text).bind decode with
      | none => .error .json
      | some v => .ok (some v)

/-- Hands the values on some lines to `take`, until one cannot be read or is refused. -/
def readLines (decode : Json → Option α) (take : σ → α → Outcome σ) :
    σ → List (List UInt8) → σ × Outcome Unit
  | s, [] => (s, .ok ())
  | s, line :: rest =>
    match readLine decode line with
    | .error e => (s, .error e)
    | .ok none => readLines decode take s rest
    | .ok (some v) =>
      match take s v with
      | .error e => (s, .error e)
      | .ok s => readLines decode take s rest

/-- Hands the values of an opened entry to `take`. -/
def readObjects (decode : Json → Option α) (take : σ → α → Outcome σ) (start : σ)
    (contents : Outcome ByteArray) : σ × Outcome Unit :=
  match contents with
  | .error e => (start, .error e)
  | .ok bytes => readLines decode take start (Text.lineBytes bytes)

end Cache

end Depot
