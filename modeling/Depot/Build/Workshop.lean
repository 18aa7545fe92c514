import Depot.Cache
import Depot.Digest
import Depot.Web

/-!
# Workshops

A workshop keeps artifacts, files in one directory that are named by the digest of a tag. Beside
each artifact lies a file with its tag; while an artifact is written, it is in a temporary file. The
workshop remembers how the last request for every tag ended, which artifacts it holds in memory
only, and in a journal what was done. It also knows the lists of servers that a `mirror://` address
stands for.
-/

namespace Depot.Build

/-- How a request was met: by work, or with what was there. -/
inductive State where
  | built
  | cached
  deriving DecidableEq, Repr, Inhabited

/-- The name of a state. -/
def State.name : State → String
  | .built => "Built"
  | .cached => "Cached"

/-- How the last request for a tag ended. -/
structure Status where
  state : State
  /-- The tags of the requests made on the way. -/
  children : List String := []
  deriving DecidableEq, Repr, Inhabited

/-- A line of the journal. -/
inductive Event where
  /-- A definition wrote something down. -/
  | note (text : String)
  /-- The work for a tag began. -/
  | started (tag : String)
  /-- An artifact took its place. -/
  | published (tag : String) (bytes : ByteArray)

end Depot.Build

namespace Depot

open Build

/-- A place where artifacts are built and kept. -/
structure Workshop where
  site : Site := {}
  directory : String
  algorithm : Algorithm := .sha256
  /-- The addresses that the name of a mirror stands for. -/
  mirrors : Table String (List String) := {}
  /-- The artifacts in memory, by the digest of their tag. -/
  memory : Table String ByteArray := {}
  statuses : Table String Status := {}
  journal : List Event := []

namespace Workshop

/-- The files that the workshop works on. -/
def files (s : Workshop) : Files := s.site.files

/-- The workshop with other files. -/
def withFiles (s : Workshop) (files : Files) : Workshop := { s with site := { s.site with files } }

/-- Creates the directory of the artifacts, unless something is there. -/
def create (s : Workshop) : Outcome Workshop :=
  if s.files.has s.directory then .ok s
  else ((s.files.makeDir s.directory).map s.withFiles).mapError .ofPath

/-- Lets a name stand for some addresses. -/
def addMirror (s : Workshop) (name : String) (urls : List String) : Workshop :=
  { s with mirrors := s.mirrors.insert name urls }

/-! ## Paths -/

/-- The digest of a tag. -/
def digest (s : Workshop) (tag : String) : String := Digest.ofText s.algorithm tag

/-- The path of an artifact. -/
def outputPath (s : Workshop) (tag : String) : String :=
  Files.join s.directory (s.digest tag ++ ".bin")

/-- Where an artifact is written until it is complete. -/
def temporaryPath (s : Workshop) (tag : String) : String :=
  Files.join s.directory (s.digest tag ++ ".bin.tmp")

/-- The path of the file that holds the tag itself. -/
def tagPath (s : Workshop) (tag : String) : String :=
  Files.join s.directory (s.digest tag ++ ".def")

/-- The age of an artifact, if there is one. -/
def age? (s : Workshop) (tag : String) : Option Int := s.files.age? (s.outputPath tag)

/-! ## Keeping record -/

/-- Adds a line to the journal. -/
def log (s : Workshop) (e : Event) : Workshop := { s with journal := s.journal ++ [e] }

/-- Remembers how a request ended. -/
def record (s : Workshop) (tag : String) (status : Status) : Workshop :=
  { s with statuses := s.statuses.insert tag status }

/-- Writes the tag beside its artifact, if that can be done. -/
def writeTag (s : Workshop) (tag : String) : Workshop :=
  match s.files.write (s.tagPath tag) tag.toUTF8 with
  | .ok files => s.withFiles files
  | .error _ => s

/-- Removes the temporary file of a tag, if there is one. -/
def discardTemporary (s : Workshop) (tag : String) : Workshop :=
  s.withFiles (Cache.discard s.files (s.temporaryPath tag))

/-! ## Addresses -/

/-- What follows the name of a mirror in the text of an address. -/
def behindName (name url : String) : String :=
  match ("mirror://" ++ name).toList.isPrefixOf? url.toList with
  | some rest => String.ofList rest
  | none => ""

/-- The addresses that an address stands for: one for each address of its mirror, or itself. -/
def urlsFor (s : Workshop) (url : String) : Outcome (List String) :=
  match Url.parse url with
  | .error e => .error (.parse ("invalid url " ++ url ++ ": " ++ e.message))
  | .ok parsed =>
    if parsed.scheme = "mirror" then
      match s.mirrors.get? parsed.host with
      | none => .error (.notFound ("mirror " ++ parsed.host ++ " not defined"))
      | some bases => .ok (bases.map fun base => base ++ behindName parsed.host url)
    else .ok [url]

end Workshop

end Depot
