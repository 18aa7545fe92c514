import Depot.Build.Run
import Depot.Package.Record

/-!
# Definitions at hand

Fixed contents, downloads, and the contents of packages. A download tries the addresses that its own
one stands for in order and takes the first that is there. If none is, a stale artifact is kept as
long as any of them failed for another reason than not being found.
-/

namespace Depot.Build

namespace Definition

/-- Fixed bytes under a name, which are never stale. -/
def static (name : String) (bytes : ByteArray) : Definition :=
  .mk ("static:" ++ name ++ ":" ++ Digest.ofBytes .sha256 bytes) (fun _ => .answer false)
    (.finish (some (.ofBytes bytes)))

end Definition

namespace Download

/-- What asking one address gives. -/
inductive Reply where
  /-- It is there, and these bytes can be read, up to a failure that may follow them. -/
  | found (bytes : ByteArray) (broken : Option Failure)
  | notFound
  | failed

/-- The bytes from an address, if they have the expected size. -/
def sized (url : String) (expected : Option UInt64) (bytes : ByteArray) : Product :=
  match expected with
  | none => .ofBytes bytes
  | some n =>
    if n.toNat = bytes.size then .ofBytes bytes
    else
      { bytes
        failure := some <| .download <|
          "size mismatch for " ++ url ++ ": expected " ++ toString n ++ " bytes, got " ++
            toString bytes.size }

/-- The bytes from an address as a product. Their size counts only if all of them could be read. -/
def productOf (url : String) (expected : Option UInt64) (bytes : ByteArray) :
    (broken : Option Failure) → Product
  | some e => { bytes, failure := some e }
  | none => sized url expected bytes

/-- Does a path lead to the temporary file of a request? -/
def isTemporary (files : Files) (temporary : Option String) (path : String) : Bool :=
  match temporary with
  | none => false
  | some place =>
    match files.locate place, files.locate path with
    | .ok p, .ok q => p == q
    | _, _ => false

/-- Asks for a file. A directory can be opened, but nothing can be read from it. The temporary file
of the request itself has been created anew, and so is empty, before anything is read from it. -/
def askFile (files : Files) (temporary : Option String) (path : String) : Reply :=
  match files.lookup path with
  | .ok (.file bytes _) =>
    .found (if isTemporary files temporary path then .empty else bytes) none
  | .ok (.dir _) => .found .empty (some (.ofPath .isDirectory))
  | .error .missing => .notFound
  | .error _ => .failed

/-- What is said of a body that breaks off. -/
def brokenBody : Failure := .io "request or response body error"

/-- Asks one address, for a request with some temporary file. -/
def ask (site : Site) (temporary : Option String) (url : String) : Reply :=
  match "file://".toList.isPrefixOf? url.toList with
  | some path => askFile site.files temporary (String.ofList path)
  | none =>
    match site.web.get url with
    | .answered 200 body => .found body none
    | .cut 200 body => .found body (some brokenBody)
    | .answered 404 _ => .notFound
    | .cut 404 _ => .notFound
    | _ => .failed

/-- Ends a download without a product: `anyFailed` says whether an address failed for another reason
than not being found. -/
def giveUp (url : String) (anyFailed hasCached : Bool) : Work :=
  if !anyFailed then .fail (.download ("HTTP 404: Not Found " ++ url))
  else if hasCached then .finish none
  else .fail (.download ("unable to find options to fetch " ++ url))

/-- Asks addresses in their order, up to the first one at which something is. -/
def tryAll (site : Site) (c : Context) (expected : Option UInt64) (url : String) :
    (anyFailed : Bool) → List String → Work
  | anyFailed, [] => giveUp url anyFailed c.hasCached
  | anyFailed, u :: rest =>
    match ask site c.temporary u with
    | .found bytes broken => .finish (some (productOf u expected bytes broken))
    | .notFound => tryAll site c expected url anyFailed rest
    | .failed => tryAll site c expected url true rest

/-- Is an artifact of some age stale? The clock has always gone on a little since its last full
second. -/
def isStale (expire : Option Nat) (age : Int) : Bool :=
  match expire with
  | none => false
  | some seconds => decide ((seconds : Int) ≤ age)

end Download

namespace Definition

/-- A download, which is stale after `expire` seconds and has to have the expected size. -/
def download (url : String) (expire : Option Nat) (expected : Option UInt64) : Definition :=
  .mk url (fun age => .answer (Download.isStale expire age)) <|
    .look fun c s =>
      match s.urlsFor url with
      | .error e => .fail e
      | .ok urls => Download.tryAll s.site c expected url false urls

/-- The contents of a package from its preferred downloader. -/
def contentsOf (p : Package) : Outcome Definition :=
  match p.preferredDownloader? with
  | none => .error (.notFound ("package " ++ p.name.display ++ " has no downloaders"))
  | some (.http url expected) => .ok (download url none expected)
  | some (.content _ url) => .ok (download url none none)

end Definition

/-- Builds definitions one after the other, up to the first failure. -/
def buildAll : List Definition → Workshop → Workshop × Outcome (List String)
  | [], s => (s, .ok [])
  | d :: rest, s =>
    match d.build false s with
    | (s, .error e) => (s, .error e)
    | (s, .ok path) =>
      let (s, paths) := buildAll rest s
      (s, paths.map (path :: ·))

/-- The paths of the contents of packages. Nothing is built unless all of them have a downloader. -/
def fetchContents (packages : List Package) (s : Workshop) : Workshop × Outcome (List String) :=
  match packages.mapM Definition.contentsOf with
  | .error e => (s, .error e)
  | .ok definitions => buildAll definitions s

end Depot.Build
