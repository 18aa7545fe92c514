import Depot.Directive
import Depot.Package.Metadata
import Depot.Package.Name

/-!
# Package records

What a source says about one package. A record answers to its own name and to every alias.
-/

namespace Depot

namespace Package

/-- Where the contents of a package come from. -/
inductive Downloader where
  /-- A plain download, with the size that it has to have. -/
  | http (url : String) (expectedSize : Option UInt64)
  /-- Contents that another fetcher serves. -/
  | content (fetcher url : String)
  deriving DecidableEq, Repr

/-- The address of a download. -/
def Downloader.url : Downloader → String
  | .http url _ => url
  | .content _ url => url

end Package

/-- One package as its source describes it. -/
structure Package where
  name : Package.Name := .empty
  description : String := ""
  license : String := ""
  size : UInt64 := 0
  installedSize : UInt64 := 0
  downloadUrls : List String := []
  downloaders : List Package.Downloader := []
  metadata : Package.Metadata := .empty
  /-- Groups of alternatives, each in the order of preference; every group needs one of its own. -/
  depends : List (List Package.Name) := []
  /-- Groups like those of `depends`; none of them may be installed together with the package. -/
  conflicts : List (List Package.Name) := []
  aliases : List Package.Name := []
  directives : List Directive := []
  deriving DecidableEq, Repr, Inhabited

namespace Package

/-- The text that identifies a package in an index. -/
def id (p : Package) : String := p.name.display

/-- The name of the package and then its aliases. -/
def names (p : Package) : List Name := p.name :: p.aliases

/-- Does the name or an alias satisfy the query? -/
def satisfies (p : Package) (query : Name) : Bool := p.names.any (·.satisfies query)

/-- The first downloader, or else a plain download of the first address, with the size of the
package unless that is zero. -/
def preferredDownloader? (p : Package) : Option Downloader :=
  match p.downloaders, p.downloadUrls with
  | d :: _, _ => some d
  | [], url :: _ => some (.http url (if 0 < p.size then some p.size else none))
  | [], [] => none

end Package

end Depot
