import Depot.Files
import Depot.Table
import Depot.Url

/-!
# The web

What web servers answer, by the address that is asked. Requests are plain or encrypted ones: any
other scheme is as good as a connection that breaks, and so is every request while no server can be
reached.
-/

namespace Depot

/-- What comes back from a request. -/
inductive Answer where
  | dropped
  | answered (status : Nat) (body : ByteArray)
  /-- The connection breaks in the middle of the body. -/
  | cut (status : Nat) (body : ByteArray)

/-- The answers, by the text of the request. -/
structure Web where
  answers : Table String Answer := {}
  /-- Can servers be reached? -/
  online : Bool := true

namespace Web

/-- Asks for an address. A plain one that nobody serves is not found; behind an encrypted one there
is nobody then. -/
def get (w : Web) (address : String) : Answer :=
  match Url.parse address with
  | .error _ => .dropped
  | .ok url =>
    if !w.online then .dropped
    else if url.scheme = "http" then
      (w.answers.get? url.requestText).getD (.answered 404 .empty)
    else if url.scheme = "https" then (w.answers.get? url.requestText).getD .dropped
    else .dropped

end Web

/-- Everything around the library: files and the web. -/
structure Site where
  files : Files := {}
  web : Web := {}

end Depot
