import Depot.Fetch.Handle
import Depot.Web

/-!
# Sources

The work behind a fetcher. What a source does is a script: a tree of steps on its handle in which
the answer to a step decides how it goes on. A source writes its script from what it can see: the
files and the web, how often it was asked before, its declaration and, in a search, the query. So a
statement about every source is a statement about every such function.
-/

namespace Depot.Fetch

/-- What a source does with its handle. -/
inductive Script where
  /-- Ends well. -/
  | done
  /-- Ends with a failure. -/
  | fail (e : Failure)
  /-- Adds a line to the log. -/
  | line (message : String) (next : Script)
  /-- Counts a condition. -/
  | count (condition : String) (next : Script)
  /-- Promises semantic versions. -/
  | pledge (next : Script)
  /-- Looks at the packages taken so far. -/
  | look (next : List Package → Script)
  /-- Asks for a checked name. -/
  | name (name version architecture : String) (next : Outcome Package.Name → Script)
  /-- Hands a package over. -/
  | add (p : Package) (next : Outcome Unit → Script)

namespace Script

/-- Performs a script on a handle. -/
def run : Script → Handle → Handle × Outcome Unit
  | .done, h => (h, .ok ())
  | .fail e, h => (h, .error e)
  | .line message next, h => next.run (h.line message)
  | .count condition next, h => next.run (h.count condition)
  | .pledge next, h => next.run h.pledge
  | .look next, h => (next h.packages).run h
  | .name n version architecture next, h =>
    (next (h.name n version architecture).2).run (h.name n version architecture).1
  | .add p next, h => (next (h.add p).2).run (h.add p).1

end Script

/-- What a source can see when it is asked. -/
structure Ask where
  site : Site
  /-- How often the source was asked before. -/
  calls : Nat
  decl : Decl

/-- The work behind a fetcher: what it does to load everything, and what it does for one query. -/
structure Source where
  fetch : Ask → Script
  search : Ask → Package.Name → Script := fun ask _ => fetch ask

end Depot.Fetch
