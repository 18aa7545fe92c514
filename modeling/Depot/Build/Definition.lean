import Depot.Build.Workshop

/-!
# Definitions of builds

A definition has a tag, says when its artifact is stale, and knows the work that makes a new one.
Both callbacks are trees of the same steps on the workshop and differ in what they end with. The
answer to a step decides how they go on, so a statement about every definition is a statement about
every such tree. A definition may ask for other definitions on the way; the trees are finite, so
such requests end.
-/

namespace Depot.Build

/-- What a callback sees of the request that it works for. -/
structure Context where
  tag : String
  /-- Where the artifact is written; nowhere for an artifact in memory. -/
  temporary : Option String
  /-- Has the output been created? -/
  hasOutput : Bool := false
  /-- Is there a stale artifact? -/
  hasCached : Bool := false
  /-- The tags of the requests made so far. -/
  children : List String := []
  deriving DecidableEq, Repr

/-- Is the artifact for memory only? -/
def Context.inMemory (c : Context) : Bool := c.temporary.isNone

/-- What work comes to: bytes that are written one after the other, and a failure that may follow
them. -/
structure Product where
  bytes : ByteArray
  failure : Option Failure := none
  /-- What happens instead of writing if the output was created directly. -/
  finish : Outcome Unit := .ok ()

/-- Bytes that are written without a failure. -/
def Product.ofBytes (bytes : ByteArray) : Product := { bytes }

/-- The product of work that has created its output directly. -/
def Product.written : Product :=
  { bytes := .empty
    failure := some (.cache "output was written directly but no output file exists") }

/-- What a callback is for. -/
inductive Role where
  /-- It says whether an artifact is stale. -/
  | question
  /-- It makes an artifact. -/
  | work
  deriving DecidableEq, Repr

/-- What a callback ends with: whether the artifact is stale, or a product. Work that ends with
nothing keeps the artifact that is there. -/
abbrev Role.Answer : Role → Type
  | .question => Bool
  | .work => Option Product

mutual
/-- What a callback does with its context. -/
inductive Steps : Role → Type where
  | done {r : Role} (answer : r.Answer) : Steps r
  | fail {r : Role} (e : Failure) : Steps r
  /-- Writes something down. -/
  | note {r : Role} (text : String) (next : Steps r) : Steps r
  /-- Looks around. -/
  | look {r : Role} (next : Context → Workshop → Steps r) : Steps r
  /-- Asks whether another definition would have to be built. -/
  | needs {r : Role} (d : Definition) (next : Outcome Bool → Steps r) : Steps r
  /-- Has another definition built. -/
  | child {r : Role} (d : Definition) (next : Outcome String → Steps r) : Steps r
  /-- Creates the output directly. -/
  | output {r : Role} (bytes : ByteArray) (next : Outcome Unit → Steps r) : Steps r

/-- What can be built: a tag, the question by the age of an artifact, and the work. -/
inductive Definition : Type where
  | mk (tag : String) (stale : Int → Steps .question) (work : Steps .work) : Definition
end

/-- The question whether an artifact is stale. -/
abbrev Inquiry := Steps .question

/-- The work that makes an artifact. -/
abbrev Work := Steps .work

/-- Ends a question. -/
def Steps.answer (stale : Bool) : Inquiry := .done stale

/-- Ends work with a product, or with nothing. -/
def Steps.finish (product : Option Product) : Work := .done product

namespace Definition

/-- What identifies the artifact. -/
def tag : Definition → String
  | mk tag _ _ => tag

/-- Is an artifact of some age stale? -/
def stale : Definition → Int → Inquiry
  | mk _ stale _ => stale

/-- The work that makes the artifact. -/
def work : Definition → Work
  | mk _ _ work => work

end Definition

end Depot.Build
