import Depot.Build.Definition

/-!
# Building

A request for a definition is met with its artifact unless that is missing or stale. Otherwise the
work is done, and its product goes to a temporary file that takes the artifact's place when it is
complete. Whatever fails on the way leaves the artifact as it was and no temporary file.
-/

namespace Depot

open Build

namespace Build

/-- A callback that runs: it changes the workshop and the context and gives an answer. -/
abbrev Callback (α : Type) := Context → Workshop → Workshop × Context × Outcome α

/-- What is said of a build that failed. -/
def failed (tag : String) (e : Failure) : Failure := .buildFailed tag e.message

end Build

namespace Workshop

/-- Creates the output of a request, once, with some bytes. -/
def createOutput (bytes : ByteArray) : Callback Unit := fun c s =>
  match c.temporary with
  | none => (s, c, .error (.cache "in-memory builds cannot create output files"))
  | some path =>
    if c.hasOutput then (s, c, .error (.cache ("output for " ++ c.tag ++ " already created")))
    else
      match s.files.write path bytes with
      | .error e => (s, c, .error (.ofPath e))
      | .ok files => (s.withFiles files, { c with hasOutput := true }, .ok ())

/-- Puts the temporary file of a tag in the place of the artifact. -/
def publish (s : Workshop) (tag : String) : Workshop × Outcome State :=
  match s.files.rename (s.temporaryPath tag) (s.outputPath tag) with
  | .error e => (s, .error (.ofPath e))
  | .ok files =>
    let bytes := match files.read (s.outputPath tag) with
      | .ok bytes => bytes
      | .error _ => .empty
    ((s.withFiles files).log (.published tag bytes), .ok .built)

/-- Keeps the artifact, which has to be there. -/
def keep (s : Workshop) (tag : String) (c : Context) : Workshop × Outcome State :=
  if c.hasCached && s.files.has (s.outputPath tag) then (s.discardTemporary tag, .ok .cached)
  else (s, .error (.cache "build produced no result and nothing is cached"))

/-- Brings what work came to into the place of the artifact. -/
def settle (s : Workshop) (tag : String) (c : Context) : Option Product → Workshop × Outcome State
  | none => s.keep tag c
  | some product =>
    if c.hasOutput then
      match product.finish with
      | .error e => (s, .error e)
      | .ok () => s.publish tag
    else
      match s.files.write (s.temporaryPath tag) product.bytes with
      | .error e => (s, .error (.ofPath e))
      | .ok files =>
        match product.failure with
        | some e => (s.withFiles files, .error e)
        | none => (s.withFiles files).publish tag

/-- Does the work for a tag and settles what it comes to. -/
def perform (s : Workshop) (tag : String) (work : Callback (Option Product)) (c : Context) :
    Workshop × Context × Outcome State :=
  match work c (s.log (.started tag)) with
  | (s, c, .error e) => (s, c, .error e)
  | (s, c, .ok product) =>
    let (s, result) := s.settle tag c product
    (s, c, result)

/-- Performs the work for a tag and records how that ended. -/
def rebuild (s : Workshop) (tag : String) (work : Callback (Option Product)) (c : Context) :
    Workshop × Outcome String :=
  match s.perform tag work c with
  | (s, _, .error e) => (s.discardTemporary tag, .error (failed tag e))
  | (s, c, .ok state) =>
    ((s.record tag ⟨state, c.children⟩).writeTag tag, .ok (s.outputPath tag))

/-- Meets a request for a tag. The artifact is used if there is one that is not stale, unless
`always` asks for a new one in any case. -/
def request (s : Workshop) (tag : String) (always : Bool) (ask : Int → Callback Bool)
    (work : Callback (Option Product)) : Workshop × Outcome String :=
  let c : Context := { tag, temporary := some (s.temporaryPath tag) }
  match if always then none else s.age? tag with
  | none => s.rebuild tag work c
  | some age =>
    match ask age c s with
    | (s, _, .error e) => (s, .error (failed tag e))
    | (s, c, .ok false) => (s.record tag ⟨.cached, c.children⟩, .ok (s.outputPath tag))
    | (s, c, .ok true) => s.rebuild tag work { c with hasCached := true }

/-- Would a request for a tag do its work? -/
def wouldBuild (s : Workshop) (tag : String) (ask : Int → Callback Bool) :
    Workshop × Outcome Bool :=
  match s.age? tag with
  | none => (s, .ok true)
  | some age =>
    let (s, _, result) := ask age { tag, temporary := some (s.temporaryPath tag) } s
    (s, result)

end Workshop

namespace Build

/-- A context after a request for a child. -/
def Context.withChild (c : Context) (d : Definition) : Context :=
  { c with children := c.children ++ [d.tag] }

mutual
/-- Performs the steps of a callback. -/
def Steps.run {r : Role} : Steps r → Callback r.Answer
  | .done answer, c, s => (s, c, .ok answer)
  | .fail e, c, s => (s, c, .error e)
  | .note text next, c, s => next.run c (s.log (.note text))
  | .look next, c, s => (next c s).run c s
  | .needs d next, c, s => (next (d.needed s).2).run c (d.needed s).1
  | .child d next, c, s => (next (d.build false s).2).run (c.withChild d) (d.build false s).1
  | .output bytes next, c, s =>
    match Workshop.createOutput bytes c s with
    | (s, c, result) => (next result).run c s

/-- Would the definition have to be built now? -/
def Definition.needed : Definition → Workshop → Workshop × Outcome Bool
  | .mk tag stale _, s => s.wouldBuild tag fun age c s => (stale age).run c s

/-- The path of the definition's artifact, which is built if it is missing or stale, or if `always`
asks for that. -/
def Definition.build : Definition → (always : Bool) → Workshop → Workshop × Outcome String
  | .mk tag stale work, always, s =>
    s.request tag always (fun age c s => (stale age).run c s) (fun c s => work.run c s)
end

/-- The definition's artifact in memory, where it never gets stale. -/
def Definition.buildInMemory (d : Definition) (s : Workshop) : Workshop × Outcome ByteArray :=
  match s.memory.get? (s.digest d.tag) with
  | some bytes => (s.record d.tag ⟨.cached, []⟩, .ok bytes)
  | none =>
    match d.work.run { tag := d.tag, temporary := none } (s.log (.started d.tag)) with
    | (s, _, .error e) => (s, .error (failed d.tag e))
    | (s, _, .ok none) => (s, .error (.buildFailed d.tag "build produced no result"))
    | (s, c, .ok (some product)) =>
      match product.failure with
      | some e => (s, .error (failed d.tag e))
      | none =>
        ({ s.record d.tag ⟨.built, c.children⟩ with
            memory := s.memory.insert (s.digest d.tag) product.bytes }, .ok product.bytes)

end Build

end Depot
