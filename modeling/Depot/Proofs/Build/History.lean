import Depot.Build.Run

/-!
# What a run has made

A request asks its question, does its work and publishes what the work has left. Read off a run,
beside its result: the bytes that a callback has written directly (`Steps.direct`), and every
artifact that was made on the way and recorded as built, with its bytes, in order
(`Definition.made`). A run nests well (`Definition.Nests`) if a request is never made for a tag that
is being built around it, which in a running program would wait for itself.
-/

namespace Depot.Build

/-- The artifacts that were made, each with its tag, in order. -/
abbrev Made := List (String × ByteArray)

/-- What was last made for a tag. -/
def lastMade (tag : String) : Made → Option ByteArray
  | [] => none
  | (first, bytes) :: rest => (lastMade tag rest).or (if first = tag then some bytes else none)

/-- The context in which a request for a tag starts. -/
def startingContext (s : Workshop) (tag : String) : Context :=
  { tag, temporary := some (s.temporaryPath tag) }

/-- The bytes that a callback writes directly in a run. -/
def Steps.direct {r : Role} : Steps r → Context → Workshop → Option ByteArray
  | .done _, _, _ => none
  | .fail _, _, _ => none
  | .note text next, c, s => next.direct c (s.log (.note text))
  | .look next, c, s => (next c s).direct c s
  | .needs d next, c, s => (next (d.needed s).2).direct c (d.needed s).1
  | .child d next, c, s => (next (d.build false s).2).direct (c.withChild d) (d.build false s).1
  | .output bytes next, c, s =>
    match Workshop.createOutput bytes c s with
    | (_, _, .ok ()) => some bytes
    | (s, c, .error e) => (next (.error e)).direct c s

namespace Definition

variable (d : Definition) (always : Bool) (s : Workshop)

/-- The age that the question of a request is asked with, if it is asked. -/
def asked : Option Int := if always then none else s.age? d.tag

/-- The bytes that the question of a request writes directly. -/
def directBefore : Option ByteArray :=
  (d.asked always s).bind fun age => (d.stale age).direct (startingContext s d.tag) s

/-- Where the work of a request starts, if it comes to that. -/
def workStart : Option (Context × Workshop) :=
  match d.asked always s with
  | none => some (startingContext s d.tag, s)
  | some age =>
    match (d.stale age).run (startingContext s d.tag) s with
    | (s, c, .ok true) => some ({ c with hasCached := true }, s)
    | _ => none

/-- The bytes of the artifact that a request makes by itself and records as built: what was written
directly, or else the product of the work. -/
def published : Option ByteArray :=
  match d.workStart always s with
  | none => none
  | some (c, s₁) =>
    let begun := s₁.log (.started d.tag)
    match (s₁.perform d.tag d.work.run c).2.2, (d.work.run c begun).2.2 with
    | .ok .built, .ok (some product) =>
      some (((d.directBefore always s).or (d.work.direct c begun)).getD product.bytes)
    | _, _ => none

end Definition

mutual
/-- What is made on the way of a callback. -/
def Steps.made {r : Role} : Steps r → Context → Workshop → Made
  | .done _, _, _ => []
  | .fail _, _, _ => []
  | .note text next, c, s => next.made c (s.log (.note text))
  | .look next, c, s => (next c s).made c s
  | .needs d next, c, s => d.madeAsking s ++ (next (d.needed s).2).made c (d.needed s).1
  | .child d next, c, s =>
    d.made false s ++ (next (d.build false s).2).made (c.withChild d) (d.build false s).1
  | .output bytes next, c, s =>
    match Workshop.createOutput bytes c s with
    | (s, c, result) => (next result).made c s

/-- What is made on the way to know whether a definition would have to be built. -/
def Definition.madeAsking : Definition → Workshop → Made
  | .mk tag stale _, s =>
    match s.age? tag with
    | none => []
    | some age => (stale age).made (startingContext s tag) s

/-- What a request makes: first on the way of its question and of its work, at last by itself. -/
def Definition.made : Definition → (always : Bool) → Workshop → Made
  | .mk tag stale work, always, s =>
    (match Definition.asked (.mk tag stale work) always s with
      | none => []
      | some age => (stale age).made (startingContext s tag) s) ++
    (match Definition.workStart (.mk tag stale work) always s with
      | none => []
      | some (c, s) => work.made c (s.log (.started tag))) ++
    ((Definition.mk tag stale work).published always s).toList.map fun bytes => (tag, bytes)
end

mutual
/-- Requests on the way of a callback are for tags in use that are not being built around it, and
questions about tags that are being built write nothing directly. -/
def Steps.Nests {r : Role} (used : String → Prop) (around : List String) :
    Steps r → Context → Workshop → Prop
  | .done _, _, _ => True
  | .fail _, _, _ => True
  | .note text next, c, s => next.Nests used around c (s.log (.note text))
  | .look next, c, s => (next c s).Nests used around c s
  | .needs d next, c, s =>
    d.NestsAsking used around s ∧ (next (d.needed s).2).Nests used around c (d.needed s).1
  | .child d next, c, s =>
    d.Nests used around false s ∧
      (next (d.build false s).2).Nests used around (c.withChild d) (d.build false s).1
  | .output bytes next, c, s =>
    match Workshop.createOutput bytes c s with
    | (s, c, result) => (next result).Nests used around c s

/-- The question whether a definition would have to be built nests well. -/
def Definition.NestsAsking (used : String → Prop) (around : List String) :
    Definition → Workshop → Prop
  | .mk tag stale _, s =>
    used tag ∧ ∀ age, s.age? tag = some age →
      (stale age).Nests used around (startingContext s tag) s ∧
        (tag ∈ around → (stale age).direct (startingContext s tag) s = none)

/-- A request nests well. -/
def Definition.Nests (used : String → Prop) (around : List String) :
    Definition → (always : Bool) → Workshop → Prop
  | .mk tag stale work, always, s =>
    used tag ∧ tag ∉ around ∧
      (∀ age, Definition.asked (.mk tag stale work) always s = some age →
        (stale age).Nests used (tag :: around) (startingContext s tag) s) ∧
      ∀ c s', Definition.workStart (.mk tag stale work) always s = some (c, s') →
        work.Nests used (tag :: around) c (s'.log (.started tag))
end

end Depot.Build
