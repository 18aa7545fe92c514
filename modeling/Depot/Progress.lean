/-!
# Progress

A tracker counts what is done of a known total. It is a state that events change; `Progress.step`
also gives the lines that an event writes to the log. Three styles of tracker differ only in what
they show: a silent one nothing, a logging one about ten lines on the way, and a bar, which jumps to
the end when it finishes well. Counts are 64-bit words, as the counters of a running program are.
-/

namespace Depot

namespace Progress

/-- What a tracker does with what it is told. -/
inductive Style where
  | silent
  | log (name : String)
  | bar
  deriving DecidableEq, Repr

/-- What a tracker is told. -/
inductive Event where
  | message (text : String)
  | increment (amount : UInt64)
  | length (total : UInt64)
  | finish (text : String)
  | finishError (text : String)
  deriving DecidableEq, Repr

/-- How important a line of the log is. -/
inductive Level where
  | info
  | warning
  deriving DecidableEq, Repr

/-- The name of a level. -/
def Level.name : Level → String
  | .info => "INFO"
  | .warning => "WARN"

/-- A line of the log. -/
structure Line where
  level : Level
  text : String
  deriving DecidableEq, Repr

end Progress

/-- A tracker. -/
structure Progress where
  style : Progress.Style
  length : UInt64 := 0
  position : UInt64 := 0
  finished : Bool := false
  deriving DecidableEq, Repr

namespace Progress

/-- How much has to be done between two lines of a logging tracker: a tenth of the total, but at
least one. -/
def interval (length : UInt64) : UInt64 := max 1 (length / 10)

/-- How far the work is, in percent. -/
def percent (position length : UInt64) : UInt64 := position * 100 / length

/-- The line that a logging tracker writes when it gets on, which is when an interval is completed.
-/
def advanceLine? (name : String) (length before after : UInt64) : Option Line :=
  if 0 < length ∧ before / interval length < after / interval length then
    some ⟨.info,
      name ++ ": " ++ toString (percent after length) ++ "% (" ++ toString after ++ "/" ++
        toString length ++ ")"⟩
  else none

/-- The lines that an event writes to the log. -/
def lines (p : Progress) (e : Event) : List Line :=
  match p.style with
  | .log name =>
    match e with
    | .message text => [⟨.info, name ++ ": " ++ text⟩]
    | .increment amount => (advanceLine? name p.length p.position (p.position + amount)).toList
    | .length _ => []
    | .finish text => [⟨.info, name ++ ": " ++ text⟩]
    | .finishError text => [⟨.warning, name ++ ": " ++ text⟩]
  | _ => []

/-- The tracker after an event. -/
def step (p : Progress) : Event → Progress
  | .message _ => p
  | .increment amount => { p with position := p.position + amount }
  | .length total => { p with length := total }
  | .finish _ =>
    { p with finished := true, position := if p.style = .bar then p.length else p.position }
  | .finishError _ => { p with finished := true }

/-- The tracker after some events. -/
def run (p : Progress) (events : List Event) : Progress := events.foldl step p

end Progress

end Depot
