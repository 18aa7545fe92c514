import Depot.Text.Decimal

/-!
# Lines of arguments

A line of arguments holds switches and plain words. A switch has a name behind two dashes, and some
have a letter behind a single one; letters may be joined. The value of a switch stands behind an
equals sign, right behind the letter, or in the next argument, which then must not look like a
switch. Behind a lone `--` everything is a plain word. No switch may be given twice.
-/

namespace Depot.CommandLine

/-- What a switch is for. -/
inductive Kind where
  /-- It is given or not. -/
  | flag
  | text
  /-- Its value is a path, which is never empty. -/
  | path
  | number
  /-- Asks how to use the program. -/
  | help
  /-- Asks for the version of the program. -/
  | version
  deriving DecidableEq, Repr

/-- The number of a text, which may have a plus sign. -/
def number? (s : String) : Option Nat :=
  match s.toList with
  | '+' :: digits => Text.Decimal.word? digits
  | digits => Text.Decimal.word? digits

/-- Does a switch of the kind have a value? -/
def Kind.hasValue : Kind → Bool
  | .text | .path | .number => true
  | _ => false

/-- May a switch of the kind have the value? -/
def Kind.accepts : Kind → String → Bool
  | .path, value => !value.isEmpty
  | .number, value => (number? value).isSome
  | _, _ => true

/-- A switch. -/
structure Switch where
  name : String
  letter : Option Char := none
  kind : Kind := .flag
  deriving DecidableEq, Repr

/-- Why a line is not read to its end. -/
inductive Stop where
  | help
  | version
  /-- The line cannot be understood. -/
  | misuse
  deriving DecidableEq, Repr

/-- What has been read of a line. -/
structure Line where
  /-- The switches by name, with their values; a flag has the empty one. -/
  switches : List (String × String) := []
  words : List String := []
  deriving DecidableEq, Repr

namespace Line

/-- Was the switch given? -/
def has (l : Line) (name : String) : Bool := l.switches.any (·.1 == name)

/-- The value of a switch that was given. -/
def value? (l : Line) (name : String) : Option String :=
  (l.switches.find? (·.1 == name)).map (·.2)

/-- Takes a switch with its value. -/
def give (l : Line) (s : Switch) (value : String) : Except Stop Line :=
  if s.kind = .help then .error .help
  else if s.kind = .version then .error .version
  else if l.has s.name || !s.kind.accepts value then .error .misuse
  else .ok { l with switches := l.switches ++ [(s.name, value)] }

/-- Takes a switch whose value ends the argument. -/
def giveLast (l : Line) (s : Switch) (value : List Char) : Except Stop (Line × Option Switch) :=
  (l.give s (String.ofList value)).map (·, none)

/-- Reads an argument behind its two dashes. A switch that still waits for its value comes along. -/
def readName (switches : List Switch) (l : Line) (body : List Char) :
    Except Stop (Line × Option Switch) :=
  let (name, rest) := body.span (· != '=')
  match switches.find? (·.name.toList == name) with
  | none => .error .misuse
  | some s =>
    match rest with
    | [] => if s.kind.hasValue then .ok (l, some s) else l.giveLast s []
    | _ :: value => if s.kind.hasValue then l.giveLast s value else .error .misuse

/-- Reads the letters of an argument. A switch that still waits for its value comes along. -/
def readLetters (switches : List Switch) (l : Line) :
    List Char → Except Stop (Line × Option Switch)
  | [] => .ok (l, none)
  | c :: rest =>
    match switches.find? (·.letter == some c) with
    | none => .error .misuse
    | some s =>
      if s.kind.hasValue then
        match rest with
        | [] => .ok (l, some s)
        | '=' :: value => l.giveLast s value
        | value => l.giveLast s value
      else
        match l.give s "" with
        | .error e => .error e
        | .ok l => readLetters switches l rest

end Line

/-- What an argument looks like. -/
inductive Look where
  /-- Two dashes alone. -/
  | escape
  | name (body : List Char)
  | letters (body : List Char)
  | word
  deriving DecidableEq, Repr

/-- The look of an argument. A dash alone is a word. -/
def Look.of (argument : String) : Look :=
  match argument.toList with
  | ['-', '-'] => .escape
  | '-' :: '-' :: body => .name body
  | '-' :: c :: rest => .letters (c :: rest)
  | _ => .word

/-- What may stand on a line. -/
structure Grammar where
  switches : List Switch
  /-- How many plain words are needed. -/
  least : Nat := 0
  /-- How many plain words there may be; there is no limit without a number. -/
  most : Option Nat := some 0
  /-- The words that end the line and begin another one. -/
  commands : List String := []
  deriving Repr

namespace Grammar

/-- Takes a plain word, if there may be one more. -/
def takeWord (g : Grammar) (l : Line) (word : String) : Except Stop Line :=
  if (g.most.map fun most => decide (l.words.length < most)).getD true then
    .ok { l with words := l.words ++ [word] }
  else .error .misuse

/-- Reads arguments up to the end of the line, or up to a word that begins another line. A switch
may wait for its value (`waiting`), and everything may be a plain word (`literal`). -/
def readFrom (g : Grammar) :
    (waiting : Option Switch) → (literal : Bool) → List String → Line →
      Except Stop (Line × List String)
  | none, _, [], l => .ok (l, [])
  | some _, _, [], _ => .error .misuse
  | some s, literal, argument :: rest, l =>
    if Look.of argument = .word then
      match l.give s argument with
      | .error e => .error e
      | .ok l => g.readFrom none literal rest l
    else .error .misuse
  | none, true, argument :: rest, l =>
    match g.takeWord l argument with
    | .error e => .error e
    | .ok l => g.readFrom none true rest l
  | none, false, argument :: rest, l =>
    match Look.of argument with
    | .escape => g.readFrom none true rest l
    | .name body =>
      match l.readName g.switches body with
      | .error e => .error e
      | .ok (l, waiting) => g.readFrom waiting false rest l
    | .letters body =>
      match l.readLetters g.switches body with
      | .error e => .error e
      | .ok (l, waiting) => g.readFrom waiting false rest l
    | .word =>
      if g.commands.contains argument then .ok (l, argument :: rest)
      else
        match g.takeWord l argument with
        | .error e => .error e
        | .ok l => g.readFrom none false rest l

/-- Reads a line and what follows it, which begins with a command. -/
def read (g : Grammar) (arguments : List String) : Except Stop (Line × List String) :=
  match g.readFrom none false arguments {} with
  | .error e => .error e
  | .ok (l, rest) => if g.least ≤ l.words.length then .ok (l, rest) else .error .misuse

end Grammar

end Depot.CommandLine
