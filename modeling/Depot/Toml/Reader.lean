import Depot.Toml.Document
import Depot.Toml.Scalar
import Depot.Toml.Text

/-!
# Reading TOML

`Toml.parse?` reads a whole document: first its lines, one statement each, and then the tables that
they build. Arrays may go over several lines, tables in braces may not. The recursion is on a bound
that the length of the text meets, because every call is made after at least one character has been
read.
-/

namespace Depot.Toml

/-- How deep arrays and tables in braces may nest, and how many keys a path may have. -/
def nestingLimit : Nat := 79

/-! ## Keys -/

/-- The characters of keys without quotes. -/
def isBareKeyChar (c : Char) : Bool := c.isAlphanum || c == '_' || c == '-'

/-- One key. -/
def key? (s : List Char) : Option (String × List Char) :=
  match s.span isBareKeyChar with
  | ([], _) => (lineString? s).map fun (cs, rest) => (String.ofList cs, rest)
  | (cs, rest) => some (String.ofList cs, rest)

/-- A path of keys with dots between them and blanks around each, and the rest behind it. -/
def path? : (bound : Nat) → List Char → Option (List String × List Char)
  | 0, _ => none
  | bound + 1, s => do
    let (key, rest) ← key? (skipBlanks s)
    match skipBlanks rest with
    | '.' :: rest => do
      let (path, rest) ← path? bound rest
      pure (key :: path, rest)
    | rest => pure ([key], rest)

/-- A path that is not too long. -/
def shortPath? (s : List Char) : Option (List String × List Char) := do
  let (path, rest) ← path? (s.length + 1) s
  if path.length ≤ nestingLimit then pure (path, rest) else none

/-- A path and the rest behind the equals sign. -/
def pathBefore? (s : List Char) : Option (List String × List Char) := do
  match ← shortPath? s with
  | (path, '=' :: rest) => pure (path, rest)
  | _ => none

/-! ## Values -/

mutual
/-- A value and the rest behind it; arrays and tables may nest `levels` deep. -/
def value : (bound levels : Nat) → List Char → Option (Toml × List Char)
  | 0, _, _ => none
  | bound + 1, levels, s =>
    match s with
    | '"' :: _ => (string? s).map fun (cs, rest) => (.string (String.ofList cs), rest)
    | '\'' :: _ => (string? s).map fun (cs, rest) => (.string (String.ofList cs), rest)
    | '[' :: rest =>
      match levels with
      | 0 => none
      | levels + 1 => (items bound levels rest).map fun (vs, rest) => (.array vs, rest)
    | '{' :: rest =>
      match levels with
      | 0 => none
      | levels + 1 =>
        match skipBlanks rest with
        | '}' :: rest => some (.table [], rest)
        | rest => do
          let (pairs, rest) ← pairs bound levels rest
          let table ← ofStatements? pairs
          pure (table, rest)
    | _ => scalar s

/-- The items of an array up to its closing bracket. -/
def items : (bound levels : Nat) → List Char → Option (List Toml × List Char)
  | 0, _, _ => none
  | bound + 1, levels, s =>
    match skipFiller false s with
    | ']' :: rest => some ([], rest)
    | s => do
      let (v, rest) ← value bound levels s
      match skipFiller false rest with
      | ']' :: rest => pure ([v], rest)
      | ',' :: rest => do
        let (vs, rest) ← items bound levels rest
        pure (v :: vs, rest)
      | _ => none

/-- The pairs of a table in braces up to its closing brace. -/
def pairs : (bound levels : Nat) → List Char → Option (List Statement × List Char)
  | 0, _, _ => none
  | bound + 1, levels, s => do
    let (path, rest) ← pathBefore? s
    let (v, rest) ← value bound levels (skipBlanks rest)
    match skipBlanks rest with
    | '}' :: rest => pure ([.pair path v], rest)
    | ',' :: rest => do
      let (more, rest) ← pairs bound levels rest
      pure (.pair path v :: more, rest)
    | _ => none
end

/-! ## Statements -/

/-- The statement at the start of a line that is not empty, and the rest behind it. -/
def statement? (s : List Char) : Option (Statement × List Char) :=
  match s with
  | '[' :: '[' :: rest => do
    match ← shortPath? rest with
    | (path, ']' :: ']' :: rest) => pure (.listHeader path, rest)
    | _ => none
  | '[' :: rest => do
    match ← shortPath? rest with
    | (path, ']' :: rest) => pure (.header path, rest)
    | _ => none
  | _ => do
    let (path, rest) ← pathBefore? s
    let (v, rest) ← value (s.length + 1) nestingLimit (skipBlanks rest)
    pure (.pair path v, rest)

/-- The statements of a text. -/
def statements? : (bound : Nat) → List Char → Option (List Statement)
  | 0, _ => none
  | bound + 1, s =>
    if s.isEmpty then some []
    else
      match endOfLine? s with
      | some rest => statements? bound rest
      | none => do
        let (first, rest) ← statement? (skipBlanks s)
        let rest ← endOfLine? rest
        let more ← statements? bound rest
        pure (first :: more)

/-- The text without a byte order mark. -/
def dropMark : List Char → List Char
  | c :: rest => if c = Char.ofNat 0xfeff then rest else c :: rest
  | [] => []

/-- The value of a document. -/
def parse? (text : String) : Option Toml := do
  let s := dropMark text.toList
  ofStatements? (← statements? (s.length + 1) s)

end Depot.Toml
