import Depot.Table
import Depot.Toml.Basic

/-!
# Building tables from statements

A document is a list of statements: a key path with a value, or the header of a table. A table comes
to be in one of three ways: by its own header, on the way to another header, or on the way of a key
path. Each way allows different additions later, and no statement may define anything twice.
-/

namespace Depot.Toml

/-- What one line says. -/
inductive Statement where
  | pair (path : List String) (value : Toml)
  | header (path : List String)
  /-- The header of one more table in a list of tables. -/
  | listHeader (path : List String)
  deriving Repr

/-- How a table came to be. -/
inductive Form where
  /-- By its own header. -/
  | declared
  /-- On the way to the header of a table inside. -/
  | implied
  /-- On the way of a key path. -/
  | dotted
  deriving DecidableEq, Repr

/-- What a key leads to while the document is read. -/
inductive Item where
  | value (v : Toml)
  | table (form : Form) (entries : List (String × Item))
  | tables (items : List (List (String × Item)))
  deriving Inhabited

/-- A table while the document is read. -/
abbrev Entries := List (String × Item)

mutual
/-- The value of an item. -/
def Item.toToml : Item → Toml
  | .value v => v
  | .table _ entries => .table (entriesToToml entries)
  | .tables items => .array (itemsToToml items)

/-- The values of entries. -/
def entriesToToml : List (String × Item) → List (String × Toml)
  | [] => []
  | (key, item) :: rest => (key, item.toToml) :: entriesToToml rest

/-- The values of the tables of a list. -/
def itemsToToml : List (List (String × Item)) → List Toml
  | [] => []
  | entries :: rest => .table (entriesToToml entries) :: itemsToToml rest
end

/-- A change to a table, which may be refused. -/
abbrev Change := Form → Entries → Option (Form × Entries)

/-- A change to the table at the end of a path; of a list of tables the last one is meant. Tables
that are missing are created. A key path does not lead through a table with a header of its own. -/
def within (dotted : Bool) : List String → Change → Change
  | [], change, form, entries => change form entries
  | key :: rest, change, form, entries =>
    match Table.find? key entries with
    | none => do
      let (inner, es) ← within dotted rest change (if dotted then .dotted else .implied) []
      pure (form, Table.put key (.table inner es) entries)
    | some (.value _) => none
    | some (.table inner es) =>
      if dotted ∧ inner = .declared then none
      else do
        let (inner, es) ← within dotted rest change inner es
        pure (form, Table.put key (.table inner es) entries)
    | some (.tables items) => do
      let last ← items.getLast?
      let (_, es) ← within dotted rest change .declared last
      pure (form, Table.put key (.tables (items.dropLast ++ [es])) entries)

/-- Defines a key. At the end of a path of several keys there has to be a table of such paths. -/
def define (through : Bool) (key : String) (value : Toml) : Change := fun form entries =>
  if through ∧ form ≠ .dotted then none
  else
    match Table.find? key entries with
    | some _ => none
    | none => some (form, entries ++ [(key, .value value)])

/-- Defines the key at the end of a path. -/
def defineAt (path : List String) (value : Toml) : Change := fun form entries => do
  let key ← path.getLast?
  within true path.dropLast (define (1 < path.length) key value) form entries

/-- Declares a table. -/
def declare (key : String) : Change := fun form entries =>
  match Table.find? key entries with
  | none => some (form, Table.put key (.table .declared []) entries)
  | some (.table .implied es) => some (form, Table.put key (.table .declared es) entries)
  | some _ => none

/-- Adds a table to a list of tables. -/
def append (key : String) : Change := fun form entries =>
  match Table.find? key entries with
  | none => some (form, Table.put key (.tables [[]]) entries)
  | some (.tables items) => some (form, Table.put key (.tables (items ++ [[]])) entries)
  | some _ => none

/-- Performs statements; `here` is the path of the last header. -/
def build : (here : List String) → List Statement → Entries → Option Entries
  | _, [], entries => some entries
  | here, .pair path value :: rest, entries => do
    let (_, entries) ← within false here (defineAt path value) .declared entries
    build here rest entries
  | _, .header path :: rest, entries => do
    let key ← path.getLast?
    let (_, entries) ← within false path.dropLast (declare key) .declared entries
    build path rest entries
  | _, .listHeader path :: rest, entries => do
    let key ← path.getLast?
    let (_, entries) ← within false path.dropLast (append key) .declared entries
    build path rest entries

/-- The value of a document. -/
def ofStatements? (statements : List Statement) : Option Toml :=
  (build [] statements []).map fun entries => .table (entriesToToml entries)

end Depot.Toml
