import Depot.Table

/-!
# Files with ages

The files that everything else works on. A node is a file or a directory, found by the list of its
path's components; the working directory is the empty list, and absolute paths start with `/` as a
component of its own. Time shows as ages only: a node that was just written has age zero, and a
negative age lies in the future. A path is walked component by component, so an operation fails in
the way in which the first bad component makes it fail.
-/

namespace Depot

/-- What the operating system says when a path cannot be used. -/
inductive PathError where
  | missing
  | notDirectory
  | isDirectory
  | exists
  | tooLong
  | nulByte
  /-- The bytes are no text. -/
  | notText
  deriving DecidableEq, Repr

/-- The wording of the operating system. -/
def PathError.message : PathError → String
  | .missing => "No such file or directory (os error 2)"
  | .notDirectory => "Not a directory (os error 20)"
  | .isDirectory => "Is a directory (os error 21)"
  | .exists => "File exists (os error 17)"
  | .tooLong => "File name too long (os error 36)"
  | .nulByte => "file name contained an unexpected NUL byte"
  | .notText => "stream did not contain valid UTF-8"

/-- A file or a directory, with its age in seconds. -/
inductive Node where
  | file (bytes : ByteArray) (age : Int)
  | dir (age : Int)

/-- The age of a node. -/
def Node.age : Node → Int
  | .file _ age => age
  | .dir age => age

/-- The components of a resolved path. -/
abbrev Path := List String

/-- All files and directories. -/
structure Files where
  nodes : Table Path Node := {}

namespace Files

instance : Inhabited Files := ⟨{}⟩

/-! ## Paths -/

/-- The components of a path's text, and where it starts from. -/
def components (text : String) : Path × List String :=
  let parts := (text.toList.splitOn '/').map String.ofList
  match parts with
  | "" :: rest => (["/"], rest)
  | parts => ([], parts)

/-- The text of a resolved path. -/
def textOf : Path → String
  | "/" :: rest => "/" ++ "/".intercalate rest
  | p => "/".intercalate p

/-- The part of a path's text in front of its last slash. -/
def directoryOf (text : String) : String :=
  String.ofList ((text.toList.reverse.dropWhile (· != '/')).reverse.dropLast)

/-- A path's text with one more component; an absolute one replaces it. -/
def join (base name : String) : String :=
  match base.toList.getLast?, name.toList.head? with
  | _, some '/' => name
  | none, _ => name
  | some '/', _ => base ++ name
  | _, _ => base ++ "/" ++ name

/-- The directory that holds a node; the starting points hold themselves. -/
def parent (p : Path) : Path := if p = ["/"] then p else p.dropLast

/-- The node at a resolved path; the starting points are directories. -/
def node? (fs : Files) (p : Path) : Option Node :=
  match fs.nodes.get? p with
  | some n => some n
  | none => if p = [] ∨ p = ["/"] then some (.dir 0) else none

/-- Fails unless there is a directory. -/
def requireDir (fs : Files) (p : Path) : Except PathError Unit :=
  match fs.node? p with
  | some (.dir _) => .ok ()
  | some (.file ..) => .error .notDirectory
  | none => .error .missing

/-- Follows components from a resolved path. All but the last have to be directories. -/
def walk (fs : Files) : Path → List String → Except PathError Path
  | here, [] => .ok here
  | here, part :: rest =>
    match fs.requireDir here with
    | .error e => .error e
    | .ok () =>
      if part = "" ∨ part = "." then fs.walk here rest
      else if part = ".." then fs.walk (parent here) rest
      else if 255 < part.utf8ByteSize then .error .tooLong
      else fs.walk (here ++ [part]) rest

/-- The resolved path of a text. -/
def locate (fs : Files) (text : String) : Except PathError Path :=
  if text.isEmpty then .error .missing
  else if text.toList.contains (Char.ofNat 0) then .error .nulByte
  else if 4096 ≤ text.utf8ByteSize then .error .tooLong
  else fs.walk (components text).1 (components text).2

/-! ## Looking -/

/-- The node that a path leads to. -/
def lookup (fs : Files) (text : String) : Except PathError Node :=
  match fs.locate text with
  | .error e => .error e
  | .ok p =>
    match fs.node? p with
    | some n => .ok n
    | none => .error .missing

/-- Does the path lead to anything? -/
def has (fs : Files) (text : String) : Bool :=
  match fs.lookup text with
  | .ok _ => true
  | .error _ => false

/-- The age of what a path leads to. -/
def age? (fs : Files) (text : String) : Option Int :=
  match fs.lookup text with
  | .ok n => some n.age
  | .error _ => none

/-- The bytes of a file. -/
def read (fs : Files) (text : String) : Except PathError ByteArray :=
  match fs.lookup text with
  | .ok (.file bytes _) => .ok bytes
  | .ok (.dir _) => .error .isDirectory
  | .error e => .error e

/-- The text of a file. -/
def readText (fs : Files) (text : String) : Except PathError String :=
  match fs.read text with
  | .error e => .error e
  | .ok bytes =>
    match String.fromUTF8? bytes with
    | some s => .ok s
    | none => .error .notText

/-- The paths of all files below a directory, sorted. -/
def list (fs : Files) (dir : Path) : List String :=
  let paths := fs.nodes.entries.filterMap fun (p, n) =>
    match n with
    | .file .. => if dir.isPrefixOf p && p.head? != some "/" then some ("/".intercalate p) else none
    | .dir _ => none
  paths.mergeSort fun a b => decide (a ≤ b)

/-! ## Changing -/

/-- Puts a new age on a directory that has just changed. -/
def touch (fs : Files) (p : Path) : Files :=
  match fs.nodes.get? p with
  | some (.dir _) => { fs with nodes := fs.nodes.insert p (.dir 0) }
  | _ => fs

/-- Puts a node at a resolved path. -/
def put (fs : Files) (p : Path) (n : Node) : Files :=
  let changed : Files := { fs with nodes := fs.nodes.insert p n }
  if fs.nodes.contains p then changed else changed.touch (parent p)

/-- Writes a whole file, new or old. -/
def write (fs : Files) (text : String) (bytes : ByteArray) : Except PathError Files :=
  match fs.locate text with
  | .error e => .error e
  | .ok p =>
    match fs.node? p with
    | some (.dir _) => .error .isDirectory
    | _ =>
      match fs.requireDir (parent p) with
      | .error e => .error e
      | .ok () => .ok (fs.put p (.file bytes 0))

/-- Removes a file. -/
def remove (fs : Files) (text : String) : Except PathError Files :=
  match fs.locate text with
  | .error e => .error e
  | .ok p =>
    match fs.node? p with
    | none => .error .missing
    | some (.dir _) => .error .isDirectory
    | some (.file ..) => .ok (Files.touch { fs with nodes := fs.nodes.erase p } (parent p))

/-- Moves a file to a path, where it replaces a file that is there. -/
def rename (fs : Files) (source target : String) : Except PathError Files :=
  match fs.locate source with
  | .error e => .error e
  | .ok start =>
    match fs.node? start with
    | none => .error .missing
    | some (.dir _) => .error .isDirectory
    | some (.file bytes age) =>
      match fs.locate target with
      | .error e => .error e
      | .ok goal =>
        match fs.node? goal with
        | some (.dir _) => .error .isDirectory
        | _ =>
          match fs.requireDir (parent goal) with
          | .error e => .error e
          | .ok () =>
            if start = goal then .ok fs
            else
              let without := Files.touch { fs with nodes := fs.nodes.erase start } (parent start)
              .ok (without.put goal (.file bytes age))

/-- Creates the directories that a walk misses. -/
def makeAlong (fs : Files) : Path → List String → Except PathError Files
  | here, [] =>
    match fs.node? here with
    | some (.file ..) => .error .exists
    | _ => .ok fs
  | here, part :: rest =>
    match fs.requireDir here with
    | .error e => .error e
    | .ok () =>
      if part = "" ∨ part = "." then fs.makeAlong here rest
      else if part = ".." then fs.makeAlong (parent here) rest
      else if 255 < part.utf8ByteSize then .error .tooLong
      else
        match fs.node? (here ++ [part]) with
        | some _ => fs.makeAlong (here ++ [part]) rest
        | none => (fs.put (here ++ [part]) (.dir 0)).makeAlong (here ++ [part]) rest

/-- Creates a directory and those above it, as far as they are missing. -/
def makeDir (fs : Files) (text : String) : Except PathError Files :=
  if text.isEmpty then .ok fs
  else if text.toList.contains (Char.ofNat 0) then .error .nulByte
  else if 4096 ≤ text.utf8ByteSize then .error .tooLong
  else fs.makeAlong (components text).1 (components text).2

/-- Writes a whole file and creates the directories above it. -/
def writeBelow (fs : Files) (text : String) (bytes : ByteArray) : Except PathError Files :=
  match fs.makeDir (directoryOf text) with
  | .error e => .error e
  | .ok fs => fs.write text bytes

/-- Gives a node another age. -/
def setAge (fs : Files) (text : String) (age : Int) : Option Files :=
  match fs.locate text with
  | .error _ => none
  | .ok p =>
    match fs.node? p with
    | none => none
    | some (.file bytes _) => some { fs with nodes := fs.nodes.insert p (.file bytes age) }
    | some (.dir _) => some { fs with nodes := fs.nodes.insert p (.dir age) }

end Files

end Depot
