import Depot.Files

/-!
# Changes of files

What has to be done to files so that they become like others. `Files.changes` speaks of paths only,
so that the outermost layer can do it without knowing what a run was about.
-/

namespace Depot.Files

/-- One thing to do. -/
inductive Change where
  | makeDir (path : String)
  | write (path : String) (bytes : ByteArray)
  | remove (path : String)

/-- What makes a node appear, unless it is there already. -/
def appearance? (before : Files) : Path × Node → Option Change
  | (p, .dir _) =>
    match before.nodes.get? p with
    | some (.dir _) => none
    | _ => some (.makeDir (textOf p))
  | (p, .file bytes _) =>
    match before.nodes.get? p with
    | some (.file old _) => if old == bytes then none else some (.write (textOf p) bytes)
    | _ => some (.write (textOf p) bytes)

/-- What makes a file vanish that is not there any more. -/
def disappearance? (after : Files) : Path × Node → Option Change
  | (p, .file ..) => if after.nodes.contains p then none else some (.remove (textOf p))
  | (_, .dir _) => none

/-- Everything that is different afterwards, directories before what is in them. -/
def changes (before after : Files) : List Change :=
  after.nodes.entries.filterMap (appearance? before) ++
    before.nodes.entries.filterMap (disappearance? after)

end Depot.Files
