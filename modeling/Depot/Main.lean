import Depot.CommandLine.Needs
import Depot.Files.Change
import Std.Time.Format

/-!
# The program

The outermost layer: it reads the files that a run looks at, runs the request, writes the text and
the files that the run leaves behind, and ends with its number. It sees no ages, so a file that is
there counts as just written, and it has no way to the web.
-/

namespace Depot.Program

open CommandLine

/-- Can the path be opened as a directory? -/
def isDirectory (path : String) : IO Bool := do
  try
    let _ ← IO.FS.Handle.mk (path ++ "/.") .read
    pure true
  catch _ => pure false

/-- Takes over the directory of a path, if there is one. -/
def takeDirectory (path : String) (fs : Files) : IO Files := do
  if path.isEmpty then pure fs
  else if ← isDirectory path then pure ((fs.makeDir path).toOption.getD fs)
  else pure fs

/-- Takes over what is at a path. -/
def takePath (path : String) (fs : Files) : IO Files := do
  let fs ← takeDirectory (Files.directoryOf path) fs
  if ← isDirectory path then takeDirectory path fs
  else
    try
      let bytes ← IO.FS.readBinFile path
      pure ((fs.writeBelow path bytes).toOption.getD fs)
    catch _ => pure fs

/-- Takes over the files that a run looks at, in a number of rounds. -/
def gather (s : Surroundings) (arguments : List String) : (rounds : Nat) → Site → IO Site
  | 0, site => pure site
  | rounds + 1, site => do
    let new := (needs s site arguments).filter fun path => !site.files.has path
    let files ← new.foldlM (fun fs path => takePath path fs) site.files
    gather s arguments rounds { site with files }

/-- Does one thing to the files. -/
def apply : Files.Change → IO Unit
  | .makeDir path => IO.FS.createDirAll path
  | .write path bytes => IO.FS.writeBinFile path bytes
  | .remove path => IO.FS.removeFile path

/-- Says how a run ended. -/
def report : Ending → IO Unit
  | .success => pure ()
  | .failure message cause => do
    IO.eprintln ("Error: " ++ message)
    match cause with
    | none => pure ()
    | some cause => IO.eprintln ("\nCaused by:\n    " ++ cause)
  | .misuse => do
    IO.eprintln "error: the arguments cannot be understood"
    IO.eprintln "\nFor more information, try '--help'."

/-- What a run takes from its surroundings. -/
def surroundings : IO Surroundings := do
  let moment ← Std.Time.Timestamp.now
  pure
    { home := (← IO.getEnv "HOME").getD ""
      now := (Std.Time.DateTime.ofTimestamp moment .UTC).toISO8601String }

/-- Runs the program, again and again if it is to keep the index current. -/
partial def loop (arguments : List String) : IO UInt32 := do
  let s ← surroundings
  let site ← gather s arguments 4 { web := { online := false } }
  let done := CommandLine.run s site arguments
  IO.print done.output
  (site.files.changes done.site.files).forM apply
  report done.ending
  match done.ending, pause? s site arguments with
  | .success, some seconds =>
    IO.sleep (UInt32.ofNat (1000 * seconds))
    loop arguments
  | _, _ => pure done.ending.code.toUInt32

end Depot.Program

/-- The program. -/
def main (arguments : List String) : IO UInt32 := Depot.Program.loop arguments
