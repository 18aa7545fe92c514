import Depot.Failure

/-!
# Install directives

One step of an installation. A container file can express two of the five kinds: a directive is one
line, and the first one it cannot express ends the text.
-/

namespace Depot

/-- One step of an installation. -/
inductive Directive where
  /-- The image that the following steps apply on top of. -/
  | baseImage (image : String)
  /-- A shell command that runs inside the image. -/
  | runCommand (command : String)
  /-- A variable for the steps that follow. -/
  | environment (key value : String)
  /-- A file put into the image. -/
  | addFile (filename contents : String) (executable : Bool)
  /-- A port that the image publishes. -/
  | exportPort (name : String) (port : UInt16)
  deriving DecidableEq, Repr, Inhabited

namespace Directive

/-- The name of a kind of directive. -/
def kind : Directive → String
  | .baseImage .. => "base_image"
  | .runCommand .. => "run_command"
  | .environment .. => "environment"
  | .addFile .. => "add_file"
  | .exportPort .. => "export_port"

/-- The line of a container file for a directive, for the kinds that have one. -/
def line? : Directive → Option String
  | .baseImage image => some ("FROM " ++ image ++ "\n")
  | .runCommand command => some ("RUN " ++ command ++ "\n")
  | _ => none

/-- The lines up to the first directive without one, and whether all of them have one. -/
def emit : List Directive → String × Outcome Unit
  | [] => ("", .ok ())
  | d :: rest =>
    match d.line? with
    | none => ("", .error (.unsupportedDirective d.kind))
    | some line => (line ++ (emit rest).1, (emit rest).2)

/-- The whole container file, if it can express every directive. -/
def containerFile (directives : List Directive) : Outcome String :=
  (emit directives).2.map fun _ => (emit directives).1

end Directive

end Depot
