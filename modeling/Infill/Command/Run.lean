import Infill.Command.Arguments
import Infill.Config
import Infill.Context
import Infill.Engine.Render
import Infill.Part
import Infill.Text.Quoted

/-!
Running the command: what it prints, what it writes, and the code it ends with.
-/
namespace Infill.Command

/-- Why the command does not do what it is asked for. -/
inductive Failure
  /-- The arguments make no sense. -/
  | usage
  | noTask
  /-- Neither the arguments nor the configuration name a document format. -/
  | noFormat
  | unreadable (path : String)
  | unwritable (path : String)
  /-- The files are there, but something is wrong with them. -/
  | refused (error : Error)
  deriving DecidableEq, Inhabited, Repr

namespace Failure

/-- The code that the command ends with. -/
def code : Failure → Nat
  | noTask => 1
  | _ => 2

/-- The name under which a failure is reported to tools, where it has one. -/
def diagnostic? : Failure → Option String
  | refused error => some error.code
  | _ => none

def message : Failure → String
  | usage => "the arguments are not understood"
  | noTask => "no subcommand specified"
  | noFormat =>
    "no document format given, pass `--format docx|odt` or set `format` in docweave.toml"
  | unreadable path => "failed to read " ++ path
  | unwritable path => "failed to write " ++ path
  | refused error => error.message?.getD error.code

end Failure

/-- A run over files that may fail. -/
abbrev RunM (m : Type → Type) := ExceptT Failure m

section

variable {m : Type → Type} [Monad m]

/-- Run what may fail because something is wrong with a file. -/
def orRefuse {α : Type} (action : ExceptT Error m α) : RunM m α :=
  ExceptT.adapt Failure.refused action

/-- Do what may fail because something is wrong with a document. -/
def checked {α : Type} (result : Except Error α) : RunM m α :=
  MonadExcept.ofExcept (result.mapError Failure.refused)

/-- The configuration that the arguments name, or that is found. -/
def configuration (files : Files m) (path : Option String) : RunM m Config :=
  match path with
  | some path => orRefuse (Config.loadFile files path)
  | none => do return (← orRefuse (Config.load? files)).getD {}

/-- The format of a part. -/
def format (given : Option Format) (config : Config) : RunM m Format :=
  match given.or config.format with
  | some format => pure format
  | none => throw .noFormat

/-- The data of a template. -/
def context (files : Files m) : Source → RunM m Data
  | .nothing => pure (.object [])
  | .inline text => checked (Context.parse "json" text)
  | .file path => orRefuse (Context.load files path)

def readPart (files : Files m) (path : String) : RunM m String := do
  match ← (files.read? path : m (Option String)) with
  | some content => return content
  | none => throw (.unreadable path)

def writePart (files : Files m) (path content : String) : RunM m Unit := do
  unless ← (files.write path content : m Bool) do
    throw (.unwritable path)

/-- A line as it is shown, with an entry on each line of the text. -/
def lineText (content : Content) (line : Line) : String :=
  let entry (item : Pointer × String) : String :=
    "  " ++ item.1.text ++ "  " ++ String.ofList (Text.quoted item.2.toList) ++ "\n"
  "Content type: " ++ content.name ++ "\nEntries: " ++ line.length.repr ++ "\n"
    ++ String.join (line.map entry)

/-- Do what is asked for. The answer is what is printed. -/
def perform (files : Files m) (isVerbose : Bool) (config : Config) : Task → RunM m String
  | .render source destination given origin => do
    let format ← format given config
    let data ← context files origin
    let part ← readPart files source
    let output ← checked (Part.render (Engine.render config.engine data) format part)
    writePart files destination output
    return if isVerbose then "Rendered " ++ source ++ " into " ++ destination ++ ".\n" else ""
  | .inspect source given => do
    let format ← format given config
    let part ← readPart files source
    let (content, line) ← checked (Part.inspect format part)
    return lineText content line
  | .tape source given => do
    let format ← format given config
    let part ← readPart files source
    let (_, line) ← checked (Part.inspect format part)
    return Tape.display line ++ "\n"

/-- Run the command with its arguments. -/
def run (files : Files m) (args : List String) : RunM m String := do
  match Invocation.ofArguments? args with
  | none => throw .usage
  | some invocation =>
    match invocation.task with
    | none => throw .noTask
    | some task =>
      perform files invocation.isVerbose (← configuration files invocation.config) task

end

end Infill.Command
