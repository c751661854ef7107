import Infill.Format
import Infill.Text.Split

/-!
The arguments of the command line: which task is asked for, and with what
options. Options for every task may stand before or behind its name.
-/
namespace Infill.Command

/-- Where the data of a template comes from. -/
inductive Source
  | nothing
  /-- JSON on the command line. -/
  | inline (text : String)
  | file (path : String)
  deriving DecidableEq, Inhabited, Repr

/-- What the command does. -/
inductive Task
  /-- Fill a part and write it to a file. -/
  | render (source destination : String) (format : Option Format) (context : Source)
  /-- Show the line of a part. -/
  | inspect (source : String) (format : Option Format)
  /-- Show the tape of a part. -/
  | tape (source : String) (format : Option Format)
  deriving DecidableEq, Inhabited, Repr

/-- What the arguments ask for. -/
structure Invocation where
  task : Option Task
  isVerbose : Bool
  /-- The configuration file, if one is named. -/
  config : Option String
  deriving DecidableEq, Inhabited, Repr

/-- Options as they are named in arguments. -/
inductive Switch
  | verbose
  | plain
  | config
  | source
  | destination
  | format
  | context
  | contextFile
  deriving DecidableEq, Inhabited, Repr

namespace Switch

def name : Switch → String
  | verbose => "verbose"
  | plain => "no-color"
  | config => "config"
  | source => "source"
  | destination => "destination"
  | format => "format"
  | context => "context"
  | contextFile => "context-file"

def letter? : Switch → Option Char
  | verbose => some 'v'
  | source => some 's'
  | destination => some 'd'
  | format => some 'f'
  | _ => none

/-- Whether a value follows. -/
def takesValue : Switch → Bool
  | verbose | plain => false
  | _ => true

/-- Whether a value is possible: a path is not empty, and a format is known. -/
def accepts (switch : Switch) (value : String) : Bool :=
  match switch with
  | config | source | destination | contextFile => value ≠ ""
  | format => (Format.ofName? value).isSome
  | _ => true

/-- The options of every task. -/
def shared : List Switch :=
  [verbose, plain, config]

end Switch

/-- The name of a task. -/
inductive Verb
  | render
  | inspect
  | tape
  deriving DecidableEq, Inhabited, Repr

namespace Verb

def ofName? : String → Option Verb
  | "render" => some render
  | "inspect" => some inspect
  | "tape" => some tape
  | _ => none

def switches : Verb → List Switch
  | render => [.source, .destination, .format, .context, .contextFile]
  | inspect | tape => [.source, .format]

end Verb

/-- Options with their values; one that takes none has an empty value. -/
abbrev Settings := List (Switch × String)

/-- Add an option that is not there yet. -/
def add? (switch : Switch) (value : String) (settings : Settings) : Option Settings :=
  if (settings.lookup switch).isNone ∧ switch.accepts value then
    some ((switch, value) :: settings)
  else none

/-- Whether an argument names options. A single hyphen does not. -/
def isSwitch (arg : String) : Bool :=
  arg.toList.head? == some '-' && 1 < arg.toList.length

/-- Add an option whose value is the next argument. -/
def addNext? (switch : Switch) (args : List String) (settings : Settings) :
    Option (Settings × List String) :=
  match args with
  | value :: args =>
    if isSwitch value then none else (add? switch value settings).map (·, args)
  | [] => none

/-- Read an option behind two hyphens, which may hold its value. -/
def long? (known : List Switch) (text : List Char) (args : List String) (settings : Settings) :
    Option (Settings × List String) :=
  let (name, value) := match Text.splitAt? '=' text with
    | some (name, value) => (name, some value)
    | none => (text, none)
  (known.find? fun switch => switch.name.toList == name).bind fun switch =>
    match switch.takesValue, value with
    | true, some value => (add? switch (String.ofList value) settings).map (·, args)
    | true, none => addNext? switch args settings
    | false, none => (add? switch "" settings).map (·, args)
    | false, some _ => none

/-- Read the letters behind one hyphen. What follows the letter of an option
with a value is its value, with an equals sign in front or without. -/
def letters? (known : List Switch) (args : List String) :
    List Char → Settings → Option (Settings × List String)
  | [], settings => some (settings, args)
  | c :: text, settings =>
    (known.find? fun switch => switch.letter? == some c).bind fun switch =>
      if switch.takesValue then
        match text with
        | [] => addNext? switch args settings
        | '=' :: value => (add? switch (String.ofList value) settings).map (·, args)
        | value => (add? switch (String.ofList value) settings).map (·, args)
      else (add? switch "" settings).bind (letters? known args text)

/-- Read the options that an argument names. -/
def switches? (known : List Switch) (arg : String) (args : List String) (settings : Settings) :
    Option (Settings × List String) :=
  match arg.toList with
  | '-' :: '-' :: text => long? known text args settings
  | '-' :: text => letters? known args text settings
  | _ => none

/-- Read options up to an argument that `isEnd` takes. Two hyphens alone end
them too, and nothing follows those. -/
def settings? (known : List Switch) (isEnd : String → Bool) :
    (budget : Nat) → List String → Settings → Option (Settings × List String)
  | 0, _, _ => none
  | _, [], settings => some (settings, [])
  | budget + 1, arg :: args, settings =>
    if isEnd arg then some (settings, arg :: args)
    else if arg = "--" then
      if args.isEmpty then some (settings, []) else none
    else if isSwitch arg then
      (switches? known arg args settings).bind fun (settings, args) =>
        settings? known isEnd budget args settings
    else none

/-- The task of a verb with its options. -/
def task? (verb : Verb) (settings : Settings) : Option Task := do
  let source ← settings.lookup .source
  let format := (settings.lookup .format).bind Format.ofName?
  match verb with
  | .inspect => return .inspect source format
  | .tape => return .tape source format
  | .render =>
    let destination ← settings.lookup .destination
    match settings.lookup .context, settings.lookup .contextFile with
    | none, none => return .render source destination format .nothing
    | some text, none => return .render source destination format (.inline text)
    | none, some path => return .render source destination format (.file path)
    | some _, some _ => none

/-- Read the arguments. Of options for every task those behind the name of the
task count before those in front of it. -/
def Invocation.ofArguments? (args : List String) : Option Invocation := do
  let (front, rest) ←
    settings? Switch.shared (fun arg => (Verb.ofName? arg).isSome) (args.length + 1) args []
  match rest with
  | [] => return ⟨none, (front.lookup .verbose).isSome, front.lookup .config⟩
  | name :: args =>
    let verb ← Verb.ofName? name
    let (back, _) ←
      settings? (verb.switches ++ Switch.shared) (fun _ => false) (args.length + 1) args []
    let task ← task? verb back
    let all := back ++ front
    return ⟨some task, (all.lookup .verbose).isSome, all.lookup .config⟩

end Infill.Command
