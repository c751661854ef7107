import Infill.Error
import Infill.Files
import Infill.Json.Reader
import Infill.Toml.Reader
import Infill.Yaml.Node

/-!
Reading the data that a template is filled with.
-/
namespace Infill.Context

/-- The languages in which data is written. -/
inductive Language
  | json
  | toml
  | yaml
  deriving DecidableEq, Inhabited, Repr

/-- The language that a file extension in small letters stands for. -/
def Language.ofExtension? : String → Option Language
  | "json" => some json
  | "toml" => some toml
  | "yaml" | "yml" => some yaml
  | _ => none

def Language.parse? : Language → String → Option Data
  | json => Json.parse?
  | toml => Toml.parse?
  | yaml => Yaml.parse?

/-- Data written in the language of a file extension. -/
def parse (extension content : String) : Except Error Data :=
  match Language.ofExtension? extension with
  | none => .error (.unsupportedContext extension)
  | some language =>
    match language.parse? content with
    | some data => .ok data
    | none => .error .contextFile

/-- A text with its ASCII letters made small. -/
def lowered (text : String) : String :=
  String.ofList (text.toList.map Char.toLower)

/-- Read a file of data in the language of its extension. -/
def load {m : Type → Type} [Monad m] (files : Files m) (path : String) :
    ExceptT Error m Data := do
  match ← files.read? path with
  | some content => MonadExcept.ofExcept (parse (lowered (extension path)) content)
  | none => throw .contextFile

end Infill.Context
