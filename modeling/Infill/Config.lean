import Infill.Engine.Render
import Infill.Error
import Infill.Files
import Infill.Format
import Infill.Toml.Reader

/-!
Settings from a configuration file.
-/
namespace Infill

structure Config where
  /-- The document format where a command names none. -/
  format : Option Format := none
  engine : Engine.Settings := {}
  deriving DecidableEq, Inhabited, Repr

namespace Config

/-- One name out of several: the name itself, or the only key of a table that
holds nothing under it. -/
def choice? : Data → Option String
  | .string name => some name
  | .object [(name, .object [])] | .object [(name, .list [])] => some name
  | _ => none

def format? (data : Data) : Option Format :=
  match choice? data with
  | some "docx" => some .docx
  | some "odt" => some .odt
  | _ => none

def leniency? (data : Data) : Option Engine.Leniency :=
  match choice? data with
  | some "lenient" => some .lenient
  | some "strict" => some .strict
  | some "chainable" => some .chainable
  | _ => none

def boolean? : Data → Option Bool
  | .boolean value => some value
  | _ => none

/-- Apply the entries of a table one by one. -/
def fold? {α : Type} (set? : α → String → Data → Option α) (start : α)
    (entries : List (String × Data)) : Option α :=
  entries.foldlM (fun found (key, data) => set? found key data) start

def setEngine? (settings : Engine.Settings) (key : String) (data : Data) :
    Option Engine.Settings :=
  match key with
  | "undefined" => (leniency? data).map fun value => { settings with undefined := value }
  | "keep_trailing_newline" =>
    (boolean? data).map fun value => { settings with keepTrailingNewline := value }
  | _ => none

/-- The keys of the engine's settings in the order in which a list gives their
values. -/
def engineKeys : List String :=
  ["undefined", "keep_trailing_newline"]

/-- The settings of the engine: a table, or a list of values in a fixed order. -/
def engine? : Data → Option Engine.Settings
  | .object entries => fold? setEngine? {} entries
  | .list items => fold? setEngine? {} (engineKeys.zip items)
  | _ => none

def set? (config : Config) (key : String) (data : Data) : Option Config :=
  match key with
  | "format" => (format? data).map fun value => { config with format := some value }
  | "engine" => (engine? data).map fun value => { config with engine := value }
  | _ => none

/-- A configuration as it is written in a file. Unknown keys are refused. -/
def parse (content : String) : Except Error Config :=
  let found := match Toml.parse? content with
    | some (.object entries) => fold? set? {} entries
    | _ => none
  match found with
  | some config => .ok config
  | none => .error .config

/-- The files that may hold a configuration, the first one that is there
counts. -/
def candidates : List String :=
  ["docweave.toml", ".docweave.toml", ".config/docweave.toml"]

/-- The file that holds the configuration, if there is one. -/
def discover? {m : Type → Type} [Monad m] (files : Files m) : m (Option String) :=
  go candidates
where
  go : List String → m (Option String)
    | [] => pure none
    | path :: rest => do
      if ← files.isFile path then return some path else go rest

/-- Read a configuration file. -/
def loadFile {m : Type → Type} [Monad m] (files : Files m) (path : String) :
    ExceptT Error m Config := do
  match ← files.read? path with
  | none => throw .fileAccess
  | some content => MonadExcept.ofExcept (parse content)

/-- Read the configuration file that is found. -/
def load? {m : Type → Type} [Monad m] (files : Files m) : ExceptT Error m (Option Config) := do
  match ← (discover? files : m (Option String)) with
  | none => return none
  | some path => some <$> loadFile files path

end Config

end Infill
