import Infill.Text.Split

/-!
Access to files: what a command may ask of them, and a directory in memory that
answers.
-/
namespace Infill

/-- What can be done with files whose names are paths. Names are relative to
some directory. -/
structure Files (m : Type → Type) where
  /-- The content of a file, if there is one that can be read. -/
  read? (path : String) : m (Option String)
  isFile (path : String) : m Bool
  /-- Give a file a content. Answers whether that was possible. -/
  write (path content : String) : m Bool

/-- The last name of a path, which may be followed by slashes. A step upwards
is no name. -/
def fileName? (path : String) : Option (List Char) :=
  let names := (Text.parts '/' path.toList).filter fun name => name ≠ [] ∧ name ≠ ['.']
  names.getLast?.bind fun name => if name = ['.', '.'] then none else some name

/-- What follows the last dot of a name, as long as something stands before
it. -/
def extension (path : String) : String :=
  let parts := Text.parts '.' ((fileName? path).getD [])
  match parts with
  | [] | [_] | [[], _] => ""
  | parts => String.ofList (parts.getLast?.getD [])

/-- A directory in memory: its files by the names that lead to them. There are
no other directories than those that hold a file. -/
structure Directory where
  files : List (List (List Char) × String) := []
  deriving Inhabited, Repr

namespace Directory

/-- Whether names lead to a directory. -/
def isDirectory (d : Directory) (place : List (List Char)) : Bool :=
  place.isEmpty
    || d.files.any fun (names, _) => place.isPrefixOf names && place.length < names.length

/-- Where names lead from a place. Nothing outside can be reached, and only the
last name may lead to what is no directory. -/
def walk? (d : Directory) (place : List (List Char)) : List (List Char) → Option (List (List Char))
  | [] => some place
  | name :: names =>
    if !d.isDirectory place then none
    else if name = [] ∨ name = ['.'] then d.walk? place names
    else if name = ['.', '.'] then
      if place.isEmpty then none else d.walk? place.dropLast names
    else d.walk? (place ++ [name]) names

/-- Where a path leads. -/
def find? (d : Directory) (path : String) : Option (List (List Char)) :=
  if path.toList.head? = some '/' then none else d.walk? [] (Text.parts '/' path.toList)

def read? (d : Directory) (path : String) : Option String :=
  (d.find? path).bind fun place => d.files.lookup place

/-- Put a file in place of the one that may be there. -/
def put (d : Directory) (place : List (List Char)) (content : String) : Directory :=
  ⟨(place, content) :: d.files.filter (·.1 != place)⟩

/-- Write a file, whose directory has to be there. -/
def write? (d : Directory) (path content : String) : Option Directory :=
  (d.find? path).bind fun place =>
    if d.isDirectory place then none else some (d.put place content)

/-- A directory that holds files under relative paths. -/
def ofList (files : List (String × String)) : Directory :=
  files.foldl
    (fun d (path, content) => d.put ((Text.parts '/' path.toList).filter (· ≠ [])) content) {}

/-- Access to the files of a directory that goes along. -/
def access : Files (StateM Directory) where
  read? path := do return (← get).read? path
  isFile path := do return ((← get).read? path).isSome
  write path content := do
    match (← get).write? path content with
    | some d =>
      set d
      return true
    | none => return false

end Directory

end Infill
