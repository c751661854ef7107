/-!
The data a template is filled with: a tree of scalars, lists and objects.
-/
namespace Infill

inductive Data
  | null
  | boolean (value : Bool)
  | integer (value : Int)
  | real (value : Float)
  | string (value : String)
  | list (items : List Data)
  /-- The entries in the order of their keys, each key once. -/
  | object (entries : List (String × Data))
  deriving Inhabited, Repr

namespace Data

/-- Give a key a value among entries that are ordered by key. -/
def insert {α : Type} (key : String) (value : α) : List (String × α) → List (String × α)
  | [] => [(key, value)]
  | (k, v) :: rest =>
    if key < k then (key, value) :: (k, v) :: rest
    else if key = k then (key, value) :: rest
    else (k, v) :: insert key value rest

/-- Entries ordered by key, the last one of each key. -/
def ordered {α : Type} (entries : List (String × α)) : List (String × α) :=
  entries.foldl (fun sorted (key, value) => insert key value sorted) []

/-- An object from entries in any order. The last value of a key counts. -/
def ofEntries (entries : List (String × Data)) : Data :=
  .object (ordered entries)

/-- The value of a key. -/
def get? : Data → String → Option Data
  | .object entries, key => entries.lookup key
  | _, _ => none

end Data

end Infill
