import Infill.Data

/-!
Tables of a TOML text while it is read. Where a table came from decides who may
add to it: a header opens each table once, and keys with dots add only to
tables that such keys began.
-/
namespace Infill.Toml

/-- How a table came about. -/
inductive Origin
  /-- On the way to a table of a header. -/
  | implied
  /-- By a header of its own. -/
  | header
  /-- By a key with dots. -/
  | dotted
  deriving DecidableEq, Inhabited, Repr

inductive Entry
  /-- A value that nothing can be added to. -/
  | value (data : Data)
  | table (origin : Origin) (entries : List (String × Entry))
  /-- The tables of one header that stands in double brackets, the last one
  first. -/
  | tables (items : List (List (String × Entry)))
  deriving Inhabited, Repr

/-- What the keys of a table stand for. -/
abbrev Entries := List (String × Entry)

namespace Entries

/-- Put an entry under a key in place of the one that is there. -/
def put (key : String) (entry : Entry) : Entries → Entries
  | [] => [(key, entry)]
  | (k, e) :: rest => if k = key then (key, entry) :: rest else (k, e) :: put key entry rest

/-- Change the table that a header leads to, opening those on the way. -/
def within (change : Entries → Option Entries) : (path : List String) → Entries → Option Entries
  | [], entries => change entries
  | key :: path, entries =>
    match entries.lookup key with
    | none => (within change path []).map fun inner => put key (.table .implied inner) entries
    | some (.table origin inner) =>
      (within change path inner).map fun inner => put key (.table origin inner) entries
    | some (.tables (last :: before)) =>
      (within change path last).map fun last => put key (.tables (last :: before)) entries
    | some _ => none

/-- Open the table of a header. -/
def openTable (key : String) (entries : Entries) : Option Entries :=
  match entries.lookup key with
  | none => some (put key (.table .header []) entries)
  | some (.table .implied inner) => some (put key (.table .header inner) entries)
  | some _ => none

/-- Begin another one of the tables of a header in double brackets. -/
def addTable (key : String) (entries : Entries) : Option Entries :=
  match entries.lookup key with
  | none => some (put key (.tables [[]]) entries)
  | some (.tables items) => some (put key (.tables ([] :: items)) entries)
  | some _ => none

/-- Give a key, which may have dots, its value. No key has two. -/
def assign (data : Data) : (path : List String) → Entries → Option Entries
  | [], _ => none
  | [key], entries =>
    match entries.lookup key with
    | none => some (put key (.value data) entries)
    | some _ => none
  | key :: path, entries =>
    match entries.lookup key with
    | none => (assign data path []).map fun inner => put key (.table .dotted inner) entries
    | some (.table .dotted inner) =>
      (assign data path inner).map fun inner => put key (.table .dotted inner) entries
    | some _ => none

end Entries

mutual

/-- The data of an entry. -/
def Entry.data : Entry → Data
  | .value data => data
  | .table _ entries => .ofEntries (Entry.dataOfEntries entries)
  | .tables items => .list (Entry.dataOfTables items).reverse

def Entry.dataOfEntries : List (String × Entry) → List (String × Data)
  | [] => []
  | (key, entry) :: rest => (key, entry.data) :: Entry.dataOfEntries rest

def Entry.dataOfTables : List (List (String × Entry)) → List Data
  | [] => []
  | entries :: rest => .ofEntries (Entry.dataOfEntries entries) :: Entry.dataOfTables rest

end

end Infill.Toml
