import Infill.Line
import Infill.Xml.Element

/-!
Boundaries: what lies between two leaves that follow each other. It is given by
routes, each a range of siblings, in the order in which they stand in the
document: what follows the first leaf in its ancestors, what lies between the
two below their common ancestor, and what precedes the second leaf in its own.
-/
namespace Infill

open Infill.Xml

/-- The children of the element at `branch` from `start` up to before `stop`. -/
structure Route where
  branch : Path
  start : Nat
  stop : Nat
  deriving DecidableEq, Inhabited, Repr

namespace Route

/-- Whether a route selects no child. -/
def isEmpty (route : Route) : Bool :=
  route.stop ≤ route.start

/-- A route as people read it: `[0, 1][2..3]`. -/
def text (route : Route) : String :=
  Path.text route.branch ++ "[" ++ route.start.repr ++ ".." ++ route.stop.repr ++ "]"

/-- The siblings before every step of a path, outermost first. -/
def before (walked : Path) : Path → List Route
  | [] => []
  | index :: path => ⟨walked, 0, index⟩ :: before (walked ++ [index]) path

/-- The siblings behind every step of a path below `e`, innermost first. The
last step need not lead to an element. -/
def behind (e : Element) (walked : Path) : Path → Except Error (List Route)
  | [] => .ok []
  | [index] => .ok [⟨walked, index + 1, e.children.length⟩]
  | index :: path =>
    match e.children[index]? with
    | some child => do
      return (← behind child (walked ++ [index]) path) ++ [⟨walked, index + 1, e.children.length⟩]
    | none => .error (e.missing (walked ++ [index]))

/-- The siblings before a path from level `depth` on, outermost first. Levels
without any are left out. -/
def opening (path : Path) (depth : Nat) : List Route :=
  ((before [] path).drop depth).filter (!·.isEmpty)

/-- The siblings behind a path down from level `depth`, innermost first. Levels
without any are left out. -/
def ending (root : Element) (path : Path) (depth : Nat) : Except Error (List Route) :=
  if depth < path.length then do
    let routes ← behind root [] path
    return (routes.take (path.length - depth)).filter (!·.isEmpty)
  else .ok []

end Route

/-- What lies between two leaves. -/
structure Boundary where
  /-- What follows the first leaf in its ancestors, innermost first. -/
  ending : List Route
  /-- What lies between the leaves below their common ancestor. -/
  gap : Route
  /-- What precedes the second leaf in its ancestors, outermost first. -/
  opening : List Route
  deriving DecidableEq, Inhabited, Repr

namespace Boundary

/-- All routes in document order. -/
def routes (boundary : Boundary) : List Route :=
  boundary.ending ++ boundary.gap :: boundary.opening

/-- The boundary in front of the first leaf. -/
def first (path : Path) : Boundary :=
  ⟨[], ⟨[], 0, path.headD 0⟩, Route.opening path 1⟩

/-- The boundary between two leaves, neither of which lies in the other. -/
def between (root : Element) (previous next : Path) : Except Error Boundary :=
  let common := Path.sharedLength previous next
  match previous[common]?, next[common]? with
  | some leaving, some entering => do
    return ⟨← Route.ending root previous (common + 1),
      ⟨previous.take common, leaving + 1, entering⟩,
      Route.opening next (common + 1)⟩
  | _, _ => .error (.unexpectedMove previous next)

/-- The boundary behind the last leaf, or the whole document if it has none. -/
def last (root : Element) : Option Path → Except Error Boundary
  | some path => do
    return ⟨← Route.ending root path 1, ⟨[], path.headD 0 + 1, root.children.length⟩, []⟩
  | none => .ok ⟨[], ⟨[], 0, root.children.length⟩, []⟩

end Boundary

/-- Values under numbers, in ascending order of these. -/
abbrev Ascending (α : Type) := List (Nat × α)

namespace Ascending

/-- Put a value under a number in place of the one that is there. -/
def insert {α : Type} (key : Nat) (value : α) : Ascending α → Ascending α
  | [] => [(key, value)]
  | (k, v) :: rest =>
    if key < k then (key, value) :: (k, v) :: rest
    else if key = k then (key, value) :: rest
    else (k, v) :: insert key value rest

/-- Put a value under a number that has none yet. -/
def insertNew {α : Type} (key : Nat) (value : α) (entries : Ascending α) : Ascending α :=
  if (entries.lookup key).isSome then entries else insert key value entries

theorem lookup_cons {α : Type} (k key : Nat) (value : α) (entries : Ascending α) :
    List.lookup k ((key, value) :: entries) =
      if k = key then some value else List.lookup k entries := by
  by_cases same : k = key
  · rw [if_pos same, same, List.lookup_cons_self]
  · rw [if_neg same, List.lookup_cons, beq_eq_false_iff_ne.2 same]

/-- A value is found where it was put, and the others stay. -/
theorem lookup_insert {α : Type} (key : Nat) (value : α) (entries : Ascending α) (k : Nat) :
    List.lookup k (insert key value entries) =
      if k = key then some value else List.lookup k entries := by
  induction entries with
  | nil => simp [insert, lookup_cons]
  | cons entry rest ih =>
    obtain ⟨key', value'⟩ := entry
    simp only [insert]
    split
    · simp only [lookup_cons]
    · split
      · rename_i same
        subst same
        simp only [lookup_cons]
        split <;> rfl
      · rename_i differs
        simp only [lookup_cons, ih]
        split
        · rename_i here
          subst here
          simp [Ne.symm differs]
        · rfl

end Ascending

/-- The boundaries of a line. -/
structure Boundaries where
  /-- Every boundary under the index of the leaf it leads to. The one under the
  number of leaves plus one closes the document. -/
  entries : Ascending Boundary
  /-- The paths of the leaves. -/
  leaves : Ascending Path
  deriving DecidableEq, Inhabited, Repr

namespace Boundaries

/-- The boundary that leads to a leaf. -/
def get (boundaries : Boundaries) (index : Nat) : Except Error Boundary :=
  match boundaries.entries.lookup index with
  | some boundary => .ok boundary
  | none => .error (.malformedTape (.unknownLeaf index))

/-- The path of a leaf. -/
def leaf (boundaries : Boundaries) (index : Nat) : Except Error Path :=
  match boundaries.leaves.lookup index with
  | some path => .ok path
  | none => .error (.malformedTape (.unknownLeaf index))

/-- The index of the closing boundary. -/
def last (boundaries : Boundaries) : Nat :=
  boundaries.leaves.length + 1

/-- The leaves of a line, each under its index with the first path it has. -/
def leavesOf (line : Line) : Ascending Path :=
  line.foldl (fun leaves (pointer, _) => leaves.insertNew pointer.index pointer.path) []

/-- The boundaries that lead to leaves, the first one from `previous`. -/
def leading (root : Element) : (previous : Option Path) → Ascending Path →
    Except Error (Ascending Boundary)
  | _, [] => .ok []
  | previous, (index, path) :: rest =>
    if path = [] then .error (.unexpectedMove [] [])
    else do
      let boundary ← match previous with
        | some previous => Boundary.between root previous path
        | none => .ok (.first path)
      return (index, boundary) :: (← leading root (some path) rest)

/-- The boundaries of a line in a document. -/
def ofLine (root : Element) (line : Line) : Except Error Boundaries := do
  let leaves := leavesOf line
  let entries ← leading root none leaves
  let closing ← Boundary.last root (leaves.getLast?.map Prod.snd)
  return ⟨entries.insert (leaves.length + 1) closing, leaves⟩

end Boundaries

end Infill
