import Infill.Builder
import Infill.Line

/-!
Rebuilding a document from a rendered line. Constant entries copy their leaf as
it is, the others copy it with their text. An entry that is not constant and
has no text is dropped: what it pointed to does not come back. An entry behind
which the line had already been begins another pass of a loop, which gets
copies of its own.
-/
namespace Infill

open Infill.Xml

/-- The depth of the atom that holds the end of `path`, looked for along the
path below `e`, which `walked` leads to. -/
def Format.atomFloorFrom (format : Format) (walked : Path) (e : Element) :
    Path → Except Error Nat
  | [] => .ok walked.length
  | index :: path =>
    match e.children[index]? with
    | none => .error (e.missing (walked ++ [index]))
    | some child =>
      match format.atomDepth? child.tag with
      | some depth => .ok (Path.atom (walked ++ [index]) depth).length
      | none => format.atomFloorFrom (walked ++ [index]) child path

/-- The depth of the atom that holds the element at a path: that of the first
element on the path that carries text. -/
def Format.atomFloor (format : Format) (root : Element) (path : Path) : Except Error Nat :=
  format.atomFloorFrom [] root path

/-- The text of a leaf that is being collected. -/
structure OpenLeaf where
  chunks : List String := []
  /-- Whether the leaf has to be written anew. -/
  isDynamic : Bool := false
  deriving DecidableEq, Inhabited, Repr

/-- A line, partly rebuilt. -/
structure Rebuild where
  builder : Builder
  /-- The index of the leaf that the builder stands on, zero before the first. -/
  standing : Nat := 0
  /-- The greatest index since the builder moved onto a leaf. -/
  reach : Nat := 0
  lastSeen : Option Position := none
  /-- The places of the dropped entries. -/
  discarded : List Position := []
  /-- The place that the line went back to, until an entry of the new pass is
  present. -/
  restart : Option Position := none
  leaf : Option OpenLeaf := none
  deriving Inhabited, Repr

/-- What a line is rebuilt from. -/
structure Plan where
  root : Element
  boundaries : Boundaries
  format : Format
  deriving Inhabited

/-- The greatest of some places that come before a given one. -/
def Position.latestBefore (limit : Position) (places : List Position) : Option Position :=
  places.foldl
    (fun best place =>
      if place.before limit && best.all (·.before place) then some place else best)
    none

abbrev RebuildM := StateT Rebuild (Except Error)

namespace RebuildM

/-- A step of the builder. -/
def build {α : Type} (action : BuilderM α) : RebuildM α := do
  match action.run (← get).builder with
  | .ok a builder => modifyGet fun state => (a, { state with builder := builder })
  | .error e _ => throw e

end RebuildM

namespace Plan

open RebuildM

/-- Write the collected text into the leaf that is open. -/
def flush (plan : Plan) : RebuildM Unit := do
  match (← get).leaf with
  | none => pure ()
  | some leaf =>
    modify ({ · with leaf := none })
    if leaf.isDynamic then build (BuilderM.writeLeaf plan.format leaf.chunks)

/-- The depth of the atom that holds a leaf. -/
def atomFloor (plan : Plan) (index : Nat) : Except Error Nat := do
  plan.format.atomFloor plan.root (← plan.boundaries.leaf index)

/-- Let bare copies be taken out from the atom of the leaf on that a boundary
leads to. The closing boundary goes by the last leaf. -/
def setFloor (plan : Plan) (key : Nat) : RebuildM Unit := do
  let index := min key (plan.boundaries.last - 1)
  let floor ← if index = 0 then pure none else some <$> plan.atomFloor index
  build (modify (·.setFloor floor))

/-- On the way to another leaf, copy the ancestors of a leaf down to its atom,
so that elements whose content was all dropped keep their place. -/
def skip (plan : Plan) (key target : Nat) : RebuildM Unit := do
  if key < target ∧ key < plan.boundaries.last then
    let path ← plan.boundaries.leaf key
    let floor ← plan.atomFloor key
    build (BuilderM.descend (path.take floor))

/-- Apply so many boundaries from `key` on, on the way to the leaf `target`. -/
def advanceFrom (plan : Plan) (target key : Nat) : (count : Nat) → RebuildM Unit
  | 0 => pure ()
  | count + 1 => do
    plan.setFloor key
    let boundary ← plan.boundaries.get key
    build (BuilderM.copy boundary.routes)
    plan.skip key target
    plan.advanceFrom target (key + 1) count

/-- Apply every boundary behind the leaf the builder stands on up to the one
that leads to `index`. -/
def advance (plan : Plan) (index : Nat) : RebuildM Unit := do
  let standing := (← get).standing
  plan.advanceFrom index (standing + 1) (index - standing)
  modify fun state => { state with standing := max state.standing index }

/-- Copy a leaf and begin to collect its text. -/
def openLeaf (plan : Plan) (index : Nat) : RebuildM Unit := do
  build (BuilderM.copyLeaf (← plan.boundaries.leaf index))
  modify fun state => { state with standing := index, reach := index, leaf := some {} }

/-- Begin another pass of a loop at a leaf. The pass before ends at the
furthest leaf it reached. The body of the loop begins behind its tag, the last
entry dropped before the place the line went back to. What lies between that
tag and the leaf is copied again, apart from the rest of the tag's own
ancestors; without such a tag only the ancestors of the leaf are. -/
def reenter (plan : Plan) (restart : Position) (index : Nat) : RebuildM Unit := do
  plan.flush
  let exit := max (← get).reach (← get).standing
  plan.advance exit
  let exitPath ← plan.boundaries.leaf exit
  let path ← plan.boundaries.leaf index
  let head := ((Position.latestBefore restart (← get).discarded).map (·.index)).filter (· < index)
  match head with
  | none =>
    let common := Path.sharedLength exitPath path
    plan.setFloor index
    let ending ← Route.ending plan.root exitPath (common + 1)
    build (BuilderM.copy ending)
    build (BuilderM.rewind common)
    build (BuilderM.copy (Route.opening path (common + 1)))
  | some head =>
    let headPath ← plan.boundaries.leaf head
    let common := Path.sharedLength exitPath headPath
    plan.setFloor index
    let ending ← Route.ending plan.root exitPath (common + 1)
    build (BuilderM.copy ending)
    build (BuilderM.rewind common)
    plan.setFloor (head + 1)
    let boundary ← plan.boundaries.get (head + 1)
    build (BuilderM.copy (boundary.gap :: boundary.opening))
    plan.skip (head + 1) index
    plan.advanceFrom index (head + 2) (index - (head + 1))
  plan.openLeaf index

/-- Read one entry of the line. -/
def step (plan : Plan) (pointer : Pointer) (text : String) : RebuildM Unit := do
  let position := pointer.position
  let index := pointer.index
  if (← get).lastSeen.any (position.before ·) then
    modify ({ · with restart := some position })
  modify ({ · with lastSeen := some position })
  if !pointer.isConstant && text.isEmpty then
    modify fun state =>
      { state with discarded := position :: state.discarded, reach := max state.reach index }
  else
    let state ← get
    match state.restart with
    | some restart =>
      modify ({ · with restart := none })
      if state.reach < index then
        plan.flush
        plan.advance index
        plan.openLeaf index
      else if !(state.leaf.isSome && index == state.standing && state.reach == index) then
        plan.reenter restart index
    | none =>
      if state.standing < index then
        plan.flush
        plan.advance index
        plan.openLeaf index
      else if index < state.standing ∨ state.leaf.isNone then
        throw (.unexpectedMove (← plan.boundaries.leaf state.standing) pointer.path)
    modify fun state =>
      { state with
        reach := max state.reach index
        leaf := state.leaf.map fun leaf =>
          { chunks := leaf.chunks ++ [text], isDynamic := leaf.isDynamic || !pointer.isConstant } }

/-- Read every entry of the line, and close the document. -/
def run (plan : Plan) (line : Line) : RebuildM Unit := do
  line.forM fun (pointer, text) => plan.step pointer text
  plan.flush
  plan.advance plan.boundaries.last

end Plan

/-- The document that a rendered line stands for. -/
def enforce (root : Element) (line : Line) (boundaries : Boundaries) (format : Format) :
    Except Error Element := do
  let (_, state) ← (Plan.run ⟨root, boundaries, format⟩ line).run
    { builder := .start root (some format) }
  return state.builder.finish

end Infill
