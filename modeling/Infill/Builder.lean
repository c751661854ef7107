import Infill.Boundary
import Infill.Format

/-!
Copying a tree piece by piece. A builder stands in the copy and knows the
ancestors of its place as frames, each an element whose children are still
being added. Closing a frame makes its element the last child of the one
around it, so the builder is a cursor that only ever moves forward in the copy.

Ancestors are opened as copies without children and stay provisional until a
leaf is copied below them. A provisional one that was opened at or below the
floor and holds nothing but formatting properties is bare. Bare copies are
taken out when the element around them closes, unless that would leave it
without children.
-/
namespace Infill

open Infill.Xml

/-- An open ancestor. -/
structure Frame where
  /-- The index of the source element among its siblings. -/
  step : Nat
  /-- The copy with the children it has so far. -/
  copy : Element
  /-- Whether a leaf was copied below. -/
  isSettled : Bool := false
  /-- Whether it was opened at or below the floor. -/
  isPrunable : Bool := false
  /-- Whether it holds a child besides formatting properties and bare copies. -/
  isFurnished : Bool := false
  /-- The indices of its bare children, ascending. -/
  bare : List Nat := []
  deriving Inhabited, Repr

structure Builder where
  source : Element
  /-- The format whose properties do not count as content. -/
  format : Option Format
  /-- The copy of the root with the children it has so far. -/
  root : Element
  /-- The indices of bare children of the root, ascending. -/
  rootBare : List Nat := []
  /-- The open ancestors, innermost first. -/
  frames : List Frame := []
  /-- The depth from which on copies may be taken out, none for nowhere. -/
  floor : Option Nat := some 0
  /-- The route that was copied last. -/
  route : Option Route := none
  deriving Inhabited, Repr

/-- Take out the children at `bare`. The first of them stays if there is no
other child. -/
def Xml.Element.prune (e : Element) (bare : List Nat) : Element :=
  let kept := if bare.length = e.children.length then 1 else 0
  { e with
    children := (bare.drop kept).foldr (fun index children => children.eraseIdx index) e.children }

namespace Builder

/-- A builder in front of the root's first child. -/
def start (source : Element) (format : Option Format) : Builder :=
  { source := source, format := format, root := source.shell }

/-- The path of the innermost open element in the source. -/
def chain (b : Builder) : Path :=
  (b.frames.map (·.step)).reverse

/-- The number of open ancestors below the root. -/
def depth (b : Builder) : Nat :=
  b.frames.length

/-- The innermost open copy. -/
def current (b : Builder) : Element :=
  match b.frames with
  | frame :: _ => frame.copy
  | [] => b.root

/-- Put another element in place of the innermost open copy. -/
def setCurrent (b : Builder) (e : Element) : Builder :=
  match b.frames with
  | frame :: rest => { b with frames := { frame with copy := e } :: rest }
  | [] => { b with root := e }

/-- Add a child to the innermost open copy. -/
def addChild (b : Builder) (e : Element) : Builder :=
  b.setCurrent { b.current with children := b.current.children ++ [e] }

/-- Note that the innermost open copy holds content. -/
def furnish (b : Builder) : Builder :=
  match b.frames with
  | frame :: rest => { b with frames := { frame with isFurnished := true } :: rest }
  | [] => b

/-- Note that the child at an index of the innermost open copy is bare. -/
def noteBare (b : Builder) (index : Nat) : Builder :=
  match b.frames with
  | frame :: rest => { b with frames := { frame with bare := frame.bare ++ [index] } :: rest }
  | [] => { b with rootBare := b.rootBare ++ [index] }

/-- Close the innermost open ancestor. -/
def close (b : Builder) : Builder :=
  match b.frames with
  | [] => b
  | frame :: rest =>
    let outer := { b with frames := rest }
    let index := outer.current.children.length
    let closed := outer.addChild (frame.copy.prune frame.bare)
    if frame.isPrunable && !frame.isSettled && !frame.isFurnished then closed.noteBare index
    else closed.furnish

/-- Close open ancestors until `depth` remain. -/
def rewind (b : Builder) (depth : Nat) : Builder :=
  Nat.repeat close (b.depth - depth) b

/-- Open a copy without children of an element as the child at `step`. -/
def openChild (b : Builder) (step : Nat) (e : Element) : Builder :=
  { b with
    frames :=
      { step := step
        copy := e.shell
        isPrunable := b.floor.any (· ≤ b.depth + 1) } :: b.frames }

/-- Note that a leaf was copied below every open ancestor. -/
def settle (b : Builder) : Builder :=
  { b with frames := b.frames.map fun frame => { frame with isSettled := true } }

/-- Let copies be taken out from a depth on. -/
def setFloor (b : Builder) (floor : Option Nat) : Builder :=
  { b with floor := floor }

/-- Whether an element only formats what it stands in. -/
def isProperty (b : Builder) (e : Element) : Bool :=
  b.format.any (·.isProperty e.tag)

/-- The finished copy. -/
def finish (b : Builder) : Element :=
  let closed := b.rewind 0
  closed.root.prune closed.rootBare

/-- The innermost open copy with the index of its last child. -/
def lastLeaf (b : Builder) : Element × Nat :=
  (b.current, b.current.children.length - 1)

end Builder

/-- Steps of a builder. One that fails leaves what it did so far. -/
abbrev BuilderM := EStateM Error Builder

namespace BuilderM

/-- A step that may fail and changes nothing. -/
def check {α : Type} (result : Except Error α) : BuilderM α :=
  match result with
  | .ok a => pure a
  | .error e => throw e

/-- Open copies along a path below the open element, which `walked` leads to. -/
def openAlong (walked : Path) : Path → BuilderM Unit
  | [] => pure ()
  | step :: path => do
    let e ← check ((← get).source.find (walked ++ [step]))
    modify (·.openChild step e)
    openAlong (walked ++ [step]) path

/-- Move to `branch`: close the ancestors that do not lie on it and open copies
along the rest of it. -/
def descend (branch : Path) : BuilderM Unit := do
  let common := Path.sharedLength (← get).chain branch
  modify (·.rewind common)
  openAlong (branch.take common) (branch.drop common)

/-- Close open ancestors until `depth` remain. -/
def rewind (depth : Nat) : BuilderM Unit :=
  modify (·.rewind depth)

/-- Copy so many children of an element from `index` on with all that is in
them. The answer tells whether one of them is content. -/
def copyChildren (parent : Element) (index : Nat) : (count : Nat) → BuilderM Bool
  | 0 => pure false
  | count + 1 => do
    let child ← check (parent.child index)
    modify (·.addChild child)
    let isContent := !(← get).isProperty child
    return (← copyChildren parent (index + 1) count) || isContent

/-- Copy the children that a route selects. An empty route does not move the
builder. -/
def copyRoute (route : Route) : BuilderM Unit := do
  if !route.isEmpty then
    descend route.branch
    let parent ← check ((← get).source.find route.branch)
    let isFurnished ← copyChildren parent route.start (route.stop - route.start)
    if isFurnished then modify (·.furnish)
    modify fun b => { b with route := some route }

/-- Copy what routes select, one after the other. -/
def copy (routes : List Route) : BuilderM Unit :=
  routes.forM copyRoute

/-- Copy the leaf at a path and settle every open ancestor. The root is no leaf. -/
def copyLeaf (path : Path) : BuilderM Unit :=
  match path.getLast? with
  | none => pure ()
  | some last => do
    copyRoute ⟨path.dropLast, last, last + 1⟩
    modify (·.settle)

/-- Give the leaf copied last the text of the chunks. -/
def writeLeaf (format : Format) (chunks : List String) : BuilderM Unit := do
  let (parent, node) := (← get).lastLeaf
  let written ← check (format.write parent node chunks)
  modify (·.setCurrent written)

end BuilderM

end Infill
