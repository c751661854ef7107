import Infill.Proofs.Writing

/-!
A copy that remembers where its parts came from. The builder only sees elements;
a desk goes through the same motions, but lays down pieces that name their place
in the source. What a run did to a document is read off from the visits that it
paid to the source.
-/
namespace Infill

open Infill.Xml

/-- A piece of a copy. -/
inductive Copy
  /-- A subtree copied with all that is in it. -/
  | clone (source : Path)
  /-- A leaf copied for an entry, with the elements that took its place. -/
  | leaf (source : Path) (elements : List Element)
  /-- An ancestor that was opened and closed again, with what was copied below. -/
  | shell (source : Path) (isBare : Bool) (copies : List Copy)
  deriving Inhabited

namespace Copy

mutual

/-- The elements that a piece stands for. -/
def elements (root : Element) : Copy → List Element
  | clone source => [root.descendant source]
  | leaf _ written => written
  | shell source _ copies =>
    [{ root.descendant source with children := elementsOf root copies }]

/-- The elements that pieces stand for, in order. -/
def elementsOf (root : Element) : List Copy → List Element
  | [] => []
  | copy :: rest => elements root copy ++ elementsOf root rest

end

/-- Whether a piece may be taken out. -/
def isBare : Copy → Bool
  | shell _ isBare _ => isBare
  | _ => false

/-- Whether a piece keeps the element around it from being taken out. -/
def isContent (layout : Layout) : Copy → Bool
  | clone source => !layout.format.isProperty (layout.root.descendant source).tag
  | leaf .. => true
  | shell _ isBare _ => !isBare

/-- Take bare pieces out, but for so many of the first ones. -/
def dropBare : (kept : Nat) → List Copy → List Copy
  | _, [] => []
  | kept, copy :: rest =>
    if copy.isBare then
      match kept with
      | 0 => dropBare 0 rest
      | kept + 1 => copy :: dropBare kept rest
    else copy :: dropBare kept rest

/-- Take bare pieces out. The first of them stays if nothing else is there. -/
def prune (root : Element) (copies : List Copy) : List Copy :=
  dropBare (if copies.countP isBare = (elementsOf root copies).length then 1 else 0) copies

variable {root : Element}

@[simp] theorem elementsOf_nil : elementsOf root [] = [] := rfl

@[simp] theorem elementsOf_cons (copy : Copy) (rest : List Copy) :
    elementsOf root (copy :: rest) = copy.elements root ++ elementsOf root rest := rfl

@[simp] theorem elementsOf_append (left right : List Copy) :
    elementsOf root (left ++ right) = elementsOf root left ++ elementsOf root right := by
  induction left with
  | nil => rfl
  | cons copy left ih => simp [ih]

theorem elements_of_isBare {copy : Copy} (h : copy.isBare = true) :
    ∃ e, copy.elements root = [e] := by
  cases copy with
  | clone source => simp [isBare] at h
  | leaf source written => simp [isBare] at h
  | shell source isBare copies => exact ⟨_, rfl⟩

end Copy

/-- An open ancestor with the pieces laid down in it. -/
structure Sheet where
  /-- The index of the source element among its siblings. -/
  step : Nat
  copies : List Copy := []
  /-- Whether a leaf was copied below. -/
  isSettled : Bool := false
  /-- Whether it was opened at or below the floor. -/
  isPrunable : Bool
  /-- Whether it holds a piece that is content. -/
  isFurnished : Bool := false
  deriving Inhabited

/-- A copy under way. -/
structure Desk where
  /-- The pieces right below the root. -/
  base : List Copy := []
  /-- The open ancestors, innermost first. -/
  sheets : List Sheet := []
  deriving Inhabited

namespace Layout

/-- The elements that take the place of a leaf behind `front`, which has no text
where the leaf is copied as it is. -/
def written (layout : Layout) (front : List Element) (path : Path) :
    (text : Option (List String)) → List Element
  | none => [layout.root.descendant path]
  | some chunks =>
    layout.format.written (layout.root.descendant path.dropLast) front
      (layout.root.descendant path) chunks

end Layout

namespace Desk

variable (layout : Layout)

/-- The path of the innermost open element in the source. -/
def chain (desk : Desk) : Path :=
  (desk.sheets.map (·.step)).reverse

/-- The pieces in the innermost open element. -/
def copies (desk : Desk) : List Copy :=
  match desk.sheets with
  | sheet :: _ => sheet.copies
  | [] => desk.base

/-- Lay a piece down in the innermost open element. -/
def put (copy : Copy) (desk : Desk) : Desk :=
  match desk.sheets with
  | sheet :: rest =>
    { desk with
      sheets :=
        { sheet with
          copies := sheet.copies ++ [copy]
          isFurnished := sheet.isFurnished || copy.isContent layout } :: rest }
  | [] => { desk with base := desk.base ++ [copy] }

/-- Close the innermost open ancestor. -/
def close (desk : Desk) : Desk :=
  match desk.sheets with
  | sheet :: rest =>
    { desk with sheets := rest }.put layout
      (.shell desk.chain (sheet.isPrunable && !sheet.isSettled && !sheet.isFurnished)
        (Copy.prune layout.root sheet.copies))
  | [] => desk

/-- Close open ancestors until `depth` remain. -/
def rewind (depth : Nat) (desk : Desk) : Desk :=
  Nat.repeat (close layout) (desk.sheets.length - depth) desk

/-- Open the child at `step`. -/
def openChild (floor : Option Nat) (desk : Desk) (step : Nat) : Desk :=
  { desk with
    sheets :=
      { step := step, isPrunable := floor.any (· ≤ desk.sheets.length + 1) } :: desk.sheets }

/-- Close the ancestors that do not lie on a path and open the rest of it. -/
def descend (floor : Option Nat) (branch : Path) (desk : Desk) : Desk :=
  let common := Path.sharedLength desk.chain branch
  (branch.drop common).foldl (openChild floor) (desk.rewind layout common)

/-- Note that a leaf was copied below every open ancestor. -/
def settle (desk : Desk) : Desk :=
  { desk with sheets := desk.sheets.map fun sheet => { sheet with isSettled := true } }

/-- The finished copy. -/
def finish (desk : Desk) : Element :=
  { layout.root with
    children := Copy.elementsOf layout.root (Copy.prune layout.root (desk.rewind layout 0).base) }

end Desk

/-- What a builder does at one place of the source. Ancestors that are opened on
the way may be taken out from the floor on. -/
inductive Visit
  /-- Copy a subtree with all that is in it. -/
  | clone (floor : Option Nat) (path : Path)
  /-- Copy a leaf, with a text if it is written anew. -/
  | fill (floor : Option Nat) (path : Path) (text : Option (List String))
  /-- Open the ancestors on a path and nothing else. -/
  | pass (floor : Option Nat) (path : Path)
  /-- Close ancestors until so many remain. -/
  | back (depth : Nat)
  deriving DecidableEq, Inhabited, Repr

namespace Visit

variable (layout : Layout)

/-- Pay one visit. -/
def exec (desk : Desk) : Visit → Desk
  | clone floor path => (desk.descend layout floor path.dropLast).put layout (.clone path)
  | fill floor path text =>
    let parent := desk.descend layout floor path.dropLast
    let front := Copy.elementsOf layout.root parent.copies
    (parent.put layout (.leaf path (layout.written front path text))).settle
  | pass floor path => desk.descend layout floor path
  | back depth => desk.rewind layout depth

/-- Pay visits one after the other. -/
def run (visits : List Visit) (desk : Desk) : Desk :=
  visits.foldl (exec layout) desk

theorem run_append (left right : List Visit) (desk : Desk) :
    run layout (left ++ right) desk = run layout right (run layout left desk) :=
  List.foldl_append

theorem run_cons (visit : Visit) (visits : List Visit) (desk : Desk) :
    run layout (visit :: visits) desk = run layout visits (exec layout desk visit) := rfl

@[simp] theorem run_nil (desk : Desk) : run layout [] desk = desk := rfl

end Visit

/-- The document that visits leave behind. -/
def Layout.assemble (layout : Layout) (visits : List Visit) : Element :=
  (Visit.run layout visits {}).finish layout

end Infill
