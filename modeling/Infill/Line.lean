import Infill.Tagged

/-!
The flat view of a document: its leaves' texts, cut into entries that each
point to the place they came from.
-/
namespace Infill

/-- The place of an entry. The index numbers the leaves in document order from
one on. -/
structure Pointer where
  path : Path
  isConstant : Bool
  /-- The length of the whole text of the leaf. -/
  total : Nat
  offset : Nat
  length : Nat
  index : Nat
  deriving DecidableEq, Inhabited, Repr

namespace Pointer

/-- The pointer to a span of the leaf with an index. -/
def ofSpan (span : Span) (index : Nat) : Pointer :=
  ⟨span.path, span.isConstant, span.total, span.offset, span.length, index⟩

/-- A pointer as people read it: `#1 [0, 0] dyn 7+10/18`. -/
def text (pointer : Pointer) : String :=
  "#" ++ pointer.index.repr ++ " " ++ Path.text pointer.path ++ " "
    ++ (if pointer.isConstant then "const" else "dyn") ++ " "
    ++ pointer.offset.repr ++ "+" ++ pointer.length.repr ++ "/" ++ pointer.total.repr

end Pointer

/-- A place in document order: the index of a leaf and an offset in its text. -/
structure Position where
  index : Nat
  offset : Nat
  deriving DecidableEq, Inhabited, Repr

namespace Position

/-- Whether one place comes before another. -/
def before (left right : Position) : Bool :=
  left.index < right.index || (left.index == right.index && left.offset < right.offset)

theorem before_iff (left right : Position) :
    left.before right = true ↔
      left.index < right.index ∨ (left.index = right.index ∧ left.offset < right.offset) := by
  simp [before]

theorem before_irrefl (position : Position) : position.before position = false := by
  simp [before]

end Position

/-- Where an entry stands in document order. -/
def Pointer.position (pointer : Pointer) : Position :=
  ⟨pointer.index, pointer.offset⟩

/-- The flat view of a document's text. -/
abbrev Line := List (Pointer × String)

/-- Whether a document holds anything for the template engine. -/
inductive Content
  /-- No tag was found, the document stays as it is. -/
  | plaintext
  | template
  deriving DecidableEq, Inhabited, Repr

/-- The name of a kind of content. -/
def Content.name : Content → String
  | plaintext => "plaintext"
  | template => "template"

end Infill
