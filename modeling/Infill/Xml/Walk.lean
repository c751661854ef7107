import Infill.Xml.Element

/-!
Walking over a tree from the root down, an element before its children. The
walk is a stack of the elements still to come; leaving out the elements below
the one just met means dropping them from the top of the stack.
-/
namespace Infill.Xml

/-- The elements still to come with their paths, the next one first. -/
structure Walk where
  pending : List (Path × Element)

namespace Walk

/-- The children of an element with their paths. -/
def below (path : Path) (e : Element) : List (Path × Element) :=
  e.children.mapIdx fun index child => (path ++ [index], child)

/-- A walk that begins with `root`. -/
def start (root : Element) : Walk :=
  ⟨[([], root)]⟩

/-- Take the next element, whose children become the next ones to come. -/
def next? : Walk → Option ((Path × Element) × Walk)
  | ⟨[]⟩ => none
  | ⟨(path, e) :: rest⟩ => some ((path, e), ⟨below path e ++ rest⟩)

/-- Drop the next `count` elements, or all when there are fewer. -/
def skip (walk : Walk) (count : Nat) : Walk :=
  ⟨walk.pending.drop count⟩

/-- Right behind an element, dropping as many as it has children leaves out
everything below it. -/
theorem skip_children (path : Path) (e : Element) (rest : List (Path × Element)) :
    (skip ⟨below path e ++ rest⟩ e.children.length).pending = rest := by
  have : (below path e).length = e.children.length := by simp [below]
  simp [skip, ← this]

end Walk

end Infill.Xml
