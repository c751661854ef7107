/-!
Paths name the elements of a tree by the indices of siblings on the way from
the root. Their lexicographic order is document order.
-/
namespace Infill

/-- The sibling indices from the root to an element. -/
abbrev Path := List Nat

instance : LawfulBEq Path := inferInstance

namespace Path

/-- The number of leading steps two paths share. -/
def sharedLength : Path → Path → Nat
  | i :: left, j :: right => if i = j then sharedLength left right + 1 else 0
  | _, _ => 0

@[simp] theorem sharedLength_nil_left (path : Path) : sharedLength [] path = 0 := by
  cases path <;> rfl

@[simp] theorem sharedLength_nil_right (path : Path) : sharedLength path [] = 0 := by
  cases path <;> rfl

/-- The shared steps are the same steps. -/
theorem take_sharedLength (left right : Path) :
    left.take (sharedLength left right) = right.take (sharedLength left right) := by
  fun_induction sharedLength left right with
  | case1 left i right ih => simp [ih]
  | case2 => simp
  | case3 => simp

theorem sharedLength_le_left (left right : Path) : sharedLength left right ≤ left.length := by
  fun_induction sharedLength left right with
  | case1 left i right ih => simpa using ih
  | case2 => simp
  | case3 => simp

/-- A path as it stands in messages: `[0, 1]`, and `[]` for the root. -/
def text (path : Path) : String :=
  "[" ++ ", ".intercalate (path.map Nat.repr) ++ "]"

/-- Several paths as they stand in messages: `[[0], [1, 2]]`. -/
def listText (paths : List Path) : String :=
  "[" ++ ", ".intercalate (paths.map text) ++ "]"

end Path

end Infill
