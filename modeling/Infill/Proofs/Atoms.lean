import Infill.Proofs.Assembly
import Infill.Proofs.Itinerary

/-!
The atoms of leaves. The first element on the way to a leaf that carries text
decides on the atom, so leaves that share this element share their atom.
-/
namespace Infill

open Infill.Xml

namespace Format

variable {format : Format}

/-- The atom of what carries text is the element itself or the one around it. -/
theorem atomDepth?_cases {tag : String} {depth : Int} (h : format.atomDepth? tag = some depth) :
    depth = 0 ∨ depth = -1 := by
  have hMem : ∀ entry ∈ format.textNodes, entry.2 = 0 ∨ entry.2 = -1 := by
    cases format with
    | docx => decide
    | odt => decide
  obtain ⟨front, back, hSplit, -⟩ := List.lookup_eq_some_iff.1 h
  exact hMem (tag, depth) (hSplit ▸ List.mem_append_right front List.mem_cons_self)

/-- The atom is looked for up to the first element that carries text. -/
theorem atomFloorFrom_eq {front back : Path} (walked : Path) {e : Element} {depth : Int}
    (hNonempty : front ≠ []) (hReaches : e.Reaches (front ++ back))
    (hDepth : format.atomDepth? (e.descendant front).tag = some depth)
    (hFirst : ∀ above, above <+: front → above ≠ [] → above ≠ front →
      format.atomDepth? (e.descendant above).tag = none) :
    format.atomFloorFrom walked e (front ++ back) =
      .ok (Path.atom (walked ++ front) depth).length := by
  induction front generalizing walked e with
  | nil => exact absurd rfl hNonempty
  | cons index front ih =>
    rw [List.cons_append] at hReaches
    obtain ⟨hChild, hHere, hRest⟩ := hReaches.cons_inv
    have hBelow : ∀ path, e.descendant (index :: path) = (e.descendant [index]).descendant path :=
      fun path => hHere.descendant_append path
    rw [List.cons_append, atomFloorFrom, hChild]
    by_cases hLast : front = []
    · subst hLast
      simp only [hDepth]
    · have hNone : format.atomDepth? (e.descendant [index]).tag = none :=
        hFirst [index] ⟨front, rfl⟩ (List.cons_ne_nil _ _) (by simpa using Ne.symm hLast)
      have hNext := ih (walked ++ [index]) hLast hRest (hBelow front ▸ hDepth) (by
        intro above hAbove hSome hOther
        rw [← hBelow]
        exact hFirst (index :: above) (by simpa using hAbove) (List.cons_ne_nil _ _)
          (by simpa using hOther))
      simp only [hNone]
      rw [hNext, List.append_assoc, List.singleton_append]

end Format

namespace Layout

variable {layout : Layout} {x bearer path : Path} {key other : Nat}

/-- Whether an element is the first on the way to a leaf that carries text. -/
structure Bears (layout : Layout) (bearer leaf : Path) : Prop where
  inside : bearer <+: leaf
  carries : layout.Carries bearer
  first : ∀ above, above <+: bearer → layout.Carries above → above = bearer

/-- An element that carries text on the way to a leaf is or is below the first
such element. -/
theorem exists_bears {leaf : Path} (hPath : path <+: leaf) (hCarries : layout.Carries path) :
    ∃ bearer, bearer <+: path ∧ layout.Bears bearer leaf := by
  have hSome : ∃ count, layout.Carries (path.take count) :=
    ⟨path.length, by rwa [List.take_length]⟩
  classical
  refine ⟨path.take (Nat.find hSome), List.take_prefix _ _,
    (List.take_prefix _ _).trans hPath, Nat.find_spec hSome, fun above hAbove hOther => ?_⟩
  have hMin := Nat.find_min' hSome (m := above.length) (by
    rwa [← List.prefix_iff_eq_take.1 (hAbove.trans (List.take_prefix _ _))])
  refine List.IsPrefix.eq_of_length_le hAbove ?_
  rw [List.length_take]
  omega

/-- On the way to every leaf there is an element that carries text. -/
theorem exists_carries {leaf : Path} (hLeaf : leaf ∈ layout.leaves) :
    ∃ path, path <+: leaf ∧ layout.Carries path := by
  have hHolds := layout.holdsText leaf hLeaf
  rcases hHolds.kind with hSolid | ⟨-, hNonempty, hCarrier⟩
  · exact ⟨leaf, List.prefix_rfl, hHolds.nonempty, Format.isCarrier_of_isSolid hSolid⟩
  · exact ⟨leaf.dropLast, List.dropLast_prefix leaf, hNonempty, hCarrier⟩

theorem exists_bearer {leaf : Path} (hLeaf : leaf ∈ layout.leaves) :
    ∃ bearer, layout.Bears bearer leaf := by
  obtain ⟨path, hPath, hCarries⟩ := exists_carries hLeaf
  obtain ⟨bearer, -, hBears⟩ := exists_bears hPath hCarries
  exact ⟨bearer, hBears⟩

namespace Bears

theorem level_eq (h : layout.Bears bearer (layout.path key)) (hPos : 1 ≤ key)
    (hCount : key ≤ layout.count) {depth : Int}
    (hDepth : layout.format.atomDepth? (layout.root.descendant bearer).tag = some depth) :
    layout.level key = (Path.atom bearer depth).length := by
  obtain ⟨back, hBack⟩ := h.inside
  have hReaches := leaf_reaches (path_mem hPos hCount)
  rw [← hBack] at hReaches
  have hFloor := Format.atomFloorFrom_eq [] h.carries.1 hReaches hDepth (by
    intro above hAbove hSome hOther
    by_contra hNot
    exact hOther (h.first above hAbove ⟨hSome, Option.isSome_iff_ne_none.2 hNot⟩))
  rw [level, Format.atomFloor, ← hBack, hFloor]
  rfl

/-- The atom of a leaf is the first element on the way that carries text, or the
one around it. -/
theorem level_cases (h : layout.Bears bearer (layout.path key)) (hPos : 1 ≤ key)
    (hCount : key ≤ layout.count) :
    layout.level key = bearer.length ∨ layout.level key + 1 = bearer.length := by
  obtain ⟨depth, hDepth⟩ := Option.isSome_iff_exists.1 h.carries.2
  have hLength := List.length_pos_iff.2 h.carries.1
  rw [h.level_eq hPos hCount hDepth, Path.atom, List.length_take]
  rcases Format.atomDepth?_cases hDepth with rfl | rfl
  · left
    omega
  · right
    omega

end Bears

/-- The depth of an atom is not greater than that of an element on the way that
carries text. -/
theorem level_le_of_carries (hPos : 1 ≤ key) (hCount : key ≤ layout.count)
    (hPath : path <+: layout.path key) (hCarries : layout.Carries path) :
    layout.level key ≤ path.length := by
  obtain ⟨bearer, hAbove, hBears⟩ := exists_bears hPath hCarries
  have := hAbove.length_le
  have := hBears.level_cases hPos hCount
  omega

theorem level_le_length (hPos : 1 ≤ key) (hCount : key ≤ layout.count) :
    layout.level key ≤ (layout.path key).length := by
  obtain ⟨bearer, hBears⟩ := exists_bearer (path_mem hPos hCount)
  have := hBears.inside.length_le
  have := hBears.level_cases hPos hCount
  omega

/-- On the way to a leaf its atom may be taken out, and what lies below that. -/
theorem floor_eq (hPos : 1 ≤ key) (hCount : key ≤ layout.count) :
    layout.floor key = some (layout.level key) := by
  rw [floor, Nat.min_eq_left hCount, if_neg (by omega)]

/-- Where one leaf in an element has its atom around the element, so has every
other. -/
theorem level_eq_of_lt (hPos : 1 ≤ key) (hCount : key ≤ layout.count) (hOtherPos : 1 ≤ other)
    (hOtherCount : other ≤ layout.count) (hInside : x <+: layout.path key)
    (hOther : x <+: layout.path other) (hLess : layout.level key < x.length) :
    layout.level other = layout.level key := by
  obtain ⟨bearer, hBears⟩ := exists_bearer (path_mem hPos hCount)
  have hLength := hBears.level_cases hPos hCount
  have hAbove : bearer <+: x :=
    List.prefix_of_prefix_length_le hBears.inside hInside (by omega)
  have hSame : layout.Bears bearer (layout.path other) :=
    ⟨hAbove.trans hOther, hBears.carries, hBears.first⟩
  obtain ⟨depth, hDepth⟩ := Option.isSome_iff_exists.1 hBears.carries.2
  rw [hSame.level_eq hOtherPos hOtherCount hDepth, hBears.level_eq hPos hCount hDepth]

end Layout

end Infill
