import Infill.Proofs.Containers

/-!
The children that stay in a container. A child that is opened and gets no content
is left bare and taken out again, unless all children are left like this: then the
first one stays. Which ones are bare does not depend on what they are. So a cell
of a table keeps a paragraph if one of its paragraphs has content, but it may lose
all of them where formatting or some other child of the cell stays.
-/
namespace Infill

open Infill.Xml

/-- Whether an element has a child with an expanded name. -/
def Xml.Element.HasChild (e : Element) (tag : String) : Prop :=
  ∃ child ∈ e.children, child.tag = tag

instance (e : Element) (tag : String) : Decidable (e.HasChild tag) :=
  inferInstanceAs (Decidable (∃ child ∈ e.children, child.tag = tag))

theorem Copy.mem_elementsOf {root e : Element} {copies : List Copy} :
    e ∈ elementsOf root copies ↔ ∃ copy ∈ copies, e ∈ copy.elements root := by
  induction copies with
  | nil => simp
  | cons copy copies ih => simp [ih]

theorem Copy.clone_mem_iff {y : Path} {copies : List Copy} :
    .clone y ∈ copies ↔ y ∈ copies.filterMap Copy.cloned? := by
  rw [List.mem_filterMap]
  constructor
  · exact fun h => ⟨_, h, rfl⟩
  · rintro ⟨copy, hCopy, hSource⟩
    cases copy with
    | clone source =>
      obtain rfl := Option.some.inj hSource
      exact hCopy
    | leaf source elements => cases hSource
    | shell source isBare copies => cases hSource

theorem Copy.leaf_mem_iff {y : Path} {copies : List Copy} : (∃ elements, .leaf y elements ∈ copies) ↔
    y ∈ copies.filterMap (fun copy => copy.leaf?.map Prod.fst) := by
  rw [List.mem_filterMap]
  constructor
  · rintro ⟨elements, h⟩
    exact ⟨_, h, rfl⟩
  · rintro ⟨copy, hCopy, hSource⟩
    cases copy with
    | clone source => cases hSource
    | leaf source elements =>
      obtain rfl := Option.some.inj hSource
      exact ⟨elements, hCopy⟩
    | shell source isBare copies => cases hSource

namespace Layout

variable {layout : Layout} {line : Line} {x y : Path} {index : Nat}

/-- What a run lays down in an element, bare pieces included. -/
def laid (layout : Layout) (line : Line) (x : Path) : List Copy :=
  Nest.layOf layout x [] (Nest.group x.length (layout.inside line x))

/-- Whether an element is opened and left bare: its atom allows for that, no leaf
is copied in it, and nothing that is laid down in it counts as content. -/
def Vacated (layout : Layout) (line : Line) (x : Path) : Prop :=
  layout.isBareRoom x (layout.inside line x) = true

/-- Whether a child with a tag is left of those of an element: one that is not left
bare, or the first one if all of them are left bare. -/
def LeavesChild (layout : Layout) (line : Line) (x : Path) (tag : String) : Prop :=
  (∃ index, layout.root.Reaches (x ++ [index]) ∧
    (layout.root.descendant (x ++ [index])).tag = tag ∧ ¬ layout.Vacated line (x ++ [index])) ∨
  (∀ index, layout.root.Reaches (x ++ [index]) → layout.Vacated line (x ++ [index])) ∧
    (layout.root.descendant (x ++ [0])).tag = tag

/-! ### What is laid down in an element -/

theorem clone_mem_laid : .clone y ∈ layout.laid line x ↔ layout.OffPath y ∧ y.dropLast = x := by
  have hCloned : (layout.laid line x).filterMap Copy.cloned? =
      layout.way.filter fun y => layout.OffPath y ∧ y.dropLast = x := by
    rw [laid, Nest.filterMap_layOf (g := Visit.cloned?) (fun _ _ _ => rfl)
      (fun visit front => by cases visit <;> rfl) (areAt_inside line x), Nest.visitsOf_group,
      cloned_inside]
  rw [Copy.clone_mem_iff, hCloned, List.mem_filter, decide_eq_true_iff]
  exact ⟨And.right, fun h => ⟨mem_way.2 (.inr h.1), h⟩⟩

theorem leaf_mem_laid : (∃ elements, .leaf y elements ∈ layout.laid line x) ↔
    (y ∈ layout.leaves ∧ layout.Opened line y) ∧ y.dropLast = x := by
  have hFilled : (layout.laid line x).filterMap (fun copy => copy.leaf?.map Prod.fst) =
      layout.way.filter fun y => (y ∈ layout.leaves ∧ layout.Opened line y) ∧ y.dropLast = x := by
    rw [laid, Nest.filterMap_layOf (g := fun visit => visit.fill?.map Prod.fst) (fun _ _ _ => rfl)
      (fun visit front => by cases visit <;> rfl) (areAt_inside line x), Nest.visitsOf_group,
      filled_inside]
  rw [Copy.leaf_mem_iff, hFilled, List.mem_filter, decide_eq_true_iff]
  exact ⟨And.right, fun h => ⟨mem_way.2 (.inl h.1.1), h⟩⟩

/-- The copy of a child was opened for a visit that goes there. -/
theorem inside_of_shell_mem_laid {isBare : Bool} {copies : List Copy}
    (h : .shell y isBare copies ∈ layout.laid line x) :
    (∃ index, y = x ++ [index]) ∧ layout.root.Reaches y ∧ layout.inside line y ≠ [] := by
  rcases Nest.mem_layOf_cases (areAt_inside line x) h with
    ⟨visit, -, front, hPiece⟩ | ⟨index, isBare, copies, hShell, visit, hVisit, hOpens⟩
  · cases visit <;> simp [Visit.pieces] at hPiece
  · obtain ⟨rfl, -, -⟩ := Copy.shell.inj hShell
    rw [Nest.visitsOf_group] at hVisit
    obtain ⟨z, hz, rfl⟩ := List.mem_map.1 hVisit
    have hWay := List.mem_of_mem_filter hz
    have hReaches : layout.root.Reaches z := by
      rcases mem_way.1 hWay with hLeaf | hOff
      · exact leaf_reaches hLeaf
      · exact hOff.reaches
    exact ⟨⟨index, rfl⟩, hReaches.above (inside_of_opens hWay hOpens),
      List.ne_nil_of_mem (mem_inside hWay hOpens)⟩

/-- A child that is not torn apart and is opened has one piece. -/
theorem shell_mem_laid_iff (hIntact : layout.Intact line (x ++ [index])) {isBare : Bool}
    {copies : List Copy} : .shell (x ++ [index]) isBare copies ∈ layout.laid line x ↔
      layout.inside line (x ++ [index]) ≠ [] ∧ .shell (x ++ [index]) isBare copies =
        layout.shell (x ++ [index]) (layout.inside line (x ++ [index])) := by
  have hSplit : layout.inside line (x ++ [index]) ≠ [] → ∃ left right, layout.laid line x =
      left ++ layout.shell (x ++ [index]) (layout.inside line (x ++ [index])) :: right ∧
      Copy.roomsOf (x ++ [index]) left = [] ∧ Copy.roomsOf (x ++ [index]) right = [] := by
    intro hSome
    obtain ⟨left, right, front, -, hPieces, hLeft, hRight⟩ := layOf_inside_child hIntact hSome
    exact ⟨_, _, hPieces, hLeft, hRight⟩
  constructor
  · intro h
    obtain ⟨-, -, hSome⟩ := inside_of_shell_mem_laid h
    obtain ⟨left, right, hPieces, hLeft, hRight⟩ := hSplit hSome
    refine ⟨hSome, ?_⟩
    have hRooms : (Copy.shell (x ++ [index]) isBare copies).rooms (x ++ [index]) ≠ [] := by
      simp [Copy.rooms]
    rw [hPieces] at h
    rcases List.mem_append.1 h with h | h
    · exact absurd (Copy.roomsOf_eq_nil.1 hLeft _ h) hRooms
    · rcases List.mem_cons.1 h with hSame | h
      · exact hSame
      · exact absurd (Copy.roomsOf_eq_nil.1 hRight _ h) hRooms
  · rintro ⟨hSome, hSame⟩
    obtain ⟨left, right, hPieces, -⟩ := hSplit hSome
    rw [hSame, hPieces]
    exact List.mem_append_right _ List.mem_cons_self

theorem sorted_laid (layout : Layout) (line : Line) (x : Path) :
    (layout.laid line x).Pairwise fun copy next => ¬ Path.Before next.source copy.source := by
  apply Nest.sorted_layOf layout (areAt_inside line x)
  rw [Nest.visitsOf_group]
  exact sorted_inside line x

/-- An element in a subtree off the paths is never opened. -/
theorem OffPath.rooms_eq_nil
    (hPlaces : ∀ entry ∈ line, 1 ≤ entry.1.index ∧ entry.1.index ≤ layout.count)
    (hLine : Line.IsForward line) (hOff : layout.OffPath y) (hInside : y <+: x) :
    (layout.finished line).rooms x = [] := by
  have hSome : ∀ {z : Path}, y <+: z → z ≠ [] := by
    rintro _ hBelow rfl
    obtain ⟨u, i, rfl, -⟩ := hOff.attached
    simp at hBelow
  by_contra hRooms
  obtain ⟨z, hz, hOpens⟩ := exists_opens_of_rooms hPlaces hLine (hSome hInside) hRooms
  rcases mem_way.1 hz with hLeaf | hOther
  · exact hOff.free z hLeaf (hInside.trans (inside_of_opens hz hOpens))
  · obtain ⟨branch, hBranch, hBelow⟩ := hOpens
    rw [hOther.visitAt] at hBranch
    obtain rfl := Option.some.inj hBranch
    obtain ⟨u, i, rfl, rfl | ⟨leaf, hLeaf, hAbove, -⟩⟩ := hOther.attached
    · exact hSome (hInside.trans hBelow) rfl
    · rw [List.dropLast_concat] at hBelow
      exact hOff.free leaf hLeaf ((hInside.trans hBelow).trans hAbove)

/-! ### Elements that are left bare -/

namespace Vacated

theorem inside_ne_nil (h : layout.Vacated line x) : layout.inside line x ≠ [] := by
  intro hNone
  rw [Vacated, hNone] at h
  cases h

/-- Nothing but formatting is cloned right into an element that is left bare. -/
theorem isProperty (h : layout.Vacated line x) (hOff : layout.OffPath y) (hHere : y.dropLast = x) :
    layout.format.isProperty (layout.root.descendant y).tag = true := by
  by_contra hNot
  have hContent : (Copy.clone y).isContent layout = true := by
    simpa [Copy.isContent] using hNot
  have hBare := isBareRoom_of_mem (clone_mem_laid.2 ⟨hOff, hHere⟩ : _ ∈ layout.laid line x) hContent
  rw [h] at hBare
  cases hBare

/-- An element that is left bare holds a leaf. -/
theorem holds (h : layout.Vacated line x) (hSome : x ≠ []) :
    ∃ leaf ∈ layout.leaves, x <+: leaf := by
  obtain ⟨visit, hVisit⟩ := List.exists_mem_of_ne_nil _ h.inside_ne_nil
  obtain ⟨z, hz, -⟩ := List.mem_map.1 hVisit
  obtain ⟨hWay, hOpens⟩ := List.mem_filter.1 hz
  rcases mem_way.1 hWay with hLeaf | hOff
  · exact ⟨z, hLeaf, inside_of_opens hWay (of_decide_eq_true hOpens)⟩
  · obtain ⟨branch, hBranch, hInside⟩ := of_decide_eq_true hOpens
    rw [hOff.visitAt] at hBranch
    obtain rfl := Option.some.inj hBranch
    obtain ⟨u, i, rfl, rfl | ⟨leaf, hLeaf, hAbove, -⟩⟩ := hOff.attached
    · exact absurd (List.prefix_nil.1 hInside) hSome
    · rw [List.dropLast_concat] at hInside
      exact ⟨leaf, hLeaf, hInside.trans hAbove⟩

/-- No leaf in an element that is left bare has an entry that is present. -/
theorem dropped (h : layout.Vacated line x) {leaf : Path} (hLeaf : leaf ∈ layout.leaves)
    (hInside : x <+: leaf) : ¬ layout.Opened line leaf := by
  intro hOpened
  obtain ⟨text, hText⟩ := visitAt_of_opened hLeaf hOpened
  have hWay : leaf ∈ layout.way := mem_way.2 (.inl hLeaf)
  by_cases hSame : x = leaf
  · -- a leaf that is copied is not opened
    subst hSame
    obtain ⟨visit, hVisit⟩ := List.exists_mem_of_ne_nil _ h.inside_ne_nil
    obtain ⟨z, hz, -⟩ := List.mem_map.1 hVisit
    obtain ⟨hzWay, hOpens⟩ := List.mem_filter.1 hz
    have hBelow := inside_of_opens hzWay (of_decide_eq_true hOpens)
    have hSame : z = x := by
      rcases mem_way.1 hzWay with hOther | hOff
      · exact (eq_of_inside hLeaf hOther hBelow).symm
      · exact absurd hBelow (not_prefix_of_offPath hLeaf hOff)
    subst hSame
    obtain ⟨branch, hBranch, hAround⟩ := of_decide_eq_true hOpens
    rw [hText] at hBranch
    obtain rfl := Option.some.inj hBranch
    have hLength := hAround.length_le
    have := List.length_pos_iff.2 (leaf_nonempty hLeaf)
    rw [List.length_dropLast] at hLength
    omega
  · have hCopies : layout.Copies line x leaf := ⟨hInside, hSame, .inr ⟨hLeaf, hOpened⟩⟩
    have hFill : Visit.hasFill (layout.inside line x) = true :=
      List.any_eq_true.2 ⟨_, mem_inside hWay hCopies.opens, by rw [hText]; rfl⟩
    rw [Vacated, isBareRoom_of_hasFill hFill] at h
    cases h

end Vacated

/-! ### The children of a container -/

namespace IsContainer

variable (h : layout.IsContainer x)
include h

theorem child_le_level {key : Nat} (hPos : 1 ≤ key) (hCount : key ≤ layout.count)
    (hInside : x ++ [index] <+: layout.path key) : (x ++ [index]).length ≤ layout.level key := by
  have := h.lt_level hPos hCount ((List.prefix_append x [index]).trans hInside)
  rw [List.length_append, List.length_singleton]
  omega

theorem child_intact (line : Line) (index : Nat) : layout.Intact line (x ++ [index]) := by
  intro key hPos hCount _ hInside hLess
  have := h.child_le_level hPos hCount hInside
  omega

/-- A child of a container that holds a leaf is opened, unless it is the leaf
itself and is copied. -/
theorem child_inside_ne_nil {leaf : Path} (hLeaf : leaf ∈ layout.leaves)
    (hInside : x ++ [index] <+: leaf)
    (hNot : x ++ [index] ≠ leaf ∨ ¬ layout.Opened line leaf) :
    layout.inside line (x ++ [index]) ≠ [] := by
  obtain ⟨key, hPos, hCount, rfl⟩ := exists_path_eq hLeaf
  have hLevel := h.child_le_level hPos hCount hInside
  have hWay : layout.path key ∈ layout.way := mem_way.2 (.inl hLeaf)
  apply List.ne_nil_of_mem
  apply mem_inside hWay
  by_cases hSame : x ++ [index] = layout.path key
  · have hDropped := hNot.resolve_left (not_not_intro hSame)
    rw [opened_path hPos hCount] at hDropped
    exact (opens_visitAt hWay).2 (.inr ⟨key, hPos, hCount, rfl, hDropped, hInside, hLevel⟩)
  · exact opens_of_le_level hPos hCount hInside hSame hLevel line

/-- A child of a container is off the paths or holds a leaf. -/
theorem child_offPath (hReaches : layout.root.Reaches (x ++ [index]))
    (hNone : ∀ leaf ∈ layout.leaves, ¬ x ++ [index] <+: leaf) : layout.OffPath (x ++ [index]) := by
  obtain ⟨leaf, hLeaf, hInside⟩ := h.holds
  refine ⟨hReaches, hNone, x, index, rfl, .inr ⟨leaf, hLeaf, hInside, ?_⟩⟩
  rintro rfl
  exact h.leaf_not_prefix hLeaf List.prefix_rfl

/-- Only bare pieces are laid down in a container exactly if all its children are
left bare. -/
theorem all_bare_iff : (∀ copy ∈ layout.laid line x, copy.isBare = true) ↔
    ∀ index, layout.root.Reaches (x ++ [index]) → layout.Vacated line (x ++ [index]) := by
  constructor
  · intro hAll index hReaches
    by_cases hNone : ∀ leaf ∈ layout.leaves, ¬ x ++ [index] <+: leaf
    · cases hAll _ (clone_mem_laid.2 ⟨h.child_offPath hReaches hNone, List.dropLast_concat⟩)
    · push Not at hNone
      obtain ⟨leaf, hLeaf, hInside⟩ := hNone
      have hNot : x ++ [index] ≠ leaf ∨ ¬ layout.Opened line leaf := by
        by_contra hBoth
        push Not at hBoth
        obtain ⟨rfl, hOpened⟩ := hBoth
        obtain ⟨elements, hMem⟩ := leaf_mem_laid.2 ⟨⟨hLeaf, hOpened⟩, List.dropLast_concat⟩
        cases hAll _ hMem
      have hSome := h.child_inside_ne_nil hLeaf hInside hNot
      exact hAll _ ((shell_mem_laid_iff (h.child_intact line index)).2 ⟨hSome, rfl⟩)
  · intro hAll copy hCopy
    cases copy with
    | clone source =>
      obtain ⟨hOff, hHere⟩ := clone_mem_laid.1 hCopy
      obtain ⟨u, index, rfl, -⟩ := hOff.attached
      obtain rfl : u = x := List.dropLast_concat.symm.trans hHere
      obtain ⟨leaf, hLeaf, hInside⟩ := (hAll index hOff.reaches).holds (by simp)
      exact absurd hInside (hOff.free leaf hLeaf)
    | leaf source elements =>
      obtain ⟨⟨hLeaf, hOpened⟩, hHere⟩ := leaf_mem_laid.1 ⟨elements, hCopy⟩
      obtain ⟨u, index, rfl⟩ := List.eq_nil_or_concat' source |>.resolve_left (leaf_nonempty hLeaf)
      obtain rfl : u = x := List.dropLast_concat.symm.trans hHere
      exact absurd hOpened ((hAll index (leaf_reaches hLeaf)).dropped hLeaf List.prefix_rfl)
    | shell source isBare copies =>
      obtain ⟨⟨index, rfl⟩, hReaches, -⟩ := inside_of_shell_mem_laid hCopy
      obtain ⟨-, hSame⟩ := (shell_mem_laid_iff (h.child_intact line index)).1 hCopy
      rw [hSame]
      exact hAll index hReaches

/-- Where all children of a container are left bare, its first child is the first
that is opened. -/
theorem exists_laid_cons
    (hAll : ∀ index, layout.root.Reaches (x ++ [index]) → layout.Vacated line (x ++ [index])) :
    ∃ rest, layout.laid line x =
      layout.shell (x ++ [0]) (layout.inside line (x ++ [0])) :: rest := by
  obtain ⟨leaf, hLeaf, hInside⟩ := h.holds
  have hFirst : layout.root.Reaches (x ++ [0]) := by
    obtain ⟨_ | ⟨index, rest⟩, rfl⟩ := hInside
    · rw [List.append_nil] at hLeaf
      exact absurd List.prefix_rfl (h.leaf_not_prefix hLeaf)
    · have hChild : layout.root.Reaches (x ++ [index]) :=
        (leaf_reaches hLeaf).above ⟨rest, by simp⟩
      obtain ⟨hReaches, hDegree⟩ := Element.reaches_concat.1 hChild
      exact Element.reaches_concat.2 ⟨hReaches, Nat.zero_lt_of_lt hDegree⟩
  have hMem : layout.shell (x ++ [0]) (layout.inside line (x ++ [0])) ∈ layout.laid line x :=
    (shell_mem_laid_iff (h.child_intact line 0)).2 ⟨(hAll 0 hFirst).inside_ne_nil, rfl⟩
  obtain ⟨first, rest, hLaid⟩ := List.exists_cons_of_ne_nil (List.ne_nil_of_mem hMem)
  have hSorted := layout.sorted_laid line x
  have hBare := h.all_bare_iff.2 hAll first (by rw [hLaid]; exact List.mem_cons_self)
  rw [hLaid] at hMem hSorted ⊢
  refine ⟨rest, congrArg (· :: rest) ?_⟩
  rcases List.mem_cons.1 hMem with hSame | hLater
  · exact hSame.symm
  · -- nothing goes in front of the first child
    have hNot := (List.pairwise_cons.1 hSorted).1 _ hLater
    cases first with
    | clone source => cases hBare
    | leaf source elements => cases hBare
    | shell source isBare copies =>
      have hPiece : .shell source isBare copies ∈ layout.laid line x := by
        rw [hLaid]
        exact List.mem_cons_self
      obtain ⟨⟨index, rfl⟩, -, -⟩ := inside_of_shell_mem_laid hPiece
      rw [shell, Copy.source, Copy.source, Path.before_append_left, Path.before_cons] at hNot
      obtain rfl : index = 0 := by omega
      exact ((shell_mem_laid_iff (h.child_intact line 0)).1 hPiece).2

/-- What stands in the copy of a container, other than a leaf that was written: a
child that is not left bare, or the first child where all are. -/
theorem child_of_mem_room {copy : Copy} {e : Element}
    (hCopy : copy ∈ layout.room x (layout.inside line x))
    (he : e ∈ copy.elements layout.root) :
    (∃ y elements, copy = .leaf y elements) ∨
      (∃ index, layout.root.Reaches (x ++ [index]) ∧ e.tag =
        (layout.root.descendant (x ++ [index])).tag ∧ ¬ layout.Vacated line (x ++ [index])) ∨
      (∀ index, layout.root.Reaches (x ++ [index]) → layout.Vacated line (x ++ [index])) ∧
        e.tag = (layout.root.descendant (x ++ [0])).tag := by
  have hRoom : layout.room x (layout.inside line x) =
      Copy.prune layout.root (layout.laid line x) := rfl
  have hPiece : copy ∈ layout.laid line x := mem_of_mem_prune hCopy
  cases copy with
  | clone source =>
    obtain rfl := List.mem_singleton.1 he
    obtain ⟨hOff, hHere⟩ := clone_mem_laid.1 hPiece
    obtain ⟨u, index, rfl, -⟩ := hOff.attached
    obtain rfl : u = x := List.dropLast_concat.symm.trans hHere
    refine .inr (.inl ⟨index, hOff.reaches, rfl, fun hVacated => ?_⟩)
    obtain ⟨leaf, hLeaf, hInside⟩ := hVacated.holds (by simp)
    exact hOff.free leaf hLeaf hInside
  | leaf source elements => exact .inl ⟨source, elements, rfl⟩
  | shell source isBare copies =>
    obtain rfl := List.mem_singleton.1 he
    obtain ⟨⟨index, rfl⟩, hReaches, -⟩ := inside_of_shell_mem_laid hPiece
    by_cases hVacated : layout.Vacated line (x ++ [index])
    · -- a bare piece stays only where all are bare, and then it is the first
      obtain ⟨-, hSame⟩ := (shell_mem_laid_iff (h.child_intact line index)).1 hPiece
      have hBare : (Copy.shell (x ++ [index]) isBare copies).isBare = true := by
        rw [hSame]
        exact hVacated
      have hAllBare : ∀ copy ∈ layout.laid line x, copy.isBare = true :=
        Copy.all_bare_of_mem_prune (fun copy hCopy _ => elements_ne_nil_of_mem hCopy) hCopy hBare
      have hAll := h.all_bare_iff.1 hAllBare
      obtain ⟨rest, hLaid⟩ := h.exists_laid_cons hAll
      rw [hLaid] at hAllBare
      rw [hRoom, hLaid, Copy.prune_of_all_bare hAllBare] at hCopy
      obtain ⟨hSource, -, -⟩ := Copy.shell.inj (List.mem_singleton.1 hCopy)
      rw [hSource]
      exact .inr (.inr ⟨hAll, rfl⟩)
    · exact .inr (.inl ⟨index, hReaches, rfl, hVacated⟩)

/-- A child that is no leaf and is not left bare stands in the copy of a container. -/
theorem mem_room_of_not_vacated (hReaches : layout.root.Reaches (x ++ [index]))
    (hNotLeaf : x ++ [index] ∉ layout.leaves) (hNot : ¬ layout.Vacated line (x ++ [index])) :
    ∃ e ∈ Copy.elementsOf layout.root (layout.room x (layout.inside line x)),
      e.tag = (layout.root.descendant (x ++ [index])).tag := by
  have hStays : ∀ copy ∈ layout.laid line x, copy.isBare = false →
      ∀ e ∈ copy.elements layout.root,
        e ∈ Copy.elementsOf layout.root (layout.room x (layout.inside line x)) := by
    intro copy hCopy hBare e he
    exact Copy.mem_elementsOf.2 ⟨copy, Copy.mem_prune_of_not_isBare hCopy hBare, he⟩
  by_cases hNone : ∀ leaf ∈ layout.leaves, ¬ x ++ [index] <+: leaf
  · have hMem : .clone (x ++ [index]) ∈ layout.laid line x :=
      clone_mem_laid.2 ⟨h.child_offPath hReaches hNone, List.dropLast_concat⟩
    exact ⟨_, hStays _ hMem rfl _ (List.mem_singleton_self _), rfl⟩
  · push Not at hNone
    obtain ⟨leaf, hLeaf, hInside⟩ := hNone
    have hOther : x ++ [index] ≠ leaf := by
      rintro rfl
      exact hNotLeaf hLeaf
    have hSome : layout.inside line (x ++ [index]) ≠ [] :=
      h.child_inside_ne_nil hLeaf hInside (.inl hOther)
    have hMem := (shell_mem_laid_iff (h.child_intact line index)).2 ⟨hSome, rfl⟩
    exact ⟨_, hStays _ hMem (Bool.eq_false_of_not_eq_true hNot) _ (List.mem_singleton_self _), rfl⟩

/-- The copy of a container keeps a child with a tag exactly if one is left. The leaves
right in the container have other tags. -/
theorem hasChild_iff {tag : String}
    (hLeaves : ∀ leaf ∈ layout.leaves, leaf.dropLast = x → (layout.root.descendant leaf).tag ≠ tag ∧
      ∀ elements, .leaf leaf elements ∈ layout.laid line x → ∀ e ∈ elements, e.tag ≠ tag) :
    (∃ e ∈ Copy.elementsOf layout.root (layout.room x (layout.inside line x)), e.tag = tag) ↔
      layout.LeavesChild line x tag := by
  constructor
  · rintro ⟨e, he, rfl⟩
    obtain ⟨copy, hCopy, hElement⟩ := Copy.mem_elementsOf.1 he
    rcases h.child_of_mem_room hCopy hElement with
      ⟨y, elements, rfl⟩ | ⟨index, hReaches, hSame, hNot⟩ | ⟨hAll, hSame⟩
    · have hPiece := mem_of_mem_prune hCopy
      obtain ⟨⟨hLeaf, -⟩, hHere⟩ := leaf_mem_laid.1 ⟨elements, hPiece⟩
      exact absurd rfl ((hLeaves y hLeaf hHere).2 elements hPiece e hElement)
    · exact .inl ⟨index, hReaches, hSame.symm, hNot⟩
    · exact .inr ⟨hAll, hSame.symm⟩
  · rintro (⟨index, hReaches, rfl, hNot⟩ | ⟨hAll, rfl⟩)
    · apply h.mem_room_of_not_vacated hReaches _ hNot
      exact fun hLeaf => (hLeaves _ hLeaf List.dropLast_concat).1 rfl
    · have hRoom : layout.room x (layout.inside line x) =
          Copy.prune layout.root (layout.laid line x) := rfl
      obtain ⟨rest, hLaid⟩ := h.exists_laid_cons hAll
      have hAllBare := h.all_bare_iff.2 hAll
      rw [hLaid] at hAllBare
      rw [hRoom, hLaid, Copy.prune_of_all_bare hAllBare]
      exact ⟨_, List.mem_singleton_self _, rfl⟩

/-- A leaf right in a container carries its text by itself. -/
theorem isSolid_of_leaf {leaf : Path} (hLeaf : leaf ∈ layout.leaves) (hHere : leaf.dropLast = x) :
    layout.format.isSolid (layout.root.descendant leaf).tag = true := by
  rcases (layout.holdsText leaf hLeaf).kind with hSolid | ⟨-, hNonempty, hCarrier⟩
  · exact hSolid
  · obtain ⟨key, hPos, hCount, rfl⟩ := exists_path_eq hLeaf
    have hLevel := level_le_of_carries hPos hCount (List.dropLast_prefix _) ⟨hNonempty, hCarrier⟩
    rw [hHere] at hLevel
    have := h.lt_level hPos hCount (hHere ▸ List.dropLast_prefix _)
    omega

end IsContainer

theorem tag_of_mem_written {leaf : Path}
    (hSolid : layout.format.isSolid (layout.root.descendant leaf).tag = true)
    {front : List Element} {text : Option (List String)} {e : Element}
    (he : e ∈ layout.written front leaf text) : e.tag = (layout.root.descendant leaf).tag := by
  cases text with
  | none => rw [List.mem_singleton.1 he]
  | some chunks => exact Format.tag_of_mem_written hSolid he

/-- The leaves right in a container are word art, which never becomes a paragraph. -/
theorem IsContainer.leaf_ne_paragraph (h : layout.IsContainer x) (hFormat : layout.format = .docx)
    {leaf : Path} (hLeaf : leaf ∈ layout.leaves) (hHere : leaf.dropLast = x) :
    (layout.root.descendant leaf).tag ≠ Docx.word "p" ∧
      ∀ elements, .leaf leaf elements ∈ layout.laid line x →
        ∀ e ∈ elements, e.tag ≠ Docx.word "p" := by
  have hSolid := h.isSolid_of_leaf hLeaf hHere
  have hNot : (layout.root.descendant leaf).tag ≠ Docx.word "p" := by
    intro hSame
    rw [hFormat, hSame] at hSolid
    revert hSolid
    decide
  refine ⟨hNot, fun elements hMem e he => ?_⟩
  rcases Nest.mem_layOf_cases (areAt_inside line x) hMem with
    ⟨visit, -, front, hPiece⟩ | ⟨index, isBare, copies, hShell, -⟩
  · cases visit with
    | clone floor source => cases List.mem_singleton.1 hPiece
    | fill floor source text =>
      obtain ⟨rfl, rfl⟩ := Copy.leaf.inj (List.mem_singleton.1 hPiece)
      rw [tag_of_mem_written hSolid he]
      exact hNot
    | pass floor source => cases hPiece
    | back depth => cases hPiece
  · cases hShell

namespace OffPath

/-- What is inside a subtree off the paths holds no leaf, so none of it is left bare. -/
theorem leavesChild (h : layout.OffPath y) (hInside : y <+: x) (hReaches : layout.root.Reaches x)
    (line : Line) {tag : String} (hHas : (layout.root.descendant x).HasChild tag) :
    layout.LeavesChild line x tag := by
  obtain ⟨child, hChild, rfl⟩ := hHas
  obtain ⟨index, hIndex⟩ := List.mem_iff_getElem?.1 hChild
  have hBelow : layout.root.Reaches (x ++ [index]) :=
    Element.reaches_concat.2 ⟨hReaches, (List.getElem?_eq_some_iff.1 hIndex).1⟩
  have hSame := hBelow.child
  rw [hIndex] at hSame
  refine .inl ⟨index, hBelow, by rw [← Option.some.inj hSame], fun hVacated => ?_⟩
  obtain ⟨leaf, hLeaf, hAround⟩ := hVacated.holds (by simp)
  exact h.free leaf hLeaf (hInside.trans ((List.prefix_append x [index]).trans hAround))

/-- Every copy of something inside a subtree off the paths is whole. -/
theorem descendant?_of_mem_places {p : Path} (h : layout.OffPath y) (hInside : y <+: x)
    (hPlaces : ∀ entry ∈ line, 1 ≤ entry.1.index ∧ entry.1.index ≤ layout.count)
    (hLine : Line.IsForward line) (hReaches : layout.root.Reaches x)
    (hp : p ∈ (layout.finished line).places layout.root x []) :
    (layout.assemble (layout.itinerary line)).descendant? p = some (layout.root.descendant x) := by
  have hApart : ∀ leaf ∈ layout.leaves, ¬ leaf <+: x := by
    intro leaf hLeaf hAround
    rcases List.prefix_or_prefix_of_prefix hAround hInside with hUp | hDown
    · exact not_prefix_of_offPath hLeaf h hUp
    · exact h.free leaf hLeaf hDown
  rcases (madeOf_assemble hPlaces hLine).descendant?_of_mem_places hApart hReaches hp with
    ⟨-, hWhole⟩ | ⟨room, hRoom, -⟩
  · exact hWhole
  · have hNone := h.rooms_eq_nil hPlaces hLine hInside
    rw [finished] at hNone
    rw [hNone] at hRoom
    cases hRoom

end OffPath

/-- Whether a document made of copies has a paragraph in every copy of a table cell
with paragraphs exactly if one is left. -/
structure KeepsParagraphs (layout : Layout) (line : Line) (out : Element) (copies : List Copy) :
    Prop where
  cells : ∀ x, layout.root.Reaches x → (layout.root.descendant x).tag = Docx.word "tc" →
    (layout.root.descendant x).HasChild (Docx.word "p") →
    ((∃ y, layout.OffPath y ∧ y <+: x) ∨ layout.IsContainer x) →
    ∀ p ∈ (Copy.shell [] false copies).places layout.root x [], ∃ e,
      out.descendant? p = some e ∧
        (e.HasChild (Docx.word "p") ↔ layout.LeavesChild line x (Docx.word "p"))
  holds : ∀ x index, layout.Vacated line (x ++ [index]) →
    ∃ leaf ∈ layout.leaves, x ++ [index] <+: leaf
  dropped : ∀ x index, layout.Vacated line (x ++ [index]) →
    ∀ leaf ∈ layout.leaves, x ++ [index] <+: leaf → ¬ layout.Opened line leaf
  isProperty : ∀ x index, layout.Vacated line (x ++ [index]) →
    ∀ y, layout.OffPath y → y.dropLast = x ++ [index] →
      layout.format.isProperty (layout.root.descendant y).tag = true

end Layout

variable {root : Element} {content : Content} {line tape : Line}

/-- A tape that never goes back leaves a paragraph in every copy of a table cell
that has one, exactly if a paragraph of the cell is not left bare, or all children
of the cell are left bare and the first one is a paragraph. Only what holds a leaf
can be left bare, none that is present, and nothing right in it but formatting
besides. The cell may lie off the paths to the leaves or around the atoms of all
leaves in it. -/
theorem enforce_cell_paragraph (h : flatten .docx root = .ok (content, line))
    (hTape : Line.PointsInto tape line) (hForward : Line.IsForward tape) :
    ∃ boundaries out copies, Boundaries.ofLine root line = .ok boundaries ∧
      enforce root tape boundaries .docx = .ok out ∧ (Layout.ofLine h).MadeOf tape out copies ∧
      (Layout.ofLine h).KeepsParagraphs tape out copies := by
  obtain ⟨boundaries, hBoundaries, hEnforce⟩ := Layout.enforce_ofLine h hTape
  have hPlaces := Layout.bounds_of_pointsInto h hTape
  have hMade := Layout.madeOf_assemble hPlaces hForward
  refine ⟨boundaries, _, _, hBoundaries, hEnforce, hMade, ?_,
    fun x index hVacated => hVacated.holds (by simp), fun x index hVacated leaf => hVacated.dropped,
    fun x index hVacated y => hVacated.isProperty⟩
  · intro x hReaches _ hHas hWhere p hp
    rcases hWhere with ⟨y, hOff, hInside⟩ | hContainer
    · exact ⟨_, hOff.descendant?_of_mem_places hInside hPlaces hForward hReaches hp,
        iff_of_true hHas (hOff.leavesChild hInside hReaches tape hHas)⟩
    · rcases hMade.descendant?_of_mem_places (fun _ => hContainer.leaf_not_prefix) hReaches hp with
        ⟨⟨source, hOff, hAround⟩, -⟩ | ⟨room, hRoom, hOpened⟩
      · exact absurd hAround (hContainer.offPath_not_prefix hOff)
      · have hRooms := hContainer.rooms_eq hPlaces hForward
        rw [Layout.finished] at hRooms
        rw [hRooms] at hRoom
        obtain rfl := List.mem_singleton.1 hRoom
        exact ⟨_, hOpened, hContainer.hasChild_iff fun leaf => hContainer.leaf_ne_paragraph rfl⟩

theorem enforce_cell_paragraph_ruledTable :
    ∃ h : flatten .docx Docx.ruledTable = .ok (.template, Docx.ruledLine),
      Line.PointsInto Docx.ruledTape Docx.ruledLine ∧ Line.IsForward Docx.ruledTape ∧
      (Docx.ruledTable.descendant [0, 0]).HasChild (Docx.word "p") ∧
      (Layout.ofLine h).IsContainer [0, 0] ∧
      ∃ boundaries out copies, Boundaries.ofLine Docx.ruledTable Docx.ruledLine = .ok boundaries ∧
        enforce Docx.ruledTable Docx.ruledTape boundaries .docx = .ok out ∧
        (Layout.ofLine h).MadeOf Docx.ruledTape out copies ∧
        (Layout.ofLine h).KeepsParagraphs Docx.ruledTape out copies :=
  ⟨Docx.flatten_ruledTable, by decide, by decide, by decide, Docx.isContainer_ruledCell,
    enforce_cell_paragraph Docx.flatten_ruledTable (by decide) (by decide)⟩

/-- A cell with formatting of its own loses its only paragraph when the text in it
is dropped. -/
theorem enforce_ruledTable :
    flatten .docx Docx.ruledTable = .ok (.template, Docx.ruledLine) ∧
      Line.PointsInto Docx.ruledTape Docx.ruledLine ∧ Line.IsForward Docx.ruledTape ∧
      (Docx.ruledTable.descendant [0, 0]).HasChild (Docx.word "p") ∧
      ∃ out, (do
        let boundaries ← Boundaries.ofLine Docx.ruledTable Docx.ruledLine
        enforce Docx.ruledTable Docx.ruledTape boundaries .docx) = .ok out ∧
        (out.descendant [0, 0]).tag = Docx.word "tc" ∧
        ¬ (out.descendant [0, 0]).HasChild (Docx.word "p") := by
  refine ⟨Docx.flatten_ruledTable, by decide, by decide, by decide,
    Docx.element "tbl" none
      [Docx.element "tr" none [Docx.element "tc" none [Docx.element "tcPr" none []]]], ?_⟩
  exact ⟨by decide +kernel, by decide, by decide⟩

end Infill
