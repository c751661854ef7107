import Infill.Proofs.Integrity

/-!
What is left of a leaf that is dropped. Its subtree is never cloned and never
copied as a leaf; but where the leaf is its own atom, passing it by opens a copy
of it without children, which has its text. Such a copy is bare. So it stays only
where the element around it would be left without children.
-/
namespace Infill

open Infill.Xml

namespace Copy

theorem prune_of_all_bare {root : Element} {copy : Copy} {copies : List Copy}
    (hAll : ∀ other ∈ copy :: copies, other.isBare = true) :
    prune root (copy :: copies) = [copy] := by
  have hNone : ∀ {pieces : List Copy}, (∀ other ∈ pieces, other.isBare = true) →
      lasting pieces = [] := by
    intro pieces hBare
    simpa [lasting, List.filter_eq_nil_iff] using hBare
  have hLength := length_elementsOf root (copy :: copies)
  rw [hNone hAll, elementsOf_nil, List.length_nil, Nat.add_zero] at hLength
  rw [prune, if_pos hLength.symm, dropBare, if_pos (hAll copy List.mem_cons_self), dropBare_zero,
    hNone fun other hOther => hAll other (List.mem_cons_of_mem _ hOther)]

/-- Where something stands that is not bare, just the bare pieces are taken out. -/
theorem prune_eq_lasting {root : Element} {copies : List Copy}
    (hSome : ∀ copy ∈ copies, copy.isBare = false → copy.elements root ≠ [])
    (hNot : ∃ copy ∈ copies, copy.isBare = false) : prune root copies = lasting copies := by
  obtain ⟨copy, hCopy, hLasts⟩ := hNot
  have hElements : elementsOf root (lasting copies) ≠ [] := by
    have hMem : copy ∈ lasting copies := List.mem_filter.2 ⟨hCopy, by simp [hLasts]⟩
    obtain ⟨front, back, hSplit⟩ := List.append_of_mem hMem
    rw [hSplit, elementsOf_append, elementsOf_cons]
    simp [hSome copy hCopy hLasts]
  have hLength := length_elementsOf root copies
  have hPos := List.length_pos_iff.2 hElements
  rw [prune, if_neg (by omega), dropBare_zero]

theorem all_bare_of_mem_prune {root : Element} {copy : Copy} {copies : List Copy}
    (hSome : ∀ other ∈ copies, other.isBare = false → other.elements root ≠ [])
    (hMem : copy ∈ prune root copies) (hBare : copy.isBare = true) :
    ∀ other ∈ copies, other.isBare = true := by
  by_contra hNot
  rw [prune_eq_lasting hSome (by simpa using hNot)] at hMem
  have hLasting := (List.mem_filter.1 hMem).2
  rw [hBare] at hLasting
  cases hLasting

end Copy

namespace Layout

variable {layout : Layout} {line : Line} {x y u p : Path} {key index : Nat}

/-- A dropped leaf is opened only where it is passed by, as its own atom. -/
theorem opens_leaf_iff (hLeaf : p ∈ layout.leaves) (hDropped : ¬ layout.Opened line p)
    (hy : y ∈ layout.way) :
    (layout.visitAt line y).Opens p ↔ y = p ∧ layout.level (layout.rank p + 1) = p.length := by
  obtain ⟨key, hPos, hCount, rfl⟩ := exists_path_eq hLeaf
  rw [opens_visitAt hy, rank_path hPos hCount]
  constructor
  · rintro (⟨hPath, hNe, hOff | ⟨hOther, -⟩⟩ | ⟨other, hOtherPos, hOtherCount, rfl, -, hPath, hLength⟩)
    · rcases hOff.before_or_before hLeaf with hBefore | hBefore
      · exact absurd hBefore (Path.not_before_inside hPath)
      · exact absurd hBefore (Path.not_inside_before hPath)
    · exact absurd (eq_of_inside hLeaf hOther hPath) hNe
    · have hSame := eq_of_inside hLeaf (path_mem hOtherPos hOtherCount) hPath
      obtain rfl : key = other := by
        rw [← rank_path hPos hCount, hSame, rank_path hOtherPos hOtherCount]
      have := level_le_length hPos hCount
      exact ⟨rfl, by omega⟩
  · rintro ⟨rfl, hLevel⟩
    refine .inr ⟨key, hPos, hCount, rfl, ?_, List.prefix_rfl, by omega⟩
    rwa [← opened_path hPos hCount]

/-- What is opened for a leaf alone that is passed by, is left without children. -/
theorem shell_pass {floor : Option Nat} {path : Path} (h : floor.any (· ≤ path.length) = true) :
    layout.shell path [.pass floor path] = .shell path true [] := by
  have hGroup : Nest.group path.length [.pass floor path] = [.here (.pass floor path)] := by
    rw [Nest.group_cons, Visit.branch?, Option.getD_some, List.drop_length]
    rfl
  rw [shell, isBareRoom, room, hGroup]
  simp [isBare, h, Nest.layOf, Nest.lay, Visit.pieces, Visit.floor, Visit.hasFill, Visit.isFill,
    Copy.prune, Copy.dropBare]

theorem intact_of_own (hLeaf : p ∈ layout.leaves) (hInside : u <+: p)
    (hOwn : layout.level (layout.rank p + 1) = p.length) (line : Line) :
    layout.Intact line u := by
  obtain ⟨key, hPos, hCount, rfl⟩ := exists_path_eq hLeaf
  rw [rank_path hPos hCount] at hOwn
  exact intact_of_le_level hPos hCount hInside (hOwn ▸ hInside.length_le) line

/-- A dropped leaf that is its own atom is opened once, and nothing is laid down in
it. -/
theorem shell_leaf (hLeaf : p ∈ layout.leaves) (hDropped : ¬ layout.Opened line p)
    (hOwn : layout.level (layout.rank p + 1) = p.length) :
    (layout.way.filter fun y => (layout.visitAt line y).Opens p) = [p] ∧
      layout.shell p (layout.inside line p) = .shell p true [] := by
  have hWay : p ∈ layout.way := mem_way.2 (.inl hLeaf)
  have hOnly : (layout.way.filter fun y => (layout.visitAt line y).Opens p) = [p] := by
    have hSame : (layout.way.filter fun y => (layout.visitAt line y).Opens p) =
        layout.way.filter (· == p) := by
      apply List.filter_congr
      intro y hy
      rw [Bool.eq_iff_iff]
      simp [opens_leaf_iff hLeaf hDropped hy, hOwn]
    rw [hSame, List.filter_beq,
      List.count_eq_one_of_mem (Path.nodup_of_sorted layout.way_sorted) hWay]
    rfl
  refine ⟨hOnly, ?_⟩
  rw [inside, hOnly, List.map_singleton, visitAt_of_dropped hLeaf hDropped, hOwn, List.take_length]
  apply shell_pass
  obtain ⟨key, hPos, hCount, rfl⟩ := exists_path_eq hLeaf
  rw [rank_path hPos hCount] at hOwn ⊢
  rw [floor_eq hPos hCount, hOwn]
  simp

/-- Among what is laid down in an element, a dropped leaf that is its own atom has
one piece, which is bare. -/
theorem layOf_inside_leaf (hLeaf : u ++ [index] ∈ layout.leaves)
    (hDropped : ¬ layout.Opened line (u ++ [index]))
    (hOwn : layout.level (layout.rank (u ++ [index]) + 1) = (u ++ [index]).length) :
    ∃ (left right : List Path) (front : List Copy),
      (layout.way.filter fun y => (layout.visitAt line y).Opens u) = left ++ (u ++ [index]) :: right ∧
      Nest.layOf layout u [] (Nest.group u.length (layout.inside line u)) =
        Nest.layOf layout u [] (Nest.group u.length (left.map (layout.visitAt line))) ++
          .shell (u ++ [index]) true [] ::
            Nest.layOf layout u front (Nest.group u.length (right.map (layout.visitAt line))) ∧
      Copy.roomsOf (u ++ [index])
        (Nest.layOf layout u [] (Nest.group u.length (left.map (layout.visitAt line)))) = [] ∧
      Copy.roomsOf (u ++ [index])
        (Nest.layOf layout u front (Nest.group u.length (right.map (layout.visitAt line)))) = [] := by
  obtain ⟨hOnly, hShell⟩ := shell_leaf hLeaf hDropped hOwn
  have hChild := @layOf_inside_child layout line u index
    (intact_of_own hLeaf List.prefix_rfl hOwn line) (by rw [inside, hOnly]; exact List.cons_ne_nil _ _)
  rw [hOnly, hShell] at hChild
  simpa only [List.append_assoc, List.singleton_append] using hChild

theorem isSolid_of_own (hLeaf : p ∈ layout.leaves)
    (hOwn : layout.level (layout.rank p + 1) = p.length) :
    layout.format.isSolid (layout.root.descendant p).tag = true := by
  obtain ⟨key, hPos, hCount, rfl⟩ := exists_path_eq hLeaf
  rw [rank_path hPos hCount] at hOwn
  rcases (layout.holdsText _ hLeaf).kind with hSolid | ⟨-, hNonempty, hCarrier⟩
  · exact hSolid
  · have hLevel := level_le_of_carries hPos hCount (List.dropLast_prefix _) ⟨hNonempty, hCarrier⟩
    have hLength := List.length_pos_iff.2 (leaf_nonempty hLeaf)
    rw [hOwn, List.length_dropLast] at hLevel
    omega

/-- What is left of a dropped leaf whose text stays: a copy without children, as
the only thing in the element around it. The leaf is its own atom and has its
text for itself, no leaf in the element around it has an entry that is present,
and no child of that element is cloned. -/
structure Remnant (layout : Layout) (line : Line) (document : Copy) (u p : Path) : Prop where
  alone : document.rooms u = [[.shell p true []]]
  own : layout.level (layout.rank p + 1) = p.length
  solid : layout.format.isSolid (layout.root.descendant p).tag = true
  dropped : ∀ leaf ∈ layout.leaves, u <+: leaf → ¬ layout.Opened line leaf
  cloned : ∀ y, layout.OffPath y → y.dropLast ≠ u

theorem written_visitAt_ne_nil (hy : y ∈ layout.way) {floor : Option Nat} {leaf : Path}
    {text : Option (List String)} (hVisit : layout.visitAt line y = .fill floor leaf text)
    (front : List Element) : layout.written front leaf text ≠ [] := by
  rcases mem_way.1 hy with hLeaf | hOff
  · obtain ⟨key, hPos, hCount, rfl⟩ := exists_path_eq hLeaf
    rw [visitAt_path line hPos hCount] at hVisit
    by_cases hOpens : line.Opens key
    · obtain ⟨found, hText, hStop⟩ := stop_of_opens layout hOpens
      obtain ⟨-, rfl, rfl⟩ := Visit.fill.inj (hStop.symm.trans hVisit)
      rw [Line.textFor] at hText
      split at hText
      · cases hText
      · obtain rfl := Option.some.inj hText
        rw [← Line.text?_of_present fun entry hEntry =>
          (of_decide_eq_true (List.mem_filter.1 hEntry).2).1]
        exact written_ne_nil hLeaf front _
    · rw [stop_of_dropped hOpens] at hVisit
      cases hVisit
  · rw [hOff.visitAt] at hVisit
    cases hVisit

theorem elements_ne_nil_of_mem {copy : Copy}
    (hCopy : copy ∈ Nest.layOf layout u [] (Nest.group u.length (layout.inside line u))) :
    copy.elements layout.root ≠ [] := by
  rcases Nest.mem_layOf_cases (areAt_inside line u) hCopy with
    ⟨visit, hVisit, front, hPiece⟩ | ⟨index, isBare, copies, rfl, -⟩
  · rw [Nest.visitsOf_group] at hVisit
    obtain ⟨y, hy, hPlace⟩ := List.mem_map.1 hVisit
    cases visit with
    | clone floor source =>
      obtain rfl := List.mem_singleton.1 hPiece
      exact List.cons_ne_nil _ _
    | fill floor source text =>
      obtain rfl := List.mem_singleton.1 hPiece
      exact written_visitAt_ne_nil (List.mem_of_mem_filter hy) hPlace _
    | pass floor source => cases hPiece
    | back depth => cases hPiece
  · exact List.cons_ne_nil _ _

section

variable (hAll : ∀ copy ∈ Nest.layOf layout u [] (Nest.group u.length (layout.inside line u)),
  copy.isBare = true)
include hAll

/-- Where only bare pieces are laid down in an element, no visit to it lays down a
clone or a leaf. -/
theorem filterMap_inside_eq_nil {f : Copy → Option Path} {g : Visit → Option Path}
    (hShell : ∀ source isBare copies, f (.shell source isBare copies) = none)
    (hPiece : ∀ visit front, (visit.pieces layout front).filterMap f = (g visit).toList) :
    (layout.inside line u).filterMap (fun visit =>
      if visit.branch? = some u then g visit else none) = [] := by
  rw [← Nest.visitsOf_group u.length (layout.inside line u),
    ← Nest.filterMap_layOf hShell hPiece (areAt_inside line u) [], List.filterMap_eq_nil_iff]
  intro copy hCopy
  have hBare := hAll copy hCopy
  cases copy with
  | clone source => cases hBare
  | leaf source elements => cases hBare
  | shell source isBare copies => exact hShell source isBare copies

theorem no_clone_of_all_bare (hOff : layout.OffPath y) : y.dropLast ≠ u := by
  have hCloned := filterMap_inside_eq_nil hAll (f := Copy.cloned?) (g := Visit.cloned?)
    (fun _ _ _ => rfl) (fun visit front => by cases visit <;> rfl)
  rw [cloned_inside, List.filter_eq_nil_iff] at hCloned
  intro hSame
  exact hCloned y (mem_way.2 (.inr hOff)) (by simp [hOff, hSame])

theorem no_leaf_of_all_bare {leaf : Path} (hLeaf : leaf ∈ layout.leaves) (hInside : u <+: leaf)
    (hNe : u ≠ leaf) : ¬ layout.Opened line leaf := by
  intro hOpened
  have hWay : leaf ∈ layout.way := mem_way.2 (.inl hLeaf)
  have hCopies : layout.Copies line u leaf := ⟨hInside, hNe, .inr ⟨hLeaf, hOpened⟩⟩
  obtain ⟨text, hText⟩ := visitAt_of_opened hLeaf hOpened
  obtain ⟨_ | ⟨index, rest⟩, rfl⟩ := hInside
  · exact hNe (List.append_nil u).symm
  · by_cases hLast : rest = []
    · subst hLast
      have hFilled := filterMap_inside_eq_nil hAll (f := fun copy => copy.leaf?.map Prod.fst)
        (g := fun visit => visit.fill?.map Prod.fst) (fun _ _ _ => rfl)
        (fun visit front => by cases visit <;> rfl)
      rw [filled_inside, List.filter_eq_nil_iff] at hFilled
      exact hFilled _ hWay (by simp [hLeaf, hOpened])
    · -- the copy of the child around the leaf would not be bare
      have hBelow : layout.Copies line (u ++ [index]) (u ++ index :: rest) := by
        refine ⟨⟨rest, by simp⟩, fun hSame => hLast ?_, .inr ⟨hLeaf, hOpened⟩⟩
        simpa using hSame.symm
      have hMem : layout.visitAt line (u ++ index :: rest) ∈
          Nest.visitsOf (Nest.group u.length (layout.inside line u)) := by
        rw [Nest.visitsOf_group]
        exact mem_inside hWay hCopies.opens
      obtain ⟨kids, -, -, hShell⟩ := Nest.shell_mem_layOf layout (areAt_inside line u) hMem
        (by rw [hText]; rfl) hBelow.opens []
      cases hAll _ hShell

end

/-- A dropped leaf that has a copy is its own atom, and only bare pieces were laid
down around it, that of the leaf first. -/
theorem bare_of_rooms_ne_nil
    (hPlaces : ∀ entry ∈ line, 1 ≤ entry.1.index ∧ entry.1.index ≤ layout.count)
    (hLine : Line.IsForward line) (hLeaf : u ++ [index] ∈ layout.leaves)
    (hDropped : ¬ layout.Opened line (u ++ [index]))
    (hRooms : (layout.finished line).rooms (u ++ [index]) ≠ []) :
    layout.level (layout.rank (u ++ [index]) + 1) = (u ++ [index]).length ∧
      (∀ copy ∈ Nest.layOf layout u [] (Nest.group u.length (layout.inside line u)),
        copy.isBare = true) ∧
      (Nest.layOf layout u [] (Nest.group u.length (layout.inside line u))).head? =
        some (.shell (u ++ [index]) true []) ∧
      (layout.finished line).rooms u = [[.shell (u ++ [index]) true []]] := by
  obtain ⟨y, hy, hOpens⟩ := exists_opens_of_rooms hPlaces hLine (leaf_nonempty hLeaf) hRooms
  obtain ⟨rfl, hOwn⟩ := (opens_leaf_iff hLeaf hDropped hy).1 hOpens
  have hInside : u <+: u ++ [index] := List.prefix_append _ _
  have hIntact := intact_of_own hLeaf hInside hOwn line
  have hMem := mem_inside hy (hOpens.upward hInside)
  have hBlock := (rooms_of_intact hPlaces hLine hIntact (List.ne_nil_of_mem hMem)).resolve_right
    fun h => hRooms (h.2 _ hInside)
  have hRoom : (layout.finished line).rooms (u ++ [index]) =
      Copy.roomsOf (u ++ [index]) (layout.room u (layout.inside line u)) :=
    (hBlock _ hInside).trans (Copy.rooms_shell_of_ne (by simp) _ _)
  obtain ⟨left, right, front, -, hPieces, hLeft, hRight⟩ := layOf_inside_leaf hLeaf hDropped hOwn
  -- the copy of the leaf is left in, so all other pieces around it are bare as well
  have hStays : .shell (u ++ [index]) true [] ∈ layout.room u (layout.inside line u) := by
    by_contra hNot
    apply hRooms
    rw [hRoom, Copy.roomsOf_eq_nil]
    intro copy hCopy
    have hPiece := mem_of_mem_prune hCopy
    rw [hPieces] at hPiece
    rcases List.mem_append.1 hPiece with hPiece | hPiece
    · exact Copy.roomsOf_eq_nil.1 hLeft copy hPiece
    · rcases List.mem_cons.1 hPiece with rfl | hPiece
      · exact absurd hCopy hNot
      · exact Copy.roomsOf_eq_nil.1 hRight copy hPiece
  have hAll := Copy.all_bare_of_mem_prune (fun copy hCopy _ => elements_ne_nil_of_mem hCopy) hStays rfl
  obtain ⟨first, rest, hFirst⟩ := List.exists_cons_of_ne_nil (List.ne_nil_of_mem
    (mem_of_mem_prune hStays))
  have hOnly : layout.room u (layout.inside line u) = [first] := by
    rw [room, hFirst, Copy.prune_of_all_bare (hFirst ▸ hAll)]
  obtain rfl : first = .shell (u ++ [index]) true [] := by
    rw [hOnly] at hStays
    exact (List.mem_singleton.1 hStays).symm
  refine ⟨hOwn, hAll, by rw [hFirst]; rfl, ?_⟩
  rw [hBlock u List.prefix_rfl, rooms_shell_self opens_of_mem_inside, hOnly]

theorem remnant_of_rooms_ne_nil
    (hPlaces : ∀ entry ∈ line, 1 ≤ entry.1.index ∧ entry.1.index ≤ layout.count)
    (hLine : Line.IsForward line) (hLeaf : u ++ [index] ∈ layout.leaves)
    (hDropped : ¬ layout.Opened line (u ++ [index]))
    (hRooms : (layout.finished line).rooms (u ++ [index]) ≠ []) :
    layout.Remnant line (layout.finished line) u (u ++ [index]) := by
  obtain ⟨hOwn, hAll, -, hAlone⟩ := bare_of_rooms_ne_nil hPlaces hLine hLeaf hDropped hRooms
  refine ⟨hAlone, hOwn, isSolid_of_own hLeaf hOwn, fun leaf hOther hBelow => ?_,
    fun y => no_clone_of_all_bare hAll⟩
  apply no_leaf_of_all_bare hAll hOther hBelow
  rintro rfl
  have hSame := eq_of_inside hOther hLeaf (List.prefix_append u [index])
  simp at hSame

/-! ### Where a remnant stays -/

/-- Whether all children of an element are dropped leaves that are their own
atoms. -/
def Hollow (layout : Layout) (line : Line) (u : Path) : Prop :=
  ∀ index, layout.root.Reaches (u ++ [index]) → u ++ [index] ∈ layout.leaves ∧
    ¬ layout.Opened line (u ++ [index]) ∧
    layout.level (layout.rank (u ++ [index]) + 1) = (u ++ [index]).length

theorem floor_visitAt (hy : y ∈ layout.way) :
    (layout.visitAt line y).floor = layout.floor (layout.rank y + 1) := by
  rcases mem_way.1 hy with hLeaf | hOff
  · by_cases hOpened : layout.Opened line y
    · obtain ⟨text, hText⟩ := visitAt_of_opened hLeaf hOpened
      rw [hText]
      rfl
    · rw [visitAt_of_dropped hLeaf hOpened]
      rfl
  · rw [hOff.visitAt]
    rfl

/-- Behind a place in an element, up to a leaf in it, the next leaf is in it, too. -/
theorem next_inside (hy : y ∈ layout.way) (hInside : x <+: y) (hPos : 1 ≤ key)
    (hCount : key ≤ layout.count) (hBelow : x <+: layout.path key)
    (hBefore : y = layout.path key ∨ Path.Before y (layout.path key)) :
    layout.rank y + 1 ≤ layout.count ∧ x <+: layout.path (layout.rank y + 1) := by
  rcases mem_way.1 hy with hLeaf | hOff
  · obtain ⟨other, hOtherPos, hOtherCount, rfl⟩ := exists_path_eq hLeaf
    rw [rank_path hOtherPos hOtherCount]
    exact ⟨hOtherCount, hInside⟩
  · have hNot : y ≠ layout.path key := by
      rintro rfl
      exact hOff.not_mem_leaves (path_mem hPos hCount)
    have hRank := (hOff.before_iff_rank_lt hPos hCount).1 (hBefore.resolve_left hNot)
    refine ⟨by omega, ?_⟩
    rcases Nat.lt_or_eq_of_le (Nat.succ_le_of_lt hRank) with hLess | hSame
    · exact Path.prefix_of_between hInside hBelow
        ((hOff.before_iff_rank_lt (Nat.succ_pos _) (by omega)).2 (Nat.lt_succ_self _))
        (path_before (Nat.succ_pos _) hLess hCount)
    · rwa [← Nat.succ_eq_add_one, hSame]

theorem opens_of_le_level (hPos : 1 ≤ key) (hCount : key ≤ layout.count)
    (hInside : x <+: layout.path key) (hNe : x ≠ layout.path key)
    (hLevel : x.length ≤ layout.level key) (line : Line) :
    (layout.visitAt line (layout.path key)).Opens x := by
  have hLeaf := path_mem hPos hCount
  rw [opens_visitAt (mem_way.2 (.inl hLeaf))]
  by_cases hOpened : line.Opens key
  · exact .inl ⟨hInside, hNe, .inr ⟨hLeaf, (opened_path hPos hCount).2 hOpened⟩⟩
  · exact .inr ⟨key, hPos, hCount, rfl, hOpened, hInside, hLevel⟩

/-- The floor inside an element that is opened is that of the first leaf in it from
the first place on where it is opened. -/
theorem head_floor_inside {line : Line}
    (hMem : layout.path key ∈ layout.way.filter fun y => (layout.visitAt line y).Opens x)
    (hPos : 1 ≤ key) (hCount : key ≤ layout.count) (hInside : x <+: layout.path key) :
    ∃ next, 1 ≤ next ∧ next ≤ layout.count ∧ x <+: layout.path next ∧
      (layout.inside line x).head?.bind Visit.floor = some (layout.level next) := by
  obtain ⟨first, places, hPlaces⟩ := List.exists_cons_of_ne_nil (List.ne_nil_of_mem hMem)
  have hSorted : (first :: places).Pairwise Path.Before :=
    hPlaces ▸ layout.way_sorted.filter _
  obtain ⟨hWay, hOpens⟩ := List.mem_filter.1 (hPlaces ▸ List.mem_cons_self :
    first ∈ layout.way.filter fun y => (layout.visitAt line y).Opens x)
  have hBefore : first = layout.path key ∨ Path.Before first (layout.path key) := by
    rw [hPlaces] at hMem
    rcases List.mem_cons.1 hMem with hSame | hRest
    · exact .inl hSame.symm
    · exact .inr ((List.pairwise_cons.1 hSorted).1 _ hRest)
  obtain ⟨hNext, hBelow⟩ := next_inside hWay (inside_of_opens hWay (of_decide_eq_true hOpens)) hPos
    hCount hInside hBefore
  refine ⟨layout.rank first + 1, Nat.succ_pos _, hNext, hBelow, ?_⟩
  rw [inside, hPlaces, List.map_cons, List.head?_cons, Option.bind_some, floor_visitAt hWay,
    floor_eq (Nat.succ_pos _) hNext]

/-- An element around the atoms of its leaves is opened, and it is never bare. -/
theorem isBareRoom_of_deep {leaf : Path} (hLeaf : leaf ∈ layout.leaves) (hInside : x <+: leaf)
    (hDeep : ∀ key, 1 ≤ key → key ≤ layout.count → x <+: layout.path key →
      x.length < layout.level key) (line : Line) :
    layout.inside line x ≠ [] ∧ layout.isBareRoom x (layout.inside line x) = false := by
  obtain ⟨key, hPos, hCount, rfl⟩ := exists_path_eq hLeaf
  have hLevel := hDeep key hPos hCount hInside
  have hNe : x ≠ layout.path key := by
    intro hSame
    have := level_le_length hPos hCount
    rw [← hSame] at this
    omega
  have hMem : layout.path key ∈ layout.way.filter fun y => (layout.visitAt line y).Opens x :=
    List.mem_filter.2 ⟨mem_way.2 (.inl hLeaf),
      decide_eq_true (opens_of_le_level hPos hCount hInside hNe (Nat.le_of_lt hLevel) line)⟩
  obtain ⟨next, hNextPos, hNext, hBelow, hHead⟩ := head_floor_inside hMem hPos hCount hInside
  have hFloor : ((layout.inside line x).head?.bind Visit.floor).any (· ≤ x.length) = false := by
    rw [hHead]
    simpa using hDeep next hNextPos hNext hBelow
  constructor
  · rw [inside]
    exact fun hNil => List.ne_nil_of_mem hMem (List.map_eq_nil_iff.1 hNil)
  · rw [isBareRoom, isBare, hFloor]
    rfl

/-- Where every leaf is its own atom, a child around a leaf has a piece that is not
bare. -/
theorem exists_not_bare
    (hOwn : ∀ key, 1 ≤ key → key ≤ layout.count → layout.level key = (layout.path key).length)
    {leaf : Path} (hLeaf : leaf ∈ layout.leaves) (hBelow : u ++ [index] <+: leaf)
    (hNe : u ++ [index] ≠ leaf) (line : Line) :
    ∃ copy ∈ Nest.layOf layout u [] (Nest.group u.length (layout.inside line u)),
      copy.isBare = false := by
  have hIntact : layout.Intact line (u ++ [index]) := by
    intro key hPos hCount _ hInside hLess
    have := hInside.length_le
    rw [hOwn key hPos hCount] at hLess
    omega
  have hDeep : ∀ key, 1 ≤ key → key ≤ layout.count → u ++ [index] <+: layout.path key →
      (u ++ [index]).length < layout.level key := by
    intro key hPos hCount hInside
    rw [hOwn key hPos hCount]
    refine Nat.lt_of_le_of_ne hInside.length_le fun hLength => hNe ?_
    have hEq := hInside.eq_of_length hLength
    exact eq_of_inside (hEq ▸ path_mem hPos hCount) hLeaf hBelow
  obtain ⟨hSome, hBare⟩ := isBareRoom_of_deep hLeaf hBelow hDeep line
  obtain ⟨left, right, front, -, hPieces, -⟩ := layOf_inside_child hIntact hSome
  refine ⟨layout.shell (u ++ [index]) (layout.inside line (u ++ [index])), ?_, hBare⟩
  rw [hPieces]
  exact List.mem_append_right _ List.mem_cons_self

/-- Where every leaf is its own atom, an element in which only bare pieces are laid
down holds nothing but dropped leaves. -/
theorem hollow_of_all_bare
    (hOwn : ∀ key, 1 ≤ key → key ≤ layout.count → layout.level key = (layout.path key).length)
    (hLeaf : u ++ [index] ∈ layout.leaves)
    (hAll : ∀ copy ∈ Nest.layOf layout u [] (Nest.group u.length (layout.inside line u)),
      copy.isBare = true) : layout.Hollow line u := by
  intro child hReaches
  have hHolds : ∃ leaf ∈ layout.leaves, u ++ [child] <+: leaf := by
    by_contra hNot
    have hOff : layout.OffPath (u ++ [child]) :=
      ⟨hReaches, fun leaf hOther hBelow => hNot ⟨leaf, hOther, hBelow⟩, u, child, rfl,
        .inr ⟨_, hLeaf, List.prefix_append _ _, by simp⟩⟩
    exact no_clone_of_all_bare hAll hOff List.dropLast_concat
  obtain ⟨leaf, hOther, hBelow⟩ := hHolds
  by_cases hSame : u ++ [child] = leaf
  · subst hSame
    refine ⟨hOther, no_leaf_of_all_bare hAll hOther (List.prefix_append _ _) (by simp), ?_⟩
    obtain ⟨key, hPos, hCount, hKey⟩ := exists_path_eq hOther
    rw [← hKey, rank_path hPos hCount]
    exact hOwn key hPos hCount
  · obtain ⟨copy, hCopy, hNot⟩ := exists_not_bare hOwn hOther hBelow hSame line
    rw [hAll copy hCopy] at hNot
    cases hNot

namespace Hollow

/-- What is in an element that holds nothing but dropped leaves lies in one of
them. -/
theorem leaf_of_inside (h : layout.Hollow line u) (hReaches : layout.root.Reaches y)
    (hInside : u <+: y) (hNe : u ≠ y) :
    ∃ child, u ++ [child] <+: y ∧ u ++ [child] ∈ layout.leaves := by
  obtain ⟨_ | ⟨child, rest⟩, rfl⟩ := hInside
  · exact absurd (List.append_nil u).symm hNe
  · have hBelow : u ++ [child] <+: u ++ child :: rest := ⟨rest, by simp⟩
    exact ⟨child, hBelow, (h child (hReaches.above hBelow)).1⟩

theorem pass_of_mem (h : layout.Hollow line u) (hLeaf : u ++ [index] ∈ layout.leaves) {visit : Visit}
    (hVisit : visit ∈ layout.inside line u) :
    ∃ floor child, visit = .pass floor (u ++ [child]) ∧ u ++ [child] ∈ layout.leaves := by
  obtain ⟨y, hy, rfl⟩ := List.mem_map.1 hVisit
  obtain ⟨hWay, hOpens⟩ := List.mem_filter.1 hy
  have hInside := inside_of_opens hWay (of_decide_eq_true hOpens)
  have hAbove : u <+: u ++ [index] := List.prefix_append _ _
  rcases mem_way.1 hWay with hOther | hOff
  · have hNe : u ≠ y := by
      rintro rfl
      have hSame := eq_of_inside hOther hLeaf hAbove
      simp at hSame
    obtain ⟨child, hBelow, hChild⟩ := h.leaf_of_inside (leaf_reaches hOther) hInside hNe
    obtain rfl := eq_of_inside hChild hOther hBelow
    obtain ⟨-, hDropped, hOwn⟩ := h child (leaf_reaches hOther)
    have hPass := visitAt_of_dropped hOther hDropped
    rw [hOwn, List.take_length] at hPass
    exact ⟨_, child, hPass, hOther⟩
  · have hNe : u ≠ y := by
      rintro rfl
      exact hOff.free _ hLeaf hAbove
    obtain ⟨child, hBelow, hChild⟩ := h.leaf_of_inside hOff.reaches hInside hNe
    exact absurd hBelow (not_prefix_of_offPath hChild hOff)

theorem eq_shell_of_mem (h : layout.Hollow line u) (hLeaf : u ++ [index] ∈ layout.leaves)
    {copy : Copy}
    (hCopy : copy ∈ Nest.layOf layout u [] (Nest.group u.length (layout.inside line u))) :
    ∃ child, copy = .shell (u ++ [child]) true [] := by
  rcases Nest.mem_layOf_cases (areAt_inside line u) hCopy with
    ⟨visit, hVisit, front, hPiece⟩ | ⟨child, isBare, copies, rfl, visit, hVisit, hOpens⟩
  · rw [Nest.visitsOf_group] at hVisit
    obtain ⟨floor, child, rfl, -⟩ := h.pass_of_mem hLeaf hVisit
    cases hPiece
  · rw [Nest.visitsOf_group] at hVisit
    obtain ⟨floor, other, rfl, hOther⟩ := h.pass_of_mem hLeaf hVisit
    have hGoal : u ++ [child] <+: u ++ [other] := hOpens.prefix_goal
    obtain rfl : child = other := by simpa using hGoal
    obtain ⟨-, hDropped, hOwn⟩ := h child (leaf_reaches hOther)
    obtain ⟨left, right, behind, -, hPieces, hLeft, hRight⟩ := layOf_inside_leaf hOther hDropped hOwn
    -- a copy of the leaf is not among the pieces on either side
    have hRooms : (Copy.shell (u ++ [child]) isBare copies).rooms (u ++ [child]) ≠ [] := by
      simp [Copy.rooms]
    rw [hPieces] at hCopy
    rcases List.mem_append.1 hCopy with hCopy | hCopy
    · exact absurd (Copy.roomsOf_eq_nil.1 hLeft _ hCopy) hRooms
    · rcases List.mem_cons.1 hCopy with hSame | hCopy
      · exact ⟨child, hSame⟩
      · exact absurd (Copy.roomsOf_eq_nil.1 hRight _ hCopy) hRooms

theorem exists_cons (h : layout.Hollow line u) (hLeaf : u ++ [index] ∈ layout.leaves) :
    ∃ rest, Nest.layOf layout u [] (Nest.group u.length (layout.inside line u)) =
      .shell (u ++ [0]) true [] :: rest := by
  obtain ⟨hReaches, hDegree⟩ := Element.reaches_concat.1 (leaf_reaches hLeaf)
  obtain ⟨hFirst, hDropped, hOwn⟩ :=
    h 0 (Element.reaches_concat.2 ⟨hReaches, Nat.zero_lt_of_lt hDegree⟩)
  obtain ⟨left, right, front, -, hPieces, hLeft, -⟩ := layOf_inside_leaf hFirst hDropped hOwn
  have hSorted : (Nest.layOf layout u [] (Nest.group u.length (layout.inside line u))).Pairwise
      fun copy next => ¬ Path.Before next.source copy.source := by
    apply Nest.sorted_layOf layout (areAt_inside line u)
    rw [Nest.visitsOf_group]
    exact sorted_inside line u
  cases hNone : Nest.layOf layout u [] (Nest.group u.length (left.map (layout.visitAt line))) with
  | nil => exact ⟨_, by rw [hPieces, hNone]; rfl⟩
  | cons copy copies =>
    -- nothing goes in front of the first leaf
    rw [hNone] at hPieces hLeft
    have hMem : copy ∈ Nest.layOf layout u [] (Nest.group u.length (layout.inside line u)) := by
      rw [hPieces]
      simp
    obtain ⟨child, rfl⟩ := h.eq_shell_of_mem hLeaf hMem
    rw [hPieces] at hSorted
    have hNot := (List.pairwise_cons.1 hSorted).1 (.shell (u ++ [0]) true []) (by simp)
    rw [Copy.source, Copy.source, Path.before_append_left, Path.before_cons] at hNot
    obtain rfl : child = 0 := by omega
    simp [Copy.roomsOf, Copy.rooms] at hLeft

theorem rooms_ne_nil (h : layout.Hollow line u)
    (hPlaces : ∀ entry ∈ line, 1 ≤ entry.1.index ∧ entry.1.index ≤ layout.count)
    (hLine : Line.IsForward line) (hLeaf : u ++ [0] ∈ layout.leaves) :
    (layout.finished line).rooms (u ++ [0]) ≠ [] := by
  have hInside : u <+: u ++ [0] := List.prefix_append _ _
  obtain ⟨-, hDropped, hOwn⟩ := h 0 (leaf_reaches hLeaf)
  have hDeep : ∀ key, 1 ≤ key → key ≤ layout.count → u <+: layout.path key →
      u.length < layout.level key := by
    intro key hPos hCount hAbove
    have hMem := path_mem hPos hCount
    have hNe : u ≠ layout.path key := by
      intro hSame
      have hEq := eq_of_inside (hSame ▸ hMem) hLeaf hInside
      simp at hEq
    obtain ⟨child, hBelow, hChild⟩ := h.leaf_of_inside (leaf_reaches hMem) hAbove hNe
    have hSame := eq_of_inside hChild hMem hBelow
    obtain ⟨-, -, hLevel⟩ := h child (leaf_reaches hChild)
    rw [hSame, rank_path hPos hCount, ← hSame, List.length_append, List.length_singleton] at hLevel
    omega
  have hWay : u ++ [0] ∈ layout.way := mem_way.2 (.inl hLeaf)
  have hMem := mem_inside hWay
    (((opens_leaf_iff hLeaf hDropped hWay).2 ⟨rfl, hOwn⟩).upward hInside)
  have hBlock := (rooms_of_intact hPlaces hLine (intact_of_own hLeaf hInside hOwn line)
    (List.ne_nil_of_mem hMem)).resolve_right fun hGone => by
      rw [(isBareRoom_of_deep hLeaf hInside hDeep line).2] at hGone
      cases hGone.1
  obtain ⟨rest, hPieces⟩ := h.exists_cons hLeaf
  have hAll : ∀ copy ∈ Copy.shell (u ++ [0]) true [] :: rest, copy.isBare = true := by
    intro copy hCopy
    obtain ⟨child, rfl⟩ := h.eq_shell_of_mem hLeaf (hPieces ▸ hCopy)
    rfl
  rw [hBlock _ hInside, shell, Copy.rooms_shell_of_ne (by simp), room, hPieces,
    Copy.prune_of_all_bare hAll]
  simp [Copy.roomsOf, Copy.rooms]

end Hollow

/-- In a text document a dropped leaf is left exactly if it is the first child of
an element that holds nothing but dropped leaves. -/
theorem rooms_ne_nil_iff
    (hOwn : ∀ key, 1 ≤ key → key ≤ layout.count → layout.level key = (layout.path key).length)
    (hPlaces : ∀ entry ∈ line, 1 ≤ entry.1.index ∧ entry.1.index ≤ layout.count)
    (hLine : Line.IsForward line) (hLeaf : u ++ [index] ∈ layout.leaves)
    (hDropped : ¬ layout.Opened line (u ++ [index])) :
    (layout.finished line).rooms (u ++ [index]) ≠ [] ↔ index = 0 ∧ layout.Hollow line u := by
  constructor
  · intro hRooms
    obtain ⟨-, hAll, hHead, -⟩ := bare_of_rooms_ne_nil hPlaces hLine hLeaf hDropped hRooms
    have hHollow := hollow_of_all_bare hOwn hLeaf hAll
    obtain ⟨rest, hPieces⟩ := hHollow.exists_cons hLeaf
    rw [hPieces, List.head?_cons, Option.some_inj] at hHead
    have hSame := (Copy.shell.inj hHead).1
    exact ⟨by simpa using hSame.symm, hHollow⟩
  · rintro ⟨rfl, hHollow⟩
    exact hHollow.rooms_ne_nil hPlaces hLine hLeaf

/-- What a document made of copies has of a leaf that is dropped. The leaf is
neither cloned nor copied; at most a copy that was opened to pass it by is left,
and there is one if the element around the leaf holds nothing but dropped leaves.
In a text document that is the only way to leave one. -/
structure Drops (layout : Layout) (line : Line) (copies : List Copy) (u : Path) (index : Nat) :
    Prop where
  clones : ∀ x ∈ Copy.clonesOf copies, ¬ x <+: u ++ [index]
  leaves : ∀ grain ∈ Copy.grainsOf [] copies, ∀ elements,
    grain.piece ≠ .leaf (u ++ [index]) elements
  remnant : (Copy.shell [] false copies).rooms (u ++ [index]) = [] ∨
    layout.Remnant line (.shell [] false copies) u (u ++ [index])
  hollow : index = 0 → layout.Hollow line u →
    (Copy.shell [] false copies).rooms (u ++ [index]) ≠ []
  odt : layout.format = .odt → (Copy.shell [] false copies).rooms (u ++ [index]) ≠ [] →
    index = 0 ∧ layout.Hollow line u

/-- Nothing is cloned that holds a leaf, and no leaf is copied that is dropped. -/
theorem MadeOf.spares {out : Element} {copies : List Copy} (h : layout.MadeOf line out copies)
    (hLeaf : p ∈ layout.leaves) (hDropped : ¬ layout.Opened line p) :
    (∀ x ∈ Copy.clonesOf copies, ¬ x <+: p) ∧
      ∀ grain ∈ Copy.grainsOf [] copies, ∀ elements, grain.piece ≠ .leaf p elements := by
  constructor
  · intro x hx
    have hOff : layout.OffPath x := cloned_of_mem_clonesOf copies h.faithful hx
    exact hOff.free p hLeaf
  · intro grain hGrain elements hPiece
    have hFaithful := Copy.faithful_of_mem_grainsOf copies h.faithful hGrain
    rw [hPiece] at hFaithful
    cases hFaithful with
    | leaf front text _ hOpened => exact hDropped hOpened

end Layout

variable {format : Format} {root : Element} {content : Content} {line tape : Line}

/-- A tape that never goes back leaves nothing of a leaf that has no present
entry, unless the element around the leaf would be left without children: then
the copy that was opened to pass the leaf by may stay, with the text of the leaf.
In a text document this happens to the first child of every element that holds
nothing but such leaves, and to no other leaf. -/
theorem enforce_drops_text (h : flatten format root = .ok (content, line))
    (hTape : Line.PointsInto tape line) (hForward : Line.IsForward tape) :
    ∃ boundaries out copies, Boundaries.ofLine root line = .ok boundaries ∧
      enforce root tape boundaries format = .ok out ∧ (Layout.ofLine h).MadeOf tape out copies ∧
      ∀ u index, u ++ [index] ∈ (Layout.ofLine h).leaves →
        ¬ (Layout.ofLine h).Opened tape (u ++ [index]) →
          (Layout.ofLine h).Drops tape copies u index := by
  obtain ⟨boundaries, hBoundaries, hEnforce⟩ := Layout.enforce_ofLine h hTape
  have hPlaces := Layout.bounds_of_pointsInto h hTape
  have hMade := Layout.madeOf_assemble hPlaces hForward
  refine ⟨boundaries, _, _, hBoundaries, hEnforce, hMade, fun u index hLeaf hDropped => ?_⟩
  obtain ⟨hClones, hLeaves⟩ := hMade.spares hLeaf hDropped
  refine ⟨hClones, hLeaves, ?_, ?_, ?_⟩
  · by_cases hRooms : ((Layout.ofLine h).finished tape).rooms (u ++ [index]) = []
    · exact .inl hRooms
    · exact .inr (Layout.remnant_of_rooms_ne_nil hPlaces hForward hLeaf hDropped hRooms)
  · rintro rfl hHollow
    exact hHollow.rooms_ne_nil hPlaces hForward hLeaf
  · rintro rfl hRooms
    exact (Layout.rooms_ne_nil_iff (fun key => Layout.level_eq_length h) hPlaces hForward hLeaf
      hDropped).1 hRooms

/-- A section with two conditions, one of them in a section of its own. -/
def Odt.conditions : Element :=
  element "section" none
    [element "p" (some "Dear") [],
      element "p" (some "\x7b% if false %\x7dX\x7b% endif %\x7d") [],
      element "section" none
        [element "p" (some "\x7b% if false %\x7dY\x7b% endif %\x7d") []]]

/-- The line of the section with two conditions. -/
def Odt.conditionsLine : Line :=
  [(⟨[0], true, 4, 0, 4, 1⟩, "Dear"), (⟨[1], false, 26, 0, 14, 2⟩, "\x7b% if false %\x7d"),
    (⟨[1], false, 26, 14, 1, 2⟩, "X"), (⟨[1], false, 26, 15, 11, 2⟩, "\x7b% endif %\x7d"),
    (⟨[2, 0], false, 26, 0, 14, 3⟩, "\x7b% if false %\x7d"), (⟨[2, 0], false, 26, 14, 1, 3⟩, "Y"),
    (⟨[2, 0], false, 26, 15, 11, 3⟩, "\x7b% endif %\x7d")]

/-- The section with neither of the conditions fulfilled. -/
def Odt.conditionsTape : Line :=
  Odt.conditionsLine.map fun entry => (entry.1, if entry.1.index = 1 then entry.2 else "")

theorem Odt.flatten_conditions :
    flatten .odt Odt.conditions = .ok (.template, Odt.conditionsLine) := by
  decide +kernel

/-- Both paragraphs are dropped; nothing is left of the first one, but the second
one stands alone and is left. -/
theorem enforce_drops_text_conditions :
    ∃ h : flatten .odt Odt.conditions = .ok (.template, Odt.conditionsLine),
      Line.PointsInto Odt.conditionsTape Odt.conditionsLine ∧ Line.IsForward Odt.conditionsTape ∧
      ∃ boundaries out copies, Boundaries.ofLine Odt.conditions Odt.conditionsLine = .ok boundaries ∧
        enforce Odt.conditions Odt.conditionsTape boundaries .odt = .ok out ∧
        (Layout.ofLine h).MadeOf Odt.conditionsTape out copies ∧
        (Layout.ofLine h).Drops Odt.conditionsTape copies [] 1 ∧
        (Copy.shell [] false copies).rooms [1] = [] ∧
        (Layout.ofLine h).Drops Odt.conditionsTape copies [2] 0 ∧
        (Copy.shell [] false copies).rooms [2, 0] ≠ [] := by
  have hTape : Line.PointsInto Odt.conditionsTape Odt.conditionsLine := by decide
  have hForward : Line.IsForward Odt.conditionsTape := by decide
  obtain ⟨boundaries, out, copies, hBoundaries, hEnforce, hMade, hDrops⟩ :=
    enforce_drops_text Odt.flatten_conditions hTape hForward
  have hFirst := hDrops [] 1 (by decide +kernel) (by decide +kernel)
  have hSecond := hDrops [2] 0 (by decide +kernel) (by decide +kernel)
  have hHollow : (Layout.ofLine Odt.flatten_conditions).Hollow Odt.conditionsTape [2] := by
    rintro (_ | index) hReaches
    · exact ⟨by decide +kernel, by decide +kernel, by decide +kernel⟩
    · cases hReaches
  refine ⟨Odt.flatten_conditions, hTape, hForward, boundaries, out, copies, hBoundaries, hEnforce,
    hMade, hFirst, ?_, hSecond, hSecond.hollow rfl hHollow⟩
  by_contra hRooms
  exact absurd (hFirst.odt rfl hRooms).1 (by decide)

/-- A section that holds nothing but a paragraph which is dropped. -/
def Odt.hollowSection : Element :=
  element "section" none
    [element "p" (some "{% if false %}X{% endif %}") []]

/-- The line of the section with one paragraph. -/
def Odt.hollowLine : Line :=
  [(⟨[0], false, 26, 0, 14, 1⟩, "{% if false %}"), (⟨[0], false, 26, 14, 1, 1⟩, "X"),
    (⟨[0], false, 26, 15, 11, 1⟩, "{% endif %}")]

/-- The section with no text at all. -/
def Odt.hollowTape : Line :=
  Odt.hollowLine.map fun entry => (entry.1, "")

/-- A paragraph that is the only child of its element keeps its text when it is
dropped. -/
theorem enforce_hollowSection :
    flatten .odt Odt.hollowSection = .ok (.template, Odt.hollowLine) ∧
      Line.PointsInto Odt.hollowTape Odt.hollowLine ∧ Line.IsForward Odt.hollowTape ∧
      (∀ entry ∈ Odt.hollowTape, ¬ Line.IsPresent entry) ∧
      (do
        let boundaries ← Boundaries.ofLine Odt.hollowSection Odt.hollowLine
        enforce Odt.hollowSection Odt.hollowTape boundaries .odt) = .ok Odt.hollowSection :=
  ⟨by decide +kernel, by decide, by decide, by decide, by decide +kernel⟩

end Infill
