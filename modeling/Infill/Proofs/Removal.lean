import Infill.Proofs.Cells

/-!
Atoms that are dropped with all that is in them. A run that passes such an atom
by opens a copy of it, clones the formatting in front of its leaves, and may open
and close elements inside it, over and over; but nothing of this counts as
content, at any depth. So the copy is bare, and it is taken out when the element
around it is closed, if a leaf was copied there.
-/
namespace Infill

open Infill.Xml

namespace Copy

/-! ### Where pieces stand -/

/-- Whether the clones and the leaves in a piece stand in a copy of the element
around them, where the piece itself stands in a copy of the element at a path. -/
inductive Housed : Path → Copy → Prop where
  | clone {path source : Path} : source.dropLast = path → Housed path (.clone source)
  | leaf {path source : Path} {written : List Element} : source.dropLast = path →
      Housed path (.leaf source written)
  | shell {path : Path} {index : Nat} {isBare : Bool} {copies : List Copy} :
      (∀ copy ∈ copies, Housed (path ++ [index]) copy) →
        Housed path (.shell (path ++ [index]) isBare copies)

variable {x path : Path} {room : List Copy} {grain : Grain}

mutual

/-- A clone stands in a copy of the element around its source. -/
theorem Housed.exists_room : (copy : Copy) → {path : Path} → Housed path copy → x ∈ copy.clones →
    copy = .clone x ∧ x.dropLast = path ∨ ∃ room ∈ copy.rooms x.dropLast, .clone x ∈ room
  | .clone source, _, h, hx => by
    obtain rfl := List.mem_singleton.1 hx
    cases h with
    | clone hHere => exact .inl ⟨rfl, hHere⟩
  | .leaf .., _, _, hx => by cases hx
  | .shell source isBare copies, _, h, hx => by
    cases h with
    | shell hCopies =>
      right
      rw [rooms]
      rcases exists_room_of_housed copies hCopies hx with ⟨hMem, hHere⟩ | ⟨room, hRoom, hMem⟩
      · exact ⟨copies, List.mem_append_left _ (by rw [if_pos hHere.symm]; simp), hMem⟩
      · exact ⟨room, List.mem_append_right _ hRoom, hMem⟩

theorem exists_room_of_housed : (copies : List Copy) → {path : Path} →
    (∀ copy ∈ copies, Housed path copy) → x ∈ clonesOf copies →
    .clone x ∈ copies ∧ x.dropLast = path ∨ ∃ room ∈ roomsOf x.dropLast copies, .clone x ∈ room
  | [], _, _, hx => by cases hx
  | copy :: rest, _, h, hx => by
    rw [roomsOf]
    rcases List.mem_append.1 hx with hx | hx
    · rcases Housed.exists_room copy (h copy List.mem_cons_self) hx with
        ⟨rfl, hHere⟩ | ⟨room, hRoom, hMem⟩
      · exact .inl ⟨List.mem_cons_self, hHere⟩
      · exact .inr ⟨room, List.mem_append_left _ hRoom, hMem⟩
    · have hRest : ∀ other ∈ rest, Housed _ other := fun other hOther =>
        h other (List.mem_cons_of_mem _ hOther)
      rcases exists_room_of_housed rest hRest hx with ⟨hMem, hHere⟩ | ⟨room, hRoom, hMem⟩
      · exact .inl ⟨List.mem_cons_of_mem _ hMem, hHere⟩
      · exact .inr ⟨room, List.mem_append_right _ hRoom, hMem⟩

end

mutual

/-- What is in a piece comes from below the element that the piece stands in. -/
theorem Housed.prefix_source : (copy : Copy) → {path : Path} → {front : List Copy} →
    Housed path copy → grain ∈ copy.grains front → path <+: grain.piece.source
  | .clone source, _, _, h, hGrain => by
    obtain rfl := List.mem_singleton.1 hGrain
    cases h with
    | clone hHere => exact hHere ▸ List.dropLast_prefix source
  | .leaf source written, _, _, h, hGrain => by
    obtain rfl := List.mem_singleton.1 hGrain
    cases h with
    | leaf hHere => exact hHere ▸ List.dropLast_prefix source
  | .shell source isBare copies, _, _, h, hGrain => by
    cases h with
    | shell hCopies =>
      exact (List.prefix_append _ _).trans (prefix_source_of_housed copies hCopies hGrain)

theorem prefix_source_of_housed : (copies : List Copy) → {path : Path} → {front : List Copy} →
    (∀ copy ∈ copies, Housed path copy) → grain ∈ grainsOf front copies →
    path <+: grain.piece.source
  | [], _, _, _, hGrain => by cases hGrain
  | copy :: rest, _, _, h, hGrain => by
    rcases List.mem_append.1 hGrain with hGrain | hGrain
    · exact Housed.prefix_source copy (h copy List.mem_cons_self) hGrain
    · exact prefix_source_of_housed rest
        (fun other hOther => h other (List.mem_cons_of_mem _ hOther)) hGrain

end

mutual

/-- The copy of an element holds pieces from below the element. -/
theorem Housed.of_mem_rooms : (copy : Copy) → {path : Path} → Housed path copy →
    room ∈ copy.rooms x → ∀ inner ∈ room, Housed x inner
  | .clone _, _, _, hRoom => by cases hRoom
  | .leaf .., _, _, hRoom => by cases hRoom
  | .shell source isBare copies, _, h, hRoom => by
    cases h with
    | shell hCopies =>
      rcases List.mem_append.1 hRoom with hRoom | hRoom
      · split at hRoom
        · rename_i hSource
          obtain rfl := List.mem_singleton.1 hRoom
          exact hSource ▸ hCopies
        · cases hRoom
      · exact housed_of_mem_roomsOf copies hCopies hRoom

theorem housed_of_mem_roomsOf : (copies : List Copy) → {path : Path} →
    (∀ copy ∈ copies, Housed path copy) → room ∈ roomsOf x copies → ∀ inner ∈ room, Housed x inner
  | [], _, _, hRoom => by cases hRoom
  | copy :: rest, _, h, hRoom => by
    rcases List.mem_append.1 hRoom with hRoom | hRoom
    · exact Housed.of_mem_rooms copy (h copy List.mem_cons_self) hRoom
    · exact housed_of_mem_roomsOf rest (fun other hOther => h other (List.mem_cons_of_mem _ hOther))
        hRoom

end

mutual

/-- What stands in the copy of an element stands in the document. -/
theorem grain_mem_of_rooms : (copy : Copy) → {front : List Copy} → room ∈ copy.rooms x →
    grain ∈ grainsOf [] room → grain ∈ copy.grains front
  | .clone _, _, hRoom, _ => by cases hRoom
  | .leaf .., _, hRoom, _ => by cases hRoom
  | .shell source isBare copies, _, hRoom, hGrain => by
    rcases List.mem_append.1 hRoom with hRoom | hRoom
    · split at hRoom
      · obtain rfl := List.mem_singleton.1 hRoom
        exact hGrain
      · cases hRoom
    · exact grain_mem_of_roomsOf copies hRoom hGrain

theorem grain_mem_of_roomsOf : (copies : List Copy) → {front : List Copy} →
    room ∈ roomsOf x copies → grain ∈ grainsOf [] room → grain ∈ grainsOf front copies
  | [], _, hRoom, _ => by cases hRoom
  | copy :: rest, _, hRoom, hGrain => by
    rcases List.mem_append.1 hRoom with hRoom | hRoom
    · exact List.mem_append_left _ (grain_mem_of_rooms copy hRoom hGrain)
    · exact List.mem_append_right _ (grain_mem_of_roomsOf rest hRoom hGrain)

end

end Copy

namespace Nest

variable {layout : Layout} {path : Path} {front : List Copy}

mutual

theorem housed_lay : (nest : Nest) → {path : Path} → {front : List Copy} → IsAt path nest →
    ∀ copy ∈ lay layout path front nest, Copy.Housed path copy
  | here visit, path, front, h, copy, hCopy => by
    rw [lay] at hCopy
    cases visit with
    | clone floor source =>
      obtain rfl := List.mem_singleton.1 hCopy
      exact .clone (Option.some.inj h)
    | fill floor source text =>
      obtain rfl := List.mem_singleton.1 hCopy
      exact .leaf (Option.some.inj h)
    | pass floor source => cases hCopy
    | back depth => cases hCopy
  | child index nests, path, front, h, copy, hCopy => by
    obtain rfl := List.mem_singleton.1 hCopy
    exact .shell fun inner hInner => housed_layOf nests h.2 inner (Layout.mem_of_mem_prune hInner)

theorem housed_layOf : (nests : List Nest) → {path : Path} → {front : List Copy} →
    AreAt path nests → ∀ copy ∈ layOf layout path front nests, Copy.Housed path copy
  | [], _, _, _, _, hCopy => by cases hCopy
  | nest :: nests, path, front, h, copy, hCopy => by
    rcases List.mem_append.1 hCopy with hCopy | hCopy
    · exact housed_lay nest h.1 copy hCopy
    · exact housed_layOf nests h.2.2 copy hCopy

end

end Nest

namespace Visit

/-- Whether a visit lays down no content, and what it opens may be taken out from
some depth on: it copies no leaf and clones nothing but formatting. -/
structure IsIdle (layout : Layout) (depth : Nat) (visit : Visit) : Prop where
  floor : visit.floor = some depth
  fill : visit.isFill = false
  cloned : ∀ source ∈ visit.cloned?,
    layout.format.isProperty (layout.root.descendant source).tag = true

end Visit

/-- What is opened for visits that lay down no content is bare. -/
theorem Layout.isBare_of_idle {layout : Layout} {depth : Nat} {path : Path} {visits : List Visit}
    {copies : List Copy} (hSome : visits ≠ []) (hDepth : depth ≤ path.length)
    (hIdle : ∀ visit ∈ visits, visit.IsIdle layout depth)
    (hCopies : ∀ copy ∈ copies, copy.isContent layout = false) :
    layout.isBare path visits copies = true := by
  obtain ⟨first, rest, rfl⟩ := List.exists_cons_of_ne_nil hSome
  have hFill : Visit.hasFill (first :: rest) = false :=
    List.any_eq_false.2 fun visit hVisit => by simp [(hIdle visit hVisit).fill]
  have hContent : copies.any (·.isContent layout) = false :=
    List.any_eq_false.2 fun copy hCopy => by simp [hCopies copy hCopy]
  rw [isBare, hFill, hContent, List.head?_cons, Option.bind_some,
    (hIdle first List.mem_cons_self).floor]
  simpa using hDepth

namespace Nest

variable {layout : Layout} {depth : Nat}

mutual

theorem not_content_lay : (nest : Nest) → {path : Path} → {front : List Copy} → IsAt path nest →
    depth ≤ path.length → (∀ visit ∈ nest.visits, visit.IsIdle layout depth) →
    ∀ copy ∈ lay layout path front nest, copy.isContent layout = false
  | here visit, path, front, _, _, hIdle, copy, hCopy => by
    have hVisit := hIdle visit (List.mem_singleton_self visit)
    rw [lay] at hCopy
    cases visit with
    | clone floor source =>
      obtain rfl := List.mem_singleton.1 hCopy
      rw [Copy.isContent, hVisit.cloned source rfl]
      rfl
    | fill floor source text => cases hVisit.fill
    | pass floor source => cases hCopy
    | back depth => cases hCopy
  | child index nests, path, front, h, hDepth, hIdle, copy, hCopy => by
    obtain rfl := List.mem_singleton.1 hCopy
    obtain ⟨visit, visits, rest, hVisits, -⟩ := head_of_areAt nests h.2 h.1
    have hBelow : depth ≤ (path ++ [index]).length :=
      hDepth.trans (List.prefix_append path [index]).length_le
    have hBare : layout.isBare (path ++ [index]) (visitsOf nests)
        (layOf layout (path ++ [index]) [] nests) = true :=
      Layout.isBare_of_idle (by rw [hVisits]; exact List.cons_ne_nil _ _) hBelow hIdle
        (not_content_layOf nests h.2 hBelow hIdle)
    rw [Copy.isContent, hBare]
    rfl

/-- Visits that lay down no content lay down no content, at any depth. -/
theorem not_content_layOf : (nests : List Nest) → {path : Path} → {front : List Copy} →
    AreAt path nests → depth ≤ path.length →
    (∀ visit ∈ visitsOf nests, visit.IsIdle layout depth) →
    ∀ copy ∈ layOf layout path front nests, copy.isContent layout = false
  | [], _, _, _, _, _, _, hCopy => by cases hCopy
  | nest :: nests, path, front, h, hDepth, hIdle, copy, hCopy => by
    rcases List.mem_append.1 hCopy with hCopy | hCopy
    · exact not_content_lay nest h.1 hDepth
        (fun visit hVisit => hIdle visit (List.mem_append_left _ hVisit)) copy hCopy
    · exact not_content_layOf nests h.2.2 hDepth
        (fun visit hVisit => hIdle visit (List.mem_append_right _ hVisit)) copy hCopy

end

end Nest

namespace Layout

variable {layout : Layout} {line : Line} {u x y z : Path} {index : Nat}

/-- Whether an element is the atom of all leaves in it, none of them has an entry
that is present, and nothing else is in it but formatting in front of leaves. -/
structure Unused (layout : Layout) (line : Line) (x : Path) : Prop where
  holds : ∃ leaf ∈ layout.leaves, x <+: leaf
  atom : ∀ leaf ∈ layout.leaves, x <+: leaf →
    layout.format.atomFloor layout.root leaf = .ok x.length
  dropped : ∀ leaf ∈ layout.leaves, x <+: leaf → ¬ layout.Opened line leaf
  property : ∀ y, layout.OffPath y → x <+: y.dropLast →
    layout.format.isProperty (layout.root.descendant y).tag = true
  leading : ∀ y, layout.OffPath y → x <+: y.dropLast →
    ∀ leaf ∈ layout.leaves, y.dropLast <+: leaf → Path.Before y leaf

namespace Unused

theorem level_eq (h : layout.Unused line x) {key : Nat} (hPos : 1 ≤ key)
    (hCount : key ≤ layout.count) (hInside : x <+: layout.path key) :
    layout.level key = x.length := by
  rw [level, h.atom _ (path_mem hPos hCount) hInside]

/-- Behind every place in an unused atom there is a leaf of it. -/
theorem floor_eq (h : layout.Unused line x) (hy : y ∈ layout.way)
    (hOpens : (layout.visitAt line y).Opens x) :
    layout.floor (layout.rank y + 1) = some x.length := by
  have hLast : layout.rank y + 1 ≤ layout.count ∧ x <+: layout.path (layout.rank y + 1) := by
    rcases mem_way.1 hy with hLeaf | hOff
    · obtain ⟨key, hPos, hCount, rfl⟩ := exists_path_eq hLeaf
      rw [rank_path hPos hCount]
      exact ⟨hCount, inside_of_opens hy hOpens⟩
    · obtain ⟨u, i, rfl, hAttached⟩ := hOff.attached
      have hInside : x <+: u := by
        rw [hOff.visitAt, opens_of_branch rfl, List.dropLast_concat] at hOpens
        exact hOpens
      have hHolds : ∃ leaf ∈ layout.leaves, u <+: leaf := by
        rcases hAttached with rfl | ⟨leaf, hLeaf, hBelow, -⟩
        · obtain ⟨leaf, hLeaf, -⟩ := h.holds
          exact ⟨leaf, hLeaf, List.nil_prefix⟩
        · exact ⟨leaf, hLeaf, hBelow⟩
      obtain ⟨leaf, hLeaf, hBelow⟩ := hHolds
      have hBefore := h.leading _ hOff (by rwa [List.dropLast_concat]) leaf hLeaf
        (by rwa [List.dropLast_concat])
      obtain ⟨key, hPos, hCount, rfl⟩ := exists_path_eq hLeaf
      obtain ⟨hNext, hStays⟩ :=
        next_inside hy (List.prefix_append u [i]) hPos hCount hBelow (.inr hBefore)
      exact ⟨hNext, hInside.trans hStays⟩
  rw [Layout.floor_eq (Nat.succ_pos _) hLast.1, h.level_eq (Nat.succ_pos _) hLast.1 hLast.2]

theorem isIdle (h : layout.Unused line x) {visit : Visit} (hVisit : visit ∈ layout.inside line x) :
    visit.IsIdle layout x.length := by
  obtain ⟨y, hy, rfl⟩ := List.mem_map.1 hVisit
  obtain ⟨hWay, hOpens⟩ := List.mem_filter.1 hy
  have hOpens := of_decide_eq_true hOpens
  have hFloor : (layout.visitAt line y).floor = some x.length :=
    (floor_visitAt hWay).trans (h.floor_eq hWay hOpens)
  rcases mem_way.1 hWay with hLeaf | hOff
  · have hDropped := h.dropped y hLeaf (inside_of_opens hWay hOpens)
    rw [visitAt_of_dropped hLeaf hDropped] at hFloor ⊢
    exact ⟨hFloor, rfl, fun source hSource => by cases hSource⟩
  · rw [hOff.visitAt] at hFloor hOpens ⊢
    refine ⟨hFloor, rfl, fun source hSource => ?_⟩
    obtain rfl := Option.some.inj hSource
    exact h.property _ hOff ((opens_of_branch rfl).1 hOpens)

theorem inside_ne_nil (h : layout.Unused line x) : layout.inside line x ≠ [] := by
  obtain ⟨leaf, hLeaf, hInside⟩ := h.holds
  obtain ⟨key, hPos, hCount, rfl⟩ := exists_path_eq hLeaf
  have hWay : layout.path key ∈ layout.way := mem_way.2 (.inl hLeaf)
  have hDropped := h.dropped _ hLeaf hInside
  rw [opened_path hPos hCount] at hDropped
  apply List.ne_nil_of_mem
  exact mem_inside hWay ((opens_visitAt hWay).2
    (.inr ⟨key, hPos, hCount, rfl, hDropped, hInside, (h.level_eq hPos hCount hInside).ge⟩))

/-- An unused atom is left bare. -/
theorem vacated (h : layout.Unused line x) : layout.Vacated line x := by
  refine isBare_of_idle h.inside_ne_nil (Nat.le_refl _) (fun visit => h.isIdle) ?_
  apply Nest.not_content_layOf _ (areAt_inside line x) (Nat.le_refl _)
  rw [Nest.visitsOf_group]
  exact fun visit => h.isIdle

theorem intact (h : layout.Unused line x) (hInside : u <+: x) : layout.Intact line u := by
  obtain ⟨leaf, hLeaf, hBelow⟩ := h.holds
  obtain ⟨key, hPos, hCount, rfl⟩ := exists_path_eq hLeaf
  apply intact_of_le_level hPos hCount (hInside.trans hBelow)
  rw [h.level_eq hPos hCount hBelow]
  exact hInside.length_le

/-- No element from an unused atom upwards is a leaf with an entry that is present. -/
theorem ne_of_inside (h : layout.Unused line x) (hInside : u <+: x) {leaf : Path}
    (hLeaf : leaf ∈ layout.leaves) (hOpened : layout.Opened line leaf) : u ≠ leaf := by
  rintro rfl
  obtain ⟨other, hOther, hBelow⟩ := h.holds
  obtain rfl := eq_of_inside hLeaf hOther (hInside.trans hBelow)
  exact h.dropped u hOther hBelow hOpened

end Unused

/-! ### What the element around an unused atom keeps -/

section

variable {leaf : Path} (hLeaf : leaf ∈ layout.leaves) (hOpened : layout.Opened line leaf)
  (hInside : u <+: leaf) (hNe : u ≠ leaf)
include hLeaf hOpened hInside hNe

/-- Where a leaf is copied in an element, just the bare pieces are taken out of it. -/
theorem room_eq_lasting :
    layout.room u (layout.inside line u) = Copy.lasting (layout.laid line u) := by
  apply Copy.prune_eq_lasting fun copy hCopy _ => elements_ne_nil_of_mem hCopy
  by_contra hNone
  exact no_leaf_of_all_bare (u := u) (by simpa using hNone) hLeaf hInside hNe hOpened

end

variable (hPlaces : ∀ entry ∈ line, 1 ≤ entry.1.index ∧ entry.1.index ≤ layout.count)
  (hLine : Line.IsForward line)
include hPlaces hLine

theorem housed_copied :
    ∀ copy ∈ layout.copied (layout.itinerary line), Copy.Housed [] copy := by
  rw [copied_forward hPlaces hLine]
  exact fun copy hCopy => Nest.housed_layOf _ (areAt_inside line []) copy (mem_of_mem_prune hCopy)

namespace Unused

variable {leaf : Path} (hLeaf : leaf ∈ layout.leaves) (hOpened : layout.Opened line leaf)
include hLeaf hOpened

/-- No copy of an unused atom is left, or of an element in it. -/
theorem rooms_eq_nil (h : layout.Unused line (u ++ [index])) (hInside : u <+: leaf)
    (hy : u ++ [index] <+: y) : (layout.finished line).rooms y = [] := by
  have hAbove : u <+: u ++ [index] := List.prefix_append u [index]
  have hNe := h.ne_of_inside hAbove hLeaf hOpened
  obtain ⟨left, right, front, -, hPieces, hLeft, hRight⟩ :=
    layOf_inside_child (h.intact List.prefix_rfl) h.inside_ne_nil
  have hBare : (layout.shell (u ++ [index]) (layout.inside line (u ++ [index]))).isBare = true :=
    h.vacated
  -- the one piece of the atom is taken out of the copy of the element around it
  have hRoom : Copy.roomsOf (u ++ [index]) (layout.room u (layout.inside line u)) = [] := by
    rw [room_eq_lasting hLeaf hOpened hInside hNe, laid, hPieces, Copy.lasting_append,
      Copy.roomsOf_append, Copy.lasting, Copy.lasting, List.filter_cons_of_neg (by simp [hBare]),
      List.append_eq_nil_iff]
    exact ⟨List.eq_nil_of_sublist_nil (hLeft ▸ Copy.roomsOf_sublist List.filter_sublist),
      List.eq_nil_of_sublist_nil (hRight ▸ Copy.roomsOf_sublist List.filter_sublist)⟩
  obtain ⟨text, hText⟩ := visitAt_of_opened hLeaf hOpened
  have hCopies : layout.Copies line u leaf := ⟨hInside, hNe, .inr ⟨hLeaf, hOpened⟩⟩
  have hMem := mem_inside (mem_way.2 (.inl hLeaf)) hCopies.opens
  have hAround := (rooms_of_intact hPlaces hLine (h.intact hAbove)
    (List.ne_nil_of_mem hMem)).resolve_right fun hGone => by
      have hFill : Visit.hasFill (layout.inside line u) = true :=
        List.any_eq_true.2 ⟨_, hMem, by rw [hText]; rfl⟩
      rw [isBareRoom_of_hasFill hFill] at hGone
      cases hGone.1
  have hNone : (layout.finished line).rooms (u ++ [index]) = [] := by
    rw [hAround _ hAbove, shell, Copy.rooms_shell_of_ne (by simp), hRoom]
  rcases rooms_of_intact hPlaces hLine (h.intact List.prefix_rfl) h.inside_ne_nil with
    hRooms | ⟨-, hGone⟩
  · rw [hRooms _ List.prefix_rfl, rooms_shell_self opens_of_mem_inside] at hNone
    cases hNone
  · exact hGone y hy

end Unused

/-- What stands in the copy of an element was laid down for leaves in it that have an
entry that is present. -/
theorem leaf_of_mem_rooms {room : List Copy} (hRoom : room ∈ (layout.finished line).rooms x)
    {grain : Grain} (hGrain : grain ∈ Copy.grainsOf [] room) {leaf : Path} {elements : List Element}
    (hPiece : grain.piece = .leaf leaf elements) :
    x <+: leaf ∧ leaf ∈ layout.leaves ∧ layout.Opened line leaf := by
  have hHoused := housed_copied hPlaces hLine
  have hRooms : room = layout.copied (layout.itinerary line) ∧ x = [] ∨
      room ∈ Copy.roomsOf x (layout.copied (layout.itinerary line)) := by
    rw [finished, Copy.rooms] at hRoom
    rcases List.mem_append.1 hRoom with hHere | hBelow
    · split at hHere
      · rename_i hRoot
        exact .inl ⟨List.mem_singleton.1 hHere, hRoot.symm⟩
      · cases hHere
    · exact .inr hBelow
  have hBoth : (∀ copy ∈ room, Copy.Housed x copy) ∧
      grain ∈ Copy.grainsOf [] (layout.copied (layout.itinerary line)) := by
    rcases hRooms with ⟨rfl, rfl⟩ | hBelow
    · exact ⟨hHoused, hGrain⟩
    · exact ⟨Copy.housed_of_mem_roomsOf _ hHoused hBelow, Copy.grain_mem_of_roomsOf _ hBelow hGrain⟩
  have hSource := Copy.prefix_source_of_housed room hBoth.1 hGrain
  have hFaithful := Copy.faithful_of_mem_grainsOf _ (madeOf_assemble hPlaces hLine).faithful hBoth.2
  rw [hPiece] at hSource hFaithful
  cases hFaithful with
  | leaf front text hLeaf hOpened => exact ⟨hSource, hLeaf, hOpened⟩

/-- Nothing is cloned that lies in an unused atom or around it. -/
theorem Unused.clone_apart (h : layout.Unused line (u ++ [index])) {leaf : Path}
    (hLeaf : leaf ∈ layout.leaves) (hOpened : layout.Opened line leaf) (hInside : u <+: leaf)
    (hx : x ∈ Copy.clonesOf (layout.copied (layout.itinerary line))) :
    ¬ u ++ [index] <+: x ∧ ¬ x <+: u ++ [index] := by
  obtain ⟨other, hOther, hHolds⟩ := h.holds
  have hOff : layout.OffPath x :=
    cloned_of_mem_clonesOf _ (madeOf_assemble hPlaces hLine).faithful hx
  refine ⟨fun hBelow => ?_, fun hAbove => hOff.free other hOther (hAbove.trans hHolds)⟩
  have hSome : x ≠ [] := by
    rintro rfl
    simp at hBelow
  have hNe : u ++ [index] ≠ x := by
    rintro rfl
    exact hOff.free other hOther hHolds
  -- a clone would stand in a copy of the element around it, which lies in the atom
  have hAround := (Path.prefix_dropLast_iff hSome).2 ⟨hBelow, hNe⟩
  have hNone := h.rooms_eq_nil hPlaces hLine hLeaf hOpened hInside hAround
  rcases Copy.exists_room_of_housed _ (housed_copied hPlaces hLine) hx with
    ⟨-, hRoot⟩ | ⟨room, hRoom, -⟩
  · rw [hRoot, List.prefix_nil] at hAround
    simp at hAround
  · rw [finished, Copy.rooms] at hNone
    rw [(List.append_eq_nil_iff.1 hNone).2] at hRoom
    cases hRoom

/-- Whether a document made of copies has nothing of a child of an element, neither a
copy nor a clone nor a leaf, but one copy of the element with everything else that is
to be kept in it, from which nothing was taken out that was not bare. -/
structure Removes (layout : Layout) (line : Line) (copies : List Copy) (u : Path) (index : Nat) :
    Prop where
  rooms : ∀ y, u ++ [index] <+: y → (Copy.shell [] false copies).rooms y = []
  clones : ∀ x ∈ Copy.clonesOf copies, ¬ u ++ [index] <+: x ∧ ¬ x <+: u ++ [index]
  leaves : ∀ grain ∈ Copy.grainsOf [] copies, ∀ source elements,
    grain.piece = .leaf source elements → ¬ u ++ [index] <+: source
  keeps : ∃ room, (Copy.shell [] false copies).rooms u = [room] ∧ layout.Keeps line u room ∧
    room = Copy.lasting (layout.laid line u)

end Layout

variable {format : Format} {root : Element} {content : Content} {line tape : Line}

/-- A tape that never goes back leaves nothing of an atom that it drops with all
leaves in it, neither a copy of the atom nor one of its formatting, if a leaf
stands in the copy of the element around it. That copy is the only one, it holds
everything else that is to be kept, and nothing was taken out of it that was not
bare. -/
theorem enforce_removes_atoms (h : flatten format root = .ok (content, line))
    (hTape : Line.PointsInto tape line) (hForward : Line.IsForward tape) :
    ∃ boundaries out copies, Boundaries.ofLine root line = .ok boundaries ∧
      enforce root tape boundaries format = .ok out ∧ (Layout.ofLine h).MadeOf tape out copies ∧
      (∀ x, ∀ room ∈ (Copy.shell [] false copies).rooms x, ∀ grain ∈ Copy.grainsOf [] room,
        ∀ leaf elements, grain.piece = .leaf leaf elements →
          x <+: leaf ∧ leaf ∈ (Layout.ofLine h).leaves ∧ (Layout.ofLine h).Opened tape leaf) ∧
      ∀ u index leaf, (Layout.ofLine h).Unused tape (u ++ [index]) →
        leaf ∈ (Layout.ofLine h).leaves → (Layout.ofLine h).Opened tape leaf → u <+: leaf →
          (Layout.ofLine h).Removes tape copies u index := by
  obtain ⟨boundaries, hBoundaries, hEnforce⟩ := Layout.enforce_ofLine h hTape
  have hPlaces := Layout.bounds_of_pointsInto h hTape
  have hMade := Layout.madeOf_assemble hPlaces hForward
  refine ⟨boundaries, _, _, hBoundaries, hEnforce, hMade,
    fun x room hRoom grain hGrain leaf elements hPiece =>
      Layout.leaf_of_mem_rooms hPlaces hForward hRoom hGrain hPiece,
    fun u index leaf hUnused hLeaf hOpened hInside => ?_⟩
  have hAbove : u <+: u ++ [index] := List.prefix_append u [index]
  have hNe := hUnused.ne_of_inside hAbove hLeaf hOpened
  obtain ⟨hRoom, hKeeps⟩ := Layout.keeps_of_intact hPlaces hForward (hUnused.intact hAbove) hLeaf
    hOpened hInside hNe
  refine ⟨fun y => hUnused.rooms_eq_nil hPlaces hForward hLeaf hOpened hInside,
    fun x => hUnused.clone_apart hPlaces hForward hLeaf hOpened hInside, ?_,
    _, hRoom, hKeeps, Layout.room_eq_lasting hLeaf hOpened hInside hNe⟩
  intro grain hGrain source elements hPiece hBelow
  have hFaithful := Copy.faithful_of_mem_grainsOf _ hMade.faithful hGrain
  rw [hPiece] at hFaithful
  cases hFaithful with
  | leaf front text hSource hPresent => exact hUnused.dropped source hSource hBelow hPresent

/-- A paragraph with a text that may be dropped, with formatting of its own and of
the text, in front of another one. -/
def Docx.notice : Element :=
  element "body" none
    [element "p" none
      [element "pPr" none [],
        element "r" none
          [element "rPr" none [], element "t" (some "\x7b% if x %\x7dA\x7b% endif %\x7d") []]],
      element "p" none [element "r" none [element "t" (some "B") []]]]

/-- The line of the two paragraphs. -/
def Docx.noticeLine : Line :=
  [(⟨[0, 1, 1], false, 22, 0, 10, 1⟩, "\x7b% if x %\x7d"), (⟨[0, 1, 1], false, 22, 10, 1, 1⟩, "A"),
    (⟨[0, 1, 1], false, 22, 11, 11, 1⟩, "\x7b% endif %\x7d"), (⟨[1, 0, 0], true, 1, 0, 1, 2⟩, "B")]

/-- The second paragraph without the first one. -/
def Docx.noticeTape : Line :=
  [(⟨[0, 1, 1], false, 22, 0, 10, 1⟩, ""), (⟨[0, 1, 1], false, 22, 10, 1, 1⟩, ""),
    (⟨[0, 1, 1], false, 22, 11, 11, 1⟩, ""), (⟨[1, 0, 0], true, 1, 0, 1, 2⟩, "B")]

theorem Docx.leaves_notice (h : flatten .docx notice = .ok (.template, noticeLine)) :
    (Layout.ofLine h).leaves = [[0, 1, 1], [1, 0, 0]] := by
  decide +kernel +revert

/-- The first paragraph is the atom of the text in it, which is dropped. -/
theorem Docx.unused_notice (h : flatten .docx notice = .ok (.template, noticeLine)) :
    (Layout.ofLine h).Unused noticeTape [0] := by
  have hDropped : ¬ (Layout.ofLine h).Opened noticeTape [0, 1, 1] := by decide +kernel +revert
  have hWay : (Layout.ofLine h).way = [[0, 0], [0, 1, 0], [0, 1, 1], [1, 0, 0]] := by
    clear hDropped
    decide +kernel +revert
  have hLeaves := leaves_notice h
  have hLeaf : ∀ leaf ∈ (Layout.ofLine h).leaves, [0] <+: leaf → leaf = [0, 1, 1] := by
    rw [hLeaves]
    decide
  have hOff : ∀ y, (Layout.ofLine h).OffPath y → y = [0, 0] ∨ y = [0, 1, 0] := by
    intro y hy
    have hMem := Layout.mem_way.2 (.inr hy)
    have hNot := hy.not_mem_leaves
    rw [hWay] at hMem
    rw [hLeaves] at hNot
    simp only [List.mem_cons, List.not_mem_nil, or_false] at hMem hNot
    tauto
  refine ⟨⟨[0, 1, 1], by rw [hLeaves]; decide, by decide⟩, ?_, ?_, ?_, ?_⟩
  · intro leaf hMem hInside
    rw [hLeaf leaf hMem hInside]
    show Format.docx.atomFloor notice [0, 1, 1] = .ok 1
    decide +kernel
  · intro leaf hMem hInside
    rwa [hLeaf leaf hMem hInside]
  · intro y hy _
    show Format.docx.isProperty (notice.descendant y).tag = true
    rcases hOff y hy with rfl | rfl
    · decide
    · decide
  · intro y hy _ leaf hMem hBelow
    rw [hLeaves] at hMem
    rcases hOff y hy with rfl | rfl
    · revert leaf
      decide
    · revert leaf
      decide

theorem enforce_removes_atoms_notice :
    ∃ h : flatten .docx Docx.notice = .ok (.template, Docx.noticeLine),
      Line.PointsInto Docx.noticeTape Docx.noticeLine ∧ Line.IsForward Docx.noticeTape ∧
      (Layout.ofLine h).Unused Docx.noticeTape [0] ∧
      ∃ boundaries out copies, Boundaries.ofLine Docx.notice Docx.noticeLine = .ok boundaries ∧
        enforce Docx.notice Docx.noticeTape boundaries .docx = .ok out ∧
        (Layout.ofLine h).MadeOf Docx.noticeTape out copies ∧
        (Layout.ofLine h).Removes Docx.noticeTape copies [] 0 := by
  have h : flatten .docx Docx.notice = .ok (.template, Docx.noticeLine) := by decide +kernel
  have hOpened : (Layout.ofLine h).Opened Docx.noticeTape [1, 0, 0] := by decide +kernel +revert
  obtain ⟨boundaries, out, copies, hBoundaries, hEnforce, hMade, -, hRemoved⟩ :=
    enforce_removes_atoms h (show Line.PointsInto Docx.noticeTape Docx.noticeLine by decide)
      (by decide)
  exact ⟨h, by decide, by decide, Docx.unused_notice h, boundaries, out, copies, hBoundaries,
    hEnforce, hMade, hRemoved [] 0 [1, 0, 0] (Docx.unused_notice h)
      (by rw [Docx.leaves_notice h]; decide) hOpened List.nil_prefix⟩

end Infill
