import Infill.Proofs.Openings
import Infill.Proofs.Remnants

/-!
Containers: the elements around the atoms of everything in them, such as a body,
a table with its rows and cells, a list item or a section. A leaf that is dropped
opens the containers around it as one that is copied does, and none of them is
ever taken for bare. So all of them stay, each once, whatever a line drops.
-/
namespace Infill

open Infill.Xml
open Infill.Path (Before)

namespace Layout

variable {layout : Layout} {line : Line} {x y p q : Path} {key : Nat}

/-- Whether an element has leaves in it and lies around the atoms of all of them. -/
structure IsContainer (layout : Layout) (x : Path) : Prop where
  holds : ∃ leaf ∈ layout.leaves, x <+: leaf
  above : ∀ leaf ∈ layout.leaves, x <+: leaf →
    ∃ depth, layout.format.atomFloor layout.root leaf = .ok depth ∧ x.length < depth

namespace IsContainer

theorem lt_level (h : layout.IsContainer x) (hPos : 1 ≤ key) (hCount : key ≤ layout.count)
    (hInside : x <+: layout.path key) : x.length < layout.level key := by
  obtain ⟨depth, hDepth, hLess⟩ := h.above _ (path_mem hPos hCount) hInside
  rw [level, hDepth]
  exact hLess

theorem intact (h : layout.IsContainer x) (line : Line) : layout.Intact line x := by
  intro key hPos hCount _ hInside hLess
  have := h.lt_level hPos hCount hInside
  omega

theorem reaches (h : layout.IsContainer x) : layout.root.Reaches x := by
  obtain ⟨leaf, hLeaf, hInside⟩ := h.holds
  exact (leaf_reaches hLeaf).above hInside

/-- A container lies in no leaf. -/
theorem leaf_not_prefix (h : layout.IsContainer x) {leaf : Path} (hLeaf : leaf ∈ layout.leaves) :
    ¬ leaf <+: x := by
  intro hAround
  obtain ⟨other, hOther, hInside⟩ := h.holds
  obtain rfl := eq_of_inside hLeaf hOther (hAround.trans hInside)
  obtain ⟨key, hPos, hCount, rfl⟩ := exists_path_eq hLeaf
  have hLess := h.lt_level hPos hCount hInside
  have hLevel := level_le_length hPos hCount
  have := hAround.length_le
  omega

/-- A container lies in no subtree off the paths. -/
theorem offPath_not_prefix (h : layout.IsContainer x) {y : Path} (hOff : layout.OffPath y) :
    ¬ y <+: x := by
  intro hAround
  obtain ⟨leaf, hLeaf, hInside⟩ := h.holds
  exact hOff.free leaf hLeaf (hAround.trans hInside)

section

variable (hPlaces : ∀ entry ∈ line, 1 ≤ entry.1.index ∧ entry.1.index ≤ layout.count)
  (hLine : Line.IsForward line)
include hPlaces hLine

/-- Dropped leaves neither close a container nor part it, and it is never bare. -/
theorem rooms_eq (h : layout.IsContainer x) :
    (layout.finished line).rooms x = [layout.room x (layout.inside line x)] := by
  obtain ⟨leaf, hLeaf, hInside⟩ := h.holds
  obtain ⟨hSome, hBare⟩ := isBareRoom_of_deep hLeaf hInside (fun key => h.lt_level) line
  rcases rooms_of_intact hPlaces hLine (h.intact line) hSome with hRooms | ⟨hGone, -⟩
  · exact (hRooms x List.prefix_rfl).trans (rooms_shell_self opens_of_mem_inside)
  · rw [hBare] at hGone
    cases hGone

theorem places_finished (h : layout.IsContainer x) :
    (layout.finished line).places layout.root x [] =
      (((layout.finished line).openings layout.root []).filter (·.2 = x)).map Prod.fst := by
  have hInner : Copy.placesOf layout.root x [] 0 (layout.copied (layout.itinerary line)) =
      ((Copy.openingsOf layout.root [] 0 (layout.copied (layout.itinerary line))).filter
        (·.2 = x)).map Prod.fst :=
    placesOf_eq (fun _ => h.offPath_not_prefix) (fun _ => h.leaf_not_prefix) _
      (madeOf_assemble hPlaces hLine).faithful
  rw [finished, Copy.places, Copy.openings, hInner]
  by_cases hRoot : ([] : Path) = x
  · simp [hRoot]
  · simp [hRoot]

/-- A container stands at one place. -/
theorem exists_place (h : layout.IsContainer x) :
    ∃ p, (layout.finished line).places layout.root x [] = [p] := by
  have hCount : ((layout.finished line).openings layout.root []).countP (·.2 = x) = 1 := by
    have hRooms := congrArg List.length (h.rooms_eq hPlaces hLine)
    rw [Copy.length_rooms, ← Copy.map_snd_openings layout.root [], List.count_eq_countP,
      List.countP_map] at hRooms
    rw [← List.length_singleton (a := layout.room x (layout.inside line x)), ← hRooms]
    apply List.countP_congr
    intro opening _
    simp
  rw [h.places_finished hPlaces hLine]
  apply List.length_eq_one_iff.1
  rw [List.length_map, ← List.countP_eq_length_filter, hCount]

theorem mem_openings_iff (h : layout.IsContainer x)
    (hp : (layout.finished line).places layout.root x [] = [p]) :
    (q, x) ∈ (layout.finished line).openings layout.root [] ↔ q = p := by
  rw [h.places_finished hPlaces hLine] at hp
  have hMem : q ∈ (((layout.finished line).openings layout.root []).filter
      (·.2 = x)).map Prod.fst ↔ (q, x) ∈ (layout.finished line).openings layout.root [] := by
    simp
  rw [← hMem, hp, List.mem_singleton]

/-- Containers lie in each other as they do in the source. -/
theorem prefix_iff (hx : layout.IsContainer x) (hy : layout.IsContainer y)
    (hp : (layout.finished line).places layout.root x [] = [p])
    (hq : (layout.finished line).places layout.root y [] = [q]) : p <+: q ↔ x <+: y := by
  have hxMem := (hx.mem_openings_iff hPlaces hLine hp).2 rfl
  have hyMem := (hy.mem_openings_iff hPlaces hLine hq).2 rfl
  obtain ⟨hLength, -⟩ := take_mem_openings_finished hPlaces hLine hxMem
  obtain ⟨-, hTake⟩ := take_mem_openings_finished hPlaces hLine hyMem
  have hTake := hTake x.length
  constructor
  · intro hInside
    -- what stands there is a copy of `x` and of an ancestor of `y`
    have hSame : q.take x.length = p := by
      rw [← hLength]
      exact (List.prefix_iff_eq_take.1 hInside).symm
    rw [hSame] at hTake
    have hSorted := ((layout.finished line).openings_sorted layout.root []).1
    have hNodup : (((layout.finished line).openings layout.root []).map Prod.fst).Nodup :=
      hSorted.imp fun hLess => ne_of_lt hLess
    have hEntry := List.inj_on_of_nodup_map hNodup hxMem hTake rfl
    rw [(Prod.mk.inj hEntry).2]
    exact List.take_prefix _ y
  · intro hInside
    rw [← List.prefix_iff_eq_take.1 hInside] at hTake
    rw [← (hx.mem_openings_iff hPlaces hLine hp).1 hTake]
    exact List.take_prefix _ q

/-- Containers follow each other as they do in the source. -/
theorem before_iff (hx : layout.IsContainer x) (hy : layout.IsContainer y)
    (hp : (layout.finished line).places layout.root x [] = [p])
    (hq : (layout.finished line).places layout.root y [] = [q]) : Before p q ↔ Before x y := by
  have hxMem := (hx.mem_openings_iff hPlaces hLine hp).2 rfl
  have hyMem := (hy.mem_openings_iff hPlaces hLine hq).2 rfl
  have hForth := not_before_of_mem_openings hPlaces hLine hxMem hyMem
  have hBack := not_before_of_mem_openings hPlaces hLine hyMem hxMem
  have hInside := hx.prefix_iff hPlaces hLine hy hp hq
  have hAround := hy.prefix_iff hPlaces hLine hx hq hp
  constructor
  · intro hBefore
    rcases Path.trichotomy x y with hIn | hOut | hSame | hOther
    · exact absurd hBefore (Path.not_before_inside (hInside.2 hIn))
    · exact absurd hBefore (Path.not_inside_before (hAround.2 hOut))
    · exact hSame
    · exact absurd hOther (hForth ((Path.before_iff_lt p q).1 hBefore).1)
  · intro hBefore
    rcases Path.trichotomy p q with hIn | hOut | hSame | hOther
    · exact absurd hBefore (Path.not_before_inside (hInside.1 hIn))
    · exact absurd hBefore (Path.not_inside_before (hAround.1 hOut))
    · exact hSame
    · exact absurd hBefore (hBack ((Path.before_iff_lt q p).1 hOther).1)

end

end IsContainer

/-- Whether every container has one copy in a document made of copies, at its `place`,
with its name, its attributes, its text and its tail, and the copies nest and follow
each other as the containers do in the source. -/
structure KeepsContainers (layout : Layout) (out : Element) (copies : List Copy)
    (place : Path → Path) : Prop where
  once : ∀ x, layout.IsContainer x →
    (Copy.shell [] false copies).places layout.root x [] = [place x]
  stands : ∀ x, layout.IsContainer x →
    ∃ e, out.descendant? (place x) = some e ∧ e.shell = (layout.root.descendant x).shell
  prefix_iff : ∀ x y, layout.IsContainer x → layout.IsContainer y →
    (place x <+: place y ↔ x <+: y)
  before_iff : ∀ x y, layout.IsContainer x → layout.IsContainer y →
    (Before (place x) (place y) ↔ Before x y)

end Layout

variable {format : Format} {root : Element} {content : Content} {line tape : Line}

/-- Whatever a tape drops that never goes back, every container has one copy in
the document, with its name, its attributes, its text and its tail, and the
copies nest and follow each other as the containers do in the source. -/
theorem enforce_keeps_containers (h : flatten format root = .ok (content, line))
    (hTape : Line.PointsInto tape line) (hForward : Line.IsForward tape) :
    ∃ boundaries out copies, Boundaries.ofLine root line = .ok boundaries ∧
      enforce root tape boundaries format = .ok out ∧ (Layout.ofLine h).MadeOf tape out copies ∧
      ∃ place : Path → Path, (Layout.ofLine h).KeepsContainers out copies place := by
  obtain ⟨boundaries, hBoundaries, hEnforce⟩ := Layout.enforce_ofLine h hTape
  have hPlaces := Layout.bounds_of_pointsInto h hTape
  have hMade := Layout.madeOf_assemble hPlaces hForward
  have hStands : ∀ x, (Layout.ofLine h).IsContainer x → ∃ p,
      ((Layout.ofLine h).finished tape).places root x [] = [p] :=
    fun x hx => hx.exists_place hPlaces hForward
  choose! place hPlace using hStands
  refine ⟨boundaries, _, _, hBoundaries, hEnforce, hMade, place, hPlace, fun x hx => ?_,
    fun x y hx hy => hx.prefix_iff hPlaces hForward hy (hPlace x hx) (hPlace y hy),
    fun x y hx hy => hx.before_iff hPlaces hForward hy (hPlace x hx) (hPlace y hy)⟩
  have hMem : place x ∈ ((Layout.ofLine h).finished tape).places root x [] := by
    rw [hPlace x hx]
    exact List.mem_singleton_self _
  rcases hMade.descendant?_of_mem_places (fun _ => hx.leaf_not_prefix) hx.reaches hMem with
    ⟨-, hWhole⟩ | ⟨room, -, hOpened⟩
  · exact ⟨_, hWhole, rfl⟩
  · exact ⟨_, hOpened, rfl⟩

/-- A table with one cell, which holds its formatting and a paragraph. -/
def Docx.ruledTable : Element :=
  element "tbl" none
    [element "tr" none
      [element "tc" none
        [element "tcPr" none [],
          element "p" none
            [element "r" none [element "t" (some "{% if false %}a{% endif %}") []]]]]]

/-- The line of the table. -/
def Docx.ruledLine : Line :=
  [(⟨[0, 0, 1, 0, 0], false, 26, 0, 14, 1⟩, "{% if false %}"),
    (⟨[0, 0, 1, 0, 0], false, 26, 14, 1, 1⟩, "a"),
    (⟨[0, 0, 1, 0, 0], false, 26, 15, 11, 1⟩, "{% endif %}")]

/-- The table with no text at all. -/
def Docx.ruledTape : Line :=
  ruledLine.map fun entry => (entry.1, "")

theorem Docx.flatten_ruledTable :
    flatten .docx ruledTable = .ok (.template, ruledLine) := by
  decide +kernel

/-- The cell lies around the paragraph, which is the atom of the text. -/
theorem Docx.isContainer_ruledCell :
    (Layout.ofLine flatten_ruledTable).IsContainer [0, 0] := by
  have hLeaves : (Layout.ofLine flatten_ruledTable).leaves = [[0, 0, 1, 0, 0]] := by
    decide +kernel
  refine ⟨⟨[0, 0, 1, 0, 0], by rw [hLeaves]; decide, by decide⟩, fun leaf hLeaf _ => ?_⟩
  rw [hLeaves] at hLeaf
  obtain rfl := List.mem_singleton.1 hLeaf
  exact ⟨3, by decide +kernel, by decide⟩

theorem enforce_keeps_containers_ruledTable :
    ∃ h : flatten .docx Docx.ruledTable = .ok (.template, Docx.ruledLine),
      Line.PointsInto Docx.ruledTape Docx.ruledLine ∧ Line.IsForward Docx.ruledTape ∧
      (∀ entry ∈ Docx.ruledTape, ¬ Line.IsPresent entry) ∧
      (Layout.ofLine h).IsContainer [0, 0] ∧
      ∃ boundaries out copies, Boundaries.ofLine Docx.ruledTable Docx.ruledLine = .ok boundaries ∧
        enforce Docx.ruledTable Docx.ruledTape boundaries .docx = .ok out ∧
        (Layout.ofLine h).MadeOf Docx.ruledTape out copies ∧
        ∃ place : Path → Path, (Layout.ofLine h).KeepsContainers out copies place :=
  ⟨Docx.flatten_ruledTable, by decide, by decide, by decide, Docx.isContainer_ruledCell,
    enforce_keeps_containers Docx.flatten_ruledTable (by decide) (by decide)⟩

end Infill
