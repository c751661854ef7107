import Infill.Proofs.ElementCopies
import Infill.Proofs.LeafCopies
import Infill.Proofs.Passage

/-!
What becomes of an element when a run passes through the document once. Leaves
that are dropped may close its copy: passing one by opens the leaf's atom, and
whatever is open below that and not on the way to the leaf is closed. An element
that is not torn apart like this has one copy, with all its children that are to
be kept, in their order.
-/
namespace Infill

open Infill.Xml

namespace Path

/-- Places that are chosen without leaving one out between two others follow each
other. -/
theorem exists_stretch {paths : List Path} {chosen : Path → Prop} [DecidablePred chosen]
    (hSorted : paths.Pairwise Before)
    (hBetween : ∀ first ∈ paths, ∀ middle ∈ paths, ∀ last ∈ paths, Before first middle →
      Before middle last → chosen first → chosen last → chosen middle) :
    ∃ left right, paths = left ++ paths.filter chosen ++ right ∧
      (∀ path ∈ left, ¬ chosen path) ∧ ∀ path ∈ right, ¬ chosen path := by
  induction paths with
  | nil => exact ⟨[], [], rfl, by simp, by simp⟩
  | cons path paths ih =>
    obtain ⟨hFirst, hRest⟩ := List.pairwise_cons.1 hSorted
    obtain ⟨left, right, hSplit, hLeft, hRight⟩ := ih hRest
      fun first hFirst middle hMiddle last hLast =>
        hBetween first (List.mem_cons_of_mem _ hFirst) middle (List.mem_cons_of_mem _ hMiddle) last
          (List.mem_cons_of_mem _ hLast)
    by_cases hChosen : chosen path
    · rw [List.filter_cons_of_pos (by simpa using hChosen)]
      by_cases hNone : paths.filter chosen = []
      · refine ⟨[], paths, by rw [hNone]; rfl, by simp, fun other hOther hMore => ?_⟩
        have hMem : other ∈ paths.filter chosen :=
          List.mem_filter.2 ⟨hOther, decide_eq_true hMore⟩
        rw [hNone] at hMem
        cases hMem
      · -- what stands in front of the others that are chosen would be chosen as well
        obtain ⟨last, hLast⟩ := List.exists_mem_of_ne_nil _ hNone
        obtain ⟨hLastMem, hLastChosen⟩ := List.mem_filter.1 hLast
        have hEmpty : left = [] := by
          apply List.eq_nil_iff_forall_not_mem.2
          intro other hOther
          have hOtherMem : other ∈ paths := by
            rw [hSplit]
            simp [hOther]
          have hBefore : Before other last := by
            rw [hSplit, List.append_assoc] at hRest
            exact (List.pairwise_append.1 hRest).2.2 other hOther last
              (List.mem_append_left _ hLast)
          exact hLeft other hOther (hBetween path List.mem_cons_self other
            (List.mem_cons_of_mem _ hOtherMem) last (List.mem_cons_of_mem _ hLastMem)
            (hFirst other hOtherMem) hBefore hChosen (by simpa using hLastChosen))
        refine ⟨[], right, ?_, by simp, hRight⟩
        rw [hEmpty, List.nil_append] at hSplit
        rw [List.nil_append, List.cons_append, ← hSplit]
    · rw [List.filter_cons_of_neg (by simpa using hChosen)]
      refine ⟨path :: left, right, ?_, ?_, hRight⟩
      · rw [List.cons_append, List.cons_append, ← hSplit]
      · intro other hOther
        rcases List.mem_cons.1 hOther with rfl | hOther
        · exact hChosen
        · exact hLeft other hOther

/-- What lies inside an element lies below it. -/
theorem prefix_dropLast_iff {x y : Path} (hSome : y ≠ []) :
    x <+: y.dropLast ↔ x <+: y ∧ x ≠ y := by
  constructor
  · intro h
    refine ⟨h.trans (List.dropLast_prefix y), ?_⟩
    rintro rfl
    have := h.length_le
    have := List.length_pos_iff.2 hSome
    rw [List.length_dropLast] at *
    omega
  · rintro ⟨hPrefix, hNe⟩
    obtain ⟨front, last, rfl⟩ := List.eq_nil_or_concat y |>.resolve_left hSome
    rw [List.concat_eq_append] at *
    rw [List.dropLast_concat]
    exact (List.prefix_concat_iff.1 hPrefix).resolve_left hNe

end Path

namespace Layout

variable {layout : Layout} {line : Line} {x y : Path} {key : Nat}

theorem opened_iff : layout.Opened line x ↔
    ∃ entry ∈ line, Line.IsPresent entry ∧ layout.path entry.1.index = x := by
  constructor
  · rintro ⟨_, ⟨entry, hEntry, hPresent, rfl⟩, hPath⟩
    exact ⟨entry, hEntry, hPresent, hPath⟩
  · rintro ⟨entry, hEntry, hPresent, hPath⟩
    exact ⟨_, ⟨entry, hEntry, hPresent, rfl⟩, hPath⟩

instance (layout : Layout) (line : Line) (x : Path) : Decidable (layout.Opened line x) :=
  decidable_of_iff _ opened_iff.symm

theorem opened_path (hPos : 1 ≤ key) (hCount : key ≤ layout.count) :
    layout.Opened line (layout.path key) ↔ line.Opens key := by
  constructor
  · rintro ⟨index, hOpens, hPath⟩
    have hRange : 1 ≤ index ∧ index ≤ layout.count := by
      rw [← leaf?_isSome, Option.isSome_iff_ne_none]
      intro hNone
      rw [path, hNone] at hPath
      exact leaf_nonempty (path_mem hPos hCount) hPath.symm
    have hIndex := rank_path hRange.1 hRange.2
    rw [hPath, rank_path hPos hCount] at hIndex
    rwa [hIndex]
  · exact fun hOpens => ⟨key, hOpens, rfl⟩

/-- Whether a run that passes through the document copies something at a place
inside an element: a subtree off the paths or a leaf. -/
def Copies (layout : Layout) (line : Line) (x y : Path) : Prop :=
  x <+: y ∧ x ≠ y ∧ (layout.OffPath y ∨ y ∈ layout.leaves ∧ layout.Opened line y)

/-- Whether no leaf tears an element apart: one that is dropped, with an atom
around the element, between places inside the element where something is
copied. -/
def Intact (layout : Layout) (line : Line) (x : Path) : Prop :=
  ∀ key, 1 ≤ key → key ≤ layout.count → ¬ line.Opens key → x <+: layout.path key →
    layout.level key < x.length → ∀ y, layout.Copies line x y →
      Path.Before y (layout.path key) → ∀ z, layout.Copies line x z →
        ¬ Path.Before (layout.path key) z

/-- Whether such a leaf lies between two leaves in the element that are copied. -/
def Torn (layout : Layout) (line : Line) (x : Path) : Prop :=
  ∃ key, 1 ≤ key ∧ key ≤ layout.count ∧ ¬ line.Opens key ∧ x <+: layout.path key ∧
    layout.level key < x.length ∧
    (∃ y ∈ layout.leaves, layout.Opened line y ∧ x <+: y ∧ Path.Before y (layout.path key)) ∧
    ∃ z ∈ layout.leaves, layout.Opened line z ∧ x <+: z ∧ Path.Before (layout.path key) z

/-! ### Visits that open an element -/

theorem stop_of_opens (layout : Layout) (h : line.Opens key) :
    ∃ text, line.textFor key = some text ∧
      layout.stop line key = .fill (layout.floor key) (layout.path key) text := by
  obtain ⟨text, hText⟩ := Option.isSome_iff_exists.1 (Line.isSome_textFor.2 h)
  exact ⟨text, hText, by rw [stop, hText]⟩

theorem stop_of_dropped (h : ¬ line.Opens key) :
    layout.stop line key = .pass (layout.floor key) ((layout.path key).take (layout.level key)) := by
  have hNone : line.textFor key = none := by
    rw [← Option.not_isSome_iff_eq_none, Line.isSome_textFor]
    exact h
  rw [stop, hNone]

theorem opens_of_branch {visit : Visit} {branch : Path} (h : visit.branch? = some branch) :
    visit.Opens x ↔ x <+: branch := by
  constructor
  · rintro ⟨other, hOther, hPath⟩
    rwa [Option.some.inj (h.symm.trans hOther)]
  · exact fun hPath => ⟨branch, h, hPath⟩

variable (line) in
/-- On its way a run clones what is off the paths, and fills a leaf or passes it by. -/
theorem visitAt_cases (hy : y ∈ layout.way) :
    (∃ floor, layout.visitAt line y = .clone floor y) ∨
      (∃ floor text, layout.visitAt line y = .fill floor y text) ∨
      ∃ floor depth, layout.visitAt line y = .pass floor (y.take depth) := by
  rcases mem_way.1 hy with hLeaf | hOff
  · obtain ⟨key, hPos, hCount, rfl⟩ := exists_path_eq hLeaf
    rw [visitAt_path line hPos hCount]
    by_cases hOpens : line.Opens key
    · obtain ⟨text, -, hStop⟩ := stop_of_opens layout hOpens
      exact .inr (.inl ⟨_, text, hStop⟩)
    · exact .inr (.inr ⟨_, _, stop_of_dropped hOpens⟩)
  · exact .inl ⟨_, hOff.visitAt line⟩

/-- An element is opened for what is copied inside it, and for leaves that are
passed by if their atom is the element or lies inside it. -/
theorem opens_visitAt (hy : y ∈ layout.way) :
    (layout.visitAt line y).Opens x ↔ layout.Copies line x y ∨
      ∃ key, 1 ≤ key ∧ key ≤ layout.count ∧ layout.path key = y ∧ ¬ line.Opens key ∧ x <+: y ∧
        x.length ≤ layout.level key := by
  have hNot : ∀ {key}, 1 ≤ key → key ≤ layout.count → ¬ layout.OffPath (layout.path key) :=
    fun hPos hCount hOff => hOff.not_mem_leaves (path_mem hPos hCount)
  rcases mem_way.1 hy with hLeaf | hOff
  · obtain ⟨key, hPos, hCount, rfl⟩ := exists_path_eq hLeaf
    have hSome := leaf_nonempty hLeaf
    rw [visitAt_path line hPos hCount]
    by_cases hOpens : line.Opens key
    · obtain ⟨text, -, hStop⟩ := stop_of_opens layout hOpens
      rw [hStop, opens_of_branch rfl, Path.prefix_dropLast_iff hSome]
      constructor
      · rintro ⟨hPath, hNe⟩
        exact .inl ⟨hPath, hNe, .inr ⟨hLeaf, (opened_path hPos hCount).2 hOpens⟩⟩
      · rintro (⟨hPath, hNe, -⟩ | ⟨other, hOtherPos, hOtherCount, hSame, hDropped, -⟩)
        · exact ⟨hPath, hNe⟩
        · rw [← opened_path hOtherPos hOtherCount, hSame, opened_path hPos hCount] at hDropped
          exact absurd hOpens hDropped
    · rw [stop_of_dropped hOpens, opens_of_branch rfl, List.prefix_take_iff]
      constructor
      · rintro ⟨hPath, hLength⟩
        exact .inr ⟨key, hPos, hCount, rfl, hOpens, hPath, hLength⟩
      · rintro (⟨-, -, hOff | ⟨-, hOpened⟩⟩ | ⟨other, hOtherPos, hOtherCount, hSame, -, hPath, hLength⟩)
        · exact absurd hOff (hNot hPos hCount)
        · exact absurd ((opened_path hPos hCount).1 hOpened) hOpens
        · obtain rfl : other = key := by
            rw [← rank_path hOtherPos hOtherCount, hSame, rank_path hPos hCount]
          exact ⟨hPath, hLength⟩
  · obtain ⟨u, i, rfl, -⟩ := hOff.attached
    rw [hOff.visitAt, opens_of_branch rfl, Path.prefix_dropLast_iff (by simp)]
    constructor
    · rintro ⟨hPath, hNe⟩
      exact .inl ⟨hPath, hNe, .inl hOff⟩
    · rintro (⟨hPath, hNe, -⟩ | ⟨key, hPos, hCount, hSame, -⟩)
      · exact ⟨hPath, hNe⟩
      · exact absurd (hSame ▸ hOff) (hNot hPos hCount)

theorem Copies.opens (h : layout.Copies line x y) : (layout.visitAt line y).Opens x := by
  have hy : y ∈ layout.way := mem_way.2 (h.2.2.symm.imp_left And.left)
  exact (opens_visitAt hy).2 (.inl h)

theorem inside_of_opens (hy : y ∈ layout.way) (h : (layout.visitAt line y).Opens x) : x <+: y := by
  rcases (opens_visitAt hy).1 h with hCopies | ⟨-, -, -, -, -, hPath, -⟩
  · exact hCopies.1
  · exact hPath

/-- The visits that open an element which is not torn apart follow each other. -/
theorem Intact.between (h : layout.Intact line x) {first middle last : Path}
    (hFirst : first ∈ layout.way) (hMiddle : middle ∈ layout.way) (hLast : last ∈ layout.way)
    (hBefore : Path.Before first middle) (hBehind : Path.Before middle last)
    (hFirstOpens : (layout.visitAt line first).Opens x)
    (hLastOpens : (layout.visitAt line last).Opens x) :
    (layout.visitAt line middle).Opens x := by
  have hFirstInside := inside_of_opens hFirst hFirstOpens
  have hInside := Path.prefix_of_between hFirstInside (inside_of_opens hLast hLastOpens) hBefore
    hBehind
  have hNe : x ≠ middle := by
    rintro rfl
    exact Path.not_inside_before hFirstInside hBefore
  rw [opens_visitAt hMiddle]
  rcases mem_way.1 hMiddle with hLeaf | hOff
  · obtain ⟨key, hPos, hCount, rfl⟩ := exists_path_eq hLeaf
    by_cases hOpens : line.Opens key
    · exact .inl ⟨hInside, hNe, .inr ⟨hLeaf, (opened_path hPos hCount).2 hOpens⟩⟩
    · refine .inr ⟨key, hPos, hCount, rfl, hOpens, hInside, ?_⟩
      by_contra hLess
      have hLess : layout.level key < x.length := Nat.lt_of_not_le hLess
      -- no other leaf that is passed by opens the element either, so both sides hold copies
      have hCopies : ∀ {other}, other ∈ layout.way → (layout.visitAt line other).Opens x →
          layout.Copies line x other := by
        intro other hOther hOtherOpens
        rcases (opens_visitAt hOther).1 hOtherOpens with
          hCopies | ⟨otherKey, hOtherPos, hOtherCount, rfl, -, hOtherInside, hLength⟩
        · exact hCopies
        · have := level_eq_of_lt hPos hCount hOtherPos hOtherCount hInside hOtherInside hLess
          omega
      exact h key hPos hCount hOpens hInside hLess _ (hCopies hFirst hFirstOpens) hBefore _
        (hCopies hLast hLastOpens) hBehind
  · exact .inl ⟨hInside, hNe, .inl hOff⟩

/-- The visits that open an element when a run passes through the document. -/
def inside (layout : Layout) (line : Line) (x : Path) : List Visit :=
  (layout.way.filter fun y => (layout.visitAt line y).Opens x).map (layout.visitAt line)

theorem opens_of_mem_inside (visit : Visit) (h : visit ∈ layout.inside line x) : visit.Opens x := by
  obtain ⟨y, hy, rfl⟩ := List.mem_map.1 h
  simpa using (List.mem_filter.1 hy).2

theorem areAt_inside (line : Line) (x : Path) :
    Nest.AreAt x (Nest.group x.length (layout.inside line x)) :=
  Nest.areAt_group opens_of_mem_inside

theorem mem_inside (hy : y ∈ layout.way) (hOpens : (layout.visitAt line y).Opens x) :
    layout.visitAt line y ∈ layout.inside line x :=
  List.mem_map_of_mem (List.mem_filter.2 ⟨hy, decide_eq_true hOpens⟩)

/-- A finished document with the root as a piece around it. -/
def finished (layout : Layout) (line : Line) : Copy :=
  .shell [] false (layout.copied (layout.itinerary line))

theorem opens_nil (hy : y ∈ layout.way) : (layout.visitAt line y).Opens [] := by
  obtain ⟨floor, hVisit⟩ | ⟨floor, text, hVisit⟩ | ⟨floor, depth, hVisit⟩ := visitAt_cases line hy
  · exact ⟨_, by rw [hVisit]; rfl, List.nil_prefix⟩
  · exact ⟨_, by rw [hVisit]; rfl, List.nil_prefix⟩
  · exact ⟨_, by rw [hVisit]; rfl, List.nil_prefix⟩

theorem opens_nil_of_mem {visit : Visit} (h : visit ∈ layout.way.map (layout.visitAt line)) :
    visit.Opens [] := by
  obtain ⟨y, hy, rfl⟩ := List.mem_map.1 h
  exact opens_nil hy

theorem rooms_finished (hPlaces : ∀ entry ∈ line, 1 ≤ entry.1.index ∧ entry.1.index ≤ layout.count)
    (hLine : Line.IsForward line) (x : Path) :
    (layout.finished line).rooms x =
      (layout.shell [] (layout.way.map (layout.visitAt line))).rooms x := by
  rw [finished, itinerary_forward hPlaces hLine, copied_eq_layOf fun _ => opens_nil_of_mem]
  rfl

/-- What has a copy is opened somewhere on the way. -/
theorem exists_opens_of_rooms
    (hPlaces : ∀ entry ∈ line, 1 ≤ entry.1.index ∧ entry.1.index ≤ layout.count)
    (hLine : Line.IsForward line) (hSome : x ≠ []) (hRooms : (layout.finished line).rooms x ≠ []) :
    ∃ y ∈ layout.way, (layout.visitAt line y).Opens x := by
  obtain ⟨room, hRoom⟩ := List.exists_mem_of_ne_nil _ hRooms
  rw [rooms_finished hPlaces hLine, shell, Copy.rooms_shell_of_ne (Ne.symm hSome)] at hRoom
  obtain ⟨-, visit, hVisit, hOpens⟩ := Nest.of_mem_roomsOf_layOf _
    (Nest.areAt_group fun _ => opens_nil_of_mem)
    ((Copy.roomsOf_prune_sublist layout.root _).subset hRoom)
  rw [Nest.visitsOf_group] at hVisit
  obtain ⟨y, hy, rfl⟩ := List.mem_map.1 hVisit
  exact ⟨y, hy, hOpens⟩

/-- All that lies below an element which is not torn apart lies in one copy of
it, unless this is bare and taken out. -/
theorem rooms_of_intact (hPlaces : ∀ entry ∈ line, 1 ≤ entry.1.index ∧ entry.1.index ≤ layout.count)
    (hLine : Line.IsForward line) (hIntact : layout.Intact line x)
    (hSome : layout.inside line x ≠ []) :
    (∀ y, x <+: y →
      (layout.finished line).rooms y = (layout.shell x (layout.inside line x)).rooms y) ∨
    layout.isBareRoom x (layout.inside line x) = true ∧
      ∀ y, x <+: y → (layout.finished line).rooms y = [] := by
  obtain ⟨left, right, hSplit, hLeft, hRight⟩ :=
    Path.exists_stretch layout.way_sorted fun first hFirst middle hMiddle last hLast =>
      hIntact.between hFirst hMiddle hLast
  have hVisits : layout.way.map (layout.visitAt line) = left.map (layout.visitAt line) ++
      layout.inside line x ++ right.map (layout.visitAt line) := by
    rw [inside, ← List.map_append, ← List.map_append, ← hSplit]
  have hOther : ∀ {places : List Path}, (∀ y ∈ places, y ∈ layout.way) →
      (∀ y ∈ places, ¬ (layout.visitAt line y).Opens x) →
      ∀ visit ∈ places.map (layout.visitAt line), visit.Opens [] ∧ ¬ visit.Opens x := by
    intro places hWay hNot visit hVisit
    obtain ⟨y, hy, rfl⟩ := List.mem_map.1 hVisit
    exact ⟨opens_nil (hWay y hy), hNot y hy⟩
  have hBlock := (@rooms_block layout [] x _ _ _
    (hOther (fun y hy => hSplit ▸ List.mem_append_left _ (List.mem_append_left _ hy)) hLeft)
    opens_of_mem_inside hSome
    (hOther (fun y hy => hSplit ▸ List.mem_append_right _ hy) hRight)).1
  rw [List.nil_append, ← hVisits] at hBlock
  simp only [rooms_finished hPlaces hLine]
  exact hBlock

/-- Among what is laid down in an element, a child that is not torn apart has one
piece. -/
theorem layOf_inside_child {index : Nat} (hIntact : layout.Intact line (x ++ [index]))
    (hSome : layout.inside line (x ++ [index]) ≠ []) :
    ∃ (left right : List Path) (front : List Copy),
      (layout.way.filter fun y => (layout.visitAt line y).Opens x) =
        left ++ (layout.way.filter fun y => (layout.visitAt line y).Opens (x ++ [index])) ++ right ∧
      Nest.layOf layout x [] (Nest.group x.length (layout.inside line x)) =
        Nest.layOf layout x [] (Nest.group x.length (left.map (layout.visitAt line))) ++
          layout.shell (x ++ [index]) (layout.inside line (x ++ [index])) ::
            Nest.layOf layout x front (Nest.group x.length (right.map (layout.visitAt line))) ∧
      Copy.roomsOf (x ++ [index])
        (Nest.layOf layout x [] (Nest.group x.length (left.map (layout.visitAt line)))) = [] ∧
      Copy.roomsOf (x ++ [index])
        (Nest.layOf layout x front (Nest.group x.length (right.map (layout.visitAt line)))) = [] := by
  obtain ⟨left, right, hSplit, hLeft, hRight⟩ := Path.exists_stretch
    (layout.way_sorted.filter fun y => (layout.visitAt line y).Opens x)
    fun first hFirst middle hMiddle last hLast =>
      hIntact.between (List.mem_of_mem_filter hFirst) (List.mem_of_mem_filter hMiddle)
        (List.mem_of_mem_filter hLast)
  have hInner : ((layout.way.filter fun y => (layout.visitAt line y).Opens x).filter
      fun y => (layout.visitAt line y).Opens (x ++ [index])) =
      layout.way.filter fun y => (layout.visitAt line y).Opens (x ++ [index]) := by
    rw [List.filter_filter]
    apply List.filter_congr
    intro y _
    simpa using fun hOpens => Visit.Opens.upward hOpens (List.prefix_append x [index])
  rw [hInner] at hSplit
  have hInside : layout.inside line x = left.map (layout.visitAt line) ++
      layout.inside line (x ++ [index]) ++ right.map (layout.visitAt line) := by
    rw [inside, hSplit, List.map_append, List.map_append]
    rfl
  have hOther : ∀ {places : List Path},
      (∀ y ∈ places, ¬ (layout.visitAt line y).Opens (x ++ [index])) →
      ∀ visit ∈ places.map (layout.visitAt line), ¬ visit.Opens (x ++ [index]) := by
    intro places hPlaces visit hVisit
    obtain ⟨y, hy, rfl⟩ := List.mem_map.1 hVisit
    exact hPlaces y hy
  have hNone : ∀ {places : List Path} (front : List Copy),
      (∀ visit ∈ places.map (layout.visitAt line), visit ∈ layout.inside line x) →
      (∀ y ∈ places, ¬ (layout.visitAt line y).Opens (x ++ [index])) →
      Copy.roomsOf (x ++ [index])
        (Nest.layOf layout x front (Nest.group x.length (places.map (layout.visitAt line)))) = [] := by
    intro places front hPlaces hNot
    apply Nest.roomsOf_layOf_eq_nil (Nest.areAt_group fun visit hVisit =>
      opens_of_mem_inside _ (hPlaces visit hVisit))
    rw [Nest.visitsOf_group]
    exact hOther hNot
  obtain ⟨front, hPieces⟩ := layOf_child layout []
    (fun last hLast => hOther hLeft last (List.mem_of_getLast? hLast))
    opens_of_mem_inside hSome
    (fun first hFirst => hOther hRight first (List.mem_of_head? hFirst))
    (fun visit hVisit => opens_of_mem_inside _ (hInside ▸ hVisit))
  refine ⟨left, right, front, hSplit, hInside ▸ hPieces,
    hNone [] (fun visit hVisit => ?_) hLeft, hNone front (fun visit hVisit => ?_) hRight⟩
  · rw [hInside]
    exact List.mem_append_left _ (List.mem_append_left _ hVisit)
  · rw [hInside]
    exact List.mem_append_right _ hVisit

/-! ### What stands in the one copy of an element -/

/-- Whether a copy of an element holds everything that is to be kept: all children
off the paths, all leaves with an entry that is present and all children with
such a leaf inside, in document order. -/
structure Keeps (layout : Layout) (line : Line) (x : Path) (copies : List Copy) : Prop where
  cloned : copies.filterMap Copy.cloned? =
    layout.way.filter fun y => layout.OffPath y ∧ y.dropLast = x
  filled : copies.filterMap (fun copy => copy.leaf?.map Prod.fst) =
    layout.way.filter fun y => (y ∈ layout.leaves ∧ layout.Opened line y) ∧ y.dropLast = x
  opened : ∀ index leaf, leaf ∈ layout.leaves → layout.Opened line leaf →
    x ++ [index] <+: leaf → x ++ [index] ≠ leaf →
      ∃ inner, Copy.shell (x ++ [index]) false inner ∈ copies
  sorted : copies.Pairwise fun copy next => ¬ Path.Before next.source copy.source

theorem goal_visitAt (hy : y ∈ layout.way) : (layout.visitAt line y).goal <+: y := by
  obtain ⟨floor, hVisit⟩ | ⟨floor, text, hVisit⟩ | ⟨floor, depth, hVisit⟩ := visitAt_cases line hy
  · exact hVisit ▸ List.prefix_rfl
  · exact hVisit ▸ List.prefix_rfl
  · exact hVisit ▸ List.take_prefix depth y

theorem sorted_inside (line : Line) (x : Path) :
    (layout.inside line x).Pairwise fun visit next => ¬ Path.Before next.goal visit.goal := by
  rw [inside, List.pairwise_map]
  refine (layout.way_sorted.filter _).imp_of_mem fun {y z} hy hz hBefore hBack => ?_
  exact hBefore.asymm (hBack.extend (goal_visitAt (List.mem_of_mem_filter hz))
    (goal_visitAt (List.mem_of_mem_filter hy)))

/-- What the visits to an element lay down comes from its children. -/
theorem filterMap_inside {g : Visit → Option Path} {kept : Path → Prop} [DecidablePred kept]
    (hKept : ∀ y ∈ layout.way, g (layout.visitAt line y) = if kept y then some y else none)
    (hBranch : ∀ y ∈ layout.way, kept y → (layout.visitAt line y).branch? = some y.dropLast)
    (x : Path) :
    (layout.inside line x).filterMap (fun visit =>
      if visit.branch? = some x then g visit else none) =
      layout.way.filter fun y => kept y ∧ y.dropLast = x := by
  rw [inside, List.filterMap_map, List.filterMap_filter, ← List.filterMap_eq_filter]
  apply List.filterMap_congr
  intro y hy
  by_cases hKeep : kept y
  · have hGoes := hBranch y hy hKeep
    by_cases hHere : y.dropLast = x
    · have hOpens : (layout.visitAt line y).Opens x :=
        (opens_of_branch hGoes).2 (hHere ▸ List.prefix_rfl)
      simp [hOpens, hGoes, hHere, hKept y hy, hKeep, Option.guard]
    · simp [hGoes, hHere, Option.guard]
  · simp [hKept y hy, hKeep, Option.guard]

theorem visitAt_of_opened (hy : y ∈ layout.leaves) (hOpened : layout.Opened line y) :
    ∃ text, layout.visitAt line y = .fill (layout.floor (layout.rank y + 1)) y text := by
  obtain ⟨key, hPos, hCount, rfl⟩ := exists_path_eq hy
  obtain ⟨text, -, hStop⟩ := stop_of_opens layout ((opened_path hPos hCount).1 hOpened)
  exact ⟨text, by rw [visitAt_path line hPos hCount, hStop, rank_path hPos hCount]⟩

theorem visitAt_of_dropped (hy : y ∈ layout.leaves) (hDropped : ¬ layout.Opened line y) :
    layout.visitAt line y = .pass (layout.floor (layout.rank y + 1))
      (y.take (layout.level (layout.rank y + 1))) := by
  obtain ⟨key, hPos, hCount, rfl⟩ := exists_path_eq hy
  rw [opened_path hPos hCount] at hDropped
  rw [visitAt_path line hPos hCount, stop_of_dropped hDropped, rank_path hPos hCount]

theorem cloned_inside (line : Line) (x : Path) :
    (layout.inside line x).filterMap (fun visit =>
      if visit.branch? = some x then visit.cloned? else none) =
      layout.way.filter fun y => layout.OffPath y ∧ y.dropLast = x := by
  apply filterMap_inside
  · intro y hy
    by_cases hOff : layout.OffPath y
    · rw [if_pos hOff, hOff.visitAt]
      rfl
    · have hLeaf := (mem_way.1 hy).resolve_right hOff
      rw [if_neg hOff]
      by_cases hOpened : layout.Opened line y
      · obtain ⟨text, hText⟩ := visitAt_of_opened hLeaf hOpened
        rw [hText]
        rfl
      · rw [visitAt_of_dropped hLeaf hOpened]
        rfl
  · intro y _ hOff
    rw [hOff.visitAt]
    rfl

theorem filled_inside (line : Line) (x : Path) :
    (layout.inside line x).filterMap (fun visit =>
      if visit.branch? = some x then visit.fill?.map Prod.fst else none) =
      layout.way.filter fun y => (y ∈ layout.leaves ∧ layout.Opened line y) ∧ y.dropLast = x := by
  apply filterMap_inside
  · intro y hy
    by_cases hLeaf : y ∈ layout.leaves
    · by_cases hOpened : layout.Opened line y
      · obtain ⟨text, hText⟩ := visitAt_of_opened hLeaf hOpened
        rw [if_pos ⟨hLeaf, hOpened⟩, hText]
        rfl
      · rw [if_neg fun h => hOpened h.2, visitAt_of_dropped hLeaf hOpened]
        rfl
    · rw [if_neg fun h => hLeaf h.1, ((mem_way.1 hy).resolve_left hLeaf).visitAt]
      rfl
  · intro y _ hKept
    obtain ⟨text, hText⟩ := visitAt_of_opened hKept.1 hKept.2
    rw [hText]
    rfl

/-- An element that is not torn apart has one copy if a leaf inside it has an
entry that is present, and this copy holds everything that is to be kept. -/
theorem keeps_of_intact
    (hPlaces : ∀ entry ∈ line, 1 ≤ entry.1.index ∧ entry.1.index ≤ layout.count)
    (hLine : Line.IsForward line) (hIntact : layout.Intact line x) {leaf : Path}
    (hLeaf : leaf ∈ layout.leaves) (hOpened : layout.Opened line leaf) (hInside : x <+: leaf)
    (hNe : x ≠ leaf) :
    (layout.finished line).rooms x = [layout.room x (layout.inside line x)] ∧
      layout.Keeps line x (layout.room x (layout.inside line x)) := by
  have hVisit : ∀ {y z}, y ∈ layout.leaves → layout.Opened line y → z <+: y → z ≠ y →
      (layout.visitAt line y).Opens z ∧ (layout.visitAt line y).isFill = true := by
    intro y z hy hOpened hPath hOther
    have hCopies : layout.Copies line z y := ⟨hPath, hOther, .inr ⟨hy, hOpened⟩⟩
    obtain ⟨text, hText⟩ := visitAt_of_opened hy hOpened
    exact ⟨hCopies.opens, by rw [hText]; rfl⟩
  have hWay : ∀ {y}, y ∈ layout.leaves → y ∈ layout.way := fun hy => mem_way.2 (.inl hy)
  obtain ⟨hOpens, hFill⟩ := hVisit hLeaf hOpened hInside hNe
  have hMem := mem_inside (hWay hLeaf) hOpens
  have hFilled : Visit.hasFill (layout.inside line x) = true := List.any_eq_true.2 ⟨_, hMem, hFill⟩
  constructor
  · rcases rooms_of_intact hPlaces hLine hIntact (List.ne_nil_of_mem hMem) with hRooms | ⟨hBare, -⟩
    · rw [hRooms x List.prefix_rfl, rooms_shell_self opens_of_mem_inside]
    · rw [isBareRoom_of_hasFill hFilled] at hBare
      cases hBare
  · constructor
    · rw [filterMap_room (g := Visit.cloned?) (fun _ _ _ => rfl) _ opens_of_mem_inside, cloned_inside]
      intro visit front
      cases visit <;> rfl
    · rw [filterMap_room (g := fun visit => visit.fill?.map Prod.fst) (fun _ _ _ => rfl) _ opens_of_mem_inside,
        filled_inside]
      intro visit front
      cases visit <;> rfl
    · intro index other hOther hOtherOpened hBelow hOtherNe
      obtain ⟨hChild, hChildFill⟩ := hVisit hOther hOtherOpened hBelow hOtherNe
      exact shell_mem_room opens_of_mem_inside
        (mem_inside (hWay hOther) (hChild.upward (List.prefix_append _ _))) hChildFill hChild
    · exact sorted_room opens_of_mem_inside (sorted_inside line x)

/-! ### What tears an element apart -/

/-- No element is torn apart from the atom of a leaf in it upwards. -/
theorem intact_of_le_level (hPos : 1 ≤ key) (hCount : key ≤ layout.count)
    (hInside : x <+: layout.path key) (hLevel : x.length ≤ layout.level key) (line : Line) :
    layout.Intact line x := by
  intro other hOtherPos hOtherCount _ hOther hLess
  have := level_eq_of_lt hOtherPos hOtherCount hPos hCount hOther hInside hLess
  omega

/-- An element around a leaf that lies below its atom. -/
theorem exists_below_atom (hInside : x <+: layout.path key) (hLess : layout.level key < x.length) :
    ∃ index rest, x = (layout.path key).take (layout.level key) ++ index :: rest := by
  obtain ⟨back, hBack⟩ := hInside
  have hDrop : x.drop (layout.level key) ≠ [] := by
    apply List.ne_nil_of_length_pos
    rw [List.length_drop]
    omega
  obtain ⟨index, rest, hRest⟩ := List.exists_cons_of_ne_nil hDrop
  refine ⟨index, rest, ?_⟩
  rw [← hBack, List.take_append_of_le_length (Nat.le_of_lt hLess), ← hRest, List.take_append_drop]

/-- The visits to the atom of a dropped leaf lie on either side of the leaf. -/
theorem inside_atom (hPos : 1 ≤ key) (hCount : key ≤ layout.count) (hDropped : ¬ line.Opens key) :
    ∃ left right, layout.inside line ((layout.path key).take (layout.level key)) =
        left ++ .pass (layout.floor key) ((layout.path key).take (layout.level key)) :: right ∧
      (∀ y ∈ layout.way, (layout.visitAt line y).Opens ((layout.path key).take (layout.level key)) →
        Path.Before y (layout.path key) → layout.visitAt line y ∈ left) ∧
      ∀ y ∈ layout.way, (layout.visitAt line y).Opens ((layout.path key).take (layout.level key)) →
        Path.Before (layout.path key) y → layout.visitAt line y ∈ right := by
  have hVisit : layout.visitAt line (layout.path key) =
      .pass (layout.floor key) ((layout.path key).take (layout.level key)) := by
    rw [visitAt_path line hPos hCount, stop_of_dropped hDropped]
  generalize (layout.path key).take (layout.level key) = atom at hVisit ⊢
  have hMem : layout.path key ∈ layout.way.filter fun y => (layout.visitAt line y).Opens atom := by
    refine List.mem_filter.2 ⟨mem_way.2 (.inl (path_mem hPos hCount)), decide_eq_true ?_⟩
    rw [hVisit]
    exact ⟨atom, rfl, List.prefix_rfl⟩
  obtain ⟨left, right, hSplit⟩ := List.append_of_mem hMem
  have hSorted := layout.way_sorted.filter fun y => (layout.visitAt line y).Opens atom
  rw [hSplit] at hSorted
  obtain ⟨-, hRight, hApart⟩ := List.pairwise_append.1 hSorted
  have hCases : ∀ y ∈ layout.way, (layout.visitAt line y).Opens atom →
      y ∈ left ∨ y = layout.path key ∨ y ∈ right := by
    intro y hy hOpens
    have hPlace : y ∈ left ++ layout.path key :: right :=
      hSplit ▸ List.mem_filter.2 ⟨hy, decide_eq_true hOpens⟩
    simpa using hPlace
  refine ⟨left.map (layout.visitAt line), right.map (layout.visitAt line), ?_, ?_, ?_⟩
  · rw [inside, hSplit, List.map_append, List.map_cons, hVisit]
  · intro y hy hOpens hBefore
    rcases hCases y hy hOpens with hLeft | rfl | hPlace
    · exact List.mem_map_of_mem hLeft
    · exact absurd hBefore (Path.before_irrefl _)
    · exact absurd ((List.pairwise_cons.1 hRight).1 y hPlace) hBefore.asymm
  · intro y hy hOpens hBehind
    rcases hCases y hy hOpens with hLeft | rfl | hPlace
    · exact absurd (hApart y hLeft _ List.mem_cons_self) hBehind.asymm
    · exact absurd hBehind (Path.before_irrefl _)
    · exact List.mem_map_of_mem hPlace

/-- A dropped leaf between two that are copied parts an element that lies below
its atom. -/
theorem two_rooms_of_torn
    (hPlaces : ∀ entry ∈ line, 1 ≤ entry.1.index ∧ entry.1.index ≤ layout.count)
    (hLine : Line.IsForward line) (h : layout.Torn line x) :
    2 ≤ ((layout.finished line).rooms x).length := by
  obtain ⟨key, hPos, hCount, hDropped, hInside, hLess, ⟨y, hy, hyOpened, hyInside, hBefore⟩,
    z, hz, hzOpened, hzInside, hBehind⟩ := h
  have hNe : x ≠ y ∧ x ≠ z := by
    constructor
    · rintro rfl
      exact Path.not_before_inside hInside hBefore
    · rintro rfl
      exact Path.not_inside_before hInside hBehind
  have hLevel := level_le_length hPos hCount
  obtain ⟨index, rest, rfl⟩ := exists_below_atom hInside hLess
  obtain ⟨left, right, hVisits, hLeft, hRight⟩ := inside_atom hPos hCount hDropped
  have hIntact := intact_of_le_level hPos hCount (List.take_prefix _ _)
    (Nat.le_of_eq (List.length_take_of_le hLevel)) line
  generalize (layout.path key).take (layout.level key) = atom at *
  have hAbove : atom <+: atom ++ index :: rest := List.prefix_append _ _
  have hFill : ∀ {leaf}, leaf ∈ layout.leaves → layout.Opened line leaf →
      atom ++ index :: rest <+: leaf → atom ++ index :: rest ≠ leaf → leaf ∈ layout.way ∧
        (layout.visitAt line leaf).isFill = true ∧
        (layout.visitAt line leaf).Opens (atom ++ index :: rest) := by
    intro leaf hLeaf hOpened hBelow hOther
    have hCopies : layout.Copies line (atom ++ index :: rest) leaf :=
      ⟨hBelow, hOther, .inr ⟨hLeaf, hOpened⟩⟩
    obtain ⟨text, hText⟩ := visitAt_of_opened hLeaf hOpened
    exact ⟨mem_way.2 (.inl hLeaf), by rw [hText]; rfl, hCopies.opens⟩
  obtain ⟨hyWay, hyFill, hyOpens⟩ := hFill hy hyOpened hyInside hNe.1
  obtain ⟨hzWay, hzFill, hzOpens⟩ := hFill hz hzOpened hzInside hNe.2
  have hMem := mem_inside hyWay (hyOpens.upward hAbove)
  have hSome : Visit.hasFill (layout.inside line atom) = true := List.any_eq_true.2 ⟨_, hMem, hyFill⟩
  have hRooms := (rooms_of_intact hPlaces hLine hIntact (List.ne_nil_of_mem hMem)).resolve_right
    fun hGone => by
      rw [isBareRoom_of_hasFill hSome] at hGone
      cases hGone.1
  have hOpensAll := @opens_of_mem_inside layout line atom
  rw [hVisits] at hOpensAll
  rw [hRooms _ hAbove, shell, Copy.rooms_shell_of_ne (by simp), hVisits]
  exact two_rooms_room (fun visit hVisit => hOpensAll visit (List.mem_append_left _ hVisit))
    (fun visit hVisit => hOpensAll visit (List.mem_append_right _ (List.mem_cons_of_mem _ hVisit)))
    rfl (hLeft y hyWay (hyOpens.upward hAbove) hBefore) hyFill hyOpens
    (hRight z hzWay (hzOpens.upward hAbove) hBehind) hzFill hzOpens

/-- The pieces of a document that a run left behind when it passed through once:
clones of subtrees off the paths, leaves with an entry that is present as the
format writes them, and ancestors of leaves. -/
structure MadeOf (layout : Layout) (line : Line) (out : Element) (copies : List Copy) : Prop where
  elements : out = { layout.root with children := Copy.elementsOf layout.root copies }
  faithful : ∀ copy ∈ copies, layout.Faithful layout.OffPath (layout.Opened line) copy

theorem madeOf_assemble
    (hPlaces : ∀ entry ∈ line, 1 ≤ entry.1.index ∧ entry.1.index ≤ layout.count)
    (hLine : Line.IsForward line) :
    layout.MadeOf line (layout.assemble (layout.itinerary line))
      (layout.copied (layout.itinerary line)) := by
  refine ⟨rfl, faithful_copied fun visit hVisit => ?_⟩
  rw [itinerary_forward hPlaces hLine] at hVisit
  obtain ⟨y, hy, rfl⟩ := List.mem_map.1 hVisit
  by_cases hLeaf : y ∈ layout.leaves
  · by_cases hOpened : layout.Opened line y
    · obtain ⟨text, hText⟩ := visitAt_of_opened hLeaf hOpened
      rw [hText]
      exact ⟨hLeaf, hOpened⟩
    · rw [visitAt_of_dropped hLeaf hOpened]
      exact .inr ⟨y, hLeaf, List.take_prefix _ _⟩
  · have hOff := (mem_way.1 hy).resolve_left hLeaf
    rw [hOff.visitAt]
    exact ⟨hOff.sited, hOff⟩

variable {format : Format} {root : Element} {content : Content}

/-- A paragraph is its own atom. -/
theorem level_eq_length (h : flatten .odt root = .ok (content, line)) (hPos : 1 ≤ key)
    (hCount : key ≤ (ofLine h).count) :
    (ofLine h).level key = ((ofLine h).path key).length := by
  have hMem := path_mem hPos hCount
  obtain ⟨bearer, hBears⟩ := exists_bearer hMem
  have hSame : bearer = (ofLine h).path key := by
    by_contra hOther
    obtain ⟨leaf, hLeaf, hPath⟩ := List.mem_map.1 (mem_leaves_of_mem_ofLine h hMem)
    rw [← hPath] at hOther hBears
    have hNot := Format.outermost_of_mem_leaves hLeaf hBears.inside hBears.carries.1 hOther
    have hCarrier : Format.odt.isCarrier root bearer = true := hBears.carries.2
    rw [hNot] at hCarrier
    cases hCarrier
  subst hSame
  obtain ⟨depth, hDepth⟩ := Option.isSome_iff_exists.1 hBears.carries.2
  obtain rfl : depth = 0 := by
    have hEntries : ∀ entry ∈ Format.odt.textNodes, entry.2 = 0 := by decide
    obtain ⟨front, back, hSplit, -⟩ := List.lookup_eq_some_iff.1 hDepth
    exact hEntries (_, depth) (hSplit ▸ List.mem_append_right front List.mem_cons_self)
  rw [hBears.level_eq hPos hCount hDepth, Path.atom, List.length_take]
  simp

theorem intact_of_odt (h : flatten .odt root = .ok (content, line)) (tape : Line) (x : Path) :
    (ofLine h).Intact tape x := by
  intro key hPos hCount _ hInside hLess
  have := hInside.length_le
  rw [level_eq_length h hPos hCount] at hLess
  omega

/-- Whether a document made of copies has one copy of every element around a leaf
that is copied, with its children, unless the element is torn apart; then it has
two or more. No element is torn apart in a text document. -/
structure KeepsElements (layout : Layout) (line : Line) (copies : List Copy) : Prop where
  intact : ∀ x leaf, leaf ∈ layout.leaves → layout.Opened line leaf → x <+: leaf → x ≠ leaf →
    layout.Intact line x →
      ∃ room, (Copy.shell [] false copies).rooms x = [room] ∧ layout.Keeps line x room
  torn : ∀ x, layout.Torn line x → 2 ≤ ((Copy.shell [] false copies).rooms x).length
  odt : layout.format = .odt → ∀ x, layout.Intact line x

end Layout

variable {format : Format} {root : Element} {content : Content} {line tape : Line}

/-- A tape that never goes back leaves one copy of every element with a leaf
inside that has a present entry, with all its children that are to be kept in
their order, formatting properties included, as long as no dropped leaf tears the
element apart: between two present leaves such a leaf leaves two copies of the
element. None ever does in a text document, where every paragraph is its own
atom. -/
theorem enforce_keeps_elements (h : flatten format root = .ok (content, line))
    (hTape : Line.PointsInto tape line) (hForward : Line.IsForward tape) :
    ∃ boundaries out copies, Boundaries.ofLine root line = .ok boundaries ∧
      enforce root tape boundaries format = .ok out ∧ (Layout.ofLine h).MadeOf tape out copies ∧
      (Layout.ofLine h).KeepsElements tape copies := by
  obtain ⟨boundaries, hBoundaries, hEnforce⟩ := Layout.enforce_ofLine h hTape
  have hPlaces := Layout.bounds_of_pointsInto h hTape
  refine ⟨boundaries, _, _, hBoundaries, hEnforce, Layout.madeOf_assemble hPlaces hForward,
    ?_, ?_, ?_⟩
  · intro x leaf hLeaf hOpened hInside hNe hIntact
    exact ⟨_, Layout.keeps_of_intact hPlaces hForward hIntact hLeaf hOpened hInside hNe⟩
  · intro x hTorn
    exact Layout.two_rooms_of_torn hPlaces hForward hTorn
  · rintro rfl x
    exact Layout.intact_of_odt h tape x

/-- A run in bold face with a tag between two texts. -/
def Docx.tornRun : Element :=
  element "body" none
    [element "p" none
      [element "r" none
        [element "rPr" none [element "b" none []], element "t" (some "A") [],
          element "t" (some "\x7b% if x %\x7d") [], element "t" (some "B") [],
          element "t" (some "\x7b% endif %\x7d") []]]]

/-- The line of the run with a tag between two texts. -/
def Docx.tornLine : Line :=
  [(⟨[0, 0, 1], true, 1, 0, 1, 1⟩, "A"), (⟨[0, 0, 2], false, 10, 0, 10, 2⟩, "\x7b% if x %\x7d"),
    (⟨[0, 0, 3], true, 1, 0, 1, 3⟩, "B"), (⟨[0, 0, 4], false, 11, 0, 11, 4⟩, "\x7b% endif %\x7d")]

/-- The run with both texts and without the tags. -/
def Docx.tornTape : Line :=
  [(⟨[0, 0, 1], true, 1, 0, 1, 1⟩, "A"), (⟨[0, 0, 2], false, 10, 0, 10, 2⟩, ""),
    (⟨[0, 0, 3], true, 1, 0, 1, 3⟩, "B"), (⟨[0, 0, 4], false, 11, 0, 11, 4⟩, "")]

theorem Docx.flatten_tornRun :
    flatten .docx Docx.tornRun = .ok (.template, Docx.tornLine) := by
  decide +kernel

/-- The tag is dropped between the two texts of the run. -/
theorem Docx.torn_tornRun :
    (Layout.ofLine Docx.flatten_tornRun).Torn Docx.tornTape [0, 0] := by
  refine ⟨2, by decide, by decide +kernel, by decide, by decide +kernel, by decide +kernel,
    ⟨[0, 0, 1], ?_⟩, [0, 0, 3], ?_⟩
  · exact ⟨by decide +kernel, by decide +kernel, by decide, by decide +kernel⟩
  · exact ⟨by decide +kernel, by decide +kernel, by decide, by decide +kernel⟩

/-- The tag tears the run apart, but not the paragraph. -/
theorem enforce_keeps_elements_tornRun :
    ∃ h : flatten .docx Docx.tornRun = .ok (.template, Docx.tornLine),
      Line.PointsInto Docx.tornTape Docx.tornLine ∧ Line.IsForward Docx.tornTape ∧
      ∃ boundaries out copies, Boundaries.ofLine Docx.tornRun Docx.tornLine = .ok boundaries ∧
        enforce Docx.tornRun Docx.tornTape boundaries .docx = .ok out ∧
        (Layout.ofLine h).MadeOf Docx.tornTape out copies ∧
        (∃ room, (Copy.shell [] false copies).rooms [0] = [room] ∧
          (Layout.ofLine h).Keeps Docx.tornTape [0] room) ∧
        2 ≤ ((Copy.shell [] false copies).rooms [0, 0]).length := by
  have hTape : Line.PointsInto Docx.tornTape Docx.tornLine := by decide
  have hForward : Line.IsForward Docx.tornTape := by decide
  obtain ⟨boundaries, out, copies, hBoundaries, hEnforce, hMade, hKeeps⟩ :=
    enforce_keeps_elements Docx.flatten_tornRun hTape hForward
  have hIntact : (Layout.ofLine Docx.flatten_tornRun).Intact Docx.tornTape [0] := by
    -- every leaf has its atom around it at the paragraph or below
    intro key hPos hCount _ _ hLess
    have hDeep : ∀ key ≤ (Layout.ofLine Docx.flatten_tornRun).count, 1 ≤ key →
        1 ≤ (Layout.ofLine Docx.flatten_tornRun).level key := by
      decide +kernel
    exact absurd hLess (Nat.not_lt.2 (hDeep key hCount hPos))
  exact ⟨Docx.flatten_tornRun, hTape, hForward, boundaries, out, copies, hBoundaries, hEnforce,
    hMade, hKeeps.intact [0] [0, 0, 1] (by decide +kernel) (by decide +kernel) (by decide)
      (by decide) hIntact, hKeeps.torn [0, 0] Docx.torn_tornRun⟩

/-- A tag between two texts of a run parts the run when it is dropped, and what
follows it loses its formatting. -/
theorem enforce_tornRun :
    ∃ h : flatten .docx Docx.tornRun = .ok (.template, Docx.tornLine),
      Line.PointsInto Docx.tornTape Docx.tornLine ∧ Line.IsForward Docx.tornTape ∧
      (do
        let boundaries ← Boundaries.ofLine Docx.tornRun Docx.tornLine
        enforce Docx.tornRun Docx.tornTape boundaries .docx) =
          .ok (Docx.element "body" none
            [Docx.element "p" none
              [Docx.element "r" none
                [Docx.element "rPr" none [Docx.element "b" none []],
                  Docx.element "t" (some "A") []],
                Docx.element "r" none [Docx.element "t" (some "B") []]]]) ∧
      (Layout.ofLine h).Torn Docx.tornTape [0, 0] :=
  ⟨Docx.flatten_tornRun, by decide, by decide, by decide +kernel, Docx.torn_tornRun⟩

end Infill
