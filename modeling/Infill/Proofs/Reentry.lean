import Infill.Proofs.Retention

/-!
Which subtrees a run clones. The boundaries between leaves hold no leaf, but a
run that goes back for another pass also clones what follows the leaf it leaves
in that leaf's ancestors, and, when no tag begins the pass, what precedes the
leaf it goes to. A leaf lies there just when it shares more of its ancestors
with that leaf than the two ends of the pass share with each other.
-/
namespace Infill

open Infill.Xml
open Infill.Path (Before sharedLength)

namespace Path

variable {root : Element} {p q : Path} {depth : Nat}

/-- What follows an element in its ancestors holds a place behind it that has
enough of them in common with it. -/
theorem exists_trailingFrom_iff (hp : root.Reaches p) (hq : root.Reaches q) :
    (∃ x ∈ trailingFrom root p depth, x <+: q) ↔ Before p q ∧ depth ≤ sharedLength p q := by
  constructor
  · rintro ⟨x, hx, hInside⟩
    obtain ⟨-, hBefore, u, i, rfl, hDepth, hu⟩ := (mem_trailingFrom hp).1 hx
    refine ⟨hBefore.extend List.prefix_rfl hInside, hDepth.trans (le_sharedLength hu ?_)⟩
    exact (List.prefix_append u [i]).trans hInside
  · rintro ⟨hBefore, hDepth⟩
    obtain ⟨w, i, j, r, s, hij, rfl, rfl⟩ := (before_iff_fork p q).1 hBefore
    rw [sharedLength_fork w (Nat.ne_of_lt hij)] at hDepth
    refine ⟨w ++ [j], (mem_trailingFrom hp).2 ⟨?_, ?_, w, j, rfl, hDepth, ⟨_, rfl⟩⟩, ⟨s, by simp⟩⟩
    · exact hq.above ⟨s, by simp⟩
    · simpa [before_cons] using hij

/-- The same for what precedes an element in its ancestors. -/
theorem exists_leadingFrom_iff (hp : root.Reaches p) (hq : root.Reaches q) :
    (∃ x ∈ leadingFrom p depth, x <+: q) ↔ Before q p ∧ depth ≤ sharedLength q p := by
  constructor
  · rintro ⟨x, hx, hInside⟩
    obtain ⟨-, hBefore, u, i, rfl, hDepth, hu⟩ := (mem_leadingFrom hp).1 hx
    refine ⟨hBefore.extend hInside List.prefix_rfl, hDepth.trans (le_sharedLength ?_ hu)⟩
    exact (List.prefix_append u [i]).trans hInside
  · rintro ⟨hBefore, hDepth⟩
    obtain ⟨w, i, j, r, s, hij, rfl, rfl⟩ := (before_iff_fork q p).1 hBefore
    rw [sharedLength_fork w (Nat.ne_of_lt hij)] at hDepth
    refine ⟨w ++ [i], (mem_leadingFrom hp).2 ⟨?_, ?_, w, i, rfl, hDepth, ⟨_, rfl⟩⟩, ⟨r, by simp⟩⟩
    · exact hq.above ⟨r, by simp⟩
    · simpa [before_cons] using hij

end Path

namespace Layout

variable {layout : Layout}

/-- Whether a subtree neither is nor holds a leaf. -/
def LeafFree (layout : Layout) (x : Path) : Prop :=
  ∀ leaf ∈ layout.leaves, ¬ x <+: leaf

/-- Whether a leg meets no leaf on the way to another pass: none behind the leaf
it leaves shares more steps with that leaf than the pass begins with, and none
in front of the leaf it goes to does so where no tag begins the pass. -/
def Clear (layout : Layout) : Leg → Prop
  | .reenter exit head index =>
    let common := sharedLength (layout.path exit) (layout.path (head.getD index))
    (∀ leaf ∈ layout.leaves, Before (layout.path exit) leaf →
      sharedLength (layout.path exit) leaf ≤ common) ∧
    (head = none → ∀ leaf ∈ layout.leaves, Before leaf (layout.path index) →
      sharedLength leaf (layout.path index) ≤ common)
  | _ => True

instance (layout : Layout) : (leg : Leg) → Decidable (layout.Clear leg)
  | .reenter _ _ _ => inferInstanceAs (Decidable (_ ∧ _))
  | .fill _ _ => isTrue trivial
  | .cross _ _ => isTrue trivial

theorem leafFree_trailingFrom_iff {exit depth : Nat} (hPos : 1 ≤ exit)
    (hCount : exit ≤ layout.count) :
    (∀ x ∈ Path.trailingFrom layout.root (layout.path exit) (depth + 1), layout.LeafFree x) ↔
      ∀ leaf ∈ layout.leaves, Before (layout.path exit) leaf →
        sharedLength (layout.path exit) leaf ≤ depth := by
  have hReaches := reaches_path hPos hCount
  constructor
  · intro hFree leaf hLeaf hBefore
    by_contra hShared
    obtain ⟨x, hx, hInside⟩ := (Path.exists_trailingFrom_iff hReaches (leaf_reaches hLeaf)).2
      ⟨hBefore, Nat.lt_of_not_le hShared⟩
    exact hFree x hx leaf hLeaf hInside
  · intro hShared x hx leaf hLeaf hInside
    obtain ⟨hBefore, hDepth⟩ :=
      (Path.exists_trailingFrom_iff hReaches (leaf_reaches hLeaf)).1 ⟨x, hx, hInside⟩
    exact absurd (hShared leaf hLeaf hBefore) (Nat.not_le_of_lt hDepth)

theorem leafFree_leadingFrom_iff {index depth : Nat} (hPos : 1 ≤ index)
    (hCount : index ≤ layout.count) :
    (∀ x ∈ Path.leadingFrom (layout.path index) (depth + 1), layout.LeafFree x) ↔
      ∀ leaf ∈ layout.leaves, Before leaf (layout.path index) →
        sharedLength leaf (layout.path index) ≤ depth := by
  have hReaches := reaches_path hPos hCount
  constructor
  · intro hFree leaf hLeaf hBefore
    by_contra hShared
    obtain ⟨x, hx, hInside⟩ := (Path.exists_leadingFrom_iff hReaches (leaf_reaches hLeaf)).2
      ⟨hBefore, Nat.lt_of_not_le hShared⟩
    exact hFree x hx leaf hLeaf hInside
  · intro hShared x hx leaf hLeaf hInside
    obtain ⟨hBefore, hDepth⟩ :=
      (Path.exists_leadingFrom_iff hReaches (leaf_reaches hLeaf)).1 ⟨x, hx, hInside⟩
    exact absurd (hShared leaf hLeaf hBefore) (Nat.not_le_of_lt hDepth)

theorem leafFree_of_mem_gap {index : Nat} (hIndex : index ≤ layout.count) {x : Path}
    (hx : x ∈ layout.gap index) : layout.LeafFree x :=
  ((mem_gap hIndex).1 hx).1.free

/-- A leg clones a leaf unless it is clear. -/
theorem leafFree_leg_iff {leg : Leg} (h : leg.Bounded layout.count) :
    (∀ x ∈ (leg.visits layout).filterMap Visit.cloned?, layout.LeafFree x) ↔ layout.Clear leg := by
  cases leg with
  | fill index text => simp [Leg.visits, Visit.cloned?, Clear]
  | cross key target =>
    have hKey : key - 1 ≤ layout.count := by
      have := h.2
      omega
    rw [Leg.visits, List.filterMap_append, filterMap_cloned_clone, filterMap_cloned_stopover,
      List.append_nil]
    exact iff_of_true (fun x hx => leafFree_of_mem_gap hKey hx) trivial
  | reenter exit head index =>
    obtain ⟨⟨hExit, hExitCount⟩, ⟨hPos, hCount⟩, hHead⟩ := h
    cases head with
    | none =>
      simp only [Leg.visits, List.filterMap_append, filterMap_cloned_clone, List.forall_mem_append,
        leafFree_trailingFrom_iff hExit hExitCount, leafFree_leadingFrom_iff hPos hCount]
      simp [Visit.cloned?, Clear]
    | some tag =>
      obtain ⟨-, hTag⟩ := hHead tag rfl
      have hGap : ∀ x ∈ layout.entering tag, layout.LeafFree x := fun x hx =>
        @leafFree_of_mem_gap layout tag (by omega) x (List.mem_append_right _ hx)
      simp only [Leg.visits, List.filterMap_append, filterMap_cloned_clone,
        filterMap_cloned_stopover, List.forall_mem_append,
        leafFree_trailingFrom_iff hExit hExitCount]
      simpa [Visit.cloned?, Clear] using fun _ => hGap

/-- A run clones no leaf just when all its legs are clear. -/
theorem leafFree_deepClones_iff {line : Line}
    (hLine : ∀ entry ∈ line, 1 ≤ entry.1.index ∧ entry.1.index ≤ layout.count) :
    (∀ x ∈ layout.deepClones line, layout.LeafFree x) ↔
      ∀ leg ∈ Leg.ofLine layout.count line, layout.Clear leg := by
  have hLeg : ∀ leg ∈ Leg.ofLine layout.count line,
      ((∀ x ∈ (leg.visits layout).filterMap Visit.cloned?, layout.LeafFree x) ↔
        layout.Clear leg) := fun leg hLeg => leafFree_leg_iff (Leg.bounded_ofLine hLine hLeg)
  rw [deepClones, itinerary, visits, List.filterMap_flatMap]
  constructor
  · intro hFree leg hMem
    exact (hLeg leg hMem).1 fun x hx => hFree x (List.mem_flatMap.2 ⟨leg, hMem, hx⟩)
  · intro hClear x hx
    obtain ⟨leg, hMem, hx⟩ := List.mem_flatMap.1 hx
    exact (hLeg leg hMem).2 (hClear leg hMem) x hx

end Layout

variable {format : Format} {root : Element} {content : Content} {line tape : Line}

/-- What a run clones holds no leaf of the line just when every leg to another
pass is clear, and then every copy of a leaf in the document belongs to an entry
that is present. -/
theorem deepClones_leafFree_iff (h : flatten format root = .ok (content, line))
    (hTape : Line.PointsInto tape line) :
    ∃ boundaries out spots, Boundaries.ofLine root line = .ok boundaries ∧
      enforce root tape boundaries format = .ok out ∧ (Layout.ofLine h).Clones tape out spots ∧
      ((∀ x ∈ (Layout.ofLine h).deepClones tape, (Layout.ofLine h).LeafFree x) ↔
        ∀ leg ∈ Leg.ofLine (Layout.ofLine h).count tape, (Layout.ofLine h).Clear leg) ∧
      ((∀ leg ∈ Leg.ofLine (Layout.ofLine h).count tape, (Layout.ofLine h).Clear leg) →
        ∀ spot ∈ spots, (Layout.ofLine h).LeafFree spot.2) := by
  obtain ⟨boundaries, hBoundaries, hEnforce⟩ := Layout.enforce_ofLine h hTape
  have hPlaces := Layout.bounds_of_pointsInto h hTape
  have hClones := Layout.clones_assemble hPlaces
  have hIff := Layout.leafFree_deepClones_iff hPlaces
  refine ⟨boundaries, _, _, hBoundaries, hEnforce, hClones, hIff, fun hClear spot hSpot => ?_⟩
  exact hIff.2 hClear spot.2 (hClones.source_mem hSpot)

/-- A loop over paragraphs with formatting. -/
def Docx.list : Element :=
  element "body" none
    [element "p" none [element "r" none [element "t" (some "\x7b% for x in xs %\x7d") []]],
      element "p" none
        [element "pPr" none [], element "r" none [element "t" (some "\x7b\x7bx\x7d\x7d") []]],
      element "p" none [element "r" none [element "t" (some "\x7b% endfor %\x7d") []]]]

/-- The line of the loop. -/
def Docx.listLine : Line :=
  [(⟨[0, 0, 0], false, 17, 0, 17, 1⟩, "\x7b% for x in xs %\x7d"),
    (⟨[1, 1, 0], false, 5, 0, 5, 2⟩, "\x7b\x7bx\x7d\x7d"),
    (⟨[2, 0, 0], false, 12, 0, 12, 3⟩, "\x7b% endfor %\x7d")]

/-- The loop as an engine renders it in two passes. -/
def Docx.listTape : Line :=
  [(⟨[0, 0, 0], false, 17, 0, 17, 1⟩, ""), (⟨[1, 1, 0], false, 5, 0, 5, 2⟩, "1"),
    (⟨[2, 0, 0], false, 12, 0, 12, 3⟩, ""), (⟨[1, 1, 0], false, 5, 0, 5, 2⟩, "2"),
    (⟨[2, 0, 0], false, 12, 0, 12, 3⟩, "")]

theorem Docx.flatten_list : flatten .docx Docx.list = .ok (.template, Docx.listLine) := by decide +kernel

theorem deepClones_leafFree_iff_list :
    ∃ h : flatten .docx Docx.list = .ok (.template, Docx.listLine),
      Line.PointsInto Docx.listTape Docx.listLine ∧
      (Layout.ofLine h).deepClones Docx.listTape = [[1, 0], [1, 0]] ∧
      (∀ x ∈ (Layout.ofLine h).deepClones Docx.listTape, (Layout.ofLine h).LeafFree x) ∧
      ∃ boundaries out spots, Boundaries.ofLine Docx.list Docx.listLine = .ok boundaries ∧
        enforce Docx.list Docx.listTape boundaries .docx = .ok out ∧
        (Layout.ofLine h).Clones Docx.listTape out spots ∧
        ∀ spot ∈ spots, (Layout.ofLine h).LeafFree spot.2 := by
  obtain ⟨boundaries, out, spots, hBoundaries, hEnforce, hClones, hIff, hSpots⟩ :=
    deepClones_leafFree_iff Docx.flatten_list
      (show Line.PointsInto Docx.listTape Docx.listLine by decide)
  have hClear : ∀ leg ∈ Leg.ofLine (Layout.ofLine Docx.flatten_list).count Docx.listTape,
      (Layout.ofLine Docx.flatten_list).Clear leg := by
    decide +kernel
  exact ⟨Docx.flatten_list, by decide, by decide +kernel, hIff.2 hClear, boundaries, out, spots,
    hBoundaries, hEnforce, hClones, hSpots hClear⟩

/-- A text in front of a loop in the same run. -/
def Docx.inlineLoop : Element :=
  element "body" none
    [element "p" none
      [element "r" none
        [element "t" (some "Before") [], element "t" (some "\x7b% for x in xs %\x7d\x7b\x7bx\x7d\x7d") []],
      element "r" none [element "t" (some "\x7b% endfor %\x7d") []]]]

/-- The line of the inline loop. -/
def Docx.inlineLoopLine : Line :=
  [(⟨[0, 0, 0], true, 6, 0, 6, 1⟩, "Before"),
    (⟨[0, 0, 1], false, 22, 0, 17, 2⟩, "\x7b% for x in xs %\x7d"),
    (⟨[0, 0, 1], false, 22, 17, 5, 2⟩, "\x7b\x7bx\x7d\x7d"),
    (⟨[0, 1, 0], false, 12, 0, 12, 3⟩, "\x7b% endfor %\x7d")]

/-- The inline loop as an engine renders it in two passes. -/
def Docx.inlineLoopTape : Line :=
  [(⟨[0, 0, 0], true, 6, 0, 6, 1⟩, "Before"), (⟨[0, 0, 1], false, 22, 0, 17, 2⟩, ""),
    (⟨[0, 0, 1], false, 22, 17, 5, 2⟩, "1"), (⟨[0, 1, 0], false, 12, 0, 12, 3⟩, ""),
    (⟨[0, 0, 1], false, 22, 17, 5, 2⟩, "2"), (⟨[0, 1, 0], false, 12, 0, 12, 3⟩, "")]

/-- What becomes of the inline loop in two passes. -/
def Docx.inlineLoopRendered : Element :=
  element "body" none
    [element "p" none
      [element "r" none [element "t" (some "Before") [], element "t" (some "1") []],
        element "r" none [element "t" (some "Before") [], element "t" (some "2") []]]]

/-- The second pass of the inline loop clones the text in front of the loop, which
is a leaf of its own with one entry only. -/
theorem deepClones_inlineLoop :
    ∃ h : flatten .docx Docx.inlineLoop = .ok (.template, Docx.inlineLoopLine),
      Line.PointsInto Docx.inlineLoopTape Docx.inlineLoopLine ∧
      (do
        let boundaries ← Boundaries.ofLine Docx.inlineLoop Docx.inlineLoopLine
        enforce Docx.inlineLoop Docx.inlineLoopTape boundaries .docx) =
          .ok Docx.inlineLoopRendered ∧
      ¬ ∀ x ∈ (Layout.ofLine h).deepClones Docx.inlineLoopTape, (Layout.ofLine h).LeafFree x := by
  refine ⟨by decide +kernel, by decide, by decide +kernel, fun hFree => ?_⟩
  have hFound := hFree [0, 0, 0] (by decide +kernel) [0, 0, 0] (by decide +kernel)
  exact hFound List.prefix_rfl

end Infill
