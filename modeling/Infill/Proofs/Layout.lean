import Infill.Format
import Infill.Proofs.Siblings

/-!
The layout of a document: where the leaves of its line lie. Whatever is neither
a leaf nor an ancestor of one belongs to a subtree off the paths to the leaves,
and every such subtree stands between two leaves.
-/
namespace Infill

open Infill.Xml

namespace Format

/-- Whether a text lies in an element of its own that carries text. -/
def isSolid : Format → String → Bool
  | docx, tag => tag == Docx.textPath
  | odt, tag => (odt.atomDepth? tag).isSome

/-- Whether an element takes a part of the text of the element around it. -/
def isPiece : Format → String → Bool
  | docx, tag => Docx.isText tag || (Docx.glyph? tag).isSome
  | odt, _ => false

/-- Whether the element at a path carries text. -/
def isCarrier (format : Format) (root : Element) (path : Path) : Bool :=
  (format.atomDepth? (root.descendant path).tag).isSome

/-- What is known of a place that text was taken from. -/
structure HoldsText (format : Format) (root : Element) (path : Path) : Prop where
  nonempty : path ≠ []
  reaches : root.Reaches path
  kind : format.isSolid (root.descendant path).tag = true ∨
    format.isPiece (root.descendant path).tag = true ∧ path.dropLast ≠ [] ∧
      format.isCarrier root path.dropLast = true

/-- What takes text is no formatting property. -/
theorem isProperty_eq_false {format : Format} {tag : String}
    (h : format.isSolid tag = true ∨ format.isPiece tag = true) : format.isProperty tag = false := by
  cases format with
  | odt => rfl
  | docx =>
    simp only [isSolid, isPiece, Docx.isText, beq_iff_eq, Bool.or_eq_true] at h
    rcases h with rfl | (rfl | rfl) | hGlyph
    · decide
    · decide
    · decide
    · have hTag : tag = Docx.word "tab" ∨ tag = Docx.word "br" ∨ tag = Docx.word "cr" := by
        by_contra hNot
        simp only [not_or] at hNot
        simp [Docx.glyph?, hNot.1, hNot.2.1, hNot.2.2] at hGlyph
      rcases hTag with rfl | rfl | rfl
      · decide
      · decide
      · decide

/-- An element that holds its text by itself carries text. -/
theorem isCarrier_of_isSolid {format : Format} {tag : String} (h : format.isSolid tag = true) :
    (format.atomDepth? tag).isSome = true := by
  cases format with
  | odt => exact h
  | docx =>
    obtain rfl : tag = Docx.textPath := by simpa [isSolid] using h
    decide

end Format

/-- A document with the places of its leaves in document order. -/
structure Layout where
  root : Element
  format : Format
  leaves : List Path
  ordered : leaves.Pairwise Path.Before
  holdsText : ∀ path ∈ leaves, format.HoldsText root path

namespace Layout

/-- The number of leaves. -/
def count (layout : Layout) : Nat :=
  layout.leaves.length

/-- The path of a leaf, counted from one on. -/
def leaf? (layout : Layout) : Nat → Option Path
  | 0 => none
  | index + 1 => layout.leaves[index]?

/-- The path of a leaf that exists. -/
def path (layout : Layout) (index : Nat) : Path :=
  (layout.leaf? index).getD []

/-- The number of leaves in front of an element. -/
def rank (layout : Layout) (x : Path) : Nat :=
  layout.leaves.countP fun leaf => Path.Before leaf x

/-- What follows a leaf in its own ancestors up to the next leaf. -/
def ending (layout : Layout) (index : Nat) : List Path :=
  Path.ending layout.root (layout.leaf? index) (layout.leaf? (index + 1))

/-- What lies behind a leaf outside of its own ancestors. -/
def entering (layout : Layout) (index : Nat) : List Path :=
  Path.entering layout.root (layout.leaf? index) (layout.leaf? (index + 1))

/-- What lies behind the leaf `index` and in front of the next one. -/
def gap (layout : Layout) (index : Nat) : List Path :=
  layout.ending index ++ layout.entering index

/-- A subtree that holds no leaf, right below an ancestor of a leaf or below the
root. -/
structure OffPath (layout : Layout) (x : Path) : Prop where
  reaches : layout.root.Reaches x
  free : ∀ leaf ∈ layout.leaves, ¬ x <+: leaf
  attached : ∃ u i, x = u ++ [i] ∧ (u = [] ∨ ∃ leaf ∈ layout.leaves, u <+: leaf ∧ u ≠ leaf)

variable {layout : Layout} {x : Path} {index : Nat}

theorem leaf?_isSome : (layout.leaf? index).isSome = true ↔ 1 ≤ index ∧ index ≤ layout.count := by
  cases index with
  | zero => simp [leaf?]
  | succ index =>
    rw [leaf?, count, isSome_getElem?]
    exact (and_iff_right (Nat.succ_pos index)).symm

theorem leaf?_eq_path (hPos : 1 ≤ index) (hCount : index ≤ layout.count) :
    layout.leaf? index = some (layout.path index) := by
  obtain ⟨path, hPath⟩ := Option.isSome_iff_exists.1 (leaf?_isSome.2 ⟨hPos, hCount⟩)
  rw [Layout.path, hPath, Option.getD_some]

theorem mem_leaf? {path : Path} (h : path ∈ layout.leaf? index) : path ∈ layout.leaves := by
  cases index with
  | zero => simp [leaf?] at h
  | succ index => exact List.mem_of_getElem? h

theorem path_mem (hPos : 1 ≤ index) (hCount : index ≤ layout.count) :
    layout.path index ∈ layout.leaves :=
  mem_leaf? (leaf?_eq_path hPos hCount)

theorem leaf?_mem {path : Path} (h : path ∈ layout.leaf? index) :
    1 ≤ index ∧ index ≤ layout.count ∧ layout.path index = path := by
  obtain ⟨hPos, hCount⟩ := leaf?_isSome.1 (Option.isSome_of_mem h)
  refine ⟨hPos, hCount, ?_⟩
  rw [leaf?_eq_path hPos hCount] at h
  exact Option.some.inj h

/-- Every leaf has a number. -/
theorem exists_path_eq {path : Path} (h : path ∈ layout.leaves) :
    ∃ index, 1 ≤ index ∧ index ≤ layout.count ∧ layout.path index = path := by
  obtain ⟨index, hIndex⟩ := List.mem_iff_getElem?.1 h
  have hLeaf : path ∈ layout.leaf? (index + 1) := hIndex
  exact ⟨index + 1, leaf?_mem hLeaf⟩

/-- Leaves are numbered in document order. -/
theorem path_before {i j : Nat} (hPos : 1 ≤ i) (hij : i < j) (hCount : j ≤ layout.count) :
    Path.Before (layout.path i) (layout.path j) := by
  obtain ⟨i, rfl⟩ := Nat.exists_eq_add_of_le' hPos
  obtain ⟨j, rfl⟩ := Nat.exists_eq_add_of_le' (hPos.trans (Nat.le_of_lt hij))
  have hi : i < layout.leaves.length := by simp only [count] at hCount; omega
  have hj : j < layout.leaves.length := by simp only [count] at hCount; omega
  have hPair := List.pairwise_iff_getElem.1 layout.ordered i j hi hj (by omega)
  simpa [path, leaf?, hi, hj] using hPair

/-- No leaf lies in another one. -/
theorem eq_of_inside {p q : Path} (hp : p ∈ layout.leaves) (hq : q ∈ layout.leaves)
    (h : p <+: q) : p = q := by
  obtain ⟨i, hi, hiCount, rfl⟩ := exists_path_eq hp
  obtain ⟨j, hj, hjCount, rfl⟩ := exists_path_eq hq
  rcases Nat.lt_trichotomy i j with hij | rfl | hji
  · exact absurd (path_before hi hij hjCount) (Path.not_before_inside h)
  · rfl
  · exact absurd (path_before hj hji hiCount) (Path.not_inside_before h)

theorem leaf_nonempty {leaf : Path} (h : leaf ∈ layout.leaves) : leaf ≠ [] :=
  (layout.holdsText leaf h).nonempty

theorem leaf_isProperty {leaf : Path} (h : leaf ∈ layout.leaves) :
    layout.format.isProperty (layout.root.descendant leaf).tag = false :=
  Format.isProperty_eq_false ((layout.holdsText leaf h).kind.imp_right fun h => h.1)

theorem leaf_reaches {leaf : Path} (h : leaf ∈ layout.leaves) : layout.root.Reaches leaf :=
  (layout.holdsText leaf h).reaches

/-- The leaves in front of an element are the first ones. -/
theorem before_iff_le_rank (hPos : 1 ≤ index) (hCount : index ≤ layout.count) :
    Path.Before (layout.path index) x ↔ index ≤ layout.rank x := by
  have general : ∀ (leaves : List Path), leaves.Pairwise Path.Before → ∀ i (hi : i < leaves.length),
      (Path.Before leaves[i] x ↔ i < leaves.countP fun leaf => Path.Before leaf x) := by
    intro leaves hOrdered
    induction leaves with
    | nil => simp
    | cons leaf leaves ih =>
      obtain ⟨hFirst, hRest⟩ := List.pairwise_cons.1 hOrdered
      intro i hi
      by_cases hLeaf : Path.Before leaf x
      · rw [List.countP_cons_of_pos (by simpa using hLeaf)]
        cases i with
        | zero => simp [hLeaf]
        | succ i => simpa using ih hRest i (by simpa using hi)
      · -- the leaf does not stand in front, so those behind it do not either
        have hNone : ∀ other ∈ leaves, ¬ Path.Before other x :=
          fun other hOther hBefore => hLeaf ((hFirst other hOther).trans hBefore)
        have hZero : (leaves.countP fun leaf => Path.Before leaf x) = 0 :=
          List.countP_eq_zero.2 (by simpa using hNone)
        rw [List.countP_cons_of_neg (by simpa using hLeaf), hZero]
        cases i with
        | zero => simpa using hLeaf
        | succ i => simpa using hNone _ (List.getElem_mem _)
  obtain ⟨index, rfl⟩ := Nat.exists_eq_add_of_le' hPos
  have hIndex : index < layout.leaves.length := hCount
  have hPath : layout.path (index + 1) = layout.leaves[index] := by simp [path, leaf?, hIndex]
  rw [hPath, general layout.leaves layout.ordered index hIndex, rank, Nat.succ_le_iff]

theorem rank_le (layout : Layout) (x : Path) : layout.rank x ≤ layout.count :=
  List.countP_le_length

namespace OffPath

/-- A subtree off the paths stands in front of or behind every leaf. -/
theorem before_or_before (h : layout.OffPath x) {leaf : Path} (hLeaf : leaf ∈ layout.leaves) :
    Path.Before leaf x ∨ Path.Before x leaf := by
  rcases Path.trichotomy leaf x with hPrefix | hPrefix | hBefore | hBefore
  · obtain ⟨u, i, rfl, hParent⟩ := h.attached
    rcases List.prefix_concat_iff.1 hPrefix with rfl | hPrefix
    · exact absurd List.prefix_rfl (h.free _ hLeaf)
    · rcases hParent with rfl | ⟨other, hOther, hu, hNe⟩
      · exact absurd (List.prefix_nil.1 hPrefix) (leaf_nonempty hLeaf)
      · obtain rfl := eq_of_inside hLeaf hOther (hPrefix.trans hu)
        exact absurd (List.IsPrefix.eq_of_length_le hu hPrefix.length_le) hNe
  · exact absurd hPrefix (h.free leaf hLeaf)
  · exact .inl hBefore
  · exact .inr hBefore

theorem before_iff_rank_lt (h : layout.OffPath x) (hPos : 1 ≤ index)
    (hCount : index ≤ layout.count) :
    Path.Before x (layout.path index) ↔ layout.rank x < index := by
  have hRank := before_iff_le_rank (x := x) hPos hCount
  constructor
  · intro hBefore
    by_contra hNot
    exact hBefore.asymm (hRank.2 (Nat.le_of_not_lt hNot))
  · intro hLt
    rcases h.before_or_before (path_mem hPos hCount) with hBehind | hBefore
    · have := hRank.1 hBehind
      omega
    · exact hBefore

end OffPath

private theorem leaf?_places {path : Path} (h : path ∈ layout.leaf? index) :
    path ≠ [] ∧ layout.root.Reaches path :=
  ⟨leaf_nonempty (mem_leaf? h), leaf_reaches (mem_leaf? h)⟩

private theorem leaf?_before {p q : Path} (hp : p ∈ layout.leaf? index)
    (hq : q ∈ layout.leaf? (index + 1)) : Path.Before p q := by
  obtain ⟨hPos, -, rfl⟩ := leaf?_mem hp
  obtain ⟨-, hCount, rfl⟩ := leaf?_mem hq
  exact path_before hPos (Nat.lt_succ_self index) hCount

/-- What stands behind a leaf and in front of the next one has so many leaves in
front of it. -/
private theorem rank_of_between (hIndex : index ≤ layout.count)
    (hBehind : ∀ p ∈ layout.leaf? index, Path.Before p x)
    (hBefore : ∀ q ∈ layout.leaf? (index + 1), Path.Before x q) : layout.rank x = index := by
  have hLow : index ≤ layout.rank x := by
    rcases Nat.eq_zero_or_pos index with rfl | hPos
    · exact Nat.zero_le _
    · exact (before_iff_le_rank hPos hIndex).1 (hBehind _ (leaf?_eq_path hPos hIndex))
  refine Nat.le_antisymm ?_ hLow
  by_contra hNot
  have hNext : index + 1 ≤ layout.count := (Nat.lt_of_not_le hNot).trans_le (rank_le _ _)
  have hLeaf := hBefore _ (leaf?_eq_path (Nat.succ_pos index) hNext)
  exact hLeaf.asymm ((before_iff_le_rank (Nat.succ_pos index) hNext).2 (Nat.lt_of_not_le hNot))

/-- An ancestor of a leaf that a subtree off the paths stands beside is one of
the nearest leaf on the same side. -/
private theorem OffPath.exists_nearest {front : Path} {i : Nat}
    (h : layout.OffPath (front ++ [i])) {leaf : Path} (hLeaf : leaf ∈ layout.leaves)
    (hFront : front <+: leaf) :
    (∃ p ∈ layout.leaf? (layout.rank (front ++ [i])), front <+: p) ∨
      ∃ q ∈ layout.leaf? (layout.rank (front ++ [i]) + 1), front <+: q := by
  obtain ⟨j, hj, hjCount, rfl⟩ := exists_path_eq hLeaf
  by_cases hjRank : j ≤ layout.rank (front ++ [i])
  · refine .inl ⟨_, leaf?_eq_path (hj.trans hjRank) (rank_le _ _), ?_⟩
    rcases Nat.eq_or_lt_of_le hjRank with hSame | hLess
    · rwa [← hSame]
    · exact Path.prefix_of_between hFront (List.prefix_append front [i])
        (path_before hj hLess (rank_le _ _))
        ((before_iff_le_rank (hj.trans hjRank) (rank_le _ _)).2 (Nat.le_refl _))
  · have hNext : layout.rank (front ++ [i]) + 1 ≤ layout.count := by omega
    refine .inr ⟨_, leaf?_eq_path (Nat.succ_pos _) hNext, ?_⟩
    rcases Nat.eq_or_lt_of_le (Nat.lt_of_not_le hjRank) with hSame | hLess
    · rwa [← Nat.succ_eq_add_one, hSame]
    · exact Path.prefix_of_between (List.prefix_append front [i]) hFront
        ((h.before_iff_rank_lt (Nat.succ_pos _) hNext).2 (Nat.lt_succ_self _))
        (path_before (Nat.succ_pos _) hLess hjCount)

/-- What lies between two leaves that follow each other are the subtrees off
the paths with so many leaves in front of them. -/
theorem mem_gap (hIndex : index ≤ layout.count) :
    x ∈ layout.gap index ↔ layout.OffPath x ∧ layout.rank x = index := by
  rw [gap, ending, entering, ← Path.between, Path.mem_between (fun p hp => leaf?_places hp)
    (fun q hq => leaf?_places hq) (fun p hp q hq => leaf?_before hp hq)]
  constructor
  · rintro ⟨hReaches, hBehind, hBefore, u, i, rfl, hu⟩
    have hRank := rank_of_between hIndex hBehind hBefore
    have hFree : ∀ leaf ∈ layout.leaves, ¬ u ++ [i] <+: leaf := by
      refine Path.free_of_between layout.ordered hIndex ?_ hBefore
      rintro j rfl p hp
      exact hBehind p hp
    refine ⟨⟨hReaches, hFree, u, i, rfl, ?_⟩, hRank⟩
    rcases hu with rfl | ⟨p, hp, hPrefix⟩ | ⟨q, hq, hPrefix⟩
    · exact .inl rfl
    · refine .inr ⟨p, mem_leaf? hp, hPrefix, ?_⟩
      rintro rfl
      exact Path.not_before_inside (List.prefix_append u [i]) (hBehind u hp)
    · refine .inr ⟨q, mem_leaf? hq, hPrefix, ?_⟩
      rintro rfl
      exact Path.not_inside_before (List.prefix_append u [i]) (hBefore u hq)
  · rintro ⟨hOff, rfl⟩
    refine ⟨hOff.reaches, fun p hp => ?_, fun q hq => ?_, ?_⟩
    · obtain ⟨hPos, hCount, rfl⟩ := leaf?_mem hp
      exact (before_iff_le_rank hPos hCount).2 (Nat.le_refl _)
    · obtain ⟨hPos, hCount, rfl⟩ := leaf?_mem hq
      exact (hOff.before_iff_rank_lt hPos hCount).2 (Nat.lt_succ_self _)
    · obtain ⟨u, i, rfl, hu⟩ := hOff.attached
      refine ⟨u, i, rfl, ?_⟩
      rcases hu with rfl | ⟨leaf, hLeaf, hPrefix, -⟩
      · exact .inl rfl
      · exact .inr (hOff.exists_nearest hLeaf hPrefix)

/-- Every subtree off the paths lies in the gap behind the leaves in front of
it. -/
theorem OffPath.mem_gap (h : layout.OffPath x) : x ∈ layout.gap (layout.rank x) :=
  (Layout.mem_gap (rank_le layout x)).2 ⟨h, rfl⟩

instance (layout : Layout) (x : Path) : Decidable (layout.OffPath x) :=
  decidable_of_iff (x ∈ layout.gap (layout.rank x))
    ⟨fun hx => ((Layout.mem_gap (rank_le layout x)).1 hx).1, OffPath.mem_gap⟩

theorem gap_sorted (layout : Layout) (index : Nat) : (layout.gap index).Pairwise Path.Before :=
  Path.between_sorted (fun _ hp => (leaf?_places hp).1) (fun _ hq => (leaf?_places hq).1)
    (fun _ hp _ hq => leaf?_before hp hq)

end Layout

end Infill
