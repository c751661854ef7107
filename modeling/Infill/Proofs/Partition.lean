import Infill.Proofs.Replay
import Infill.Proofs.Totality

/-!
Boundaries part a tree. Given leaves in document order of which none contains
another, the boundaries between them select every other subtree exactly once:
copied in turn with the leaves they give the tree back. The leaves of a
flattened document are always of this kind.
-/
namespace Infill

open Infill.Xml

/-- Whether paths lead to elements of a tree in document order, none of them to
the root and none into another. -/
structure Xml.Element.HasLeaves (root : Element) (leaves : List Path) : Prop where
  nonempty : ∀ leaf ∈ leaves, leaf ≠ []
  reaches : ∀ leaf ∈ leaves, root.Reaches leaf
  ascending : leaves.Pairwise (· < ·)
  apart : ∀ p ∈ leaves, ∀ q ∈ leaves, p <+: q → p = q

/-- Whether the entries of a line point to leaves under their numbers from one on,
and to each of them. -/
structure Line.Lists (line : Line) (leaves : List Path) : Prop where
  found : ∀ entry ∈ line, ∃ i, entry.1.index = i + 1 ∧ leaves[i]? = some entry.1.path
  every : ∀ i < leaves.length, ∃ entry ∈ line, entry.1.index = i + 1

/-- Whether boundaries part a tree at its leaves: all routes stay in the tree, no
leaf is in what they select, and that and the leaves make up the tree. -/
structure Boundaries.Parts (root : Element) (leaves : List Path) (boundaries : Boundaries) :
    Prop where
  leaves_eq : boundaries.leaves = Ascending.numbered leaves
  keys : boundaries.entries.map Prod.fst = List.range' 1 (leaves.length + 1)
  fits : ∀ entry ∈ boundaries.entries, ∀ route ∈ entry.2.routes, route.Fits root
  free : ∀ entry ∈ boundaries.entries, ∀ route ∈ entry.2.routes, ∀ x ∈ route.paths,
    ∀ leaf ∈ leaves, ¬ x <+: leaf
  replays : ∃ b, boundaries.replay.run (.start root none) = .ok () b ∧ b.finish = root

variable {root : Element} {leaves : List Path} {line : Line} {boundaries : Boundaries}

theorem Xml.Element.HasLeaves.ordered (h : root.HasLeaves leaves) :
    leaves.Pairwise Path.Before := by
  apply h.ascending.imp_of_mem
  intro p q hp hq hLess
  rw [Path.before_iff_lt]
  refine ⟨hLess, fun hInside => ?_⟩
  rw [h.apart p hp q hq hInside] at hLess
  exact List.lt_irrefl q hLess

theorem Xml.Element.HasLeaves.places (h : root.HasLeaves leaves) :
    ∀ leaf ∈ leaves, leaf ≠ [] ∧ root.Reaches leaf :=
  fun leaf hLeaf => ⟨h.nonempty leaf hLeaf, h.reaches leaf hLeaf⟩

theorem Line.Lists.leavesOf_eq (h : Line.Lists line leaves) :
    Boundaries.leavesOf line = Ascending.numbered leaves := by
  rw [Boundaries.leavesOf_eq]
  apply Ascending.ofPlaces_eq_numbered
  · intro place hPlace
    obtain ⟨entry, hEntry, rfl⟩ := List.mem_map.1 hPlace
    exact h.found entry hEntry
  · intro i hi
    obtain ⟨entry, hEntry, hIndex⟩ := h.every i hi
    exact ⟨entry.1.place, List.mem_map_of_mem hEntry, hIndex⟩

namespace Boundaries

/-- Every boundary that is there is one between two leaves. -/
theorem Links.exists_get (hLinks : Links root leaves boundaries)
    (hKeys : boundaries.entries.map Prod.fst = List.range' 1 (leaves.length + 1))
    {entry : Nat × Boundary} (hEntry : entry ∈ boundaries.entries) (h : root.HasLeaves leaves) :
    ∃ i ≤ leaves.length, entry.2.Spans root (precursor none leaves i) leaves[i]? ∧
      entry.2.Selects root (precursor none leaves i) leaves[i]? := by
  have hSorted : boundaries.entries.Pairwise fun x y => x.1 < y.1 := by
    rw [← List.pairwise_map, hKeys]
    exact List.pairwise_lt_range'
  have hKey : entry.1 ∈ List.range' 1 (leaves.length + 1) := hKeys ▸ List.mem_map_of_mem hEntry
  obtain ⟨hPos, hLast⟩ := List.mem_range'_1.1 hKey
  obtain ⟨i, hi⟩ := Nat.exists_eq_add_of_le' hPos
  have hCount : i ≤ leaves.length := by omega
  obtain ⟨boundary, hGet, hSpans, hSelects⟩ := hLinks.get_spans h.ordered h.places hCount
  have hFound : boundaries.entries.lookup (i + 1) = some entry.2 := by
    rw [← hi]
    exact (Ascending.mem_iff_lookup hSorted).1 hEntry
  rw [Boundaries.get, hFound] at hGet
  obtain rfl := Except.ok.inj hGet
  exact ⟨i, hCount, hSpans, hSelects⟩

theorem Links.parts (hLinks : Links root leaves boundaries) (h : root.HasLeaves leaves)
    (hKeys : boundaries.entries.map Prod.fst = List.range' 1 (leaves.length + 1)) :
    boundaries.Parts root leaves := by
  refine ⟨hLinks.leaves_eq, hKeys, ?_, ?_, hLinks.replay_leads h.ordered h.places⟩
  · intro entry hEntry route hRoute
    obtain ⟨i, -, hSpans, -⟩ := hLinks.exists_get hKeys hEntry h
    exact hSpans.fits_of_mem (fun p hp => h.reaches p (mem_precursor hp))
      (fun q hq => h.reaches q (List.mem_of_getElem? hq)) hRoute
  · intro entry hEntry route hRoute x hx
    obtain ⟨i, hi, -, hSelects⟩ := hLinks.exists_get hKeys hEntry h
    have hBetween : x ∈ Path.between root (precursor none leaves i) leaves[i]? := by
      rw [Path.between, ← hSelects.ending, ← hSelects.entering, ← List.flatMap_append]
      exact List.mem_flatMap.2 ⟨route, hRoute, hx⟩
    have hStands := (Path.mem_between (fun p hp => h.places p (mem_precursor hp))
      (fun q hq => h.places q (List.mem_of_getElem? hq))
      (fun p hp q hq => before_of_mem_precursor h.ordered hp hq)).1 hBetween
    refine Path.free_of_between h.ordered hi ?_ hStands.before
    rintro j rfl p hp
    exact hStands.behind p hp

/-- The boundaries of listed leaves exist and part the tree. -/
theorem exists_parts (h : root.HasLeaves leaves) (hLine : Line.Lists line leaves) :
    ∃ boundaries, ofLine root line = .ok boundaries ∧ boundaries.Parts root leaves := by
  obtain ⟨boundaries, hOk, hLinks⟩ := exists_links h.ordered h.places hLine.leavesOf_eq
  exact ⟨boundaries, hOk, hLinks.parts h (map_fst_ofLine hLine.leavesOf_eq hOk)⟩

end Boundaries

/-- The leaves of a flattened document are listed by its line. -/
theorem Layout.hasLeaves (layout : Layout) : layout.root.HasLeaves layout.leaves where
  nonempty := fun _ => leaf_nonempty
  reaches := fun _ => leaf_reaches
  ascending := layout.ordered.imp fun hBefore => ((Path.before_iff_lt _ _).1 hBefore).1
  apart := fun _ hp _ => eq_of_inside hp

theorem Layout.lists_ofLine {format : Format} {content : Content}
    (h : flatten format root = .ok (content, line)) : Line.Lists line (ofLine h).leaves := by
  constructor
  · intro entry hEntry
    obtain ⟨hPos, hCount, hPath⟩ := mem_ofLine h hEntry
    obtain ⟨i, hi⟩ := Nat.exists_eq_add_of_le' hPos
    refine ⟨i, hi, ?_⟩
    have hLeaf := leaf?_eq_path hPos hCount
    rw [hPath, hi] at hLeaf
    exact hLeaf
  · intro i hi
    exact exists_mem_ofLine h (Nat.succ_pos i) hi

/-- The boundaries of leaves in document order, of which none contains another,
part the tree: there is one in front of each leaf and one behind the last, their
routes stay in the tree and select no leaf and nothing with a leaf in it, and
what they select and the leaves, copied in turn, make up the tree. The leaves of
a flattened document are such leaves, so it always has boundaries. -/
theorem boundaries_partition (root : Element) :
    (∀ leaves line, root.HasLeaves leaves → Line.Lists line leaves →
      ∃ boundaries, Boundaries.ofLine root line = .ok boundaries ∧
        boundaries.Parts root leaves) ∧
    ∀ format content line, flatten format root = .ok (content, line) →
      ∃ leaves, root.HasLeaves leaves ∧ Line.Lists line leaves ∧
        ∃ boundaries, Boundaries.ofLine root line = .ok boundaries ∧
          boundaries.Parts root leaves := by
  constructor
  · intro leaves line h hLine
    exact Boundaries.exists_parts h hLine
  · intro format content line h
    have hLeaves : root.HasLeaves (Layout.ofLine h).leaves := (Layout.ofLine h).hasLeaves
    have hLine := Layout.lists_ofLine h
    exact ⟨_, hLeaves, hLine, Boundaries.exists_parts hLeaves hLine⟩

/-- A line with the text of the letter and what lies behind its paragraph. -/
def Docx.letterEnds : Line :=
  [(⟨[0, 1, 0], true, 5, 0, 5, 1⟩, "Dear "), (⟨[1], true, 0, 0, 0, 2⟩, "")]

theorem boundaries_partition_letter :
    Docx.letter.HasLeaves [[0, 1, 0], [1]] ∧ Line.Lists Docx.letterEnds [[0, 1, 0], [1]] ∧
      flatten .docx Docx.letter = .ok (.template, Docx.letterLine) ∧
      (∃ boundaries, Boundaries.ofLine Docx.letter Docx.letterEnds = .ok boundaries ∧
        boundaries.Parts Docx.letter [[0, 1, 0], [1]]) ∧
      ∃ leaves, Docx.letter.HasLeaves leaves ∧ Line.Lists Docx.letterLine leaves ∧
        ∃ boundaries, Boundaries.ofLine Docx.letter Docx.letterLine = .ok boundaries ∧
          boundaries.Parts Docx.letter leaves := by
  have hLeaves : Docx.letter.HasLeaves [[0, 1, 0], [1]] :=
    ⟨by decide, by decide, by decide, by decide⟩
  have hLine : Line.Lists Docx.letterEnds [[0, 1, 0], [1]] := by
    constructor
    · simp [Docx.letterEnds]
    · decide
  exact ⟨hLeaves, hLine, Docx.flatten_letter,
    (boundaries_partition Docx.letter).1 _ _ hLeaves hLine,
    (boundaries_partition Docx.letter).2 _ _ _ Docx.flatten_letter⟩

end Infill
