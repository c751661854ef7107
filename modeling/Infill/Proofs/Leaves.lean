import Infill.Flatten
import Infill.Proofs.Layout

/-!
The leaves that a document is searched for stand in document order, and each of
them is a place that holds text. The search goes through the children of an
element from left to right, so its answer is spread over them.
-/
namespace Infill

open Infill.Xml

open Infill.Path (Before Spread)

namespace Docx

mutual

theorem artIn_sorted (path : Path) : (e : Element) →
    ((artIn path e).map Prod.fst).Pairwise Before ∧
      ∀ x ∈ (artIn path e).map Prod.fst, path <+: x
  | ⟨name, tag, attributes, text, tail, children⟩ => by
    rw [artIn]
    split
    · simp
    · have hSpread := artInList_spread path 0 children
      exact ⟨hSpread.sorted, hSpread.below⟩

theorem artInList_spread (path : Path) (index : Nat) : (elements : List Element) →
    Spread path index ((artInList path index elements).map Prod.fst)
  | [] => Spread.nil path index
  | e :: rest => by
    rw [artInList, List.map_append]
    obtain ⟨hSorted, hInside⟩ := artIn_sorted (path ++ [index]) e
    exact Spread.append hSorted hInside (artInList_spread path (index + 1) rest)

end

theorem childTexts_sorted (child : Element) (index : Nat) :
    ((childTexts child index).map Prod.fst).Pairwise Before ∧
      ∀ x ∈ (childTexts child index).map Prod.fst, [index] <+: x := by
  rw [childTexts]
  split
  · simp
  · split
    · simp
    · exact artIn_sorted [index] child

theorem runTexts_spread (children : List Element) (index : Nat) :
    Spread [] index
      (((children.zipIdx index).map fun (child, index) => childTexts child index).flatten.map
        Prod.fst) := by
  induction children generalizing index with
  | nil => exact Spread.nil [] index
  | cons child children ih =>
    rw [List.zipIdx_cons, List.map_cons, List.flatten_cons, List.map_append]
    obtain ⟨hSorted, hInside⟩ := childTexts_sorted child index
    exact Spread.append hSorted (by simpa using hInside) (ih (index + 1))

mutual

/-- Word art that was found in a part of an element is an element of its own. -/
theorem tag_of_mem_artIn {top : Element} {found : Path × String} {path : Path} : (e : Element) →
    top.descendant? path = some e → found ∈ artIn path e →
      ∃ inner, top.descendant? found.1 = some inner ∧ inner.tag = textPath
  | ⟨name, tag, attributes, text, tail, children⟩, hPath, h => by
    rw [artIn] at h
    split at h
    · obtain rfl := List.mem_singleton.1 h
      exact ⟨_, hPath, ‹_›⟩
    · refine tag_of_mem_artInList children (fun k e hChild => ?_) h
      rw [Element.descendant?_append, hPath]
      simpa [Element.descendant?] using hChild

theorem tag_of_mem_artInList {top : Element} {found : Path × String} {path : Path} {index : Nat} :
    (elements : List Element) →
    (∀ k e, elements[k]? = some e → top.descendant? (path ++ [index + k]) = some e) →
    found ∈ artInList path index elements →
      ∃ inner, top.descendant? found.1 = some inner ∧ inner.tag = textPath
  | [], _, h => by simp [artInList] at h
  | e :: rest, hPath, h => by
    rcases List.mem_append.1 h with h | h
    · exact tag_of_mem_artIn e (hPath 0 e rfl) h
    · refine tag_of_mem_artInList rest (fun k child hChild => ?_) h
      have := hPath (k + 1) child (by simpa using hChild)
      rwa [Nat.add_assoc, Nat.add_comm 1 k]

end

end Docx

namespace Format

variable {format : Format} {root : Element}

theorem texts_sorted (format : Format) (e : Element) :
    ((format.texts e).map Prod.fst).Pairwise Before := by
  cases format with
  | odt => exact List.pairwise_singleton _ _
  | docx =>
    rw [texts, Docx.texts]
    split
    · exact List.pairwise_singleton _ _
    · exact (Docx.runTexts_spread e.children 0).sorted

/-- The text of an element that carries text lies in the element itself or in
word art, or in pieces that are its children. -/
theorem place_of_mem_texts {e : Element} {found : Path × String}
    (hCarrier : (format.atomDepth? e.tag).isSome = true) (h : found ∈ format.texts e) :
    ∃ inner, e.descendant? found.1 = some inner ∧
      (format.isSolid inner.tag = true ∨
        format.isPiece inner.tag = true ∧ ∃ index, found.1 = [index]) := by
  cases format with
  | odt =>
    obtain rfl := List.mem_singleton.1 h
    exact ⟨e, rfl, .inl hCarrier⟩
  | docx =>
    rw [texts, Docx.texts] at h
    split at h
    · obtain rfl := List.mem_singleton.1 h
      exact ⟨e, rfl, .inl (by simpa [isSolid] using ‹_›)⟩
    · simp only [List.mem_flatten, List.mem_map, Prod.exists] at h
      obtain ⟨_, ⟨child, index, hMem, rfl⟩, hFound⟩ := h
      have hChild : e.children[index]? = some child := List.mem_zipIdx_iff_getElem?.1 hMem
      have hReach : e.descendant? [index] = some child := by
        simpa [Element.descendant?] using hChild
      rw [Docx.childTexts] at hFound
      split at hFound
      · obtain rfl := List.mem_singleton.1 hFound
        exact ⟨child, hReach, .inr ⟨by simp [isPiece, *], index, rfl⟩⟩
      · split at hFound
        · obtain rfl := List.mem_singleton.1 hFound
          exact ⟨child, hReach, .inr ⟨by simp [isPiece, *], index, rfl⟩⟩
        · obtain ⟨inner, hInner, hTag⟩ := Docx.tag_of_mem_artIn child hReach hFound
          exact ⟨inner, hInner, .inl (by simp [isSolid, hTag])⟩

theorem leavesOf_paths (format : Format) (path : Path) (depth : Int) (e : Element) :
    (format.leavesOf path depth e).map Leaf.path =
      ((format.texts e).map Prod.fst).map (path ++ ·) := by
  simp [leavesOf, Function.comp_def]

mutual

theorem leavesIn_sorted (format : Format) (path : Path) : (e : Element) →
    ((format.leavesIn path e).map Leaf.path).Pairwise Before ∧
      ∀ x ∈ (format.leavesIn path e).map Leaf.path, path <+: x
  | ⟨name, tag, attributes, text, tail, children⟩ => by
    rw [leavesIn]
    split
    · rw [leavesOf_paths]
      constructor
      · rw [List.pairwise_map]
        exact (texts_sorted format _).imp fun hBefore => (Path.before_append_left path _ _).2 hBefore
      · intro x hx
        obtain ⟨y, -, rfl⟩ := List.mem_map.1 hx
        exact List.prefix_append path y
    · have hSpread := leavesInList_spread format path 0 children
      exact ⟨hSpread.sorted, hSpread.below⟩

theorem leavesInList_spread (format : Format) (path : Path) (index : Nat) :
    (elements : List Element) →
    Spread path index ((format.leavesInList path index elements).map Leaf.path)
  | [] => Spread.nil path index
  | e :: rest => by
    rw [leavesInList, List.map_append]
    obtain ⟨hSorted, hInside⟩ := leavesIn_sorted format (path ++ [index]) e
    exact Spread.append hSorted hInside (leavesInList_spread format path (index + 1) rest)

end

/-- Leaves are found in document order. -/
theorem leaves_sorted (format : Format) (root : Element) :
    ((format.leaves root).map Leaf.path).Pairwise Before :=
  (leavesInList_spread format [] 0 root.children).sorted

mutual

theorem holdsText_of_mem_leavesIn {path : Path} {leaf : Leaf} : (e : Element) → path ≠ [] →
    root.descendant? path = some e → leaf ∈ format.leavesIn path e →
      format.HoldsText root leaf.path
  | ⟨name, tag, attributes, text, tail, children⟩, hPath, hReach, h => by
    rw [leavesIn] at h
    split at h
    · rename_i depth hDepth
      obtain ⟨⟨subpath, text⟩, hFound, rfl⟩ := List.mem_map.1 h
      obtain ⟨inner, hInner, hKind⟩ := place_of_mem_texts (by simp [hDepth]) hFound
      have hLeaf : root.descendant? (path ++ subpath) = some inner := by
        rw [Element.descendant?_append, hReach]
        exact hInner
      refine ⟨by simp [hPath], by simp [Element.Reaches, hLeaf], ?_⟩
      rw [Element.descendant, hLeaf, Option.getD_some]
      rcases hKind with hSolid | ⟨hPiece, index, hIndex⟩
      · exact .inl hSolid
      · refine .inr ⟨hPiece, ?_⟩
        obtain rfl : subpath = [index] := hIndex
        rw [List.dropLast_concat]
        exact ⟨hPath, by simp [isCarrier, Element.descendant, hReach, hDepth]⟩
    · refine holdsText_of_mem_leavesInList children (fun k e hChild => ⟨by simp, ?_⟩) h
      rw [Element.descendant?_append, hReach]
      simpa [Element.descendant?] using hChild

theorem holdsText_of_mem_leavesInList {path : Path} {index : Nat} {leaf : Leaf} :
    (elements : List Element) →
    (∀ k e, elements[k]? = some e → path ++ [index + k] ≠ [] ∧
      root.descendant? (path ++ [index + k]) = some e) →
    leaf ∈ format.leavesInList path index elements → format.HoldsText root leaf.path
  | [], _, h => by simp [leavesInList] at h
  | e :: rest, hPath, h => by
    rcases List.mem_append.1 h with h | h
    · exact holdsText_of_mem_leavesIn e (hPath 0 e rfl).1 (hPath 0 e rfl).2 h
    · refine holdsText_of_mem_leavesInList rest (fun k child hChild => ?_) h
      have := hPath (k + 1) child (by simpa using hChild)
      rwa [Nat.add_assoc, Nat.add_comm 1 k]

end

/-- Every leaf that is found holds text. -/
theorem holdsText_of_mem_leaves {leaf : Leaf} (h : leaf ∈ format.leaves root) :
    format.HoldsText root leaf.path := by
  refine holdsText_of_mem_leavesInList root.children (fun k e hChild => ⟨by simp, ?_⟩) h
  simpa [Element.descendant?] using hChild

/-! ### Paragraphs -/

mutual

/-- No paragraph is found in another one. -/
theorem outermost_of_mem_leavesIn {path above : Path} {leaf : Leaf} : (e : Element) →
    root.descendant? path = some e →
    (∀ above, above <+: path → above ≠ [] → above ≠ path → isCarrier odt root above = false) →
    leaf ∈ odt.leavesIn path e → above <+: leaf.path → above ≠ [] → above ≠ leaf.path →
      isCarrier odt root above = false
  | ⟨name, tag, attributes, text, tail, children⟩, hReach, hOutside, h => by
    rw [leavesIn] at h
    split at h
    · obtain ⟨⟨subpath, content⟩, hFound, rfl⟩ := List.mem_map.1 h
      obtain rfl : subpath = [] := congrArg Prod.fst (List.mem_singleton.1 hFound)
      dsimp only
      rw [List.append_nil]
      exact hOutside above
    · rename_i hNone
      refine outermost_of_mem_leavesInList children (fun k e hChild => ?_) ?_ h
      · rw [Element.descendant?_append, hReach]
        simpa [Element.descendant?] using hChild
      · intro above hAbove hSome
        by_cases hHere : above = path
        · subst hHere
          simp [isCarrier, Element.descendant, hReach, hNone]
        · exact hOutside above hAbove hSome hHere

theorem outermost_of_mem_leavesInList {path above : Path} {index : Nat} {leaf : Leaf} :
    (elements : List Element) →
    (∀ k e, elements[k]? = some e → root.descendant? (path ++ [index + k]) = some e) →
    (∀ above, above <+: path → above ≠ [] → isCarrier odt root above = false) →
    leaf ∈ odt.leavesInList path index elements →
      above <+: leaf.path → above ≠ [] → above ≠ leaf.path → isCarrier odt root above = false
  | [], _, _, h => by simp [leavesInList] at h
  | e :: rest, hPath, hOutside, h => by
    rcases List.mem_append.1 h with h | h
    · refine outermost_of_mem_leavesIn e (hPath 0 e rfl) ?_ h
      intro above hAbove hSome hOther
      exact hOutside above ((List.prefix_concat_iff.1 hAbove).resolve_left hOther) hSome
    · refine outermost_of_mem_leavesInList rest (fun k child hChild => ?_) hOutside h
      have := hPath (k + 1) child (by simpa using hChild)
      rwa [Nat.add_assoc, Nat.add_comm 1 k]

end

/-- No element around a paragraph that is found carries text. -/
theorem outermost_of_mem_leaves {above : Path} {leaf : Leaf} (h : leaf ∈ odt.leaves root)
    (hAbove : above <+: leaf.path) (hSome : above ≠ []) (hOther : above ≠ leaf.path) :
    isCarrier odt root above = false := by
  refine outermost_of_mem_leavesInList root.children (fun k e hChild => ?_) ?_ h hAbove hSome hOther
  · simpa [Element.descendant?] using hChild
  · intro above hAbove hSome
    exact absurd (List.prefix_nil.1 hAbove) hSome

end Format

end Infill
