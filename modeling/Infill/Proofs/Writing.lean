import Infill.Proofs.Layout
import Infill.Proofs.Sinks

/-!
What a format puts in the place of a leaf. The builder writes a leaf right
after it copied it, as the last child of its parent's copy, so only what stands
in front of it can matter.
-/
namespace Infill

open Infill.Xml

namespace Format

/-- The elements that take the place of a leaf, behind `front` among the
children of its parent, when it is given the text of the chunks. -/
def written (format : Format) (parent : Element) (front : List Element) (leaf : Element)
    (chunks : List String) : List Element :=
  match format.write { parent with children := front ++ [leaf] } front.length chunks with
  | .ok result => result.children.drop front.length
  | .error _ => [leaf]

variable {format : Format} {parent leaf : Element} {front : List Element} {chunks : List String}

private theorem child_last :
    Element.child { parent with children := front ++ [leaf] } front.length = .ok leaf := by
  simp [Element.child]

/-- A write of the last child keeps what stands in front of it. -/
private theorem write_last
    (hLeaf : format.isSolid leaf.tag = true ∨ format.isPiece leaf.tag = true) :
    ∃ elements, format.write { parent with children := front ++ [leaf] } front.length chunks =
      .ok { parent with children := front ++ elements } := by
  cases format with
  | docx =>
    rw [write, child_last]
    simp only [isSolid, isPiece, beq_iff_eq, Bool.or_eq_true] at hLeaf
    simp only [Docx.write?_eq, Docx.rewritten?, List.getElem?_concat_length, ok_bind]
    by_cases hArt : leaf.tag = Docx.textPath
    · rw [if_pos hArt]
      exact ⟨[_], by simp; rfl⟩
    · rw [if_neg hArt, if_pos (hLeaf.resolve_left hArt)]
      exact ⟨_, by simp; rfl⟩
  | odt =>
    rw [write, child_last]
    simp only [isSolid, isPiece, Bool.false_eq_true, or_false] at hLeaf
    simp only [ok_bind, if_pos hLeaf]
    exact ⟨[_], by simp; rfl⟩

/-- Writing the last child puts the written elements in its place. -/
theorem write_eq_written
    (hLeaf : format.isSolid leaf.tag = true ∨ format.isPiece leaf.tag = true) :
    format.write { parent with children := front ++ [leaf] } front.length chunks =
      .ok { parent with children := front ++ format.written parent front leaf chunks } := by
  obtain ⟨elements, hWrite⟩ := @write_last format parent leaf front chunks hLeaf
  rw [written, hWrite]
  simp

/-- An element that holds its text by itself is written alike behind everything. -/
theorem written_of_isSolid (hLeaf : format.isSolid leaf.tag = true) (parent : Element)
    (chunks : List String) :
    ∃ e, ∀ front, format.written parent front leaf chunks = [e] := by
  cases format with
  | docx =>
    obtain hArt : leaf.tag = Docx.textPath := by simpa [isSolid] using hLeaf
    refine ⟨leaf.set "string" "string" (String.ofList (chunks.map String.toList).flatten), ?_⟩
    intro front
    rw [written, write, child_last]
    simp only [Docx.write?_eq, Docx.rewritten?, List.getElem?_concat_length, ok_bind, if_pos hArt]
    simp
  | odt =>
    refine ⟨Odt.refill leaf chunks, fun front => ?_⟩
    rw [written, write, child_last]
    simp only [ok_bind, if_pos (show (odt.atomDepth? leaf.tag).isSome = true from hLeaf)]
    simp

/-- An element that holds its text by itself keeps its name. -/
theorem tag_of_mem_written (hLeaf : format.isSolid leaf.tag = true) {e : Element}
    (he : e ∈ format.written parent front leaf chunks) : e.tag = leaf.tag := by
  cases format with
  | docx =>
    obtain hArt : leaf.tag = Docx.textPath := by simpa [isSolid] using hLeaf
    have hSet : ∀ value, (leaf.set "string" "string" value).tag = leaf.tag := by
      intro value
      rw [Element.set]
      split
      · rfl
      · rfl
    rw [written, write, child_last] at he
    simp only [Docx.write?_eq, Docx.rewritten?, List.getElem?_concat_length, ok_bind, if_pos hArt] at he
    obtain rfl : e = _ := by simpa using he
    exact hSet _
  | odt =>
    rw [written, write, child_last] at he
    simp only [ok_bind, if_pos (show (odt.atomDepth? leaf.tag).isSome = true from hLeaf)] at he
    obtain rfl : e = Odt.refill leaf chunks := by simpa using he
    rfl

theorem pieces_ne_nil {content : List Char} (h : content ≠ []) : Docx.pieces content ≠ [] := by
  cases content with
  | nil => exact absurd rfl h
  | cons c content =>
    rw [Docx.pieces]
    split
    · simp
    · cases hRest : Docx.pieces content with
      | nil => simp [Docx.consText]
      | cons piece rest => cases piece <;> simp [Docx.consText]

/-- A text that is not empty leaves something behind. -/
theorem written_ne_nil
    (hLeaf : format.isSolid leaf.tag = true ∨ format.isPiece leaf.tag = true)
    (hChunks : ∃ chunk ∈ chunks, chunk.isEmpty = false) :
    format.written parent front leaf chunks ≠ [] := by
  by_cases hSolid : format.isSolid leaf.tag = true
  · obtain ⟨e, he⟩ := written_of_isSolid hSolid parent chunks
    simp [he]
  · have hPiece := hLeaf.resolve_left hSolid
    cases format with
    | odt => simp [isPiece] at hPiece
    | docx =>
      have hContent : (chunks.map String.toList).flatten ≠ [] := by
        obtain ⟨chunk, hChunk, hSome⟩ := hChunks
        intro hNone
        have hEmpty : chunk.toList = [] :=
          List.flatten_eq_nil_iff.1 hNone _ (List.mem_map_of_mem hChunk)
        rw [String.toList_eq_nil_iff.1 hEmpty] at hSome
        cases hSome
      have hArt : leaf.tag ≠ Docx.textPath := by simpa [isSolid] using hSolid
      rw [written, write, child_last]
      have hKind : Docx.isText leaf.tag = true ∨ (Docx.glyph? leaf.tag).isSome = true := by
        simpa [isPiece] using hPiece
      simp only [Docx.write?_eq, Docx.rewritten?, List.getElem?_concat_length, ok_bind, if_neg hArt,
        if_pos hKind]
      have hReplaced : ∀ run node,
          Docx.replacement run node leaf (chunks.map String.toList).flatten ≠ [] := by
        intro run node
        rw [Docx.replacement]
        split
        · rw [Docx.refill.eq_def]
          split <;> simp
        · simp [pieces_ne_nil hContent]
      simp [hReplaced]

end Format

end Infill
