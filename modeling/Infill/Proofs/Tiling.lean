import Infill.Proofs.Sorting
import Mathlib.Data.List.Chain

/-!
The spans of everything that was fed to a lexer tile the texts of the leaves:
they name the bytes of each leaf once and in order. A slice may cut a span in
two, and two slices that meet share nothing, as long as no points stand at the
end of the text; there both slices would take them.
-/
namespace Infill

/-- The texts of leaves, one behind the other. -/
def Leaf.texts (leaves : List Leaf) : List Char :=
  leaves.flatMap fun leaf => leaf.text.toList

theorem Leaf.texts_append (front back : List Leaf) :
    texts (front ++ back) = texts front ++ texts back :=
  List.flatMap_append

theorem Leaf.texts_singleton (leaf : Leaf) : texts [leaf] = leaf.text.toList :=
  List.flatMap_singleton _ _

/-- A part of the text of a leaf. It is constant if it is the whole text. -/
def Leaf.part (leaf : Leaf) (offset length : Nat) : Span :=
  ⟨leaf.path, leaf.atom, Text.size leaf.text, offset, length,
    offset == 0 && length == Text.size leaf.text⟩

@[simp] theorem Leaf.path_part (leaf : Leaf) (offset length : Nat) :
    (leaf.part offset length).path = leaf.path := rfl

@[simp] theorem Leaf.length_part (leaf : Leaf) (offset length : Nat) :
    (leaf.part offset length).length = length := rfl

theorem Leaf.narrow_part (leaf : Leaf) (offset length skip kept : Nat) :
    (leaf.part offset length).narrow skip kept = leaf.part (offset + skip) kept :=
  rfl

theorem Span.narrow_narrow (span : Span) (skip length more kept : Nat) :
    (span.narrow skip length).narrow more kept = span.narrow (skip + more) kept := by
  rw [narrow, narrow, narrow, Nat.add_assoc]

namespace Tagged

/-! ### Slices that meet -/

/-- Spans that arise from others when some are cut in two. -/
inductive Refines : (fine coarse : List Span) → Prop
  | nil : Refines [] []
  | same {span : Span} {fine coarse : List Span} (h : Refines fine coarse) :
      Refines (span :: fine) (span :: coarse)
  | cut {span : Span} {fine coarse : List Span} {first : Nat} (hPos : 0 < first)
      (hLess : first < span.length)
      (h : Refines fine (span.narrow first (span.length - first) :: coarse)) :
      Refines (span.narrow 0 first :: fine) (span :: coarse)

variable {start middle stop size cursor : Nat} {span : Span} {spans : List Span}

theorem Refines.refl (spans : List Span) : Refines spans spans := by
  induction spans with
  | nil => exact .nil
  | cons span spans ih => exact .same ih

theorem Refines.append {fine coarse more others : List Span} (h : Refines fine coarse)
    (hMore : Refines more others) : Refines (fine ++ more) (coarse ++ others) := by
  induction h with
  | nil => exact hMore
  | same h ih => exact .same ih
  | cut hPos hLess h ih => exact .cut hPos hLess ih

theorem keep_eq_nil (hSize : cursor + covered spans = size) (hEnd : ¬ EndsInPoint spans)
    (hStop : stop ≤ cursor) : keep start stop size cursor spans = [] := by
  refine List.eq_nil_iff_forall_not_mem.2 fun kept hKept => ?_
  have := cursor_lt_of_mem_keep hSize hEnd hKept
  omega

/-- The bytes of a span between two places, where the span begins at `cursor`. -/
def between (cursor low high : Nat) (span : Span) : Span :=
  if low = cursor ∧ high = cursor + span.length then span
  else span.narrow (low - cursor) (high - low)

theorem keep?_of_not_point (hPoint : ¬ span.isPoint = true) :
    keep? start stop size cursor span =
      if min (cursor + span.length) stop ≤ max cursor start then none
      else some (between cursor (max cursor start) (min (cursor + span.length) stop) span) := by
  rw [keep?, if_neg hPoint, between, apply_ite some]

theorem between_split {low high : Nat} (hCursor : cursor ≤ low) (hLow : low < middle)
    (hHigh : middle < high) (hReach : high ≤ cursor + span.length) :
    Refines [between cursor low middle span, between cursor middle high span]
      [between cursor low high span] := by
  rw [between, if_neg (by omega), between, if_neg (by omega), between]
  split
  · rename_i hWhole
    obtain ⟨rfl, rfl⟩ := hWhole
    rw [Nat.sub_self, show low + span.length - middle = span.length - (middle - low) by omega]
    exact .cut (by omega) (by omega) (.refl _)
  · have hLength : (span.narrow (low - cursor) (high - low)).length = high - low := rfl
    have hFirst : span.narrow (low - cursor) (middle - low) =
        (span.narrow (low - cursor) (high - low)).narrow 0 (middle - low) := by
      rw [Span.narrow_narrow, Nat.add_zero]
    have hSecond : span.narrow (middle - cursor) (high - middle) =
        (span.narrow (low - cursor) (high - low)).narrow (middle - low)
          (high - low - (middle - low)) := by
      rw [Span.narrow_narrow]
      congr 1 <;> omega
    rw [hFirst, hSecond]
    exact .cut (by omega) (by omega) (.refl _)

/-- What two slices that meet keep of a span that reaches the place where they
meet. -/
theorem keep?_split (hStart : start ≤ middle) (hStop : middle ≤ stop) (hSize : cursor < size)
    (hReach : middle ≤ cursor + span.length) :
    Refines
      ((keep? start middle size cursor span).toList ++ (keep? middle stop size cursor span).toList)
      (keep? start stop size cursor span).toList := by
  by_cases hPoint : span.isPoint = true
  · have hLength : span.length = 0 := by simpa [Span.isPoint] using hPoint
    have hLeft : keep? start middle size cursor span = none := by
      rw [keep?, if_pos hPoint, if_neg (by omega)]
    have hSame : keep? middle stop size cursor span = keep? start stop size cursor span := by
      rw [keep?, keep?, if_pos hPoint, if_pos hPoint]
      exact if_congr (by omega) rfl rfl
    rw [hLeft, hSame]
    exact .refl _
  · have hPos : 0 < span.length := by
      refine Nat.pos_of_ne_zero fun hZero => hPoint ?_
      rw [Span.isPoint, hZero]
      rfl
    rw [keep?_of_not_point hPoint, keep?_of_not_point hPoint, keep?_of_not_point hPoint]
    by_cases hLow : middle ≤ max cursor start
    · have hSame : max cursor middle = max cursor start := by omega
      rw [if_pos (by omega), hSame]
      exact .refl _
    · by_cases hHigh : min (cursor + span.length) stop ≤ middle
      · have hSame : min (cursor + span.length) middle = min (cursor + span.length) stop := by omega
        rw [hSame, @if_pos (_ ≤ max cursor middle) _ (by omega), Option.toList_none,
          List.append_nil]
        exact .refl _
      · have hLeft : min (cursor + span.length) middle = middle := by omega
        have hRight : max cursor middle = middle := by omega
        rw [hLeft, hRight, if_neg hLow, if_neg hHigh, if_neg (by omega)]
        exact between_split (by omega) (by omega) (by omega) (by omega)

/-- Two slices that meet keep what the slice of both keeps, if they do so of all
spans but the first. -/
theorem keep_split_cons (hStart : start ≤ middle) (hStop : middle ≤ stop) (hSize : cursor < size)
    (hBehind : middle ≤ cursor + span.length →
      keep start middle size (cursor + span.length) spans = [])
    (hRest : Refines
      (keep start middle size (cursor + span.length) spans ++
        keep middle stop size (cursor + span.length) spans)
      (keep start stop size (cursor + span.length) spans)) :
    Refines
      (keep start middle size cursor (span :: spans) ++ keep middle stop size cursor (span :: spans))
      (keep start stop size cursor (span :: spans)) := by
  rw [keep, keep, keep]
  by_cases hReach : middle ≤ cursor + span.length
  · rw [hBehind hReach, List.nil_append] at hRest
    rw [hBehind hReach, List.append_nil, ← List.append_assoc]
    exact (keep?_split hStart hStop hSize hReach).append hRest
  · have hNone : keep? middle stop size cursor span = none := by
      refine Option.eq_none_iff_forall_not_mem.2 fun kept hKept => ?_
      have := (bounds_of_keep? (by omega) hKept).2
      omega
    have hSame : keep? start middle size cursor span = keep? start stop size cursor span := by
      rw [keep?, keep?]
      split
      · exact if_congr (by omega) rfl rfl
      · rw [show min (cursor + span.length) middle = min (cursor + span.length) stop by omega]
    rw [hNone, hSame, Option.toList_none, List.nil_append, List.append_assoc]
    exact (Refines.refl _).append hRest

/-- Two slices that meet keep what the slice of both keeps. -/
theorem keep_split (hStart : start ≤ middle) (hStop : middle ≤ stop)
    (hSize : cursor + covered spans = size) (hEnd : ¬ EndsInPoint spans) :
    Refines (keep start middle size cursor spans ++ keep middle stop size cursor spans)
      (keep start stop size cursor spans) := by
  induction spans generalizing cursor with
  | nil => exact .nil
  | cons span spans ih =>
    have hTail := not_endsInPoint_tail hEnd
    have hPos := covered_pos hEnd
    have hRest : cursor + span.length + covered spans = size := by
      rw [covered_cons] at hSize
      omega
    exact keep_split_cons hStart hStop (by omega) (keep_eq_nil hRest hTail) (ih hRest hTail)

/-- The slice of everything keeps everything. -/
theorem keep_all (hStart : start ≤ cursor) (hSize : cursor + covered spans = size) :
    keep start size size cursor spans = spans := by
  induction spans generalizing cursor with
  | nil => rfl
  | cons span spans ih =>
    rw [covered_cons] at hSize
    rw [keep, ih (by omega) (by omega)]
    by_cases hPoint : span.isPoint = true
    · rw [keep?, if_pos hPoint, if_pos (by omega)]
      rfl
    · have hLow : max cursor start = cursor := by omega
      have hHigh : min (cursor + span.length) size = cursor + span.length := by omega
      have hPos : ¬ span.length = 0 := fun hZero => hPoint (by rw [Span.isPoint, hZero]; rfl)
      rw [keep?_of_not_point hPoint, hLow, hHigh, if_neg (by omega), between, if_pos ⟨rfl, rfl⟩]
      rfl

/-- A slice of a text that ends in no point ends in none. Behind a point in the
slice there is a character that the slice holds as well. -/
theorem not_endsInPoint_keep (hOrder : start < stop) (hStop : stop ≤ size)
    (hSize : cursor + covered spans = size) (hEnd : ¬ EndsInPoint spans) :
    ¬ EndsInPoint (keep start stop size cursor spans) := by
  induction spans generalizing cursor with
  | nil => exact hEnd
  | cons span spans ih =>
    have hRest : cursor + span.length + covered spans = size := by
      rw [covered_cons] at hSize
      omega
    have hPos := covered_pos hEnd
    rintro ⟨last, hLast, hPoint⟩
    have hCovered := @covered_keep start stop size (cursor + span.length) spans hStop hRest
    rw [keep] at hLast
    by_cases hNone : keep start stop size (cursor + span.length) spans = []
    · rw [hNone] at hLast hCovered
      change 0 = _ at hCovered
      rw [List.append_nil] at hLast
      have hKept : last ∈ keep? start stop size cursor span :=
        Option.mem_toList.1 (List.mem_of_getLast? hLast)
      by_cases hSpan : span.isPoint = true
      · have hLength : span.length = 0 := by simpa [Span.isPoint] using hSpan
        rw [keep?, if_pos hSpan] at hKept
        split at hKept
        · omega
        · cases hKept
      · rw [keep?_of_not_point hSpan] at hKept
        split at hKept
        · cases hKept
        · obtain rfl := Option.some.inj hKept
          rw [between] at hPoint
          split at hPoint
          · exact hSpan hPoint
          · simp only [Span.isPoint, Span.narrow, beq_iff_eq] at hPoint
            omega
    · refine ih hRest (not_endsInPoint_tail hEnd) ⟨last, ?_, hPoint⟩
      rwa [List.getLast?_append_of_ne_nil _ hNone] at hLast

end Tagged

/-! ### Leaves -/

/-- Whether spans name the bytes of leaves once and in order, those of the first
one from byte `offset` on. A leaf without bytes is named by a point. -/
inductive Tiles : List Leaf → (offset : Nat) → List Span → Prop
  | nil : Tiles [] 0 []
  | last {leaf : Leaf} {leaves : List Leaf} {offset length : Nat} {spans : List Span}
      (hStop : offset + length = Text.size leaf.text) (hPoint : length = 0 → offset = 0)
      (h : Tiles leaves 0 spans) : Tiles (leaf :: leaves) offset (leaf.part offset length :: spans)
  | more {leaf : Leaf} {leaves : List Leaf} {offset length : Nat} {spans : List Span}
      (hPos : 0 < length) (hStop : offset + length < Text.size leaf.text)
      (h : Tiles (leaf :: leaves) (offset + length) spans) :
      Tiles (leaf :: leaves) offset (leaf.part offset length :: spans)

namespace Tiles

open Tagged (Refines covered)

variable {leaf : Leaf} {leaves front back : List Leaf} {offset : Nat} {span : Span}
  {spans left right fine coarse : List Span}

theorem ofLeaf (leaf : Leaf) :
    Tiles [leaf] 0 (Tagged.ofLeaf leaf.text leaf.path leaf.atom).spans := by
  have hWhole : Span.whole leaf.path leaf.atom (Text.size leaf.text) =
      leaf.part 0 (Text.size leaf.text) := by
    simp [Span.whole, Leaf.part]
  rw [Tagged.ofLeaf, hWhole]
  exact .last (Nat.zero_add _) (fun _ => rfl) .nil

theorem append (h : Tiles front offset left) (hBack : Tiles back 0 right) :
    Tiles (front ++ back) offset (left ++ right) := by
  induction h with
  | nil => exact hBack
  | last hStop hPoint h ih => exact .last hStop hPoint ih
  | more hPos hStop h ih => exact .more hPos hStop ih

/-- Parts of a leaf may be cut. -/
theorem refine (h : Tiles leaves offset coarse) (hFine : Refines fine coarse) :
    Tiles leaves offset fine := by
  induction hFine generalizing leaves offset with
  | nil => exact h
  | same hFine ih =>
    cases h with
    | last hStop hPoint h => exact .last hStop hPoint (ih h)
    | more hPos hStop h => exact .more hPos hStop (ih h)
  | @cut span fine coarse first hPos hLess hFine ih =>
    cases h with
    | @last leaf leaves _ length _ hStop hPoint h =>
      rw [Leaf.narrow_part] at ih
      have hLength : first < length := hLess
      refine .more hPos (by omega) (ih (.last ?_ ?_ h))
      · change offset + first + (length - first) = _
        omega
      · change length - first = 0 → _
        omega
    | @more leaf leaves _ length _ hPos' hStop h =>
      rw [Leaf.narrow_part] at ih
      have hLength : first < length := hLess
      refine .more hPos (by omega) (ih (.more ?_ ?_ ?_))
      · change 0 < length - first
        omega
      · change offset + first + (length - first) < _
        omega
      · change Tiles _ (offset + first + (length - first)) _
        rwa [show offset + first + (length - first) = offset + length by omega]

/-- The spans of the first leaves stand in front of those of the others. -/
theorem split (h : Tiles leaves offset spans) (hLeaves : leaves = front ++ back)
    (hOffset : front = [] → offset = 0) :
    ∃ left right, spans = left ++ right ∧ Tiles front offset left ∧ Tiles back 0 right := by
  induction h generalizing front with
  | nil =>
    obtain ⟨rfl, rfl⟩ := List.append_eq_nil_iff.1 hLeaves.symm
    exact ⟨[], [], rfl, .nil, .nil⟩
  | last hStop hPoint h ih =>
    obtain _ | ⟨leaf, front⟩ := front
    · obtain rfl := hOffset rfl
      obtain rfl : _ = back := hLeaves
      exact ⟨[], _, rfl, .nil, .last hStop hPoint h⟩
    · obtain ⟨rfl, hRest⟩ := List.cons.inj hLeaves
      obtain ⟨left, right, rfl, hLeft, hRight⟩ := ih hRest fun _ => rfl
      exact ⟨_ :: left, right, rfl, .last hStop hPoint hLeft, hRight⟩
  | more hPos hStop h ih =>
    obtain _ | ⟨leaf, front⟩ := front
    · obtain rfl := hOffset rfl
      obtain rfl : _ = back := hLeaves
      exact ⟨[], _, rfl, .nil, .more hPos hStop h⟩
    · obtain ⟨rfl, hRest⟩ := List.cons.inj hLeaves
      obtain ⟨left, right, rfl, hLeft, hRight⟩ := @ih (_ :: front) hLeaves (by simp)
      exact ⟨_ :: left, right, rfl, .more hPos hStop hLeft, hRight⟩

/-- The bytes of leaves. -/
theorem covered_eq (h : Tiles leaves offset spans) :
    offset + covered spans = Text.byteLength (Leaf.texts leaves) := by
  induction h with
  | nil => rfl
  | last hStop hPoint h ih =>
    rw [Tagged.covered_cons, Leaf.texts, List.flatMap_cons, ← Leaf.texts, Text.byteLength_append,
      ← ih, ← Text.size, ← hStop, Nat.zero_add, Leaf.part, Nat.add_assoc]
  | more hPos hStop h ih =>
    rw [Tagged.covered_cons, ← ih, Leaf.part, Nat.add_assoc]

/-- Every span is a part of a leaf. -/
theorem mem (h : Tiles leaves offset spans) (hSpan : span ∈ spans) :
    ∃ leaf ∈ leaves, span.path = leaf.path ∧ span.total = Text.size leaf.text ∧
      span.offset + span.length ≤ Text.size leaf.text := by
  induction h with
  | nil => cases hSpan
  | @last leaf leaves offset length spans hStop hPoint h ih =>
    rcases List.mem_cons.1 hSpan with rfl | hSpan
    · exact ⟨leaf, List.mem_cons_self, rfl, rfl, hStop.le⟩
    · obtain ⟨other, hOther, hPart⟩ := ih hSpan
      exact ⟨other, List.mem_cons_of_mem leaf hOther, hPart⟩
  | @more leaf leaves offset length spans hPos hStop h ih =>
    rcases List.mem_cons.1 hSpan with rfl | hSpan
    · exact ⟨leaf, List.mem_cons_self, rfl, rfl, hStop.le⟩
    · exact ih hSpan

theorem nil_inv (h : Tiles [] offset spans) : offset = 0 ∧ spans = [] := by
  cases h with
  | nil => exact ⟨rfl, rfl⟩

/-- The first span either ends the first leaf or leaves a part of it. -/
theorem cons_inv (h : Tiles (leaf :: leaves) offset (span :: spans)) :
    span.offset = offset ∧
      (offset + span.length = Text.size leaf.text ∧ (span.length = 0 → offset = 0) ∧
          Tiles leaves 0 spans ∨
        0 < span.length ∧ offset + span.length < Text.size leaf.text ∧
          Tiles (leaf :: leaves) (offset + span.length) spans) := by
  cases h with
  | last hStop hPoint h => exact ⟨rfl, .inl ⟨hStop, hPoint, h⟩⟩
  | more hPos hStop h => exact ⟨rfl, .inr ⟨hPos, hStop, h⟩⟩

theorem ne_nil (h : Tiles (leaf :: leaves) offset spans) : spans ≠ [] := by
  cases h with
  | last => exact List.cons_ne_nil _ _
  | more => exact List.cons_ne_nil _ _

theorem head_eq (h : Tiles leaves offset (span :: spans)) :
    span.offset = offset ∧ ∃ leaf ∈ leaves.head?, span.path = leaf.path := by
  cases h with
  | last => exact ⟨rfl, _, rfl, rfl⟩
  | more => exact ⟨rfl, _, rfl, rfl⟩

/-- A span that does not name the leaf of the one before it begins at the start
of its own. -/
theorem isChain (h : Tiles leaves offset spans) :
    spans.IsChain fun left right => right.path = left.path ∨ right.offset = 0 := by
  induction h with
  | nil => exact .nil
  | last hStop hPoint h ih =>
    refine List.isChain_cons.2 ⟨fun next hNext => .inr ?_, ih⟩
    obtain ⟨rest, rfl⟩ := List.head?_eq_some_iff.1 hNext
    exact h.head_eq.1
  | more hPos hStop h ih =>
    refine List.isChain_cons.2 ⟨fun next hNext => .inl ?_, ih⟩
    obtain ⟨rest, rfl⟩ := List.head?_eq_some_iff.1 hNext
    obtain ⟨-, leaf, hLeaf, hPath⟩ := h.head_eq
    obtain rfl := Option.some.inj hLeaf
    exact hPath

/-- Parts of leaves that are all different begin at the start of their leaves. -/
theorem offset_of_isChain
    (h : spans.IsChain fun left right => right.path = left.path ∨ right.offset = 0)
    (hNodup : (spans.map Span.path).Nodup) (hSpan : span ∈ spans.tail) : span.offset = 0 := by
  induction spans with
  | nil => cases hSpan
  | cons first spans ih =>
    obtain ⟨hHead, hTail⟩ := List.isChain_cons.1 h
    obtain ⟨hFirst, hRest⟩ := List.nodup_cons.1 hNodup
    obtain _ | ⟨second, spans⟩ := spans
    · cases hSpan
    · rcases List.mem_cons.1 hSpan with rfl | hSpan
      · refine (hHead span rfl).resolve_left fun hSame => hFirst ?_
        rw [← hSame]
        exact List.mem_map_of_mem List.mem_cons_self
      · exact ih hTail hRest hSpan

theorem le_offset (h : Tiles (leaf :: leaves) offset spans) (hSpan : span ∈ spans) :
    span.path = leaf.path ∧ offset ≤ span.offset ∨ ∃ other ∈ leaves, span.path = other.path := by
  generalize hAll : leaf :: leaves = all at h
  induction h with
  | nil => cases hSpan
  | last hStop hPoint h ih =>
    obtain ⟨rfl, rfl⟩ := List.cons.inj hAll
    rcases List.mem_cons.1 hSpan with rfl | hSpan
    · exact .inl ⟨rfl, Nat.le_refl _⟩
    · obtain ⟨other, hOther, hPath, -⟩ := h.mem hSpan
      exact .inr ⟨other, hOther, hPath⟩
  | more hPos hStop h ih =>
    obtain ⟨rfl, rfl⟩ := List.cons.inj hAll
    rcases List.mem_cons.1 hSpan with rfl | hSpan
    · exact .inl ⟨rfl, Nat.le_refl _⟩
    · exact (ih hSpan rfl).imp_left fun ⟨hPath, hOffset⟩ => ⟨hPath, by omega⟩

/-- Two parts of one leaf do not overlap. -/
theorem pairwise (h : Tiles leaves offset spans) (hNodup : (leaves.map Leaf.path).Nodup) :
    spans.Pairwise fun left right =>
      left.path = right.path → left.offset + left.length ≤ right.offset := by
  induction h with
  | nil => exact .nil
  | last hStop hPoint h ih =>
    obtain ⟨hHead, hTail⟩ := List.nodup_cons.1 hNodup
    refine List.pairwise_cons.2 ⟨fun next hNext hPath => absurd ?_ hHead, ih hTail⟩
    obtain ⟨other, hOther, hSame, -⟩ := h.mem hNext
    exact List.mem_map.2 ⟨other, hOther, (hPath.trans hSame).symm⟩
  | more hPos hStop h ih =>
    refine List.pairwise_cons.2 ⟨fun next hNext hPath => ?_, ih hNodup⟩
    rcases h.le_offset hNext with ⟨-, hOffset⟩ | ⟨other, hOther, hSame⟩
    · exact hOffset
    · exact absurd (List.mem_map.2 ⟨other, hOther, (hPath.trans hSame).symm⟩)
        (List.nodup_cons.1 hNodup).1

end Tiles

end Infill
