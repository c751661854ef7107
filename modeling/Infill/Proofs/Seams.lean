import Infill.Proofs.Flattening
import Infill.Proofs.Slices

/-!
Where a lexer cuts the texts of leaves. A span begins where its leaf begins, where
a tag begins or ends, or at the byte from which the text up to the end of some leaf
was held back. What is held back is sorted as a whole: it stays in the buffer, or
all of it turns out to belong to a tag or to the text in front of the next one. So
a leaf that no tag touches is cut at one byte at most, and the text up to its own
end decides at which one.
-/
namespace Infill

/-! ### Bytes at which spans begin -/

namespace Tagged

/-- Whether spans begin at bytes with a property, the first one at byte `start`. -/
def StartsIn (P : Nat → Prop) : (start : Nat) → List Span → Prop
  | _, [] => True
  | start, span :: spans => P start ∧ StartsIn P (start + span.length) spans

variable {P Q : Nat → Prop} {base start stop size cursor : Nat} {spans left right : List Span}

theorem startsIn_append :
    StartsIn P start (left ++ right) ↔
      StartsIn P start left ∧ StartsIn P (start + covered left) right := by
  induction left generalizing start with
  | nil => simp [StartsIn, covered]
  | cons span left ih =>
    rw [List.cons_append, StartsIn, StartsIn, ih, covered_cons, and_assoc, Nat.add_assoc]

theorem StartsIn.mono (h : StartsIn P start spans) (hMore : ∀ byte, P byte → Q byte) :
    StartsIn Q start spans := by
  induction spans generalizing start with
  | nil => trivial
  | cons span spans ih => exact ⟨hMore _ h.1, ih h.2⟩

/-- The spans of a slice begin where they began before, or where the slice does. -/
theorem startsIn_keep (h : StartsIn P (base + cursor) spans)
    (hStart : cursor < start → P (base + start)) :
    StartsIn P (base + max cursor start) (keep start stop size cursor spans) := by
  induction spans generalizing cursor with
  | nil => trivial
  | cons span spans ih =>
    obtain ⟨hHead, hTail⟩ := h
    rw [Nat.add_assoc] at hTail
    have hRest := ih hTail fun hLess => hStart (by omega)
    have hLow : P (base + max cursor start) := by
      rcases Nat.lt_or_ge cursor start with hLess | hGe
      · rw [Nat.max_eq_right hLess.le]
        exact hStart hLess
      · rwa [Nat.max_eq_left hGe]
    rw [keep]
    by_cases hPoint : span.isPoint = true
    · have hLength : span.length = 0 := by simpa [Span.isPoint] using hPoint
      rw [hLength, Nat.add_zero] at hRest ⊢
      rw [keep?, if_pos hPoint]
      split
      · refine ⟨hLow, ?_⟩
        rwa [hLength, Nat.add_zero]
      · exact hRest
    · -- behind a span that reaches over the end of the slice nothing is kept
      have hBehind : ∀ {next}, (cursor + span.length ≤ stop →
          next = max (cursor + span.length) start) →
          StartsIn P (base + next) (keep start stop size (cursor + span.length) spans) := by
        intro next hNext
        rcases Nat.lt_or_ge stop (cursor + span.length) with hLess | hGe
        · rw [keep_eq_nil_of_lt hLess]
          trivial
        · rwa [hNext hGe]
      have hPos : span.length ≠ 0 := fun hZero => hPoint (by rw [Span.isPoint, hZero]; rfl)
      rw [keep?_of_not_point hPoint]
      split
      · exact hBehind (by omega)
      · refine ⟨hLow, ?_⟩
        rw [Nat.add_assoc, length_between (by omega)]
        exact hBehind (by omega)

end Tagged

namespace Template

open Tagged (StartsIn covered)

variable {P : Nat → Prop} {base start : Nat} {buffer : Tagged} {text : List Char}
  {tags : List (List Char × List Char)}

theorem Lexer.startsIn_part (h : StartsIn P base buffer.spans)
    (hStart : 0 < start → P (base + start)) :
    StartsIn P (base + start) (buffer.part start text).spans := by
  have hKeep := @Tagged.startsIn_keep P base start (start + Text.byteLength text) buffer.size 0
    buffer.spans h hStart
  rwa [Nat.zero_max] at hKeep

/-- Tags and the text in front of them are cut where a tag begins or ends. -/
theorem Lexer.startsIn_tagParts (hCovered : covered buffer.spans = buffer.size)
    (hStop : start + Text.byteLength (tags.flatMap fun tag => tag.1 ++ tag.2) ≤ buffer.size)
    (h : StartsIn P base buffer.spans) (hStart : 0 < start → P (base + start))
    (hTags : ∀ tag ∈ Outline.ranges (base + start) tags, P tag.start ∧ P tag.stop) :
    StartsIn P (base + start) (spansOf (tagParts buffer start tags)) ∧
      (0 < start + Text.byteLength (tags.flatMap fun tag => tag.1 ++ tag.2) →
        P (base + (start + Text.byteLength (tags.flatMap fun tag => tag.1 ++ tag.2)))) := by
  induction tags generalizing start with
  | nil => exact ⟨trivial, hStart⟩
  | cons tag tags ih =>
    obtain ⟨before, tag⟩ := tag
    rw [List.flatMap_cons, Text.byteLength_append, Text.byteLength_append] at hStop ⊢
    dsimp only at hStop ⊢
    obtain ⟨⟨hTagStart, hTagStop⟩, hLater⟩ := List.forall_mem_cons.1 hTags
    dsimp only at hTagStart hTagStop hLater
    rw [Nat.add_assoc base] at hTagStart hTagStop hLater
    rw [Nat.add_assoc base] at hTagStop hLater
    obtain ⟨hMore, hEnd⟩ := ih (by omega) (fun _ => hTagStop) hLater
    have hBefore := @covered_part buffer start before hCovered (by omega)
    have hTag := @covered_part buffer (start + Text.byteLength before) tag hCovered (by omega)
    refine ⟨?_, ?_⟩
    · rw [tagParts]
      dsimp only
      rw [spansOf_splitPoints, Tagged.startsIn_append, Tagged.startsIn_append,
        Tagged.covered_append, hBefore, hTag, ← Nat.add_assoc, Nat.add_assoc base,
        Nat.add_assoc base]
      exact ⟨⟨startsIn_part h hStart, startsIn_part h fun _ => hTagStart⟩, hMore⟩
    · rwa [← Nat.add_assoc start, ← Nat.add_assoc start]

theorem Lexer.covered_tagParts (hCovered : covered buffer.spans = buffer.size)
    (hStop : start + Text.byteLength (tags.flatMap fun tag => tag.1 ++ tag.2) ≤ buffer.size) :
    covered (spansOf (tagParts buffer start tags)) =
      Text.byteLength (tags.flatMap fun tag => tag.1 ++ tag.2) := by
  induction tags generalizing start with
  | nil => rfl
  | cons tag tags ih =>
    obtain ⟨before, tag⟩ := tag
    rw [List.flatMap_cons, Text.byteLength_append, Text.byteLength_append] at hStop ⊢
    dsimp only at hStop ⊢
    rw [tagParts]
    dsimp only
    rw [spansOf_splitPoints, Tagged.covered_append, Tagged.covered_append,
      covered_part hCovered (by omega), covered_part hCovered (by omega), ih (by omega)]

/-- The spans of a buffer that is sorted, and of what is kept of it, begin where
they began before, where a tag begins or ends, or where the kept text begins. -/
theorem Lexer.startsIn_sort (hCovered : covered buffer.spans = buffer.size)
    (h : StartsIn P base buffer.spans)
    (hTags : ∀ tag ∈ Outline.ranges base (scan buffer.text.toList).tags, P tag.start ∧ P tag.stop)
    (hHeld : P (base + Text.byteLength (scan buffer.text.toList).outline.text)) :
    StartsIn P base (spansOf (sort buffer) ++ (kept buffer).spans) := by
  have hSize := size_eq buffer
  rw [sort, kept, Tagged.startsIn_append, spansOf_append, spansOf_textEvent,
    Tagged.startsIn_append]
  rw [Outline.text, Scan.outline] at hHeld
  change P (base + Text.byteLength ((scan buffer.text.toList).front ++ _)) at hHeld
  generalize scan buffer.text.toList = found at *
  obtain ⟨hFront, hRest⟩ := @startsIn_tagParts P base 0 buffer found.tags hCovered
    (by rw [Nat.zero_add, hSize, Scan.front]; omega) h (fun hPos => absurd hPos (Nat.lt_irrefl 0))
    (by rwa [Nat.add_zero])
  rw [Nat.zero_add, ← Scan.front] at hRest
  rw [Nat.add_zero] at hFront
  rw [Tagged.covered_append, covered_part hCovered (by omega), covered_tagParts hCovered
    (by rw [Nat.zero_add, hSize, Scan.front]; omega), ← Scan.front, ← Text.byteLength_append]
  refine ⟨⟨hFront, startsIn_part h hRest⟩, ?_⟩
  split
  · trivial
  · exact startsIn_part h fun _ => hHeld

end Template

open Template (scan TagRange Outline)

namespace Leaf

variable {leaf : Leaf} {leaves front back : List Leaf} {byte : Nat}

/-- The bytes of leaves that are sorted once the last one of them was fed. -/
def sorted (leaves : List Leaf) : Nat :=
  Text.byteLength (scan (texts leaves)).outline.text

/-- What is not sorted is held back. -/
theorem sorted_add_held (leaves : List Leaf) :
    sorted leaves + Text.byteLength (scan (texts leaves)).held =
      Text.byteLength (texts leaves) := by
  have hText := congrArg Text.byteLength (Template.scan_append (texts leaves))
  rwa [Text.byteLength_append] at hText

/-- More leaves let more be sorted. -/
theorem sorted_append (front back : List Leaf) :
    sorted (front ++ back) = sorted front +
      Text.byteLength (scan ((scan (texts front)).held ++ texts back)).outline.text := by
  rw [sorted, texts_append, (Template.scan_append_more _ _).1, Outline.text_append,
    Text.byteLength_append, sorted]

/-- Tags stay where they are when more leaves come. -/
theorem tags_append (front back : List Leaf) :
    tags (front ++ back) = tags front ++
      Outline.ranges (sorted front)
        (scan ((scan (texts front)).held ++ texts back)).tags := by
  have hTags := Outline.ranges_append 0 (scan (texts front)).outline
    (scan ((scan (texts front)).held ++ texts back)).outline
  rw [← (Template.scan_append_more _ _).1, ← texts_append, Nat.zero_add] at hTags
  exact hTags

/-- What is held back at the end of leaves is not sorted as long as nothing behind
them is. -/
theorem sorted_append_cases (front back : List Leaf) :
    sorted (front ++ back) = sorted front ∨
      Text.byteLength (texts front) ≤ sorted (front ++ back) := by
  have hAll := sorted_add_held (front ++ back)
  have hFront := sorted_add_held front
  rw [texts_append, Text.byteLength_append, (Template.scan_append_more _ _).2] at hAll
  rcases Template.held_append (Template.scan_held (texts front)) (texts back) with
    hSame | ⟨first, hMore⟩
  · rw [hSame, Text.byteLength_append] at hAll
    omega
  · have hBytes := congrArg Text.byteLength hMore
    rw [Text.byteLength_append] at hBytes
    omega

/-- The bytes of the texts of leaves at which spans may begin. -/
inductive Border (leaves : List Leaf) : Nat → Prop
  | leaf {front back : List Leaf} (h : leaves = front ++ back) :
    Border leaves (Text.byteLength (texts front))
  | tagStart {tag : TagRange} (h : tag ∈ tags leaves) : Border leaves tag.start
  | tagStop {tag : TagRange} (h : tag ∈ tags leaves) : Border leaves tag.stop
  | held {front back : List Leaf} (h : leaves = front ++ back) : Border leaves (sorted front)

theorem Border.append (h : Border front byte) (back : List Leaf) : Border (front ++ back) byte := by
  have hTags : ∀ {tag}, tag ∈ tags front → tag ∈ tags (front ++ back) := by
    intro tag hTag
    rw [tags_append]
    exact List.mem_append_left _ hTag
  cases h with
  | leaf h => exact .leaf (by rw [h, List.append_assoc])
  | tagStart h => exact .tagStart (hTags h)
  | tagStop h => exact .tagStop (hTags h)
  | held h => exact .held (by rw [h, List.append_assoc])

end Leaf

namespace Template

open Tagged (StartsIn covered)
open Leaf (Border)

namespace Lexer

variable {lexer : Lexer} {leaves : List Leaf}

/-- A lexer to which leaves were fed, with the bytes at which its spans begin. Its
events end where the text begins that was held back after each of the leaves. -/
structure Seamed (lexer : Lexer) (leaves : List Leaf) : Prop where
  laid : lexer.Laid leaves
  follows : Follows ([], lexer) (Leaf.texts leaves)
  starts : StartsIn (Border leaves) 0 lexer.seen
  splits : ∀ front back, leaves = front ++ back →
    ∃ left right, spansOf lexer.events = left ++ right ∧ covered left = Leaf.sorted front

theorem Seamed.start : Seamed {} [] where
  laid := Laid.start
  follows := Follows.start
  starts := trivial
  splits front back h := by
    obtain ⟨rfl, rfl⟩ := List.append_eq_nil_iff.1 h.symm
    refine ⟨[], [], rfl, ?_⟩
    rw [Leaf.sorted, Leaf.texts, List.flatMap_nil, @scan_of_none [] [] rfl]
    rfl

/-- The events cover what is sorted. -/
theorem Laid.covered_events (h : lexer.Laid leaves)
    (hFollows : Follows ([], lexer) (Leaf.texts leaves)) :
    covered (spansOf lexer.events) = Leaf.sorted leaves := by
  have hSeen := h.tiles.covered_eq
  have hBuffer : covered lexer.buffer.spans = _ := h.sorted.buffer.covered
  have hHeld := Leaf.sorted_add_held leaves
  rw [seen, Tagged.covered_append, hBuffer, Tagged.size, Text.size, hFollows.held] at hSeen
  omega

/-- The spans of the next leaf and of what was held back begin at borders. -/
theorem Seamed.starts_sort (h : lexer.Seamed leaves) (leaf : Leaf)
    (hNew : ∀ other ∈ leaves, Path.Before other.path leaf.path) {buffer : Tagged}
    (hBuffer : lexer.buffer ++ .ofLeaf leaf.text leaf.path leaf.atom = buffer) :
    StartsIn (Border (leaves ++ [leaf])) (Leaf.sorted leaves)
      (spansOf (sort buffer) ++ (kept buffer).spans) := by
  have hOrdered := h.laid.sorted.ordered_append leaf fun _ hSpan =>
    h.laid.before_of_mem_seen hNew hSpan
  have hText : buffer.text.toList = (scan (Leaf.texts leaves)).held ++ Leaf.texts [leaf] := by
    rw [← hBuffer, Tagged.text_append, String.toList_append, h.follows.held, Leaf.texts_singleton]
    rfl
  rw [hBuffer] at hOrdered
  refine startsIn_sort hOrdered.covered ?_ (fun tag hTag => ?_) ?_
  · have hEvents := h.laid.covered_events h.follows
    have hSeen := h.laid.tiles.covered_eq
    have hKept := (Tagged.startsIn_append.1 h.starts).2
    rw [seen, Tagged.covered_append, Nat.zero_add, hEvents] at hSeen
    rw [hEvents, Nat.zero_add] at hKept
    rw [← hBuffer, Tagged.spans_append, Tagged.startsIn_append, hSeen]
    exact ⟨hKept.mono fun _ hBorder => hBorder.append [leaf], .leaf rfl, trivial⟩
  · have hMem : tag ∈ Leaf.tags (leaves ++ [leaf]) := by
      rw [Leaf.tags_append, ← hText]
      exact List.mem_append_right _ hTag
    exact ⟨.tagStart hMem, .tagStop hMem⟩
  · rw [hText, ← Leaf.sorted_append]
    exact .held (List.append_nil _).symm

theorem Seamed.feed (h : lexer.Seamed leaves) (leaf : Leaf)
    (hNew : ∀ other ∈ leaves, Path.Before other.path leaf.path) :
    ∃ fed, lexer.feed (.ofLeaf leaf.text leaf.path leaf.atom) = .ok fed ∧
      fed.Seamed (leaves ++ [leaf]) := by
  obtain ⟨fed, hFeed, hLaid⟩ := h.laid.feed leaf hNew
  have hFollows : Follows ([], fed) (Leaf.texts (leaves ++ [leaf])) := by
    obtain ⟨next, hNext, hFollows⟩ := h.follows.run (.feed leaf.text leaf.path leaf.atom)
    have hRun : Call.run ([], lexer) (.feed leaf.text leaf.path leaf.atom) =
        lexer.feed (.ofLeaf leaf.text leaf.path leaf.atom) >>= fun fed => .ok ([], fed) := rfl
    rw [hRun, hFeed] at hNext
    rw [Leaf.texts_append, Leaf.texts_singleton, Except.ok.inj hNext]
    exact hFollows
  have hFed := feed_eq h.laid.isOpen (.ofLeaf leaf.text leaf.path leaf.atom)
  have hStarts := h.starts_sort leaf hNew rfl
  have hOld := (Tagged.startsIn_append.1 h.starts).1
  have hEvents := h.laid.covered_events h.follows
  have hAll := hLaid.covered_events hFollows
  generalize lexer.buffer ++ .ofLeaf leaf.text leaf.path leaf.atom = buffer at *
  obtain rfl := Except.ok.inj (hFeed.symm.trans hFed)
  refine ⟨_, hFeed, hLaid, hFollows, ?_, fun front back hSplit => ?_⟩
  · rw [seen, spansOf_append, List.append_assoc, Tagged.startsIn_append, hEvents, Nat.zero_add]
    exact ⟨hOld.mono fun _ hBorder => hBorder.append [leaf], hStarts⟩
  · obtain rfl | ⟨back, last, rfl⟩ := List.eq_nil_or_concat back
    · rw [List.append_nil] at hSplit
      exact ⟨_, [], (List.append_nil _).symm, by rw [← hSplit]; exact hAll⟩
    · rw [List.concat_eq_append, ← List.append_assoc] at hSplit
      obtain ⟨left, right, hLeft, hCovered⟩ :=
        h.splits front back (List.append_inj_left' hSplit rfl)
      refine ⟨left, right ++ spansOf (sort buffer), ?_, hCovered⟩
      rw [spansOf_append, hLeft, List.append_assoc]

end Lexer

open Lexer (Seamed spansOf textEvent)

/-- Leaves in document order give rise to spans that begin at borders. One of them
begins, or the last one ends, where the text began that was held back after a leaf. -/
theorem Token.ofLeaves_seamed {leaves : List Leaf} {events : List Event}
    (hOrder : (leaves.map Leaf.path).Pairwise Path.Before) (h : ofLeaves leaves = .ok events) :
    StartsIn (Border leaves) 0 (spansOf events) ∧ ∀ front back, leaves = front ++ back →
      ∃ left right, spansOf events = left ++ right ∧ covered left = Leaf.sorted front := by
  obtain ⟨fed, hFed, hSeamed⟩ :=
    Lexer.feedLeaves_of_feed (fun leaf hSeamed hNew => hSeamed.feed leaf hNew) Seamed.start hOrder
  rw [ofLeaves, hFed] at h
  obtain rfl : fed.events ++ textEvent fed.buffer = events := Except.ok.inj h
  rw [Lexer.spansOf_append, Lexer.spansOf_textEvent]
  refine ⟨hSeamed.starts, fun front back hSplit => ?_⟩
  obtain ⟨left, right, hLeft, hCovered⟩ := hSeamed.splits front back hSplit
  exact ⟨left, right ++ fed.buffer.spans, by rw [hLeft, List.append_assoc], hCovered⟩

end Template

/-! ### One leaf -/

open Tagged (StartsIn covered)

namespace Leaf

variable {leaf : Leaf} {front back : List Leaf} {spans before behind : List Span}

/-- Whether no byte and no point of the leaf behind `front` belongs to a tag: every
tag ends in front of the leaf or begins behind it. -/
def IsUntouched (front : List Leaf) (leaf : Leaf) (back : List Leaf) : Prop :=
  ∀ tag ∈ tags (front ++ leaf :: back),
    tag.stop ≤ Text.byteLength (texts front) ∨
      Text.byteLength (texts (front ++ [leaf])) ≤ tag.start

/-- Whether the text up to the end of the leaf behind `front` can only be sorted up
to a byte inside of the leaf, as an opening mark or a brace there may yet begin a
tag. -/
def IsCut (front : List Leaf) (leaf : Leaf) : Prop :=
  Text.byteLength (texts front) < sorted (front ++ [leaf]) ∧
    sorted (front ++ [leaf]) < Text.byteLength (texts (front ++ [leaf]))

/-- There is at most one border inside of a leaf that no tag touches. -/
theorem IsUntouched.border_eq (h : IsUntouched front leaf back) {byte : Nat}
    (hBorder : Border (front ++ leaf :: back) byte)
    (hStart : Text.byteLength (texts front) < byte)
    (hStop : byte < Text.byteLength (texts (front ++ [leaf]))) :
    byte = sorted (front ++ [leaf]) := by
  have hSplit : ∀ {first last : List Leaf}, front ++ leaf :: back = first ++ last →
      (∃ more, first = front ++ [leaf] ++ more) ∨ ∃ more, front = first ++ more := by
    intro first last hAll
    rcases List.append_eq_append_iff.1 hAll with ⟨more, rfl, hMore⟩ | ⟨more, rfl, -⟩
    · obtain _ | ⟨other, more⟩ := more
      · exact .inr ⟨[], by simp⟩
      · obtain ⟨rfl, -⟩ := List.cons.inj hMore
        exact .inl ⟨more, List.append_cons _ _ _⟩
    · exact .inr ⟨more, rfl⟩
  cases hBorder with
  | leaf hAll =>
    rcases hSplit hAll with ⟨more, rfl⟩ | ⟨more, rfl⟩
    · rw [texts_append _ more, Text.byteLength_append] at hStop
      omega
    · rw [texts_append, Text.byteLength_append] at hStart
      omega
  | tagStart hTag =>
    have := h _ hTag
    have := Outline.start_le_stop_of_mem_ranges hTag
    omega
  | tagStop hTag =>
    have := h _ hTag
    have := Outline.start_le_stop_of_mem_ranges hTag
    omega
  | @held first last hAll =>
    rcases hSplit hAll with ⟨more, rfl⟩ | ⟨more, rfl⟩
    · rcases sorted_append_cases (front ++ [leaf]) more with hSame | hBehind
      · exact hSame
      · omega
    · have := sorted_add_held first
      rw [texts_append, Text.byteLength_append] at hStart
      omega

/-- The spans of a leaf with one border at most inside of it. -/
theorem spans_cases {P : Nat → Prop} {start middle : Nat} (h : Tiles [leaf] 0 spans)
    (hStarts : StartsIn P start spans)
    (hOnly : ∀ byte, P byte → start < byte → byte < start + Text.size leaf.text → byte = middle) :
    spans = [leaf.part 0 (Text.size leaf.text)] ∨
      start < middle ∧ middle < start + Text.size leaf.text ∧
        spans = [leaf.part 0 (middle - start),
          leaf.part (middle - start) (start + Text.size leaf.text - middle)] := by
  cases h with
  | last hStop hPoint hNone =>
    obtain ⟨-, rfl⟩ := hNone.nil_inv
    rw [Nat.zero_add] at hStop
    exact .inl (by rw [hStop])
  | @more _ _ _ first _ hPos hLess hMore =>
    rw [Nat.zero_add] at hLess hMore
    obtain ⟨-, hSecond⟩ := hStarts
    change StartsIn P (start + first) _ at hSecond
    cases hMore with
    | @last _ _ _ second _ hStop hPoint hNone =>
      obtain ⟨-, rfl⟩ := hNone.nil_inv
      obtain rfl := hOnly _ hSecond.1 (by omega) (by omega)
      refine .inr ⟨by omega, by omega, ?_⟩
      rw [Nat.add_sub_cancel_left, show start + Text.size leaf.text - (start + first) = second by
        omega]
    | @more _ _ _ second _ hPos' hLess' hMore =>
      -- a third span would begin at a second border
      have hMiddle := hOnly _ hSecond.1 (by omega) (by omega)
      have hThird := hSecond.2
      change StartsIn P (start + first + second) _ at hThird
      cases hMore with
      | last hStop hPoint _ =>
        have := hOnly _ hThird.1 (by omega) (by omega)
        omega
      | more _ _ _ =>
        have := hOnly _ hThird.1 (by omega) (by omega)
        omega

/-- A place between spans is not inside of one. -/
theorem covered_of_split {span : Span} {left right : List Span}
    (h : before ++ span :: behind = left ++ right) :
    covered left ≤ covered before ∨ covered before + span.length ≤ covered left := by
  rcases List.append_eq_append_iff.1 h with ⟨more, rfl, hMore⟩ | ⟨more, rfl, -⟩
  · obtain _ | ⟨other, more⟩ := more
    · exact .inl (by rw [List.append_nil])
    · obtain ⟨rfl, -⟩ := List.cons.inj hMore
      refine .inr ?_
      rw [Tagged.covered_append, Tagged.covered_cons]
      omega
  · refine .inl ?_
    rw [Tagged.covered_append]
    omega

/-- The spans of a leaf that no tag touches: two if it is cut, and one if not. -/
theorem IsUntouched.spans_eq (h : IsUntouched front leaf back) (hTiles : Tiles [leaf] 0 spans)
    (hBefore : covered before = Text.byteLength (texts front))
    (hStarts : StartsIn (Border (front ++ leaf :: back)) 0 (before ++ (spans ++ behind)))
    (hSplit : ∃ left right, before ++ (spans ++ behind) = left ++ right ∧
      covered left = sorted (front ++ [leaf])) :
    (¬ leaf.IsCut front → spans = [leaf.part 0 (Text.size leaf.text)]) ∧
      (leaf.IsCut front → ∃ first second, 0 < first ∧ 0 < second ∧
        first + second = Text.size leaf.text ∧
        spans = [leaf.part 0 first, leaf.part first second]) := by
  have hStop : Text.byteLength (texts (front ++ [leaf])) =
      Text.byteLength (texts front) + Text.size leaf.text := by
    rw [texts_append, Text.byteLength_append, texts_singleton, Text.size]
  obtain ⟨left, right, hSplit, hLeft⟩ := hSplit
  rw [Tagged.startsIn_append, Tagged.startsIn_append, hBefore, Nat.zero_add] at hStarts
  rcases spans_cases hTiles hStarts.2.1 fun byte hBorder hFrom hUntil =>
    h.border_eq hBorder hFrom (by omega) with rfl | ⟨hFrom, hUntil, rfl⟩
  · refine ⟨fun _ => rfl, fun hCut => ?_⟩
    obtain ⟨hFrom, hUntil⟩ := hCut
    have hApart := covered_of_split hSplit
    rw [length_part] at hApart
    omega
  · refine ⟨fun hNone => absurd ⟨hFrom, ?_⟩ hNone, fun _ => ⟨_, _, ?_, ?_, ?_, rfl⟩⟩
    all_goals omega

end Leaf

/-! ### Cuts between characters -/

open Text (IsEdge)

theorem Template.Outline.isEdge_of_mem_ranges {front back : List Char}
    {tags : List (List Char × List Char)} {tag : TagRange}
    (h : tag ∈ ranges (Text.byteLength front) tags) :
    IsEdge (front ++ (tags.flatMap fun tag => tag.1 ++ tag.2) ++ back) tag.start ∧
      IsEdge (front ++ (tags.flatMap fun tag => tag.1 ++ tag.2) ++ back) tag.stop := by
  induction tags generalizing front with
  | nil => cases h
  | cons other tags ih =>
    obtain ⟨before, other⟩ := other
    rw [ranges, ← Text.byteLength_append, ← Text.byteLength_append] at h
    rcases List.mem_cons.1 h with rfl | h
    · refine ⟨⟨front ++ before, other ++ ((tags.flatMap fun tag => tag.1 ++ tag.2) ++ back), ?_,
        rfl⟩, ⟨front ++ before ++ other, (tags.flatMap fun tag => tag.1 ++ tag.2) ++ back, ?_, rfl⟩⟩
      all_goals simp
    · simpa using ih h

/-- Spans begin between characters. -/
theorem Leaf.Border.isEdge {leaves : List Leaf} {byte : Nat} (h : Border leaves byte) :
    IsEdge (texts leaves) byte := by
  have hTag : ∀ {tag}, tag ∈ tags leaves →
      IsEdge (texts leaves) tag.start ∧ IsEdge (texts leaves) tag.stop := by
    intro tag hTag
    have hEdges := @Outline.isEdge_of_mem_ranges []
      ((scan (texts leaves)).rest ++ (scan (texts leaves)).held) _ tag hTag
    rwa [List.nil_append, ← List.append_assoc, Template.scan_append] at hEdges
  cases h with
  | leaf h => exact ⟨_, _, by rw [h, texts_append], rfl⟩
  | tagStart h => exact (hTag h).1
  | tagStop h => exact (hTag h).2
  | @held front back h =>
    refine ⟨(scan (texts front)).outline.text, (scan (texts front)).held ++ texts back, ?_, rfl⟩
    rw [← List.append_assoc, h, texts_append]
    exact congrArg (· ++ texts back) (Template.scan_append (texts front)).symm

/-- Spans that begin between characters divide a text into the bytes they cover. -/
theorem Tagged.mem_divide {whole front text back : List Char} {spans : List Span}
    (hWhole : whole = front ++ text ++ back)
    (hStarts : StartsIn (IsEdge whole) (Text.byteLength front) spans)
    (hCovered : covered spans = Text.byteLength text) {piece : Span × List Char}
    (h : piece ∈ divide text spans) :
    piece.1 ∈ spans ∧ Text.byteLength piece.2 = piece.1.length := by
  induction spans generalizing front text with
  | nil => cases h
  | cons span spans ih =>
    have hCut : ∃ first last, text = first ++ last ∧ Text.byteLength first = span.length := by
      obtain _ | ⟨next, spans⟩ := spans
      · exact ⟨text, [], (List.append_nil text).symm, hCovered.symm⟩
      · rw [covered_cons] at hCovered
        obtain ⟨first, last, hSplit, hFirst⟩ := hStarts.2.1
        rw [hWhole, List.append_assoc] at hSplit
        obtain ⟨more, rfl, hRest⟩ := Text.exists_append_of_le hSplit (by omega)
        rw [Text.byteLength_append] at hFirst
        obtain ⟨behind, hText, -⟩ := Text.exists_append_of_le hRest.symm (by omega)
        exact ⟨more, behind, hText, by omega⟩
    obtain ⟨first, last, rfl, hFirst⟩ := hCut
    rw [covered_cons, Text.byteLength_append] at hCovered
    rw [divide, ← hFirst, Text.cut?_append] at h
    rcases List.mem_cons.1 h with rfl | h
    · exact ⟨List.mem_cons_self, hFirst⟩
    · have hRest := hStarts.2
      rw [← hFirst, ← Text.byteLength_append] at hRest
      obtain ⟨hSpan, hLength⟩ := @ih (front ++ first) last (by rw [hWhole]; simp) hRest (by omega) h
      exact ⟨List.mem_cons_of_mem span hSpan, hLength⟩

/-- The pieces of events have as many bytes as their spans cover. -/
theorem Template.Lexer.mem_pieces {leaves : List Leaf} {events : List Event} {event : Event}
    (hSound : ∀ event ∈ events, Sound event) (hText : textOf events = Leaf.texts leaves)
    (hStarts : StartsIn (Leaf.Border leaves) 0 (spansOf events)) (hEvent : event ∈ events)
    {piece : Span × List Char} (h : piece ∈ event.2.pieces) :
    piece.1 ∈ event.2.spans ∧ Text.byteLength piece.2 = piece.1.length := by
  obtain ⟨front, back, rfl⟩ := List.append_of_mem hEvent
  rw [spansOf_append, spansOf_cons, Tagged.startsIn_append, Tagged.startsIn_append,
    covered_spansOf fun other hOther => hSound other (List.mem_append_left _ hOther),
    Nat.zero_add] at hStarts
  refine @Tagged.mem_divide _ (textOf front) _ (textOf back) _ ?_
    (hStarts.2.1.mono fun _ hBorder => hBorder.isEdge) (hSound event hEvent).covered _ h
  rw [← hText, textOf, textOf, textOf, List.flatMap_append, List.flatMap_cons, List.append_assoc]

end Infill
