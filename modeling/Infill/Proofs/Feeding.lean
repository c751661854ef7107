import Infill.Proofs.Chunks
import Infill.Proofs.Tiling

/-!
What a lexer makes of the texts of leaves that are fed one after the other. Its
events tile the leaves, every tag begins and ends with characters, and the
characters are sorted as one scan of the whole text does it.
-/
namespace Infill

namespace Tagged

theorem covered_takeWhile_isPoint (spans : List Span) :
    covered (spans.takeWhile Span.isPoint) = 0 := by
  induction spans with
  | nil => rfl
  | cons span spans ih =>
    rw [List.takeWhile_cons]
    split
    · rename_i hPoint
      rw [covered_cons, ih]
      simpa [Span.isPoint] using hPoint
    · rfl

theorem covered_dropWhile_isPoint (spans : List Span) :
    covered (spans.dropWhile Span.isPoint) = covered spans := by
  have hSplit := congrArg covered (@List.takeWhile_append_dropWhile _ Span.isPoint spans)
  rwa [covered_append, covered_takeWhile_isPoint, Nat.zero_add] at hSplit

/-- Whether a text begins and ends with characters and holds no two parts of one
leaf. -/
structure IsFirm (tagged : Tagged) : Prop where
  starts : ∃ head ∈ tagged.spans.head?, head.isPoint = false
  ends : ¬ EndsInPoint tagged.spans
  nodup : (tagged.spans.map Span.path).Nodup

end Tagged

open Tagged (covered keep EndsInPoint)

namespace Template

theorem ne_nil_of_mem_scan {text : List Char} {tag : List Char × List Char}
    (h : tag ∈ (scan text).tags) : tag.2 ≠ [] := by
  induction text using scan.induct with
  | case1 text before kind after hUntil inside rest hInside _ ih =>
    rw [scan_of_tag hUntil hInside] at h
    rcases List.mem_cons.1 h with rfl | h
    · exact List.cons_ne_nil _ _
    · exact ih h
  | case2 text before kind after hUntil hInside =>
    rw [scan_of_open hUntil hInside] at h
    cases h
  | case3 text before hUntil =>
    rw [scan_of_none hUntil, Scan.ofRest] at h
    split at h <;> cases h

namespace Lexer

/-- Whether the spans of an event cover its text, and a tag is firm. -/
structure Sound (event : Event) : Prop where
  covered : covered event.2.spans = event.2.size
  firm : event.1 = .terminal → event.2.IsFirm

theorem sound_of_mem_textEvent {part : Tagged} (hCovered : covered part.spans = part.size)
    {event : Event} (h : event ∈ textEvent part) : Sound event := by
  rw [textEvent] at h
  split at h
  · cases h
  · obtain rfl := List.mem_singleton.1 h
    exact ⟨hCovered, fun hTag => by cases hTag⟩

/-- The spans of events cover their texts. -/
theorem covered_spansOf {events : List Event}
    (hSound : ∀ event ∈ events, Sound event) :
    covered (spansOf events) = Text.byteLength (textOf events) := by
  induction events with
  | nil => rfl
  | cons event events ih =>
    rw [spansOf_cons, Tagged.covered_append, (hSound event List.mem_cons_self).covered,
      ih fun other hOther => hSound other (List.mem_cons_of_mem event hOther)]
    exact (Text.byteLength_append _ _).symm

section Sorting

variable {buffer : Tagged} {start : Nat} {text : List Char} {tags : List (List Char × List Char)}

theorem covered_part (hCovered : covered buffer.spans = buffer.size)
    (hStop : start + Text.byteLength text ≤ buffer.size) :
    covered (buffer.part start text).spans = Text.byteLength text := by
  rw [Tagged.part, Tagged.covered_keep hStop (by rw [Nat.zero_add, hCovered])]
  omega

/-- A tag is cut from a buffer at characters, apart from the points in front of
it, which it leaves to the text there. -/
theorem isFirm_splitPoints (hCovered : covered buffer.spans = buffer.size)
    (hEnd : ¬ EndsInPoint buffer.spans) (hNodup : (buffer.spans.map Span.path).Nodup)
    (hText : text ≠ []) (hStop : start + Text.byteLength text ≤ buffer.size) :
    (buffer.part start text).splitPoints.2.IsFirm := by
  have hPos : 0 < Text.byteLength text :=
    Nat.pos_of_ne_zero fun hZero => hText (Text.eq_nil_of_byteLength hZero)
  have hPart := covered_part hCovered hStop
  have hSplit := @List.takeWhile_append_dropWhile _ Span.isPoint (buffer.part start text).spans
  have hDrop := Tagged.covered_dropWhile_isPoint (buffer.part start text).spans
  have hFirm : ¬ EndsInPoint (buffer.part start text).spans :=
    Tagged.not_endsInPoint_keep (by omega) hStop (by rw [Nat.zero_add, hCovered]) hEnd
  have hPaths : ((buffer.part start text).spans.map Span.path).Nodup :=
    hNodup.sublist (Tagged.paths_keep_sublist _ _ _ _ _)
  rw [Tagged.splitPoints]
  generalize (buffer.part start text).spans = spans at *
  have hNonempty : spans.dropWhile Span.isPoint ≠ [] := by
    intro hNone
    rw [hNone] at hDrop
    change 0 = _ at hDrop
    omega
  refine ⟨?_, ?_, ?_⟩
  · exact ⟨_, List.head_mem_head? hNonempty, List.head_dropWhile_not Span.isPoint hNonempty⟩
  · rintro ⟨last, hLast, hPoint⟩
    refine hFirm ⟨last, ?_, hPoint⟩
    rw [← hSplit]
    rwa [List.getLast?_append_of_ne_nil _ hNonempty]
  · exact hPaths.sublist ((List.dropWhile_sublist Span.isPoint).map Span.path)

theorem sound_tagParts (hCovered : covered buffer.spans = buffer.size)
    (hEnd : ¬ EndsInPoint buffer.spans) (hNodup : (buffer.spans.map Span.path).Nodup)
    (hTags : ∀ tag ∈ tags, tag.2 ≠ [])
    (hStop : start + Text.byteLength (tags.flatMap fun tag => tag.1 ++ tag.2) ≤ buffer.size)
    {event : Event} (h : event ∈ tagParts buffer start tags) : Sound event := by
  induction tags generalizing start with
  | nil => cases h
  | cons tag tags ih =>
    obtain ⟨before, tag⟩ := tag
    rw [List.flatMap_cons, Text.byteLength_append, Text.byteLength_append] at hStop
    dsimp only at hStop
    have hBefore := @covered_part buffer start before hCovered (by omega)
    have hTag := @covered_part buffer (start + Text.byteLength before) tag hCovered (by omega)
    rw [tagParts, List.mem_append, List.mem_cons] at h
    rcases h with h | rfl | h
    · refine sound_of_mem_textEvent ?_ h
      simp only [Tagged.addPoints, Tagged.splitPoints, Tagged.covered_append,
        Tagged.covered_takeWhile_isPoint, hBefore, Tagged.size, Text.size, Tagged.text_part,
        Nat.add_zero]
    · refine ⟨?_, fun _ => isFirm_splitPoints hCovered hEnd hNodup
        (hTags (before, tag) List.mem_cons_self) (by omega)⟩
      simp only [Tagged.splitPoints, Tagged.covered_dropWhile_isPoint, hTag, Tagged.size, Text.size,
        Tagged.text_part]
    · exact ih (fun tag hMem => hTags tag (List.mem_cons_of_mem _ hMem)) (by omega) h

/-- Tags and the text in front of them take away spans from the front of those
that are left. -/
theorem tiles_tagParts {leaves : List Leaf} {front : List Span}
    (hCovered : covered buffer.spans = buffer.size) (hEnd : ¬ EndsInPoint buffer.spans)
    (hStop : start + Text.byteLength (tags.flatMap fun tag => tag.1 ++ tag.2) ≤ buffer.size)
    (h : Tiles leaves 0 (front ++ keep start buffer.size buffer.size 0 buffer.spans)) :
    Tiles leaves 0 (front ++ spansOf (tagParts buffer start tags) ++
      keep (start + Text.byteLength (tags.flatMap fun tag => tag.1 ++ tag.2)) buffer.size
        buffer.size 0 buffer.spans) := by
  induction tags generalizing start front with
  | nil => simpa [tagParts] using h
  | cons tag tags ih =>
    obtain ⟨before, tag⟩ := tag
    rw [List.flatMap_cons, Text.byteLength_append, Text.byteLength_append] at hStop ⊢
    dsimp only at hStop ⊢
    have hSize : 0 + covered buffer.spans = buffer.size := by rw [Nat.zero_add, hCovered]
    have hBefore := h.refine ((Tagged.Refines.refl front).append
      (@Tagged.keep_split start (start + Text.byteLength before) buffer.size buffer.size 0
        buffer.spans (by omega) (by omega) hSize hEnd))
    rw [← List.append_assoc] at hBefore
    have hTag := hBefore.refine ((Tagged.Refines.refl _).append
      (@Tagged.keep_split (start + Text.byteLength before)
        (start + Text.byteLength before + Text.byteLength tag) buffer.size buffer.size 0
        buffer.spans (by omega) (by omega) hSize hEnd))
    rw [← List.append_assoc] at hTag
    have hRest := ih (by omega) hTag
    rw [tagParts]
    dsimp only
    rw [spansOf_splitPoints]
    simpa [Tagged.part, Nat.add_assoc] using hRest

/-! ### Sorting a buffer -/

theorem size_eq (buffer : Tagged) :
    buffer.size = Text.byteLength (scan buffer.text.toList).front +
      Text.byteLength (scan buffer.text.toList).rest +
      Text.byteLength (scan buffer.text.toList).held := by
  have hText := congrArg Text.byteLength (front_append buffer.text.toList)
  rw [Text.byteLength_append, Text.byteLength_append] at hText
  exact hText.symm

/-- Where everything is held back, all spans stay: in the buffer, or as points
of an event if there is no character. -/
theorem spansOf_sort_of_held (hCovered : covered buffer.spans = buffer.size)
    (hHeld : Held buffer.text.toList) :
    spansOf (sort buffer) ++ (kept buffer).spans = buffer.spans := by
  have hScan : scan buffer.text.toList = ⟨[], [], buffer.text.toList⟩ := hHeld
  have hSize : 0 + covered buffer.spans = buffer.size := by rw [Nat.zero_add, hCovered]
  have hBytes := size_eq buffer
  rw [hScan] at hBytes
  rw [sort, kept, hScan]
  simp only [Scan.front, List.flatMap_nil, Text.byteLength_nil, tagParts, List.nil_append,
    spansOf_textEvent, Nat.zero_add] at hBytes ⊢
  by_cases hText : buffer.text.toList = []
  · rw [hText, Text.byteLength_nil] at hBytes
    have hAll := @Tagged.keep_all 0 0 0 buffer.spans (Nat.le_refl 0) (by rw [hSize, hBytes])
    rw [hText, List.isEmpty_nil, if_pos rfl, Tagged.part, hBytes, Text.byteLength_nil, hAll]
    exact List.append_nil _
  · have hPos : 0 < buffer.size := by
      refine Nat.pos_of_ne_zero fun hZero => hText (Text.eq_nil_of_byteLength ?_)
      rw [← hBytes, hZero]
    rw [if_neg (by simpa using hText), Tagged.part, Tagged.part, ← hBytes, Text.byteLength_nil,
      Nat.zero_add, Nat.zero_add, Tagged.keep_self hPos, Tagged.keep_all (Nat.le_refl 0) hSize]
    rfl

/-- The events of a buffer and what stays of it tile what the buffer tiled. -/
theorem tiles_sort {leaves : List Leaf} {front : List Span}
    (hCovered : covered buffer.spans = buffer.size)
    (hEnd : EndsInPoint buffer.spans → Held buffer.text.toList)
    (h : Tiles leaves 0 (front ++ buffer.spans)) :
    Tiles leaves 0 (front ++ spansOf (sort buffer) ++ (kept buffer).spans) := by
  by_cases hPoint : EndsInPoint buffer.spans
  · rwa [List.append_assoc, spansOf_sort_of_held hCovered (hEnd hPoint)]
  · have hSize : 0 + covered buffer.spans = buffer.size := by rw [Nat.zero_add, hCovered]
    have hBytes := size_eq buffer
    have hTags := @tiles_tagParts buffer 0 (scan buffer.text.toList).tags leaves front hCovered
      hPoint (by rw [Nat.zero_add, hBytes, Scan.front]; omega)
      (by rwa [Tagged.keep_all (Nat.le_refl 0) hSize])
    rw [Nat.zero_add, ← Scan.front] at hTags
    rw [sort, kept]
    generalize scan buffer.text.toList = found at *
    rw [spansOf_append, spansOf_textEvent, ← List.append_assoc]
    split
    · rename_i hHeld
      rw [List.isEmpty_iff.1 hHeld, Text.byteLength_nil, Nat.add_zero] at hBytes
      rw [Tagged.part, ← hBytes]
      simpa [Tagged.empty] using hTags
    · have hRest := hTags.refine ((Tagged.Refines.refl _).append
        (@Tagged.keep_split _ (Text.byteLength found.front + Text.byteLength found.rest) _ _ _ _
          (Nat.le_add_right _ _) (by omega) hSize hPoint))
      rw [← List.append_assoc] at hRest
      rwa [Tagged.part, Tagged.part, Text.byteLength_append, ← hBytes]

theorem sound_sort (hCovered : covered buffer.spans = buffer.size)
    (hEnd : EndsInPoint buffer.spans → Held buffer.text.toList)
    (hNodup : (buffer.spans.map Span.path).Nodup) {event : Event} (h : event ∈ sort buffer) :
    Sound event := by
  have hBytes := size_eq buffer
  rcases List.mem_append.1 h with h | h
  · have hPoint : ¬ EndsInPoint buffer.spans := by
      intro hPoint
      have hHeld : scan buffer.text.toList = ⟨[], [], buffer.text.toList⟩ := hEnd hPoint
      rw [hHeld] at h
      cases h
    exact sound_tagParts hCovered hPoint hNodup (fun tag hTag => ne_nil_of_mem_scan hTag)
      (by rw [Nat.zero_add, hBytes, Scan.front]; omega) h
  · refine sound_of_mem_textEvent ?_ h
    rw [covered_part hCovered (by omega), Tagged.size, Text.size, Tagged.text_part]

end Sorting

/-! ### Feeding leaves -/

/-- A lexer to which leaves were fed. -/
structure Laid (lexer : Lexer) (leaves : List Leaf) : Prop where
  sorted : lexer.Sorted
  tiles : Tiles leaves 0 lexer.seen
  sound : ∀ event ∈ lexer.events, Sound event
  nodup : (lexer.buffer.spans.map Span.path).Nodup
  isOpen : lexer.isClosed = false

variable {lexer : Lexer} {leaves : List Leaf}

theorem Laid.start : Laid {} [] :=
  ⟨Sorted.start, .nil, by simp, List.nodup_nil, rfl⟩

/-- A leaf behind those that were fed is behind all their spans. -/
theorem Laid.before_of_mem_seen (h : lexer.Laid leaves) {leaf : Leaf}
    (hNew : ∀ other ∈ leaves, Path.Before other.path leaf.path) {span : Span}
    (hSpan : span ∈ lexer.seen) : Path.Before span.path leaf.path := by
  obtain ⟨other, hOther, hPath, -⟩ := h.tiles.mem hSpan
  rw [hPath]
  exact hNew other hOther

theorem Laid.feed (h : lexer.Laid leaves) (leaf : Leaf)
    (hNew : ∀ other ∈ leaves, Path.Before other.path leaf.path) :
    ∃ fed, lexer.feed (.ofLeaf leaf.text leaf.path leaf.atom) = .ok fed ∧
      fed.Laid (leaves ++ [leaf]) := by
  have hSeen : ∀ span ∈ lexer.seen, Path.Before span.path leaf.path :=
    fun _ hSpan => h.before_of_mem_seen hNew hSpan
  have hFeed := feed_eq h.isOpen (.ofLeaf leaf.text leaf.path leaf.atom)
  have hBuffer := h.sorted.ordered_append leaf hSeen
  have hEnd := h.sorted.held_append leaf
  have hNodup : ((lexer.buffer ++ Tagged.ofLeaf leaf.text leaf.path leaf.atom).spans.map
      Span.path).Nodup := by
    rw [Tagged.spans_append, List.map_append]
    refine h.nodup.append (List.nodup_singleton _) fun path hOld hLeaf => ?_
    obtain ⟨span, hSpan, rfl⟩ := List.mem_map.1 hOld
    have hBefore := hSeen span (List.mem_append_right _ hSpan)
    obtain hSame : span.path = leaf.path := List.mem_singleton.1 hLeaf
    rw [hSame] at hBefore
    exact Path.before_irrefl _ hBefore
  have hTiles := h.tiles.append (Tiles.ofLeaf leaf)
  rw [seen, List.append_assoc, ← Tagged.spans_append] at hTiles
  refine ⟨_, hFeed, (h.sorted.feed leaf hSeen hFeed).1, ?_, ?_, ?_, h.isOpen⟩
  · rw [seen, spansOf_append]
    exact tiles_sort hBuffer.covered hEnd hTiles
  · intro event hEvent
    rcases List.mem_append.1 hEvent with hEvent | hEvent
    · exact h.sound event hEvent
    · exact sound_sort hBuffer.covered hEnd hNodup hEvent
  · rw [kept]
    split
    · exact List.nodup_nil
    · exact hNodup.sublist (Tagged.paths_keep_sublist _ _ _ _ _)

/-- What feeding a leaf behind those that were fed preserves, feeding leaves in
document order does. -/
theorem feedLeaves_of_feed {Holds : Lexer → List Leaf → Prop}
    (hFeed : ∀ {lexer leaves} (leaf : Leaf), Holds lexer leaves →
      (∀ other ∈ leaves, Path.Before other.path leaf.path) →
      ∃ fed, lexer.feed (.ofLeaf leaf.text leaf.path leaf.atom) = .ok fed ∧
        Holds fed (leaves ++ [leaf]))
    {more : List Leaf} (h : Holds lexer leaves)
    (hOrder : ((leaves ++ more).map Leaf.path).Pairwise Path.Before) :
    ∃ fed, lexer.feedLeaves more = .ok fed ∧ Holds fed (leaves ++ more) := by
  induction more generalizing lexer leaves with
  | nil => exact ⟨lexer, rfl, by rwa [List.append_nil]⟩
  | cons leaf more ih =>
    have hNew : ∀ other ∈ leaves, Path.Before other.path leaf.path := by
      intro other hOther
      rw [List.map_append] at hOrder
      exact (List.pairwise_append.1 hOrder).2.2 _ (List.mem_map_of_mem hOther) _
        List.mem_cons_self
    obtain ⟨next, hNext, hHolds⟩ := hFeed leaf h hNew
    rw [List.append_cons] at hOrder ⊢
    obtain ⟨fed, hFed, hAll⟩ := ih hHolds hOrder
    refine ⟨fed, ?_, hAll⟩
    rw [Lexer.feedLeaves, List.foldlM_cons, hNext]
    exact hFed

theorem Laid.feedLeaves {more : List Leaf} (h : lexer.Laid leaves)
    (hOrder : ((leaves ++ more).map Leaf.path).Pairwise Path.Before) :
    ∃ fed, lexer.feedLeaves more = .ok fed ∧ fed.Laid (leaves ++ more) :=
  feedLeaves_of_feed (fun leaf hLaid hNew => hLaid.feed leaf hNew) h hOrder

end Lexer

/-- Feed a leaf. -/
def Lexer.Call.ofLeaf (leaf : Leaf) : Lexer.Call :=
  .feed leaf.text leaf.path leaf.atom

open Lexer (drain Call)

theorem Lexer.foldlM_ofLeaf (leaves : List Leaf) (lexer : Lexer) :
    (leaves.map Call.ofLeaf).foldlM Call.run ([], lexer) =
      (lexer.feedLeaves leaves).map fun fed => ([], fed) := by
  induction leaves generalizing lexer with
  | nil => rfl
  | cons leaf leaves ih =>
    rw [List.map_cons, List.foldlM_cons, Lexer.feedLeaves, List.foldlM_cons]
    change (lexer.feed _ >>= _) >>= _ = Except.map _ (lexer.feed _ >>= _)
    cases lexer.feed (.ofLeaf leaf.text leaf.path leaf.atom) with
    | error e => rfl
    | ok fed => exact ih fed

/-- Leaves are fed one after the other, and the lexer is read at the end. -/
theorem Token.ofLeaves_eq_drain (leaves : List Leaf) :
    Token.ofLeaves leaves = drain (leaves.map Call.ofLeaf) := by
  rw [Token.ofLeaves, drain, Lexer.foldlM_ofLeaf]
  cases Lexer.feedLeaves {} leaves with
  | error e => rfl
  | ok fed => rfl

open Lexer (Laid Sound outline spansOf textEvent)

/-- Leaves in document order give rise to events that tile them. The events have
the characters of one scan of all texts. -/
theorem Token.ofLeaves_laid {leaves : List Leaf}
    (hOrder : (leaves.map Leaf.path).Pairwise Path.Before) :
    ∃ events, Token.ofLeaves leaves = .ok events ∧ Tiles leaves 0 (spansOf events) ∧
      (∀ event ∈ events, Sound event) ∧
      outline events =
        (scan (Leaf.texts leaves)).outline ++ .ofText (scan (Leaf.texts leaves)).held := by
  obtain ⟨fed, hFed, hLaid⟩ := Laid.start.feedLeaves hOrder
  rw [List.nil_append] at hLaid
  obtain ⟨events, hEvents, hOutline⟩ := Lexer.drain_outline (leaves.map Call.ofLeaf)
  have hText : Lexer.fedText (leaves.map Call.ofLeaf) = Leaf.texts leaves := by
    rw [Lexer.fedText, Leaf.texts, List.flatMap_map]
    rfl
  rw [hText] at hOutline
  have hAll : fed.events ++ textEvent fed.buffer = events := by
    rw [← ofLeaves_eq_drain, Token.ofLeaves, hFed] at hEvents
    exact Except.ok.inj hEvents
  refine ⟨events, by rw [ofLeaves_eq_drain, hEvents], ?_, fun event hEvent => ?_, hOutline⟩
  · rw [← hAll, Lexer.spansOf_append, Lexer.spansOf_textEvent]
    exact hLaid.tiles
  · rw [← hAll] at hEvent
    rcases List.mem_append.1 hEvent with hEvent | hEvent
    · exact hLaid.sound event hEvent
    · exact Lexer.sound_of_mem_textEvent hLaid.sorted.buffer.covered hEvent

/-- Where a tag goes on in another leaf, that leaf begins. -/
theorem Lexer.offset_of_mem_tail {leaves : List Leaf} {events : List Event} {event : Event}
    (h : Tiles leaves 0 (spansOf events)) (hEvent : event ∈ events)
    (hNodup : (event.2.spans.map Span.path).Nodup) {span : Span}
    (hSpan : span ∈ event.2.spans.tail) : span.offset = 0 := by
  obtain ⟨front, back, rfl⟩ := List.append_of_mem hEvent
  have hInfix : event.2.spans <:+: spansOf (front ++ event :: back) := by
    rw [spansOf_append, spansOf_cons]
    exact ⟨spansOf front, spansOf back, by rw [List.append_assoc]⟩
  have hChain := List.IsChain.infix h.isChain hInfix
  exact Tiles.offset_of_isChain hChain hNodup hSpan

end Template

end Infill
