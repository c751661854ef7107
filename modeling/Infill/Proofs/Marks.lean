import Infill.Proofs.Feeding

/-!
The spans of events with their places in the whole text. A span is a part of a
text between tags, or a tag begins with it, or it continues a tag that began in an
earlier leaf. The last is the case exactly where it begins inside of a tag, and
then its leaf begins there as well.
-/
namespace Infill

open Template (Event TagRange)
open Template.Lexer (Sound spansOf tagRanges)
open Tagged (covered EndsInPoint)

/-- What a span is a part of. -/
inductive Role
  | text
  /-- The beginning of a tag with the given characters. -/
  | tagStart (tag : List Char)
  /-- A tag that began in an earlier leaf. -/
  | tagRest
  deriving DecidableEq, Inhabited, Repr

/-- A span of an event with the byte at which it begins in the text of all
events. -/
structure Mark where
  start : Nat
  role : Role
  span : Span
  deriving DecidableEq, Inhabited, Repr

namespace Mark

/-- Spans with the same role, one behind the other. -/
def spread (role : Role) : (start : Nat) → List Span → List Mark
  | _, [] => []
  | start, span :: spans => ⟨start, role, span⟩ :: spread role (start + span.length) spans

/-- The spans of an event that begins at byte `start`. -/
def ofEvent (start : Nat) : Event → List Mark
  | (.text, part) => spread .text start part.spans
  | (.terminal, tag) =>
    match tag.spans with
    | [] => []
    | span :: rest =>
      ⟨start, .tagStart tag.text.toList, span⟩ :: spread .tagRest (start + span.length) rest

/-- The spans of events, the first of which begins at byte `start`. -/
def ofEvents : (start : Nat) → List Event → List Mark
  | _, [] => []
  | start, event :: events => ofEvent start event ++ ofEvents (start + event.2.size) events

variable {role : Role} {start : Nat} {mark : Mark} {marks left right : List Mark}
  {event : Event} {events : List Event} {tag : TagRange} {tags : List TagRange}

@[simp] theorem map_span_spread (role : Role) (start : Nat) (spans : List Span) :
    (spread role start spans).map Mark.span = spans := by
  induction spans generalizing start with
  | nil => rfl
  | cons span spans ih => rw [spread, List.map_cons, ih]

@[simp] theorem map_span_ofEvent (start : Nat) (event : Event) :
    (ofEvent start event).map Mark.span = event.2.spans := by
  obtain ⟨_ | _, part⟩ := event
  · exact map_span_spread .text start part.spans
  · rw [ofEvent]
    split
    · rename_i hSpans
      exact hSpans.symm
    · rename_i hSpans
      rw [List.map_cons, map_span_spread, hSpans]

@[simp] theorem map_span_ofEvents (start : Nat) (events : List Event) :
    (ofEvents start events).map Mark.span = spansOf events := by
  induction events generalizing start with
  | nil => rfl
  | cons event events ih =>
    rw [ofEvents, List.map_append, map_span_ofEvent, ih, Template.Lexer.spansOf_cons]

theorem exists_ofEvent (h : mark ∈ ofEvents start events) :
    ∃ event ∈ events, ∃ next, mark ∈ ofEvent next event := by
  induction events generalizing start with
  | nil => cases h
  | cons event events ih =>
    rcases List.mem_append.1 h with h | h
    · exact ⟨event, List.mem_cons_self, start, h⟩
    · obtain ⟨other, hOther, hNext⟩ := ih h
      exact ⟨other, List.mem_cons_of_mem event hOther, hNext⟩

theorem role_of_mem_spread {spans : List Span} (h : mark ∈ spread role start spans) :
    mark.role = role := by
  induction spans generalizing start with
  | nil => cases h
  | cons span spans ih =>
    rcases List.mem_cons.1 h with rfl | h
    · rfl
    · exact ih h

/-! ### Places -/

/-- Whether every span begins where the one before it ends. -/
def Placed : (start : Nat) → List Mark → Prop
  | _, [] => True
  | start, mark :: marks => mark.start = start ∧ Placed (start + mark.span.length) marks

theorem placed_append :
    Placed start (left ++ right) ↔
      Placed start left ∧ Placed (start + covered (left.map Mark.span)) right := by
  induction left generalizing start with
  | nil => simp [Placed, covered]
  | cons mark left ih =>
    rw [List.cons_append, Placed, Placed, ih, List.map_cons, Tagged.covered_cons, and_assoc,
      Nat.add_assoc]

theorem placed_spread (role : Role) (start : Nat) (spans : List Span) :
    Placed start (spread role start spans) := by
  induction spans generalizing start with
  | nil => trivial
  | cons span spans ih => exact ⟨rfl, ih _⟩

theorem placed_ofEvent (start : Nat) (event : Event) : Placed start (ofEvent start event) := by
  obtain ⟨_ | _, part⟩ := event
  · exact placed_spread .text start part.spans
  · rw [ofEvent]
    split
    · trivial
    · exact ⟨rfl, placed_spread _ _ _⟩

theorem placed_ofEvents (hSound : ∀ event ∈ events, Sound event) (start : Nat) :
    Placed start (ofEvents start events) := by
  induction events generalizing start with
  | nil => trivial
  | cons event events ih =>
    refine placed_append.2 ⟨placed_ofEvent start event, ?_⟩
    rw [map_span_ofEvent, (hSound event List.mem_cons_self).covered]
    exact ih (fun other hOther => hSound other (List.mem_cons_of_mem event hOther)) _

theorem bounds_of_placed (h : Placed start marks) (hMark : mark ∈ marks) :
    start ≤ mark.start ∧
      mark.start + mark.span.length ≤ start + covered (marks.map Mark.span) := by
  induction marks generalizing start with
  | nil => cases hMark
  | cons first marks ih =>
    obtain ⟨hFirst, hRest⟩ := h
    rw [List.map_cons, Tagged.covered_cons]
    rcases List.mem_cons.1 hMark with rfl | hMark
    · omega
    · have := ih hRest hMark
      omega

/-- Where spans end in characters, none begins at their end. -/
theorem start_lt_of_placed (h : Placed start marks) (hEnd : ¬ EndsInPoint (marks.map Mark.span))
    (hMark : mark ∈ marks) : mark.start < start + covered (marks.map Mark.span) := by
  induction marks generalizing start with
  | nil => cases hMark
  | cons first marks ih =>
    obtain ⟨hFirst, hRest⟩ := h
    have hPos := Tagged.covered_pos hEnd
    rcases List.mem_cons.1 hMark with rfl | hMark
    · rw [List.map_cons]
      omega
    · have := ih hRest (Tagged.not_endsInPoint_tail hEnd) hMark
      rw [List.map_cons, Tagged.covered_cons]
      omega

/-! ### Tags -/

theorem start_le_of_mem_tagRanges (h : tag ∈ tagRanges start events) : start ≤ tag.start := by
  induction events generalizing start with
  | nil => cases h
  | cons event events ih =>
    obtain ⟨_ | _, part⟩ := event
    · have := ih h
      omega
    · rcases List.mem_cons.1 h with rfl | h
      · exact Nat.le_refl _
      · have := ih h
        omega

/-- Whether the role of a span agrees with the places of tags: a span continues a
tag where it begins inside of it, and none reaches over the end of a tag. -/
structure Fits (mark : Mark) (tags : List TagRange) : Prop where
  outside : mark.role ≠ .tagRest →
    ∀ tag ∈ tags, ¬ (tag.start < mark.start ∧ mark.start < tag.stop)
  inside : mark.role = .tagRest →
    ∃ tag ∈ tags, tag.start < mark.start ∧ mark.start < tag.stop
  within : ∀ tag ∈ tags, tag.start ≤ mark.start → mark.start < tag.stop →
    mark.start + mark.span.length ≤ tag.stop

/-- The event of a tag: its first span has characters and begins with the tag,
the others begin inside of it. -/
theorem ofEvent_tag {part : Tagged} (h : part.IsFirm) (start : Nat) :
    ∃ span rest, part.spans = span :: rest ∧ 0 < span.length ∧
      ofEvent start (.terminal, part) =
        ⟨start, .tagStart part.text.toList, span⟩ ::
          spread .tagRest (start + span.length) rest := by
  obtain ⟨span, hHead, hSpan⟩ := h.starts
  obtain ⟨rest, hSpans⟩ := List.head?_eq_some_iff.1 hHead
  refine ⟨span, rest, hSpans, Nat.pos_of_ne_zero fun hZero => ?_, by simp only [ofEvent, hSpans]⟩
  rw [Span.isPoint, hZero] at hSpan
  cases hSpan

/-- A span that shares no byte with the other tags fits if it fits its own one. -/
theorem Fits.of_apart {earlier later : List TagRange} (h : mark.Fits tags)
    (hEarlier : ∀ tag ∈ earlier, tag.stop ≤ mark.start)
    (hLater : ∀ tag ∈ later, mark.start + mark.span.length ≤ tag.start) :
    mark.Fits (earlier ++ (tags ++ later)) := by
  have hCases : ∀ tag ∈ earlier ++ (tags ++ later), tag ∈ tags ∨
      tag.stop ≤ mark.start ∨ mark.start + mark.span.length ≤ tag.start := by
    intro tag hTag
    rcases List.mem_append.1 hTag with hTag | hTag
    · exact .inr (.inl (hEarlier tag hTag))
    · exact (List.mem_append.1 hTag).imp_right fun hTag => .inr (hLater tag hTag)
  refine ⟨fun hRole tag hTag => ?_, fun hRole => ?_, fun tag hTag hStart hStop => ?_⟩
  · rcases hCases tag hTag with hOwn | hApart
    · exact h.outside hRole tag hOwn
    · omega
  · obtain ⟨tag, hTag, hInside⟩ := h.inside hRole
    exact ⟨tag, by simp [hTag], hInside⟩
  · rcases hCases tag hTag with hOwn | hApart
    · exact h.within tag hOwn hStart hStop
    · omega

theorem fits_of_mem_ofEvent (hSound : Sound event) (hMark : mark ∈ ofEvent start event) :
    mark.Fits (tagRanges start [event]) := by
  have hBounds := bounds_of_placed (placed_ofEvent start event) hMark
  rw [map_span_ofEvent, hSound.covered] at hBounds
  obtain ⟨_ | _, part⟩ := event
  · have hRole : mark.role = .text := role_of_mem_spread hMark
    exact ⟨by simp [tagRanges], by simp [hRole], by simp [tagRanges]⟩
  · obtain ⟨span, rest, hSpans, hPos, hEvent⟩ := ofEvent_tag (hSound.firm rfl) start
    have hBefore := start_lt_of_placed (placed_ofEvent start (.terminal, part))
      (by rw [map_span_ofEvent]; exact (hSound.firm rfl).ends) hMark
    rw [map_span_ofEvent, hSound.covered] at hBefore
    dsimp only at hBounds hBefore
    rw [tagRanges, tagRanges]
    refine ⟨fun hRole => ?_, fun hRole => ?_, fun tag hTag _ _ => ?_⟩
    · rw [hEvent] at hMark
      rcases List.mem_cons.1 hMark with rfl | hMark
      · simp
      · exact absurd (role_of_mem_spread hMark) hRole
    · rw [hEvent] at hMark
      rcases List.mem_cons.1 hMark with rfl | hMark
      · cases hRole
      · have := (bounds_of_placed (placed_spread .tagRest _ rest) hMark).1
        exact ⟨_, List.mem_singleton_self _, by dsimp only; omega, hBefore⟩
    · obtain rfl := List.mem_singleton.1 hTag
      exact hBounds.2

theorem tagRanges_cons (start : Nat) (event : Event) (events : List Event) :
    tagRanges start (event :: events) =
      tagRanges start [event] ++ tagRanges (start + event.2.size) events := by
  obtain ⟨_ | _, part⟩ := event <;> rfl

theorem stop_le_of_mem_tagRanges (h : tag ∈ tagRanges start [event]) :
    tag.stop ≤ start + event.2.size := by
  obtain ⟨_ | _, part⟩ := event
  · cases h
  · obtain rfl := List.mem_singleton.1 h
    exact Nat.le_refl _

theorem fits_ofEvents {earlier : List TagRange} (hSound : ∀ event ∈ events, Sound event)
    (hEarlier : ∀ tag ∈ earlier, tag.stop ≤ start) (hMark : mark ∈ ofEvents start events) :
    mark.Fits (earlier ++ tagRanges start events) := by
  induction events generalizing start earlier with
  | nil => cases hMark
  | cons event events ih =>
    have hHere := hSound event List.mem_cons_self
    rw [tagRanges_cons]
    rcases List.mem_append.1 hMark with hMark | hMark
    · have hBounds := bounds_of_placed (placed_ofEvent start event) hMark
      rw [map_span_ofEvent, hHere.covered] at hBounds
      refine (fits_of_mem_ofEvent hHere hMark).of_apart (fun tag hTag => ?_) fun tag hTag => ?_
      · exact (hEarlier tag hTag).trans hBounds.1
      · exact hBounds.2.trans (start_le_of_mem_tagRanges hTag)
    · rw [← List.append_assoc]
      refine ih (fun other hOther => hSound other (List.mem_cons_of_mem event hOther)) ?_ hMark
      intro tag hTag
      rcases List.mem_append.1 hTag with hTag | hTag
      · exact (hEarlier tag hTag).trans (Nat.le_add_right _ _)
      · exact stop_le_of_mem_tagRanges hTag

/-- Every tag begins with a span that has characters. -/
theorem exists_tagStart (hSound : ∀ event ∈ events, Sound event)
    (hTag : tag ∈ tagRanges start events) :
    tag.start < tag.stop ∧
      ∃ span, ⟨tag.start, .tagStart tag.tag, span⟩ ∈ ofEvents start events ∧ 0 < span.length := by
  induction events generalizing start with
  | nil => cases hTag
  | cons event events ih =>
    rw [tagRanges_cons] at hTag
    rcases List.mem_append.1 hTag with hTag | hTag
    · obtain ⟨_ | _, part⟩ := event
      · cases hTag
      · obtain rfl := List.mem_singleton.1 hTag
        have hHere := hSound _ List.mem_cons_self
        obtain ⟨span, rest, hSpans, hPos, hEvent⟩ := ofEvent_tag (hHere.firm rfl) start
        have hSize := hHere.covered
        dsimp only at hSize
        rw [hSpans, Tagged.covered_cons] at hSize
        refine ⟨by dsimp only; omega, span, List.mem_append_left _ ?_, hPos⟩
        rw [hEvent]
        exact List.mem_cons_self
    · obtain ⟨hOrder, span, hMark, hPos⟩ :=
        ih (fun other hOther => hSound other (List.mem_cons_of_mem event hOther)) hTag
      exact ⟨hOrder, span, List.mem_append_right _ hMark, hPos⟩

/-- Where a tag goes on in another leaf, that leaf begins. -/
theorem offset_of_tagRest {leaves : List Leaf} (hTiles : Tiles leaves 0 (spansOf events))
    (hSound : ∀ event ∈ events, Sound event) (hMark : mark ∈ ofEvents start events)
    (hRole : mark.role = .tagRest) : mark.span.offset = 0 := by
  obtain ⟨event, hEvent, next, hHere⟩ := exists_ofEvent hMark
  obtain ⟨_ | _, part⟩ := event
  · rw [role_of_mem_spread hHere] at hRole
    cases hRole
  · have hFirm := (hSound _ hEvent).firm rfl
    obtain ⟨span, rest, hSpans, -, hMarks⟩ := ofEvent_tag hFirm next
    refine Template.Lexer.offset_of_mem_tail hTiles hEvent hFirm.nodup ?_
    rw [hMarks] at hHere
    rcases List.mem_cons.1 hHere with rfl | hHere
    · cases hRole
    · have hSpan : mark.span ∈ (spread .tagRest (next + span.length) rest).map Mark.span :=
        List.mem_map_of_mem hHere
      rw [map_span_spread] at hSpan
      change mark.span ∈ part.spans.tail
      rwa [hSpans]

end Mark

end Infill
