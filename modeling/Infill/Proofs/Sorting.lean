import Infill.Proofs.Scanning

/-!
What a lexer makes of its buffer. The parts it cuts lie between the characters
that the scan found, so every cut succeeds and an open lexer never fails. The
characters of the events and of the buffer are those of the scan; they do not
depend on the spans.
-/
namespace Infill

theorem Text.slice?_middle (front text back : List Char) :
    slice? (byteLength front) (byteLength front + byteLength text) (front ++ text ++ back) =
      some text := by
  rw [List.append_assoc, slice?, if_pos (Nat.le_add_right _ _), cut?_append]
  simp only [Nat.add_sub_cancel_left, cut?_append, Option.map_some]

namespace Tagged

/-- The given characters of a text that stand in it at byte `start`. -/
def part (tagged : Tagged) (start : Nat) (text : List Char) : Tagged :=
  ⟨String.ofList text, keep start (start + Text.byteLength text) tagged.size 0 tagged.spans⟩

variable {tagged : Tagged} {front text back : List Char}

@[simp] theorem text_part (tagged : Tagged) (start : Nat) (text : List Char) :
    (tagged.part start text).text.toList = text := by
  rw [part, String.toList_ofList]

/-- A slice between characters is the part that holds the characters in between. -/
theorem slice_eq_part (h : tagged.text.toList = front ++ text ++ back) :
    tagged.slice (Text.byteLength front) (Text.byteLength front + Text.byteLength text) =
      .ok (tagged.part (Text.byteLength front) text) := by
  rw [slice, h, Text.slice?_middle, part]

/-- Nothing stands between two bytes that are the same, unless the text ends there. -/
theorem keep_self {start size : Nat} (h : start < size) (cursor : Nat) (spans : List Span) :
    keep start start size cursor spans = [] := by
  induction spans generalizing cursor with
  | nil => rfl
  | cons span spans ih =>
    rw [keep, ih, List.append_nil, keep?]
    split
    · rw [if_neg (by omega), Option.toList_none]
    · dsimp only
      rw [if_pos (by omega), Option.toList_none]

end Tagged

namespace Template

/-- The characters of scanned tags and of what stands in front of them. -/
def Scan.front (found : Scan) : List Char :=
  found.tags.flatMap fun tag => tag.1 ++ tag.2

theorem front_append (text : List Char) :
    (scan text).front ++ (scan text).rest ++ (scan text).held = text :=
  scan_append text

namespace Lexer

/-- The events of tags that stand from byte `start` on in a buffer. -/
def tagParts (buffer : Tagged) : (start : Nat) → List (List Char × List Char) → List Event
  | _, [] => []
  | start, (before, tag) :: tags =>
    let tagStart := start + Text.byteLength before
    let (points, terminal) := (buffer.part tagStart tag).splitPoints
    textEvent ((buffer.part start before).addPoints points) ++
      (.terminal, terminal) :: tagParts buffer (tagStart + Text.byteLength tag) tags

/-- The events that a buffer is sorted into. -/
def sort (buffer : Tagged) : List Event :=
  let found := scan buffer.text.toList
  tagParts buffer 0 found.tags ++ textEvent (buffer.part (Text.byteLength found.front) found.rest)

/-- What stays of a buffer that was sorted. -/
def kept (buffer : Tagged) : Tagged :=
  let found := scan buffer.text.toList
  if found.held.isEmpty then .empty
  else buffer.part (Text.byteLength (found.front ++ found.rest)) found.held

theorem tagEvents_eq {buffer : Tagged} {front back : List Char}
    {tags : List (List Char × List Char)}
    (h : buffer.text.toList = front ++ (tags.flatMap fun tag => tag.1 ++ tag.2) ++ back) :
    tagEvents buffer (Text.byteLength front) tags =
      .ok (tagParts buffer (Text.byteLength front) tags,
        Text.byteLength (front ++ tags.flatMap fun tag => tag.1 ++ tag.2)) := by
  induction tags generalizing front with
  | nil => simp [tagEvents, tagParts]
  | cons tag tags ih =>
    obtain ⟨before, tag⟩ := tag
    rw [List.flatMap_cons] at h
    have hBefore : buffer.text.toList =
        front ++ before ++ (tag ++ (tags.flatMap fun tag => tag.1 ++ tag.2) ++ back) := by
      simpa using h
    have hTag : buffer.text.toList =
        front ++ before ++ tag ++ ((tags.flatMap fun tag => tag.1 ++ tag.2) ++ back) := by
      simpa using h
    have hRest := @ih (front ++ before ++ tag) (by simpa using h)
    have hTagSlice := Tagged.slice_eq_part hTag
    simp only [Text.byteLength_append] at hRest hTagSlice
    simp only [tagEvents, tagParts, Tagged.slice_eq_part hBefore, hTagSlice, hRest, bind, pure,
      Except.bind, Except.pure]
    simp only [List.flatMap_cons, Text.byteLength_append, Nat.add_assoc]

/-- In front of what is held back there are no points that belong to no tag. -/
theorem textEvent_part_nil {buffer : Tagged} {start : Nat} (h : start < buffer.size) :
    textEvent (buffer.part start []) = [] := by
  rw [Tagged.part, Text.byteLength_nil, Nat.add_zero, Tagged.keep_self h]
  rfl

/-- A lexer sorts its buffer, whatever stands in it. -/
theorem process_eq (lexer : Lexer) :
    lexer.process =
      .ok { lexer with
        buffer := kept lexer.buffer
        events := lexer.events ++ sort lexer.buffer } := by
  obtain ⟨buffer, events, isClosed⟩ := lexer
  have hText : buffer.text.toList = (scan buffer.text.toList).front ++
      (scan buffer.text.toList).rest ++ (scan buffer.text.toList).held := (front_append _).symm
  have hTags : tagEvents buffer 0 (scan buffer.text.toList).tags =
      .ok (tagParts buffer 0 (scan buffer.text.toList).tags,
        Text.byteLength (scan buffer.text.toList).front) :=
    @tagEvents_eq buffer [] ((scan buffer.text.toList).rest ++ (scan buffer.text.toList).held) _
      (by rw [List.nil_append, ← List.append_assoc]; exact hText)
  have hSize : buffer.size = Text.byteLength ((scan buffer.text.toList).front ++
      (scan buffer.text.toList).rest ++ (scan buffer.text.toList).held) := by
    rw [← hText]
    rfl
  rw [process, sort, kept]
  generalize scan buffer.text.toList = found at *
  simp only [hTags, bind, Except.bind]
  rw [Text.byteLength_append] at hSize
  by_cases hHeld : found.held = []
  · rw [hHeld, Text.byteLength_nil, Nat.add_zero, Text.byteLength_append] at hSize
    simp [hHeld, hSize, Tagged.slice_eq_part hText, pure, Except.pure]
  · have hKept := @Tagged.slice_eq_part buffer (found.front ++ found.rest) found.held []
      (by rw [List.append_nil, hText])
    rw [← hSize] at hKept
    rw [Text.byteLength_append] at hKept
    have hPos : 0 < Text.byteLength found.held :=
      Nat.pos_of_ne_zero fun hZero => hHeld (Text.eq_nil_of_byteLength hZero)
    by_cases hRest : found.rest = []
    · have hNone := @textEvent_part_nil buffer (Text.byteLength found.front)
        (by rw [hSize, Text.byteLength_append]; omega)
      simp only [hRest, Text.byteLength_nil, Nat.add_zero] at hKept
      simp [hHeld, hRest, hKept, hNone, pure, Except.pure]
    · simp [hHeld, hRest, hKept, Tagged.slice_eq_part hText, pure, Except.pure, Functor.map,
        Except.map]

/-- An open lexer takes every chunk. -/
theorem feed_eq {lexer : Lexer} (h : lexer.isClosed = false) (chunk : Tagged) :
    lexer.feed chunk =
      .ok { lexer with
        buffer := kept (lexer.buffer ++ chunk)
        events := lexer.events ++ sort (lexer.buffer ++ chunk) } := by
  rw [feed, h, if_neg Bool.false_ne_true, process_eq]

/-- The characters of events. -/
def outline (events : List Event) : Outline :=
  events.foldr
    (fun event found =>
      (match event.1 with
        | .text => Outline.ofText event.2.text.toList
        | .terminal => Outline.ofTag event.2.text.toList) ++ found)
    (.ofText [])

@[simp] theorem outline_nil : outline [] = .ofText [] := rfl

@[simp] theorem outline_text_cons (part : Tagged) (events : List Event) :
    outline ((.text, part) :: events) = .ofText part.text.toList ++ outline events := rfl

@[simp] theorem outline_terminal_cons (part : Tagged) (events : List Event) :
    outline ((.terminal, part) :: events) = .ofTag part.text.toList ++ outline events := rfl

theorem outline_append (left right : List Event) :
    outline (left ++ right) = outline left ++ outline right := by
  induction left with
  | nil => rw [List.nil_append, outline_nil, Outline.ofText_nil_append]
  | cons event left ih =>
    obtain ⟨_ | _, part⟩ := event
    · rw [List.cons_append, outline_text_cons, outline_text_cons, ih, Outline.append_assoc]
    · rw [List.cons_append, outline_terminal_cons, outline_terminal_cons, ih, Outline.append_assoc]

@[simp] theorem outline_textEvent (part : Tagged) :
    outline (textEvent part) = .ofText part.text.toList := by
  rw [textEvent]
  split
  · rename_i hEmpty
    simp only [Tagged.isEmpty, Bool.and_eq_true, String.isEmpty_iff] at hEmpty
    rw [hEmpty.1]
    rfl
  · rw [outline_text_cons, outline_nil, Outline.append_ofText_nil]

theorem outline_tagParts (buffer : Tagged) (start : Nat) (tags : List (List Char × List Char)) :
    outline (tagParts buffer start tags) = ⟨tags, []⟩ := by
  induction tags generalizing start with
  | nil => rfl
  | cons tag tags ih =>
    obtain ⟨before, tag⟩ := tag
    rw [tagParts]
    dsimp only
    rw [outline_append, outline_textEvent, outline_terminal_cons, ih, ← Outline.append_assoc]
    have hTag := Outline.cons_eq before tag ⟨tags, []⟩
    simp only [Tagged.addPoints, Tagged.splitPoints, Tagged.text_part]
    exact hTag.symm

/-- A buffer is sorted as its characters are scanned. -/
theorem outline_sort (buffer : Tagged) :
    outline (sort buffer) = (scan buffer.text.toList).outline := by
  rw [sort, outline_append, outline_tagParts, outline_textEvent, Tagged.text_part]
  exact congrArg (Outline.mk _) (List.nil_append _)

theorem text_kept (buffer : Tagged) :
    (kept buffer).text.toList = (scan buffer.text.toList).held := by
  rw [kept]
  split
  · rename_i hHeld
    rw [List.isEmpty_iff.1 hHeld]
    rfl
  · rw [Tagged.text_part]

end Lexer

end Template

end Infill
