import Infill.Proofs.Unrolling
import Infill.Proofs.Seams

/-!
Which entries of a line are constant. An entry that holds all bytes of its span is
constant exactly if these are the whole text of its leaf. So a leaf that no tag
touches and that no blanks are taken from is a single constant entry, unless a brace
or an opening mark inside of it was held back at its end: then it is cut there, and
neither part is constant, although no tag came of it.
-/
namespace Infill

open Infill.Xml

open Template (Event TagRange)
open Template.Lexer (Sound spansOf tagRanges textOf)
open Tagged (StartsIn covered)

/-! ### Entries -/

/-- Whether an entry holds no more than the bytes it points to, and is constant
exactly if these are the whole leaf, unless it holds less than them. -/
structure Faithful (entry : Pointer × String) : Prop where
  size_le : Text.size entry.2 ≤ entry.1.length
  isConstant : Text.size entry.2 = entry.1.length →
    entry.1.isConstant = (entry.1.offset == 0 && entry.1.length == entry.1.total)

/-- An entry that lost some of its text is not constant. -/
theorem Faithful.of_lt {pointer : Pointer} {text : String} (h : Text.size text < pointer.length) :
    Faithful ({ pointer with isConstant := false }, text) :=
  ⟨h.le, fun hFull => absurd hFull h.ne⟩

namespace Text

/-- A part of a text is all of it, or has fewer bytes. -/
theorem part_cases {whole front text back : List Char} (h : whole = front ++ text ++ back) :
    (text.length = whole.length → text = whole) ∧
      (text.length ≠ whole.length → byteLength text < byteLength whole) := by
  have hBytes : byteLength whole = byteLength front + byteLength text + byteLength back := by
    rw [h, byteLength_append, byteLength_append]
  have hLength : whole.length = front.length + text.length + back.length := by
    rw [h, List.length_append, List.length_append]
  have hAll : front = [] → back = [] → text = whole := by
    rintro rfl rfl
    rw [h, List.nil_append, List.append_nil]
  refine ⟨fun hSame => ?_, fun hLess => ?_⟩
  · exact hAll (List.eq_nil_of_length_eq_zero (by omega)) (List.eq_nil_of_length_eq_zero (by omega))
  · by_contra hGe
    exact hLess (congrArg List.length
      (hAll (eq_nil_of_byteLength (by omega)) (eq_nil_of_byteLength (by omega))))

theorem trimStart_cases (text : List Char) :
    ((trimStart text).length = text.length → trimStart text = text) ∧
      ((trimStart text).length ≠ text.length → byteLength (trimStart text) < byteLength text) := by
  refine @part_cases text (text.takeWhile isBlank) _ [] ?_
  rw [List.append_nil, trimStart, List.takeWhile_append_dropWhile]

theorem trimEnd_cases (text : List Char) :
    ((trimEnd text).length = text.length → trimEnd text = text) ∧
      ((trimEnd text).length ≠ text.length → byteLength (trimEnd text) < byteLength text) := by
  refine @part_cases text [] _ (text.reverse.takeWhile isBlank).reverse ?_
  rw [List.nil_append, trimEnd, ← List.reverse_append, List.takeWhile_append_dropWhile,
    List.reverse_reverse]

end Text

namespace Draft

variable {draft changed : Draft} {path : Path} {entries : Line}

/-- Whether the entries of a leaf are faithful. -/
def Keeps (path : Path) (line : Line) : Prop :=
  ∀ entry ∈ line, entry.1.path = path → Faithful entry

theorem keeps_append {left right : Line} :
    Keeps path (left ++ right) ↔ Keeps path left ∧ Keeps path right := by
  simp only [Keeps, List.mem_append, or_imp, forall_and]

theorem Keeps.push (h : Keeps path draft.line) {span : Span} {text : List Char}
    (hEntry : span.path = path → ∀ index, Faithful (.ofSpan span index, String.ofList text)) :
    Keeps path (draft.push span text).line := by
  rw [Draft.push, line]
  dsimp only
  rw [← List.append_assoc]
  refine keeps_append.2 ⟨h, fun entry hMem hPath => ?_⟩
  obtain rfl := List.mem_singleton.1 hMem
  exact hEntry hPath _

theorem Keeps.pushText (h : Keeps path draft.line) {span : Span} {text : List Char}
    (hConstant : span.isConstant = (span.offset == 0 && span.length == span.total))
    (hLength : Text.byteLength text = span.length) :
    Keeps path (draft.pushText span text).line := by
  have hSize : ∀ text, Text.size (String.ofList text) = Text.byteLength text := by
    intro text
    rw [Text.size, String.toList_ofList]
  have hWhole : ∀ index, Faithful (.ofSpan span index, String.ofList text) :=
    fun index => ⟨(hSize text).le.trans hLength.le, fun _ => hConstant⟩
  rw [Draft.pushText]
  split
  · obtain ⟨hSame, hLess⟩ := Text.trimStart_cases text
    refine @Keeps.push draft path h _ _ fun _ index => ?_
    split
    · rename_i hFull
      rw [hSame hFull]
      exact hWhole index
    · rename_i hShort
      refine @Faithful.of_lt (.ofSpan span index) _ ?_
      rw [hSize]
      exact (hLess hShort).trans_eq hLength
  · exact h.push fun _ => hWhole

theorem Keeps.trimBack {entries : Line} (h : Keeps path entries) :
    Keeps path (Draft.trimBack entries) := by
  induction entries with
  | nil => exact h
  | cons entry entries ih =>
    obtain ⟨pointer, text⟩ := entry
    have hRest : Keeps path entries := fun entry hEntry => h entry (List.mem_cons_of_mem _ hEntry)
    have hHere : Keeps path
        [if (Text.trimEnd text.toList).length = text.toList.length then (pointer, text)
          else ({ pointer with isConstant := false },
            String.ofList (Text.trimEnd text.toList))] := by
      intro entry hEntry hPath
      rw [List.mem_singleton.1 hEntry] at hPath ⊢
      by_cases hFull : (Text.trimEnd text.toList).length = text.toList.length
      · rw [if_pos hFull] at hPath ⊢
        exact h _ List.mem_cons_self hPath
      · rw [if_neg hFull] at hPath ⊢
        refine @Faithful.of_lt pointer _ ?_
        rw [Text.size, String.toList_ofList]
        exact ((Text.trimEnd_cases text.toList).2 hFull).trans_le
          (h _ List.mem_cons_self hPath).size_le
    rw [Draft.trimBack]
    split
    · exact keeps_append.2 ⟨hHere, ih hRest⟩
    · exact keeps_append.2 ⟨hHere, hRest⟩

theorem Keeps.pushPieces {pieces : List (Span × List Char)} (h : Keeps path draft.line)
    (hPieces : ∀ piece ∈ pieces, Text.byteLength piece.2 = piece.1.length ∧
      piece.1.isConstant = (piece.1.offset == 0 && piece.1.length == piece.1.total)) :
    Keeps path (pieces.foldl (fun draft piece => draft.pushText piece.1 piece.2) draft).line := by
  induction pieces generalizing draft with
  | nil => exact h
  | cons piece pieces ih =>
    obtain ⟨hLength, hConstant⟩ := hPieces piece List.mem_cons_self
    exact ih (h.pushText hConstant hLength) fun other hOther =>
      hPieces other (List.mem_cons_of_mem piece hOther)

theorem Keeps.pushPoints (h : Keeps path draft.line) {spans : List Span}
    (hPaths : ∀ span ∈ spans, span.path ≠ path) : Keeps path (draft.pushPoints spans).line := by
  induction spans generalizing draft with
  | nil => exact h
  | cons span spans ih =>
    exact ih (h.push fun hPath => absurd hPath (hPaths span List.mem_cons_self))
      fun other hOther => hPaths other (List.mem_cons_of_mem span hOther)

theorem Keeps.pushTagSpans (h : Keeps path draft.line) {text : List Char} {spans : List Span}
    (hPaths : ∀ span ∈ spans, span.path ≠ path) :
    Keeps path (draft.pushTagSpans text spans).line := by
  obtain _ | ⟨span, spans⟩ := spans
  · exact h
  · have hFirst : Keeps path (draft.push { span with isConstant := false } text).line :=
      h.push fun hPath => absurd hPath (hPaths span List.mem_cons_self)
    rw [pushTagSpans_cons]
    exact hFirst.pushPoints fun other hOther => hPaths other (List.mem_cons_of_mem span hOther)

/-- A tag that shares nothing with a leaf takes blanks from it at most. -/
theorem Keeps.pushTag (h : Keeps path draft.line) {tag : Tagged}
    (hPaths : ∀ span ∈ tag.spans, span.path ≠ path) (hTag : draft.pushTag tag = .ok changed) :
    Keeps path changed.line := by
  rw [Draft.pushTag] at hTag
  split at hTag
  · cases hTag
  · obtain rfl := Except.ok.inj hTag
    obtain ⟨hSettled, hRecent⟩ := keeps_append.1 h
    rw [line, List.append_nil]
    dsimp only
    refine Keeps.pushTagSpans ?_ hPaths
    refine keeps_append.2 ⟨hSettled, ?_⟩
    dsimp only
    split
    · have hBack : Keeps path draft.recent.reverse := fun entry hEntry =>
        hRecent entry (List.mem_reverse.1 hEntry)
      exact fun entry hEntry => hBack.trimBack entry (List.mem_reverse.1 hEntry)
    · exact hRecent

theorem Keeps.foldlM {events : List Event} (h : Keeps path draft.line)
    (hTexts : ∀ event ∈ events, event.1 = .text → ∀ piece ∈ event.2.pieces,
      Text.byteLength piece.2 = piece.1.length ∧
        piece.1.isConstant = (piece.1.offset == 0 && piece.1.length == piece.1.total))
    (hTags : ∀ event ∈ events, event.1 = .terminal → ∀ span ∈ event.2.spans, span.path ≠ path)
    (hEvents : events.foldlM Draft.step draft = .ok changed) : Keeps path changed.line := by
  induction events generalizing draft with
  | nil =>
    cases hEvents
    exact h
  | cons event events ih =>
    obtain ⟨next, hNext, hRest⟩ := bind_eq_ok.1 hEvents
    refine ih ?_ (fun other hOther => hTexts other (List.mem_cons_of_mem event hOther))
      (fun other hOther => hTags other (List.mem_cons_of_mem event hOther)) hRest
    obtain ⟨_ | _, part⟩ := event
    · obtain rfl := Except.ok.inj hNext
      exact h.pushPieces (hTexts _ List.mem_cons_self rfl)
    · exact h.pushTag (hTags _ List.mem_cons_self rfl) hNext

theorem hasTag_pushPieces (draft : Draft) (pieces : List (Span × List Char)) :
    (pieces.foldl (fun draft piece => draft.pushText piece.1 piece.2) draft).hasTag =
      draft.hasTag := by
  induction pieces generalizing draft with
  | nil => rfl
  | cons piece pieces ih =>
    rw [List.foldl_cons, ih, Draft.pushText]
    split <;> rfl

/-- Only tags make a document a template. -/
theorem isText_of_hasTag {events : List Event}
    (hEvents : events.foldlM Draft.step draft = .ok changed) (hNone : changed.hasTag = false) :
    draft.hasTag = false ∧ ∀ event ∈ events, event.1 = .text := by
  induction events generalizing draft with
  | nil =>
    cases hEvents
    exact ⟨hNone, by simp⟩
  | cons event events ih =>
    obtain ⟨next, hNext, hRest⟩ := bind_eq_ok.1 hEvents
    obtain ⟨hSame, hTexts⟩ := ih hRest
    obtain ⟨_ | _, part⟩ := event
    · obtain rfl := Except.ok.inj hNext
      rw [hasTag_pushPieces] at hSame
      exact ⟨hSame, List.forall_mem_cons.2 ⟨rfl, hTexts⟩⟩
    · change draft.pushTag part = _ at hNext
      rw [Draft.pushTag] at hNext
      split at hNext
      · cases hNext
      · obtain rfl := Except.ok.inj hNext
        cases hSame

end Draft

/-! ### Marks of a leaf -/

namespace Mark

variable {mark : Mark} {events : List Event} {event : Event} {start : Nat}

/-- A span of a tag lies in the range of the tag, and a span without bytes inside
of it. -/
theorem exists_tag (hSound : ∀ event ∈ events, Sound event) (hMark : mark ∈ ofEvents start events)
    (hRole : mark.role ≠ .text) :
    ∃ tag ∈ tagRanges start events, tag.start ≤ mark.start ∧ mark.start < tag.stop ∧
      (tag.start = mark.start → 0 < mark.span.length) := by
  induction events generalizing start with
  | nil => cases hMark
  | cons event events ih =>
    rw [tagRanges_cons]
    rcases List.mem_append.1 hMark with hMark | hMark
    · have hHere := hSound event List.mem_cons_self
      have hPlaced := placed_ofEvent start event
      obtain ⟨_ | _, part⟩ := event
      · exact absurd (role_of_mem_spread hMark) hRole
      · have hFirm := hHere.firm rfl
        have hStop := start_lt_of_placed hPlaced (by rw [map_span_ofEvent]; exact hFirm.ends) hMark
        rw [map_span_ofEvent, hHere.covered] at hStop
        obtain ⟨span, rest, -, hPos, hEvent⟩ := ofEvent_tag hFirm start
        refine ⟨_, List.mem_append_left _ (List.mem_singleton_self _),
          (bounds_of_placed hPlaced hMark).1, hStop, fun hFirst => ?_⟩
        rw [hEvent] at hMark
        rcases List.mem_cons.1 hMark with rfl | hMark
        · exact hPos
        · have hBehind := (bounds_of_placed (placed_spread .tagRest _ rest) hMark).1
          dsimp only at hFirst
          omega
    · obtain ⟨tag, hTag, hPlace⟩ :=
        ih (fun other hOther => hSound other (List.mem_cons_of_mem event hOther)) hMark
      exact ⟨tag, List.mem_append_right _ hTag, hPlace⟩

/-- Every span of a tag has its place. -/
theorem exists_of_mem_terminal {part : Tagged} (hEvent : (.terminal, part) ∈ events) {span : Span}
    (hSpan : span ∈ part.spans) :
    ∃ mark ∈ ofEvents start events, mark.span = span ∧ mark.role ≠ .text := by
  induction events generalizing start with
  | nil => cases hEvent
  | cons event events ih =>
    rcases List.mem_cons.1 hEvent with rfl | hEvent
    · have hMem : span ∈ (ofEvent start (.terminal, part)).map Mark.span := by
        rwa [map_span_ofEvent]
      obtain ⟨mark, hMark, hSame⟩ := List.mem_map.1 hMem
      refine ⟨mark, List.mem_append_left _ hMark, hSame, ?_⟩
      rw [ofEvent] at hMark
      split at hMark
      · cases hMark
      · rcases List.mem_cons.1 hMark with rfl | hMark
        · exact Role.noConfusion
        · rw [role_of_mem_spread hMark]
          exact Role.noConfusion
    · obtain ⟨mark, hMark, hFound⟩ := @ih (start + event.2.size) hEvent
      exact ⟨mark, List.mem_append_right _ hMark, hFound⟩

theorem tagRanges_eq_nil (hTexts : ∀ event ∈ events, event.1 = .text) :
    tagRanges start events = [] := by
  induction events generalizing start with
  | nil => rfl
  | cons event events ih =>
    obtain ⟨hText, hRest⟩ := List.forall_mem_cons.1 hTexts
    obtain ⟨_ | _, part⟩ := event
    · exact ih hRest
    · cases hText

end Mark

/-- The entry of a text that is all there. -/
theorem Shows.entry_eq {mark : Mark} {entry : Pointer × String} {leaf : Leaf} {offset length : Nat}
    (h : Shows mark entry) (hRole : mark.role = .text) (hSpan : mark.span = leaf.part offset length)
    (hFaithful : Faithful entry) (hSize : Text.size entry.2 = length) :
    entry = (⟨leaf.path, offset == 0 && length == Text.size leaf.text, Text.size leaf.text, offset,
      length, entry.1.index⟩, entry.2) := by
  cases h with
  | text start span isConstant index text =>
    obtain rfl : span = leaf.part offset length := hSpan
    have hConstant : isConstant = _ := hFaithful.isConstant hSize
    rw [hConstant]
    rfl
  | tagStart => cases hRole
  | tagRest => cases hRole

theorem Shows.size_le {mark : Mark} {entry : Pointer × String} (h : Shows mark entry)
    (hRole : mark.role = .text) (hFaithful : Faithful entry) :
    Text.size entry.2 ≤ mark.span.length := by
  have hSize := hFaithful.size_le
  rwa [(h.place_eq (by rw [hRole]; exact Role.noConfusion)).2] at hSize

/-! ### Lines -/

variable {format : Format} {root : Element} {content : Content} {leaf : Leaf}
  {leaves front back : List Leaf} {line first entries last : Line} {marks before behind : List Mark}
  {events : List Event}

open Drawn (Excerpt)

/-- A drawn line with the bytes at which its leaves are cut. -/
structure Tailored (leaves : List Leaf) (events : List Event) (line : Line) : Prop
    extends Drawn leaves events line where
  starts : StartsIn (Leaf.Border leaves) 0 (spansOf events)
  splits : ∀ front back, leaves = front ++ back →
    ∃ left right, spansOf events = left ++ right ∧ covered left = Leaf.sorted front
  keeps : ∀ path, (∀ event ∈ events, event.1 = .terminal → ∀ span ∈ event.2.spans,
    span.path ≠ path) → Draft.Keeps path line

/-- A part of a leaf is constant if it is the whole leaf. -/
theorem Tiles.isConstant_eq {offset : Nat} {spans : List Span} {span : Span}
    (h : Tiles leaves offset spans) (hSpan : span ∈ spans) :
    span.isConstant = (span.offset == 0 && span.length == span.total) := by
  induction h with
  | nil => cases hSpan
  | last hStop hPoint h ih =>
    rcases List.mem_cons.1 hSpan with rfl | hSpan
    · rfl
    · exact ih hSpan
  | more hPos hStop h ih =>
    rcases List.mem_cons.1 hSpan with rfl | hSpan
    · rfl
    · exact ih hSpan

theorem exists_tailored (h : flatten format root = .ok (content, line)) :
    ∃ events, Tailored (format.leaves root) events line ∧
      (content = .plaintext → ∀ event ∈ events, event.1 = .text) := by
  obtain ⟨events, draft, hEvents, hDraft, rfl, hContent, hDrawn⟩ := exists_drawn h
  obtain ⟨hStarts, hSplits⟩ := Template.Token.ofLeaves_seamed hDrawn.ordered hEvents
  have hText : textOf events = Leaf.texts (format.leaves root) := by
    obtain ⟨found, hFound, -, -, hOutline⟩ := Template.Token.ofLeaves_laid hDrawn.ordered
    obtain rfl : events = found := Except.ok.inj (hEvents.symm.trans hFound)
    rw [Template.Lexer.textOf_eq, hOutline, Template.Lexer.outline_text_scan]
  refine ⟨events, ⟨hDrawn, hStarts, hSplits, fun path hTags => ?_⟩, fun hPlain => ?_⟩
  · refine Draft.Keeps.foldlM ?_ (fun event hEvent _ piece hPiece => ?_) hTags hDraft
    · exact fun entry hEntry => by cases hEntry
    · obtain ⟨hSpan, hLength⟩ :=
        Template.Lexer.mem_pieces hDrawn.sound hText hStarts hEvent hPiece
      exact ⟨hLength, hDrawn.tiles.isConstant_eq (List.mem_flatMap.2 ⟨event, hEvent, hSpan⟩)⟩
  · refine (Draft.isText_of_hasTag hDraft ?_).2
    rw [hContent] at hPlain
    split at hPlain
    · cases hPlain
    · exact Bool.eq_false_of_not_eq_true ‹_›

/-- The entry that copies a leaf as it is. -/
def Leaf.entry (leaf : Leaf) (index : Nat) : Pointer × String :=
  (⟨leaf.path, true, Text.size leaf.text, 0, Text.size leaf.text, index⟩, leaf.text)

/-- Whether entries copy the two parts of a leaf that was cut. Neither is constant. -/
def Leaf.IsHalved (leaf : Leaf) (index : Nat) (entries : Line) : Prop :=
  ∃ left right : String, left ≠ "" ∧ right ≠ "" ∧ leaf.text = left ++ right ∧
    entries =
      [(⟨leaf.path, false, Text.size leaf.text, 0, Text.size left, index⟩, left),
        (⟨leaf.path, false, Text.size leaf.text, Text.size left, Text.size right, index⟩, right)]

namespace Tailored

/-- The spans of a leaf that no tag touches belong to texts. -/
theorem role_eq (h : Tailored (front ++ leaf :: back) events line)
    (hMarks : Mark.ofEvents 0 events = before ++ (marks ++ behind))
    (hBefore : Tiles front 0 (before.map Mark.span)) (hHere : Tiles [leaf] 0 (marks.map Mark.span))
    (hUntouched : leaf.IsUntouched front back) {mark : Mark} (hMark : mark ∈ marks) :
    mark.role = .text := by
  by_contra hRole
  have hMem : mark ∈ Mark.ofEvents 0 events := by
    rw [hMarks]
    exact List.mem_append_right _ (List.mem_append_left _ hMark)
  obtain ⟨tag, hTag, hFrom, hUntil, hPos⟩ := Mark.exists_tag h.sound hMem hRole
  rw [h.tags] at hTag
  have hBounds := Mark.bounds_of_placed (h.marked hMarks hBefore hHere).placed hMark
  have hCovered := hHere.covered_eq
  have hApart := hUntouched tag hTag
  rw [Leaf.texts_append, Text.byteLength_append] at hApart
  omega

/-- No tag has a span of a leaf that no tag touches. -/
theorem path_ne (h : Tailored (front ++ leaf :: back) events line)
    (hMarks : Mark.ofEvents 0 events = before ++ (marks ++ behind))
    (hFirst : Excerpt front before first) (hHere : Excerpt [leaf] marks entries)
    (hLast : Excerpt back behind last) (hUntouched : leaf.IsUntouched front back) {event : Event}
    (hEvent : event ∈ events) (hTag : event.1 = .terminal) {span : Span}
    (hSpan : span ∈ event.2.spans) : span.path ≠ leaf.path := by
  obtain ⟨_, part⟩ := event
  obtain rfl : _ = Template.Token.terminal := hTag
  obtain ⟨mark, hMark, rfl, hRole⟩ := @Mark.exists_of_mem_terminal events 0 part hEvent _ hSpan
  have hNodup := h.nodup
  rw [List.map_append, List.map_cons, List.nodup_middle, List.nodup_cons, List.mem_append,
    not_or] at hNodup
  intro hPath
  rw [hMarks] at hMark
  rcases List.mem_append.1 hMark with hMark | hMark
  · obtain ⟨other, hOther, hSame, -⟩ := hFirst.tiles.mem (List.mem_map_of_mem hMark)
    exact hNodup.1.1 (List.mem_map.2 ⟨other, hOther, hSame.symm.trans hPath⟩)
  · rcases List.mem_append.1 hMark with hMark | hMark
    · exact hRole (h.role_eq hMarks hFirst.tiles hHere.tiles hUntouched hMark)
    · obtain ⟨other, hOther, hSame, -⟩ := hLast.tiles.mem (List.mem_map_of_mem hMark)
      exact hNodup.1.2 (List.mem_map.2 ⟨other, hOther, hSame.symm.trans hPath⟩)

/-- The entry of a leaf with a single span. -/
theorem entries_eq_entry {index : Nat} (hShows : List.Forall₂ Shows marks entries)
    (hRole : ∀ mark ∈ marks, mark.role = .text) (hFaithful : ∀ entry ∈ entries, Faithful entry)
    (hIndex : ∀ entry ∈ entries, entry.1.index = index)
    (hText : Line.text entries = leaf.text.toList)
    (hSpans : marks.map Mark.span = [leaf.part 0 (Text.size leaf.text)]) :
    entries = [leaf.entry index] := by
  obtain ⟨mark, rfl, hSpan⟩ := List.map_eq_singleton_iff.1 hSpans
  obtain _ | @⟨_, entry, _, _, hShow, hNil⟩ := hShows
  cases hNil
  have hSame : entry.2 = leaf.text := String.toList_inj.1 (by simpa [Line.text] using hText)
  rw [hShow.entry_eq (hRole mark List.mem_cons_self) hSpan (hFaithful entry List.mem_cons_self)
    (congrArg Text.size hSame), hIndex entry List.mem_cons_self, hSame]
  simp [Leaf.entry]

/-- The entries of a leaf with two spans. -/
theorem entries_isHalved {index left right : Nat} (hShows : List.Forall₂ Shows marks entries)
    (hRole : ∀ mark ∈ marks, mark.role = .text) (hFaithful : ∀ entry ∈ entries, Faithful entry)
    (hIndex : ∀ entry ∈ entries, entry.1.index = index)
    (hText : Line.text entries = leaf.text.toList) (hLeft : 0 < left) (hRight : 0 < right)
    (hSum : left + right = Text.size leaf.text)
    (hSpans : marks.map Mark.span = [leaf.part 0 left, leaf.part left right]) :
    leaf.IsHalved index entries := by
  obtain ⟨mark, marks, rfl, hSpan, hRest⟩ := List.map_eq_cons_iff.1 hSpans
  obtain ⟨other, rfl, hOther⟩ := List.map_eq_singleton_iff.1 hRest
  obtain _ | @⟨_, entry, _, _, hShow, hShows⟩ := hShows
  obtain _ | @⟨_, next, _, _, hNext, hNil⟩ := hShows
  cases hNil
  simp only [List.forall_mem_cons] at hRole hFaithful hIndex
  obtain ⟨hRole, hRole', -⟩ := hRole
  obtain ⟨hEntry, hEntry', -⟩ := hFaithful
  have hSize : Text.size entry.2 ≤ left := by simpa [hSpan] using hShow.size_le hRole hEntry
  have hSize' : Text.size next.2 ≤ right := by simpa [hOther] using hNext.size_le hRole' hEntry'
  have hJoined : leaf.text = entry.2 ++ next.2 := by
    rw [← String.toList_inj, ← hText, String.toList_append]
    simp [Line.text]
  -- the two texts have all bytes of the leaf, so neither lacks any of its span
  have hSizes : Text.size leaf.text = Text.size entry.2 + Text.size next.2 := by
    rw [Text.size, hJoined, String.toList_append, Text.byteLength_append, Text.size, Text.size]
  obtain rfl : left = Text.size entry.2 := by omega
  obtain rfl : right = Text.size next.2 := by omega
  refine ⟨entry.2, next.2, ?_, ?_, hJoined, ?_⟩
  · exact fun hNone => hLeft.ne' (by rw [hNone]; rfl)
  · exact fun hNone => hRight.ne' (by rw [hNone]; rfl)
  · have hFront := hShow.entry_eq hRole hSpan hEntry rfl
    have hBack := hNext.entry_eq hRole' hOther hEntry' rfl
    rw [hIndex.1, beq_eq_false_iff_ne.2 (by omega : Text.size entry.2 ≠ _), Bool.and_false]
      at hFront
    rw [hIndex.2.1, beq_eq_false_iff_ne.2 (by omega : Text.size entry.2 ≠ 0), Bool.false_and]
      at hBack
    rw [← hFront, ← hBack]

/-- The entries of a leaf that no tag touches and no blanks are taken from. -/
theorem entries_cases (h : Tailored (front ++ leaf :: back) events (first ++ (entries ++ last)))
    (hMarks : Mark.ofEvents 0 events = before ++ (marks ++ behind))
    (hFirst : Excerpt front before first) (hHere : Excerpt [leaf] marks entries)
    (hLast : Excerpt back behind last) (hUntouched : leaf.IsUntouched front back)
    (hText : Line.text entries = leaf.text.toList) :
    (¬ leaf.IsCut front → entries = [leaf.entry (front.length + 1)]) ∧
      (leaf.IsCut front → leaf.IsHalved (front.length + 1) entries) := by
  have hPath : ∀ entry ∈ entries, entry.1.path = leaf.path := fun entry hEntry =>
    List.mem_singleton.1 (hHere.path_mem hEntry)
  have hMem : ∀ entry ∈ entries, entry ∈ first ++ (entries ++ last) := fun entry hEntry =>
    List.mem_append_right _ (List.mem_append_left _ hEntry)
  have hIndex : ∀ entry ∈ entries, entry.1.index = front.length + 1 := fun entry hEntry =>
    (h.index_eq_iff (hMem entry hEntry)).2 (hPath entry hEntry)
  have hFaithful : ∀ entry ∈ entries, Faithful entry := fun entry hEntry =>
    h.keeps leaf.path (fun event hEvent hTag span hSpan =>
      h.path_ne hMarks hFirst hHere hLast hUntouched hEvent hTag hSpan) entry (hMem entry hEntry)
      (hPath entry hEntry)
  have hRole : ∀ mark ∈ marks, mark.role = .text := fun mark hMark =>
    h.role_eq hMarks hFirst.tiles hHere.tiles hUntouched hMark
  have hSpans : spansOf events =
      before.map Mark.span ++ (marks.map Mark.span ++ behind.map Mark.span) := by
    rw [← Mark.map_span_ofEvents 0, hMarks, List.map_append, List.map_append]
  have hStarts := h.starts
  have hSplits := h.splits (front ++ [leaf]) back (List.append_cons _ _ _)
  have hCovered := hFirst.tiles.covered_eq
  rw [Nat.zero_add] at hCovered
  rw [hSpans] at hStarts hSplits
  obtain ⟨hWhole, hHalves⟩ := hUntouched.spans_eq hHere.tiles hCovered hStarts hSplits
  refine ⟨fun hNone => ?_, fun hCut => ?_⟩
  · exact entries_eq_entry hHere.shows hRole hFaithful hIndex hText (hWhole hNone)
  · obtain ⟨left, right, hLeft, hRight, hSum, hBoth⟩ := hHalves hCut
    exact entries_isHalved hHere.shows hRole hFaithful hIndex hText hLeft hRight hSum hBoth

end Tailored

/-! ### Lines without tags -/

theorem Text.append_inj_of_le {front back first last : List Char}
    (h : front ++ back = first ++ last) (hFront : byteLength front ≤ byteLength first)
    (hBack : byteLength back ≤ byteLength last) : front = first ∧ back = last := by
  obtain ⟨more, rfl, rfl⟩ := exists_append_of_le h hFront
  rw [byteLength_append] at hBack
  obtain rfl : more = [] := eq_nil_of_byteLength (by omega)
  exact ⟨(List.append_nil front).symm, rfl⟩

namespace Drawn.Excerpt

theorem append (h : Excerpt front before first) (hBack : Excerpt back behind last) :
    Excerpt (front ++ back) (before ++ behind) (first ++ last) :=
  ⟨by rw [List.map_append]; exact h.tiles.append hBack.tiles, List.rel_append h.shows hBack.shows⟩

/-- Entries of texts hold no more than the texts of their leaves. -/
theorem text_le (h : Excerpt leaves marks entries) (hRole : ∀ mark ∈ marks, mark.role = .text)
    (hFaithful : ∀ entry ∈ entries, Faithful entry) :
    Text.byteLength (Line.text entries) ≤ Text.byteLength (Leaf.texts leaves) := by
  rw [← h.tiles.covered_eq, Nat.zero_add]
  have hShows := h.shows
  clear h
  induction hShows with
  | nil => exact Nat.le_refl 0
  | @cons mark entry marks entries hShow hShows ih =>
    obtain ⟨hMark, hMarks⟩ := List.forall_mem_cons.1 hRole
    obtain ⟨hEntry, hEntries⟩ := List.forall_mem_cons.1 hFaithful
    have hSize : Text.byteLength entry.2.toList ≤ mark.span.length := hShow.size_le hMark hEntry
    have hRest := ih hMarks hEntries
    rw [Line.text, List.flatMap_cons, Text.byteLength_append, List.map_cons, Tagged.covered_cons]
    exact Nat.add_le_add hSize hRest

end Drawn.Excerpt

/-- The line that copies leaves as they are. -/
def Line.verbatim (leaves : List Leaf) : Line :=
  leaves.mapIdx fun i leaf => leaf.entry (i + 1)

theorem Line.isConstant_of_mem_verbatim {entry : Pointer × String}
    (h : entry ∈ Line.verbatim leaves) : entry.1.isConstant = true := by
  obtain ⟨i, hi, rfl⟩ := List.mem_mapIdx.1 h
  rfl

/-- The entries for the leaf with an index. -/
def Line.entriesOf (line : Line) (index : Nat) : Line :=
  line.filter fun entry => entry.1.index == index

namespace Tailored

theorem isUntouched (h : Tailored (front ++ leaf :: back) events line)
    (hTexts : ∀ event ∈ events, event.1 = .text) : leaf.IsUntouched front back := by
  intro tag hTag
  rw [← h.tags, Mark.tagRanges_eq_nil hTexts] at hTag
  cases hTag

/-- Where there is no tag, no entry lacks any of its text. -/
theorem text_entries (h : Tailored (front ++ leaf :: back) events (first ++ (entries ++ last)))
    (hTexts : ∀ event ∈ events, event.1 = .text)
    (hMarks : Mark.ofEvents 0 events = before ++ (marks ++ behind))
    (hFirst : Excerpt front before first) (hHere : Excerpt [leaf] marks entries)
    (hLast : Excerpt back behind last) : Line.text entries = leaf.text.toList := by
  have hRole : ∀ mark ∈ before ++ (marks ++ behind), mark.role = .text := by
    intro mark hMark
    by_contra hRole
    rw [← hMarks] at hMark
    obtain ⟨tag, hTag, -⟩ := Mark.exists_tag h.sound hMark hRole
    rw [Mark.tagRanges_eq_nil hTexts] at hTag
    cases hTag
  have hFaithful : ∀ entry ∈ first ++ (entries ++ last), Faithful entry := by
    intro entry hEntry
    refine h.keeps entry.1.path (fun event hEvent hTag => ?_) entry hEntry rfl
    rw [hTexts event hEvent] at hTag
    cases hTag
  have hText := h.text (by rw [← h.tags, Mark.tagRanges_eq_nil hTexts]; simp)
  rw [Line.text_append, Line.text_append, Leaf.texts_append, ← List.singleton_append,
    Leaf.texts_append] at hText
  simp only [List.mem_append, or_imp, forall_and] at hRole hFaithful
  have hFront := hFirst.text_le hRole.1 hFaithful.1
  have hMiddle := hHere.text_le hRole.2.1 hFaithful.2.1
  have hBack := hLast.text_le hRole.2.2 hFaithful.2.2
  obtain ⟨-, hRest⟩ := Text.append_inj_of_le hText hFront
    (by rw [Text.byteLength_append, Text.byteLength_append]; omega)
  rw [(Text.append_inj_of_le hRest hMiddle hBack).1, Leaf.texts_singleton]

theorem text_entriesOf (h : Tailored (front ++ leaf :: back) events line)
    (hTexts : ∀ event ∈ events, event.1 = .text) :
    Line.text (line.entriesOf (front.length + 1)) = leaf.text.toList := by
  obtain ⟨before, marks, behind, first, entries, last, hMarks, rfl, hFirst, hHere, hLast⟩ :=
    h.exists_excerpts
  rw [Line.entriesOf, h.filter_index hFirst hHere hLast]
  exact h.text_entries hTexts hMarks hFirst hHere hLast

theorem entriesOf_cases (h : Tailored (front ++ leaf :: back) events line)
    (hUntouched : leaf.IsUntouched front back)
    (hText : Line.text (line.entriesOf (front.length + 1)) = leaf.text.toList) :
    (¬ leaf.IsCut front → line.entriesOf (front.length + 1) = [leaf.entry (front.length + 1)]) ∧
      (leaf.IsCut front →
        leaf.IsHalved (front.length + 1) (line.entriesOf (front.length + 1))) := by
  obtain ⟨before, marks, behind, first, entries, last, hMarks, rfl, hFirst, hHere, hLast⟩ :=
    h.exists_excerpts
  rw [Line.entriesOf, h.filter_index hFirst hHere hLast] at hText ⊢
  exact h.entries_cases hMarks hFirst hHere hLast hUntouched hText

/-- Where there is no tag and no leaf is cut, the line copies all leaves as they
are: leaf by leaf, in order. -/
theorem eq_verbatim (h : Tailored leaves events line) (hTexts : ∀ event ∈ events, event.1 = .text)
    (hNone : ∀ front leaf back, leaves = front ++ leaf :: back → ¬ leaf.IsCut front) :
    line = Line.verbatim leaves := by
  have hFront : ∀ front back, leaves = front ++ back → ∃ before behind last,
      Mark.ofEvents 0 events = before ++ behind ∧ line = Line.verbatim front ++ last ∧
      Excerpt front before (Line.verbatim front) ∧ Excerpt back behind last := by
    intro front
    induction front using List.reverseRecOn with
    | nil =>
      rintro back rfl
      exact ⟨[], _, line, rfl, rfl, ⟨.nil, .nil⟩, h.excerpt⟩
    | append_singleton front leaf ih =>
      intro back hLeaves
      rw [← List.append_cons] at hLeaves
      obtain ⟨before, behind, last, hMarks, rfl, hFirst, hMore⟩ := ih _ hLeaves
      rw [← List.singleton_append] at hMore
      obtain ⟨marks, behind, entries, last, rfl, rfl, hHere, hLast⟩ := hMore.split
      subst hLeaves
      have hText := h.text_entries hTexts hMarks hFirst hHere hLast
      obtain rfl := (h.entries_cases hMarks hFirst hHere hLast (h.isUntouched hTexts) hText).1
        (hNone front leaf back rfl)
      have hVerbatim : Line.verbatim (front ++ [leaf]) =
          Line.verbatim front ++ [leaf.entry (front.length + 1)] :=
        List.mapIdx_concat
      refine ⟨before ++ marks, behind, last, by rw [hMarks, List.append_assoc], ?_, ?_, hLast⟩
      · rw [hVerbatim, List.append_assoc]
      · rw [hVerbatim]
        exact hFirst.append hHere
  obtain ⟨before, behind, last, -, hLine, -, hLast⟩ := hFront leaves [] (List.append_nil _).symm
  have hNil := hLast.shows
  rw [List.map_eq_nil_iff.1 hLast.tiles.nil_inv.2] at hNil
  cases hNil
  rw [hLine, List.append_nil]

end Tailored

/-- A leaf that no tag touches and no blanks are taken from is a single entry, which
is constant and covers the whole leaf, exactly if it is not cut; otherwise it is two
entries, neither of them constant. A document without tags is copied leaf by leaf
exactly if none of its leaves is cut. -/
theorem flatten_untouched (h : flatten format root = .ok (content, line)) :
    (∀ front leaf back, format.leaves root = front ++ leaf :: back →
      leaf.IsUntouched front back →
      Line.text (line.entriesOf (front.length + 1)) = leaf.text.toList →
        (line.entriesOf (front.length + 1) = [leaf.entry (front.length + 1)] ↔
          ¬ leaf.IsCut front) ∧
        (leaf.IsCut front →
          leaf.IsHalved (front.length + 1) (line.entriesOf (front.length + 1)))) ∧
    (content = .plaintext →
      (line = Line.verbatim (format.leaves root) ↔
        ∀ front leaf back, format.leaves root = front ++ leaf :: back → ¬ leaf.IsCut front)) := by
  obtain ⟨events, hTailored, hPlain⟩ := exists_tailored h
  generalize format.leaves root = leaves at *
  refine ⟨fun front leaf back hLeaves hUntouched hText => ?_, fun hContent => ⟨?_, fun hNone => ?_⟩⟩
  · subst hLeaves
    obtain ⟨hWhole, hHalves⟩ := hTailored.entriesOf_cases hUntouched hText
    refine ⟨⟨fun hSingle hCut => ?_, hWhole⟩, hHalves⟩
    obtain ⟨left, right, -, -, -, hBoth⟩ := hHalves hCut
    rw [hSingle] at hBoth
    cases hBoth
  · rintro rfl front leaf back rfl hCut
    have hTexts := hPlain hContent
    obtain ⟨left, right, -, -, -, hBoth⟩ := (hTailored.entriesOf_cases
      (hTailored.isUntouched hTexts) (hTailored.text_entriesOf hTexts)).2 hCut
    have hConstant : ∀ entry ∈ (Line.verbatim (front ++ leaf :: back)).entriesOf (front.length + 1),
        entry.1.isConstant = true := fun entry hEntry =>
      Line.isConstant_of_mem_verbatim (List.mem_of_mem_filter hEntry)
    rw [hBoth] at hConstant
    exact Bool.noConfusion (hConstant _ List.mem_cons_self)
  · exact hTailored.eq_verbatim (hPlain hContent) hNone

/-- A letter whose first paragraph ends in a brace that opens no tag. -/
def Odt.bulletin : Element :=
  element "section" none
    [element "p" (some "Dear \x7b") [], element "p" (some "reader,") [],
      element "p" (some "\x7b\x7b news \x7d\x7d") []]

/-- The leaves of the letter. -/
def Odt.bulletinLeaves : List Leaf :=
  [⟨[0], [0], "Dear \x7b"⟩, ⟨[1], [1], "reader,"⟩, ⟨[2], [2], "\x7b\x7b news \x7d\x7d"⟩]

/-- The line of the letter. -/
def Odt.bulletinLine : Line :=
  [(⟨[0], false, 6, 0, 5, 1⟩, "Dear "), (⟨[0], false, 6, 5, 1, 1⟩, "\x7b"),
    (⟨[1], true, 7, 0, 7, 2⟩, "reader,"),
    (⟨[2], false, 10, 0, 10, 3⟩, "\x7b\x7b news \x7d\x7d")]

theorem flatten_untouched_bulletin :
    flatten .odt Odt.bulletin = .ok (.template, Odt.bulletinLine) ∧
      Odt.bulletinLine.entriesOf 2 = [Odt.bulletinLeaves[1].entry 2] ∧
      Odt.bulletinLeaves[0].IsHalved 1 (Odt.bulletinLine.entriesOf 1) := by
  have hFlatten : flatten .odt Odt.bulletin = .ok (.template, Odt.bulletinLine) := by decide +kernel
  have hTags : Leaf.tags Odt.bulletinLeaves =
      [⟨13, 23, "\x7b\x7b news \x7d\x7d".toList⟩] := by decide +kernel
  have hUntouched : ∀ {byte}, byte ≤ 13 → ∀ tag ∈ Leaf.tags Odt.bulletinLeaves,
      byte ≤ tag.start := by
    rw [hTags]
    simp
  have hFirst : Leaf.sorted [Odt.bulletinLeaves[0]] = 5 := by decide +kernel
  have hSecond : Leaf.sorted [Odt.bulletinLeaves[0], Odt.bulletinLeaves[1]] = 13 := by decide +kernel
  have hCut : Odt.bulletinLeaves[0].IsCut [] := by
    rw [Leaf.IsCut, List.nil_append, hFirst]
    decide
  have hWhole : ¬ Odt.bulletinLeaves[1].IsCut [Odt.bulletinLeaves[0]] := by
    rw [Leaf.IsCut, List.singleton_append, hSecond]
    decide
  obtain ⟨hLeaf, -⟩ := flatten_untouched hFlatten
  exact ⟨hFlatten,
    (hLeaf [Odt.bulletinLeaves[0]] Odt.bulletinLeaves[1] [Odt.bulletinLeaves[2]] (by decide +kernel)
      (fun tag hTag => .inr (hUntouched (by decide) tag hTag)) (by decide)).1.2 hWhole,
    (hLeaf [] Odt.bulletinLeaves[0] [Odt.bulletinLeaves[1], Odt.bulletinLeaves[2]] (by decide +kernel)
      (fun tag hTag => .inr (hUntouched (by decide) tag hTag)) (by decide)).2 hCut⟩

/-- A document without any tag whose only paragraph ends in a brace. -/
def Odt.brace : Element :=
  element "section" none [element "p" (some "a \x7b") []]

/-- The paragraph holds no tag, and yet it is cut in front of the brace, and both
parts are rewritten. -/
theorem flatten_brace :
    flatten .odt Odt.brace =
        .ok (.plaintext, [(⟨[0], false, 3, 0, 2, 1⟩, "a "), (⟨[0], false, 3, 2, 1, 1⟩, "\x7b")]) ∧
      Format.odt.leaves Odt.brace = [⟨[0], [0], "a \x7b"⟩] ∧
      Leaf.IsUntouched [] ⟨[0], [0], "a \x7b"⟩ [] := by
  have hTags : Leaf.tags [⟨[0], [0], "a \x7b"⟩] = [] := by decide +kernel
  refine ⟨by decide +kernel, by decide +kernel, fun tag hTag => ?_⟩
  rw [List.nil_append, hTags] at hTag
  cases hTag

end Infill
