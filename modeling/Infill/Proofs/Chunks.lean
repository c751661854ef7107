import Infill.Proofs.Sorting

/-!
A text may reach a lexer in chunks of any kind, and its events may be read at
any time. Neither has a say in which tags are found: the characters of all
events together are those that one scan of the whole text finds.
-/
namespace Infill.Template

/-- A tag with the bytes of a text at which it begins and ends. -/
structure TagRange where
  start : Nat
  stop : Nat
  tag : List Char
  deriving DecidableEq, Inhabited, Repr

namespace Outline

/-- The characters in order. -/
def text (outline : Outline) : List Char :=
  (outline.tags.flatMap fun tag => tag.1 ++ tag.2) ++ outline.rest

theorem text_append (left right : Outline) : (left ++ right).text = left.text ++ right.text := by
  obtain ⟨leftTags, leftRest⟩ := left
  obtain ⟨rightTags, rightRest⟩ := right
  change (append _ _).text = _
  cases rightTags <;> simp [append, text]

/-- The ranges of tags, when the text in front of the first one begins at byte
`start`. -/
def ranges : (start : Nat) → List (List Char × List Char) → List TagRange
  | _, [] => []
  | start, (before, tag) :: tags =>
    let tagStart := start + Text.byteLength before
    ⟨tagStart, tagStart + Text.byteLength tag, tag⟩ :: ranges (tagStart + Text.byteLength tag) tags

theorem ranges_ofText_append (start : Nat) (front : List Char) (outline : Outline) :
    ranges start (ofText front ++ outline).tags =
      ranges (start + Text.byteLength front) outline.tags := by
  obtain ⟨tags, rest⟩ := outline
  change ranges start (append _ _).tags = _
  cases tags <;> simp [append, ofText, ranges, Nat.add_assoc]

theorem ranges_ofTag_append (start : Nat) (tag : List Char) (outline : Outline) :
    ranges start (ofTag tag ++ outline).tags =
      ⟨start, start + Text.byteLength tag, tag⟩ ::
        ranges (start + Text.byteLength tag) outline.tags := by
  obtain ⟨tags, rest⟩ := outline
  change ranges start (append _ _).tags = _
  cases tags <;> simp [append, ofTag, ranges]

/-- The tags of two texts, one behind the other. -/
theorem ranges_append (start : Nat) (left right : Outline) :
    ranges start (left ++ right).tags =
      ranges start left.tags ++ ranges (start + Text.byteLength left.text) right.tags := by
  obtain ⟨tags, rest⟩ := left
  induction tags generalizing start with
  | nil => exact ranges_ofText_append start rest right
  | cons tag tags ih =>
    obtain ⟨before, tag⟩ := tag
    have hCons := cons_eq before tag ⟨tags, rest⟩
    have hTag := ih (start + Text.byteLength before + Text.byteLength tag)
    have hText : text ⟨(before, tag) :: tags, rest⟩ =
        before ++ tag ++ text ⟨tags, rest⟩ := by
      simp [Outline.text]
    rw [hText, Text.byteLength_append, Text.byteLength_append, ranges, List.cons_append]
    dsimp only at hCons hTag ⊢
    rw [hCons, append_assoc, append_assoc, ranges_ofText_append, ranges_ofTag_append, hTag]
    simp only [Nat.add_assoc]

theorem start_le_stop_of_mem_ranges {start : Nat} {tags : List (List Char × List Char)}
    {tag : TagRange} (h : tag ∈ ranges start tags) : tag.start ≤ tag.stop := by
  induction tags generalizing start with
  | nil => cases h
  | cons other tags ih =>
    rcases List.mem_cons.1 h with rfl | h
    · exact Nat.le_add_right _ _
    · exact ih h

/-- The texts in front of the tags and behind the last one. -/
def gaps (outline : Outline) : List (List Char) :=
  outline.tags.map Prod.fst ++ [outline.rest]

theorem gaps_ofText_append (front : List Char) (outline : Outline) :
    (ofText front ++ outline).gaps = outline.gaps.modifyHead (front ++ ·) := by
  obtain ⟨tags, rest⟩ := outline
  change (append _ _).gaps = _
  cases tags <;> simp [append, ofText, gaps]

theorem gaps_ofTag_append (tag : List Char) (outline : Outline) :
    (ofTag tag ++ outline).gaps = [] :: outline.gaps := by
  obtain ⟨tags, rest⟩ := outline
  change (append _ _).gaps = _
  cases tags <;> simp [append, ofTag, gaps]

end Outline

namespace Lexer

/-! ### Events -/

/-- The characters of events, one behind the other. -/
def textOf (events : List Event) : List Char :=
  events.flatMap fun event => event.2.text.toList

/-- The ranges of the tags among events that begin at byte `start`. -/
def tagRanges : (start : Nat) → List Event → List TagRange
  | _, [] => []
  | start, (.text, part) :: events => tagRanges (start + part.size) events
  | start, (.terminal, part) :: events =>
    ⟨start, start + part.size, part.text.toList⟩ :: tagRanges (start + part.size) events

/-- The texts between the tags of events, with those in front of the first tag
and behind the last one. -/
def gaps : List Event → List (List Char)
  | [] => [[]]
  | (.text, part) :: events => (gaps events).modifyHead (part.text.toList ++ ·)
  | (.terminal, _) :: events => [] :: gaps events

theorem textOf_eq (events : List Event) : textOf events = (outline events).text := by
  induction events with
  | nil => rfl
  | cons event events ih =>
    have hCons : textOf (event :: events) = event.2.text.toList ++ textOf events := rfl
    obtain ⟨_ | _, part⟩ := event
    · rw [hCons, ih, outline_text_cons, Outline.text_append]
      rfl
    · rw [hCons, ih, outline_terminal_cons, Outline.text_append]
      simp [Outline.text, Outline.ofTag]

theorem tagRanges_eq (start : Nat) (events : List Event) :
    tagRanges start events = Outline.ranges start (outline events).tags := by
  induction events generalizing start with
  | nil => rfl
  | cons event events ih =>
    obtain ⟨_ | _, part⟩ := event
    · rw [tagRanges, outline_text_cons, Outline.ranges_ofText_append, ih]
      rfl
    · rw [tagRanges, outline_terminal_cons, Outline.ranges_ofTag_append, ih]
      rfl

theorem gaps_eq (events : List Event) : gaps events = (outline events).gaps := by
  induction events with
  | nil => rfl
  | cons event events ih =>
    obtain ⟨_ | _, part⟩ := event
    · rw [gaps, outline_text_cons, Outline.gaps_ofText_append, ih]
    · rw [gaps, outline_terminal_cons, Outline.gaps_ofTag_append, ih]

/-- A tag stands in the text of the events where its range says. -/
theorem slice?_of_mem_tagRanges {front : List Char} {events : List Event} {range : TagRange}
    (h : range ∈ tagRanges (Text.byteLength front) events) :
    Text.slice? range.start range.stop (front ++ textOf events) = some range.tag := by
  induction events generalizing front with
  | nil => simp [tagRanges] at h
  | cons event events ih =>
    have hText : front ++ textOf (event :: events) =
        front ++ event.2.text.toList ++ textOf events := by
      simp [textOf]
    have hSize : Text.byteLength (front ++ event.2.text.toList) =
        Text.byteLength front + event.2.size :=
      Text.byteLength_append _ _
    rw [hText]
    obtain ⟨_ | _, part⟩ := event
    · rw [tagRanges, ← hSize] at h
      exact ih h
    · rw [tagRanges, ← hSize] at h
      rcases List.mem_cons.1 h with rfl | hLater
      · rw [Text.byteLength_append]
        exact Text.slice?_middle _ _ _
      · exact ih hLater

/-! ### Sessions -/

/-- What is done with a lexer before it is closed. -/
inductive Call
  /-- Feed a chunk, the text of one leaf. -/
  | feed (text : String) (path atom : Path)
  /-- Take the events that are there. -/
  | read
  deriving DecidableEq, Inhabited, Repr

/-- The text that a call feeds. -/
def Call.text : Call → List Char
  | feed text _ _ => text.toList
  | read => []

/-- The text that calls feed. -/
def fedText (calls : List Call) : List Char :=
  calls.flatMap Call.text

/-- The events that were read so far, and the lexer. -/
abbrev Session := List Event × Lexer

def Call.run (session : Session) : Call → Except Error Session
  | feed text path atom => do
    return (session.1, ← session.2.feed (.ofLeaf text path atom))
  | read => .ok (session.1 ++ session.2.read.1, session.2.read.2)

/-- The events of a lexer that is closed after the calls and then read. -/
def drain (calls : List Call) : Except Error (List Event) := do
  let (seen, lexer) ← calls.foldlM Call.run ([], {})
  return seen ++ lexer.close.read.1

/-- A session in which a text was fed: what came out is what a scan of the text
sorts, and what the lexer keeps is what the scan holds back. -/
structure Follows (session : Session) (text : List Char) : Prop where
  isOpen : session.2.isClosed = false
  found : outline (session.1 ++ session.2.events) = (scan text).outline
  held : session.2.buffer.text.toList = (scan text).held

theorem Follows.start : Follows ([], {}) [] :=
  ⟨rfl, by rw [@scan_of_none [] [] rfl]; rfl, by rw [@scan_of_none [] [] rfl]; rfl⟩

variable {session : Session} {text : List Char}

theorem Follows.run (h : Follows session text) (call : Call) :
    ∃ next, call.run session = .ok next ∧ Follows next (text ++ call.text) := by
  obtain ⟨seen, lexer⟩ := session
  have hOpen : lexer.isClosed = false := h.isOpen
  cases call with
  | read =>
    refine ⟨_, rfl, ?_⟩
    rw [Call.text, List.append_nil, Lexer.read, if_neg (ne_true_of_eq_false hOpen)]
    refine ⟨hOpen, ?_, h.held⟩
    rw [List.append_nil]
    exact h.found
  | feed chunk path atom =>
    have hBuffer : (lexer.buffer ++ Tagged.ofLeaf chunk path atom).text.toList =
        (scan text).held ++ chunk.toList := by
      rw [Tagged.text_append, String.toList_append, h.held]
      rfl
    obtain ⟨hOutline, hHeld⟩ := scan_append_more text chunk.toList
    have hRun : Call.run (seen, lexer) (.feed chunk path atom) =
        lexer.feed (.ofLeaf chunk path atom) >>= fun fed => .ok (seen, fed) := rfl
    rw [hRun, feed_eq hOpen]
    refine ⟨_, rfl, hOpen, ?_, ?_⟩
    · rw [← List.append_assoc, outline_append, h.found, outline_sort, hBuffer, Call.text, hOutline]
    · rw [text_kept, hBuffer, Call.text, hHeld]

theorem Follows.foldlM (h : Follows session text) (calls : List Call) :
    ∃ last, calls.foldlM Call.run session = .ok last ∧ Follows last (text ++ fedText calls) := by
  induction calls generalizing session text with
  | nil => exact ⟨session, rfl, by simpa [fedText] using h⟩
  | cons call calls ih =>
    obtain ⟨next, hNext, hFollows⟩ := h.run call
    obtain ⟨last, hLast, hAll⟩ := ih hFollows
    refine ⟨last, ?_, by simpa [fedText] using hAll⟩
    rw [List.foldlM_cons, hNext]
    exact hLast

/-- Whatever the calls, the events have the characters of one scan of the whole
text, with what the scan holds back as text at the end. -/
theorem drain_outline (calls : List Call) :
    ∃ events, drain calls = .ok events ∧
      outline events = (scan (fedText calls)).outline ++ .ofText (scan (fedText calls)).held := by
  obtain ⟨⟨seen, lexer⟩, hLast, hFollows⟩ := Follows.start.foldlM calls
  rw [List.nil_append] at hFollows
  refine ⟨seen ++ (lexer.events ++ textEvent lexer.buffer), ?_, ?_⟩
  · rw [drain, hLast]
    rfl
  · rw [← List.append_assoc, outline_append, hFollows.found, outline_textEvent, hFollows.held]

theorem outline_text_scan (text : List Char) :
    ((scan text).outline ++ .ofText (scan text).held).text = text := by
  rw [Outline.text_append]
  exact scan_append text

/-- Whether two lists of events show a text with the same tags, those of one scan of
the text, at the same bytes, and with the same texts between them. -/
structure ShowAlike (text : List Char) (events others : List Event) : Prop where
  scanned : tagRanges 0 events = Outline.ranges 0 (scan text).tags
  ranges_eq : tagRanges 0 events = tagRanges 0 others
  gaps_eq : gaps events = gaps others
  text_eq : textOf events = text
  others_eq : textOf others = text
  slice_eq : ∀ range ∈ tagRanges 0 events,
    Text.slice? range.start range.stop text = some range.tag

/-- Two ways of cutting a text into chunks, with events read at any moments,
lead to the same tags at the same bytes of the text and to the same texts
between them. The tags are those of one scan of the whole text. -/
theorem drain_chunks {left right : List Call} (h : fedText left = fedText right) :
    ∃ events others, drain left = .ok events ∧ drain right = .ok others ∧
      ShowAlike (fedText left) events others := by
  obtain ⟨events, hEvents, hLeft⟩ := drain_outline left
  obtain ⟨others, hOthers, hRight⟩ := drain_outline right
  have hText : textOf events = fedText left := by
    rw [textOf_eq, hLeft, outline_text_scan]
  refine ⟨events, others, hEvents, hOthers, ?_, ?_, ?_, hText, ?_, fun range hRange => ?_⟩
  · rw [tagRanges_eq, hLeft]
    rfl
  · rw [tagRanges_eq, tagRanges_eq, hLeft, hRight, h]
  · rw [gaps_eq, gaps_eq, hLeft, hRight, h]
  · rw [textOf_eq, hRight, outline_text_scan, h]
  · have hSlice := @slice?_of_mem_tagRanges [] events range hRange
    rwa [List.nil_append, hText] at hSlice

/-- A tag that is cut in its opening mark and in a string that holds a closing
mark, with events read in between and an empty chunk. -/
def quotedChunks : List Call :=
  [.feed "Dear \x7b" [0] [], .read, .feed "\x7b '\x7d\x7d" [1] [], .feed "" [2] [], .read,
    .feed "' \x7d\x7d x" [3] []]

/-- The same text in one chunk. -/
def quotedText : List Call :=
  [.feed "Dear \x7b\x7b '\x7d\x7d' \x7d\x7d x" [0] []]

theorem drain_chunks_quoted :
    fedText quotedChunks = fedText quotedText ∧
      ∃ events others, drain quotedChunks = .ok events ∧ drain quotedText = .ok others ∧
        ShowAlike (fedText quotedChunks) events others ∧
        tagRanges 0 others = [⟨5, 15, "\x7b\x7b '\x7d\x7d' \x7d\x7d".toList⟩] := by
  have hText : fedText quotedChunks = fedText quotedText := by decide
  obtain ⟨events, others, hEvents, hOthers, hAlike⟩ := drain_chunks hText
  refine ⟨hText, events, others, hEvents, hOthers, hAlike, ?_⟩
  rw [← hAlike.ranges_eq, hAlike.scanned]
  decide +kernel

end Lexer

end Infill.Template
