import Infill.Proofs.Constancy
import Mathlib.Data.List.TakeWhile

/-!
Taking blanks away next to tags. A line is compared with the one that would come
out if no tag asked for it. Between two tags it has the same entries with the same
places, and the texts of these entries, put together, are those of the other line
without the blanks that the two tags take away, however they are spread.
-/
namespace Infill

open Infill.Xml

open Template (Event Outline scan)
open Template.Lexer (Sound spansOf outline textOf)
open Tagged (StartsIn covered)

namespace Text

theorem trimStart_append (front back : List Char) :
    trimStart (front ++ back) =
      if (trimStart front).isEmpty then trimStart back else trimStart front ++ back :=
  List.dropWhile_append

theorem trimEnd_append (front back : List Char) :
    trimEnd (front ++ back) =
      if (trimEnd back).isEmpty then trimEnd front else front ++ trimEnd back := by
  rw [trimEnd, List.reverse_append, List.dropWhile_append, apply_ite List.reverse]
  refine if_congr ?_ rfl ?_
  · rw [trimEnd, List.isEmpty_reverse]
  · rw [List.reverse_append, List.reverse_reverse]
    rfl

/-- What is taken away at the start of a text is blank. -/
theorem exists_trimStart (text : List Char) :
    ∃ blanks, text = blanks ++ trimStart text ∧ ∀ c ∈ blanks, isBlank c = true :=
  ⟨text.takeWhile isBlank, List.takeWhile_append_dropWhile.symm, fun _ h => List.mem_takeWhile_imp h⟩

/-- What is taken away at the end of a text is blank. -/
theorem exists_trimEnd (text : List Char) :
    ∃ blanks, text = trimEnd text ++ blanks ∧ ∀ c ∈ blanks, isBlank c = true := by
  obtain ⟨blanks, hText, hBlank⟩ := exists_trimStart text.reverse
  refine ⟨blanks.reverse, ?_, fun c h => hBlank c (List.mem_reverse.1 h)⟩
  have hReverse := congrArg List.reverse hText
  rwa [List.reverse_reverse, List.reverse_append] at hReverse

/-- A text without the blanks at its start, if a tag in front of it takes them away,
and without those at its end, if a tag behind it does. -/
def trimmed (after before : Bool) (text : List Char) : List Char :=
  let text := if after then trimStart text else text
  if before then trimEnd text else text

end Text

/-- Behind a tag that takes blanks away, a text loses those at its start if there was
nothing else up to there. -/
theorem Text.trimmed_append (after : Bool) (front back : List Char) :
    trimmed after false (front ++ back) = trimmed after false front ++
      if after && (trimmed after false front).isEmpty then trimStart back else back := by
  cases after with
  | false => rfl
  | true =>
    change trimStart (front ++ back) = trimStart front ++
      if (trimStart front).isEmpty then trimStart back else back
    rw [trimStart_append]
    split
    · rename_i hBlank
      rw [List.isEmpty_iff.1 hBlank, List.nil_append]
    · rfl

/-! ### Entries -/

/-- Whether an entry is another one with blanks taken from the ends of its text. It
has the same place. It is not constant if blanks were taken, and as constant as the
other one if none were. -/
structure Trimmed (plain entry : Pointer × String) : Prop where
  place : entry.1 = { plain.1 with isConstant := entry.1.isConstant }
  blanks : ∃ front back, plain.2.toList = front ++ entry.2.toList ++ back ∧
    ∀ c ∈ front ++ back, Text.isBlank c = true
  same : entry.2 = plain.2 → entry.1.isConstant = plain.1.isConstant
  changed : entry.2 ≠ plain.2 → entry.1.isConstant = false

namespace Trimmed

variable {plain entry other : Pointer × String}

theorem refl (entry : Pointer × String) : Trimmed entry entry :=
  ⟨rfl, ⟨[], [], (List.append_nil _).symm, by simp⟩, fun _ => rfl, fun h => absurd rfl h⟩

theorem trans (h : Trimmed plain entry) (hMore : Trimmed entry other) : Trimmed plain other := by
  obtain ⟨front, back, hPlain, hBlank⟩ := h.blanks
  obtain ⟨first, last, hEntry, hMoreBlank⟩ := hMore.blanks
  refine ⟨?_, ⟨front ++ first, last ++ back, ?_, ?_⟩, fun hSame => ?_, fun hChanged => ?_⟩
  · rw [hMore.place, h.place]
  · rw [hPlain, hEntry]
    simp
  · simp only [List.mem_append, or_imp, forall_and] at hBlank hMoreBlank ⊢
    exact ⟨⟨hBlank.1, hMoreBlank.1⟩, hMoreBlank.2, hBlank.2⟩
  · -- what is all there in the end was all there in between
    have hLength := congrArg List.length hPlain
    rw [hEntry, hSame] at hLength
    simp only [List.length_append] at hLength
    obtain rfl : front = [] := List.eq_nil_of_length_eq_zero (by omega)
    obtain rfl : back = [] := List.eq_nil_of_length_eq_zero (by omega)
    have hBetween : entry.2 = plain.2 := String.toList_inj.1 (by simpa using hPlain.symm)
    rw [hMore.same (hSame.trans hBetween.symm), h.same hBetween]
  · by_cases hSame : other.2 = entry.2
    · rw [hMore.same hSame]
      exact h.changed fun hBetween => hChanged (hSame.trans hBetween)
    · exact hMore.changed hSame

/-- An entry that is cut down to a part of its text is marked if it lost something. -/
theorem of_part {text : List Char} {front back : List Char}
    (hText : plain.2.toList = front ++ text ++ back)
    (hBlank : ∀ c ∈ front ++ back, Text.isBlank c = true) :
    Trimmed plain
      (if text.length = plain.2.toList.length then plain
        else ({ plain.1 with isConstant := false }, String.ofList text)) := by
  split
  · exact refl plain
  · rename_i hLess
    refine ⟨rfl, ⟨front, back, by rw [hText, String.toList_ofList], hBlank⟩, fun hSame => ?_,
      fun _ => rfl⟩
    rw [← hSame, String.toList_ofList] at hLess
    exact absurd rfl hLess

end Trimmed

/-- Whether the entries between two tags are those of another line, without the blanks
that the tags take away. -/
structure Trims (after before : Bool) (plain line : Line) : Prop where
  entries : List.Forall₂ Trimmed plain line
  text : Line.text line = Text.trimmed after before (Line.text plain)

/-- Whether entries carry a tag: the first one its characters, and the others none. -/
inductive Carries (tag : List Char) : Line → Prop
  | intro {first : Pointer × String} {points : Line} (hFirst : first.2.toList = tag)
    (hPoints : ∀ point ∈ points, point.2 = "" ∧ point.1.length = 0)
    (hChanges : ∀ entry ∈ first :: points, entry.1.isConstant = false) :
    Carries tag (first :: points)

/-- Whether an entry holds the bytes of a leaf that it points to. -/
def Quotes (leaves : List Leaf) (entry : Pointer × String) : Prop :=
  ∃ leaf ∈ leaves, leaf.path = entry.1.path ∧ Text.size leaf.text = entry.1.total ∧
    Text.slice? entry.1.offset (entry.1.offset + entry.1.length) leaf.text.toList =
      some entry.2.toList

/-- A line from which the tags took blanks away, next to the line with all of them,
whose entries between tags hold the bytes of leaves. A tag that begins with `{{-`, `{%-`
or `{#-` takes away the blanks in front of it, one that ends with `-}}`, `-%}` or `-#}`
those behind it. The first tag is behind one that takes blanks away behind it, or it is
not. -/
inductive Woven (leaves : List Leaf) : (after : Bool) → Outline → (plain line : Line) → Prop
  | rest {after : Bool} {plain line : Line} (hQuotes : ∀ entry ∈ plain, Quotes leaves entry)
    (hTrims : Trims after false plain line) :
    Woven leaves after (.ofText (Line.text plain)) plain line
  | tag {after : Bool} {outline : Outline} {tag : List Char}
    {stretch trimmed carriers plain line : Line} (hQuotes : ∀ entry ∈ stretch, Quotes leaves entry)
    (hTrims : Trims after (decide (Template.TrimsBefore tag)) stretch trimmed)
    (hTag : Carries tag carriers)
    (hMore : Woven leaves (decide (Template.TrimsAfter tag)) outline plain line) :
    Woven leaves after ⟨(Line.text stretch, tag) :: outline.tags, outline.rest⟩
      (stretch ++ (carriers ++ plain)) (trimmed ++ (carriers ++ line))

/-! ### Texts of entries -/

theorem Line.text_singleton (entry : Pointer × String) : Line.text [entry] = entry.2.toList :=
  List.append_nil _

/-- The entry of a text that is shortened. -/
theorem toList_shortened {pointer other : Pointer} {text : String} {short : List Char}
    (hSame : short.length = text.toList.length → short = text.toList) :
    (if short.length = text.toList.length then (pointer, text)
      else (other, String.ofList short)).2.toList = short := by
  split
  · exact (hSame ‹_›).symm
  · exact String.toList_ofList

/-- The span of a text without the blanks at its start. -/
def Span.shortened (span : Span) (text : List Char) : Span :=
  if (Text.trimStart text).length = text.length then span else { span with isConstant := false }

theorem Span.shortened_path (span : Span) (text : List Char) :
    (span.shortened text).path = span.path := by
  rw [Span.shortened]
  split <;> rfl

theorem Trimmed.shortened (span : Span) (index : Nat) (text : List Char) :
    Trimmed (.ofSpan span index, String.ofList text)
      (.ofSpan (span.shortened text) index, String.ofList (Text.trimStart text)) := by
  obtain ⟨blanks, hText, hBlank⟩ := Text.exists_trimStart text
  have hPart := @Trimmed.of_part (.ofSpan span index, String.ofList text) _ blanks []
    (by rw [String.toList_ofList, List.append_nil]; exact hText) (by rwa [List.append_nil])
  rw [String.toList_ofList] at hPart
  rw [Span.shortened]
  split at hPart
  · rename_i hFull
    rwa [if_pos hFull, (Text.trimStart_cases text).1 hFull]
  · rename_i hShort
    rwa [if_neg hShort]

namespace Draft

/-! ### Blanks at the end -/

/-- Going back over entries takes away the blanks at the end of their text. -/
theorem text_trimBack (entries : Line) :
    Line.text (trimBack entries).reverse = Text.trimEnd (Line.text entries.reverse) := by
  induction entries with
  | nil => rfl
  | cons entry entries ih =>
    obtain ⟨pointer, text⟩ := entry
    have hHere := @toList_shortened pointer { pointer with isConstant := false } text _
      (Text.trimEnd_cases text.toList).1
    rw [List.reverse_cons, Line.text_append, Line.text_singleton, Text.trimEnd_append, trimBack]
    dsimp only
    split
    · rename_i hBlank
      rw [List.reverse_cons, Line.text_append, Line.text_singleton, hHere, ih,
        List.isEmpty_iff.1 hBlank, List.append_nil]
    · rw [List.reverse_cons, Line.text_append, Line.text_singleton, hHere]

theorem trimmed_trimBack {plain entries : Line} (h : List.Forall₂ Trimmed plain entries) :
    List.Forall₂ Trimmed plain (trimBack entries) := by
  induction h with
  | nil => exact .nil
  | @cons other entry plain entries hEntry hRest ih =>
    obtain ⟨blanks, hText, hBlank⟩ := Text.exists_trimEnd entry.2.toList
    have hHere := hEntry.trans (@Trimmed.of_part entry _ [] blanks hText hBlank)
    rw [trimBack]
    split
    · exact .cons hHere ih
    · exact .cons hHere hRest

/-- Before a tag that asks for it the blanks at the end of the entries go. -/
theorem trims_trimBack {after : Bool} {plain line : Line} (h : Trims after false plain line) :
    Trims after true plain (trimBack line.reverse).reverse := by
  refine ⟨?_, ?_⟩
  · rw [← List.forall₂_reverse_iff, List.reverse_reverse]
    exact trimmed_trimBack (List.forall₂_reverse_iff.2 h.entries)
  · rw [text_trimBack, List.reverse_reverse, h.text]
    rfl

/-! ### Drafts side by side -/

/-- Add what a lexer found, and take no blanks away. -/
def lay (draft : Draft) : Event → Except Error Draft
  | (.text, tagged) =>
    .ok (tagged.pieces.foldl (fun draft piece => draft.push piece.1 piece.2) draft)
  | (.terminal, tag) =>
    if 1 < (atoms tag.spans).length then .error (.splitTerminal tag.text (atoms tag.spans))
    else
      let pushed := draft.pushTagSpans tag.text.toList tag.spans
      .ok { pushed with settled := pushed.line, recent := [], hasTag := true }

/-- Whether two drafts go on with the same index. -/
structure Agrees (plain draft : Draft) : Prop where
  index : draft.index = plain.index
  lastPath : draft.lastPath = plain.lastPath

/-- The index of the next entry. -/
def nextIndex (draft : Draft) (path : Path) : Nat :=
  if draft.lastPath = some path then draft.index else draft.index + 1

variable {plain draft changed : Draft}

theorem Agrees.nextIndex_eq (h : Agrees plain draft) (path : Path) :
    draft.nextIndex path = plain.nextIndex path := by
  rw [nextIndex, nextIndex, h.index, h.lastPath]

theorem Agrees.push (h : Agrees plain draft) (span other : Span) (hPath : other.path = span.path)
    (text short : List Char) : Agrees (plain.push span text) (draft.push other short) := by
  refine ⟨?_, congrArg some hPath⟩
  change draft.nextIndex other.path = plain.nextIndex span.path
  rw [hPath, h.nextIndex_eq]

theorem line_push (draft : Draft) (span : Span) (text : List Char) :
    (draft.push span text).line =
      draft.line ++ [(.ofSpan span (draft.nextIndex span.path), String.ofList text)] :=
  (List.append_assoc _ _ _).symm

/-- Two drafts add the same points. -/
theorem Agrees.pushPoints (h : Agrees plain draft) (spans : List Span) :
    ∃ points, (∀ point ∈ points, point.2 = "" ∧ point.1.length = 0 ∧ point.1.isConstant = false) ∧
      Agrees (plain.pushPoints spans) (draft.pushPoints spans) ∧
      (plain.pushPoints spans).line = plain.line ++ points ∧
      (draft.pushPoints spans).line = draft.line ++ points := by
  induction spans generalizing plain draft with
  | nil => exact ⟨[], by simp, h, (List.append_nil _).symm, (List.append_nil _).symm⟩
  | cons span spans ih =>
    obtain ⟨points, hPoints, hAgrees, hPlain, hDraft⟩ := ih (h.push
      { span with offset := span.offset + span.length, length := 0, isConstant := false } _ rfl [] [])
    refine ⟨(⟨span.path, false, span.total, span.offset + span.length, 0,
      plain.nextIndex span.path⟩, "") :: points, List.forall_mem_cons.2 ⟨⟨rfl, rfl, rfl⟩, hPoints⟩,
      hAgrees, ?_, ?_⟩
    · exact hPlain.trans (by rw [line_push, List.append_assoc]; rfl)
    · refine hDraft.trans ?_
      rw [line_push, List.append_assoc, h.nextIndex_eq]
      rfl

/-- Two drafts add the same entries for a tag. -/
theorem Agrees.pushTagSpans (h : Agrees plain draft) (tag : List Char) {spans : List Span}
    (hSpans : spans ≠ []) :
    ∃ carriers, Carries tag carriers ∧
      Agrees (plain.pushTagSpans tag spans) (draft.pushTagSpans tag spans) ∧
      (plain.pushTagSpans tag spans).line = plain.line ++ carriers ∧
      (draft.pushTagSpans tag spans).line = draft.line ++ carriers := by
  obtain _ | ⟨span, spans⟩ := spans
  · exact absurd rfl hSpans
  · obtain ⟨points, hPoints, hAgrees, hPlain, hDraft⟩ :=
      (h.push { span with isConstant := false } _ rfl tag tag).pushPoints spans
    refine ⟨(⟨span.path, false, span.total, span.offset, span.length, plain.nextIndex span.path⟩,
      String.ofList tag) :: points, ⟨String.toList_ofList, fun point hPoint => ?_, ?_⟩, hAgrees, ?_, ?_⟩
    · exact ⟨(hPoints point hPoint).1, (hPoints point hPoint).2.1⟩
    · exact List.forall_mem_cons.2 ⟨rfl, fun point hPoint => (hPoints point hPoint).2.2⟩
    · exact hPlain.trans (by rw [line_push, List.append_assoc]; rfl)
    · refine hDraft.trans ?_
      rw [line_push, List.append_assoc, h.nextIndex_eq]
      rfl

theorem text_recent_push (draft : Draft) (span : Span) (text : List Char) :
    Line.text (draft.push span text).recent = Line.text draft.recent ++ text := by
  rw [Draft.push, Line.text_append, Line.text_singleton, String.toList_ofList]

/-- A draft next to one that takes no blanks away, between two tags. -/
structure Trails (leaves : List Leaf) (after : Bool) (plain draft : Draft) : Prop where
  agrees : Agrees plain draft
  trims : Trims after false plain.recent draft.recent
  trimsNext : draft.trimsNext = (after && (Line.text draft.recent).isEmpty)
  quotes : ∀ entry ∈ plain.recent, Quotes leaves entry

namespace Trails

variable {leaves : List Leaf} {after : Bool}

/-- Text that stands behind a tag which takes blanks away, with nothing in between but
blanks, loses those at its start. -/
theorem push_trimStart (h : Trails leaves after plain draft) {span : Span} {text : List Char}
    (hTrims : draft.trimsNext = true)
    (hText : Text.trimmed after false (Line.text plain.recent ++ text) =
      Line.text draft.recent ++ Text.trimStart text)
    (hQuotes : ∀ entry ∈ (plain.push span text).recent, Quotes leaves entry) :
    Trails leaves after (plain.push span text)
      { draft.push (span.shortened text) (Text.trimStart text) with
        trimsNext := (Text.trimStart text).isEmpty } := by
  have hEntry := Trimmed.shortened span (plain.nextIndex span.path) text
  have hPath := span.shortened_path text
  have hNext := hTrims.symm.trans h.trimsNext
  rw [eq_comm, Bool.and_eq_true, List.isEmpty_iff] at hNext
  have hAgrees := h.agrees.push span (span.shortened text) hPath text (Text.trimStart text)
  refine ⟨⟨hAgrees.index, hAgrees.lastPath⟩, ⟨?_, ?_⟩, ?_, hQuotes⟩
  · refine List.rel_append h.trims.entries (.cons ?_ .nil)
    change Trimmed _ (.ofSpan (span.shortened text) (draft.nextIndex (span.shortened text).path), _)
    rwa [h.agrees.nextIndex_eq, hPath]
  · rw [text_recent_push, text_recent_push, hText]
  · change _ = (after && (Line.text (draft.push _ _).recent).isEmpty)
    rw [text_recent_push, hNext.1, hNext.2]
    rfl

/-- Other text is taken up as it is. -/
theorem push_verbatim (h : Trails leaves after plain draft) {span : Span} {text : List Char}
    (hTrims : ¬ draft.trimsNext = true)
    (hText : Text.trimmed after false (Line.text plain.recent ++ text) =
      Line.text draft.recent ++ text)
    (hQuotes : ∀ entry ∈ (plain.push span text).recent, Quotes leaves entry) :
    Trails leaves after (plain.push span text) (draft.push span text) := by
  refine ⟨h.agrees.push span span rfl text text, ⟨?_, ?_⟩, ?_, hQuotes⟩
  · refine List.rel_append h.trims.entries (.cons ?_ .nil)
    change Trimmed _ (.ofSpan span (draft.nextIndex span.path), String.ofList text)
    rw [h.agrees.nextIndex_eq]
    exact .refl _
  · rw [text_recent_push, text_recent_push, hText]
  · change draft.trimsNext = _
    rw [text_recent_push]
    have hNext := h.trimsNext
    cases after with
    | false => exact hNext
    | true =>
      -- something that is not blank stands behind the tag already
      have hSome : Line.text draft.recent ≠ [] := fun hNone =>
        hTrims (hNext.trans (by rw [hNone]; rfl))
      rw [Bool.eq_false_of_not_eq_true hTrims]
      exact (List.isEmpty_eq_false_iff.2 (List.append_ne_nil_of_left_ne_nil hSome _)).symm

theorem pushText (h : Trails leaves after plain draft) {span : Span} {text : List Char}
    (hQuotes : ∀ index, Quotes leaves (.ofSpan span index, String.ofList text)) :
    Trails leaves after (plain.push span text) (draft.pushText span text) := by
  have hAll : ∀ entry ∈ (plain.push span text).recent, Quotes leaves entry := by
    intro entry hEntry
    rcases List.mem_append.1 hEntry with hEntry | hEntry
    · exact h.quotes entry hEntry
    · rw [List.mem_singleton.1 hEntry]
      exact hQuotes _
  have hText := Text.trimmed_append after (Line.text plain.recent) text
  rw [← h.trims.text, ← h.trimsNext] at hText
  rw [Draft.pushText]
  split at hText
  · rename_i hTrims
    rw [if_pos hTrims]
    exact h.push_trimStart hTrims hText hAll
  · rename_i hTrims
    rw [if_neg hTrims]
    exact h.push_verbatim hTrims hText hAll

theorem pushPieces (h : Trails leaves after plain draft) {pieces : List (Span × List Char)}
    (hQuotes : ∀ piece ∈ pieces, ∀ index,
      Quotes leaves (.ofSpan piece.1 index, String.ofList piece.2)) :
    ∃ laid changed,
      pieces.foldl (fun draft piece => draft.push piece.1 piece.2) plain = laid ∧
      pieces.foldl (fun draft piece => draft.pushText piece.1 piece.2) draft = changed ∧
      Trails leaves after laid changed ∧ laid.settled = plain.settled ∧
      changed.settled = draft.settled ∧
      Line.text laid.recent = Line.text plain.recent ++ pieces.flatMap Prod.snd := by
  induction pieces generalizing plain draft with
  | nil => exact ⟨plain, draft, rfl, rfl, h, rfl, rfl, (List.append_nil _).symm⟩
  | cons piece pieces ih =>
    obtain ⟨hPiece, hRest⟩ := List.forall_mem_cons.1 hQuotes
    obtain ⟨laid, changed, hLaid, hChanged, hTrails, hPlain, hDraft, hText⟩ :=
      ih (h.pushText hPiece) hRest
    have hSettled : (draft.pushText piece.1 piece.2).settled = draft.settled := by
      rw [Draft.pushText]
      split <;> rfl
    refine ⟨laid, changed, hLaid, hChanged, hTrails, hPlain, hDraft.trans hSettled, ?_⟩
    rw [hText, text_recent_push, List.flatMap_cons, List.append_assoc]

/-- A tag settles the entries in front of it, without the blanks that it takes away
there, and its own. -/
theorem pushTag (h : Trails leaves after plain draft) {tag : Tagged} (hSpans : tag.spans ≠ [])
    (hTag : draft.pushTag tag = .ok changed) :
    ∃ laid trimmed carriers, plain.lay (.terminal, tag) = .ok laid ∧ laid.recent = [] ∧
      Trails leaves (trimsAfter tag.text.toList) laid changed ∧
      Trims after (trimsBefore tag.text.toList) plain.recent trimmed ∧
      Carries tag.text.toList carriers ∧
      laid.settled = plain.settled ++ (plain.recent ++ carriers) ∧
      changed.settled = draft.settled ++ (trimmed ++ carriers) := by
  rw [Draft.pushTag] at hTag
  split at hTag
  · cases hTag
  · rename_i hAtoms
    obtain rfl := Except.ok.inj hTag
    have hTrimmed : Trims after (trimsBefore tag.text.toList) plain.recent
        (if trimsBefore tag.text.toList then (trimBack draft.recent.reverse).reverse
          else draft.recent) := by
      cases trimsBefore tag.text.toList with
      | false => exact h.trims
      | true => exact trims_trimBack h.trims
    generalize (if trimsBefore tag.text.toList then (trimBack draft.recent.reverse).reverse
      else draft.recent) = trimmed at hTrimmed ⊢
    have hAgrees : Agrees plain { draft with recent := trimmed } := ⟨h.agrees.index, h.agrees.lastPath⟩
    obtain ⟨carriers, hCarries, hNext, hPlain, hDraft⟩ :=
      hAgrees.pushTagSpans tag.text.toList hSpans
    refine ⟨_, trimmed, carriers, if_neg hAtoms, rfl, ⟨⟨hNext.index, hNext.lastPath⟩, ⟨.nil, ?_⟩, ?_, ?_⟩,
      hTrimmed, hCarries, ?_, ?_⟩
    · cases trimsAfter tag.text.toList <;> rfl
    · exact (Bool.and_true _).symm
    · simp
    · exact hPlain.trans (List.append_assoc _ _ _)
    · exact hDraft.trans (List.append_assoc _ _ _)

/-- Events that are taken up by two drafts side by side. -/
theorem foldlM (h : Trails leaves after plain draft) {events : List Event}
    (hSound : ∀ event ∈ events, Sound event)
    (hQuotes : ∀ event ∈ events, event.1 = .text → ∀ piece ∈ event.2.pieces, ∀ index,
      Quotes leaves (.ofSpan piece.1 index, String.ofList piece.2))
    (hEvents : events.foldlM Draft.step draft = .ok changed) :
    ∃ laid stretch line, events.foldlM lay plain = .ok laid ∧
      laid.line = plain.settled ++ stretch ∧ changed.line = draft.settled ++ line ∧
      Woven leaves after (.ofText (Line.text plain.recent) ++ outline events) stretch line := by
  induction events generalizing after plain draft with
  | nil =>
    obtain rfl : draft = changed := Except.ok.inj hEvents
    refine ⟨plain, plain.recent, draft.recent, rfl, rfl, rfl, ?_⟩
    rw [outline, List.foldr_nil, Outline.append_ofText_nil]
    exact .rest h.quotes h.trims
  | cons event events ih =>
    obtain ⟨hHere, hMoreSound⟩ := List.forall_mem_cons.1 hSound
    obtain ⟨hText, hMoreTexts⟩ := List.forall_mem_cons.1 hQuotes
    obtain ⟨next, hNext, hRest⟩ := bind_eq_ok.1 hEvents
    obtain ⟨_ | _, part⟩ := event
    · obtain ⟨laid, changed, hLaid, hChanged, hTrails, hPlain, hDraft, hRecent⟩ :=
        h.pushPieces (hText rfl)
      obtain rfl : changed = next := hChanged.symm.trans (Except.ok.inj hNext)
      obtain ⟨last, stretch, line, hLast, hStretch, hLine, hWoven⟩ :=
        ih hTrails hMoreSound hMoreTexts hRest
      refine ⟨last, stretch, line, ?_, by rw [hStretch, hPlain], by rw [hLine, hDraft], ?_⟩
      · rw [List.foldlM_cons, lay, hLaid]
        exact hLast
      · rw [hRecent, Tagged.pieces, Tagged.flatMap_divide hHere.covered.ge] at hWoven
        rw [Template.Lexer.outline_text_cons, ← Outline.append_assoc]
        exact hWoven
    · obtain ⟨span, hHead, -⟩ := (hHere.firm rfl).starts
      obtain ⟨laid, trimmed, carriers, hLaid, hRecent, hTrails, hTrims, hCarries, hPlain, hDraft⟩ :=
        h.pushTag (List.ne_nil_of_mem (List.mem_of_mem_head? hHead)) hNext
      obtain ⟨last, stretch, line, hLast, hStretch, hLine, hWoven⟩ :=
        ih hTrails hMoreSound hMoreTexts hRest
      refine ⟨last, plain.recent ++ (carriers ++ stretch), trimmed ++ (carriers ++ line), ?_, ?_, ?_,
        ?_⟩
      · rw [List.foldlM_cons, hLaid]
        exact hLast
      · rw [hStretch, hPlain, List.append_assoc, List.append_assoc]
      · rw [hLine, hDraft, List.append_assoc, List.append_assoc]
      · rw [trimsBefore_eq] at hTrims
        rw [hRecent, show Line.text [] = [] from rfl, Outline.ofText_nil_append, trimsAfter_eq] at hWoven
        rw [Template.Lexer.outline_terminal_cons, ← Outline.append_assoc, ← Outline.cons_eq]
        exact .tag h.quotes hTrims hCarries hWoven

end Trails

end Draft

/-! ### The bytes of leaves -/

theorem Tagged.map_fst_divide (text : List Char) (spans : List Span) :
    (divide text spans).map Prod.fst = spans := by
  induction spans generalizing text with
  | nil => rfl
  | cons span spans ih =>
    rw [divide]
    split <;> rw [List.map_cons, ih]

/-- A part of a leaf that is given with its characters. -/
theorem Leaf.quotes {leaf : Leaf} {leaves : List Leaf} {front text back : List Char}
    (hText : leaf.text.toList = front ++ text ++ back) (index : Nat) :
    Quotes (leaf :: leaves) (.ofSpan (leaf.part (Text.byteLength front) (Text.byteLength text)) index,
      String.ofList text) := by
  refine ⟨leaf, List.mem_cons_self, rfl, rfl, ?_⟩
  rw [hText, String.toList_ofList]
  exact Text.slice?_middle front text back

theorem Quotes.mono {leaves others : List Leaf} {entry : Pointer × String} (h : Quotes leaves entry)
    (hSubset : leaves ⊆ others) : Quotes others entry := by
  obtain ⟨leaf, hLeaf, hHolds⟩ := h
  exact ⟨leaf, hSubset hLeaf, hHolds⟩

/-- Pieces that tile leaves and make up their texts hold the bytes that they name. -/
theorem Tiles.quotes {leaves : List Leaf} {offset : Nat} {spans : List Span}
    {pieces : List (Span × List Char)} {front : List Char} (h : Tiles leaves offset spans)
    (hSpans : pieces.map Prod.fst = spans) (hFront : Text.byteLength front = offset)
    (hLengths : ∀ piece ∈ pieces, Text.byteLength piece.2 = piece.1.length)
    (hText : front ++ pieces.flatMap Prod.snd = Leaf.texts leaves) {piece : Span × List Char}
    (hPiece : piece ∈ pieces) (index : Nat) :
    Quotes leaves (.ofSpan piece.1 index, String.ofList piece.2) := by
  induction h generalizing pieces front with
  | nil =>
    rw [List.map_eq_nil_iff.1 hSpans] at hPiece
    cases hPiece
  | @last leaf leaves offset length spans hStop hPoint h ih =>
    obtain ⟨⟨span, text⟩, pieces, rfl, hSpan, hRest⟩ := List.map_eq_cons_iff.1 hSpans
    obtain ⟨hLength, hMore⟩ := List.forall_mem_cons.1 hLengths
    obtain rfl : span = leaf.part offset length := hSpan
    obtain rfl : Text.byteLength text = length := hLength
    have hTexts : Leaf.texts (leaf :: leaves) = leaf.text.toList ++ Leaf.texts leaves := rfl
    rw [hTexts, List.flatMap_cons, ← List.append_assoc] at hText
    have hSize : Text.byteLength leaf.text.toList = Text.byteLength (front ++ text) := by
      rw [Text.byteLength_append, hFront, hStop]
      rfl
    obtain ⟨more, hLeaf, hLast⟩ := Text.exists_append_of_le hText hSize.ge
    rw [hLeaf, Text.byteLength_append (front ++ text)] at hSize
    obtain rfl : more = [] := Text.eq_nil_of_byteLength (by omega)
    rcases List.mem_cons.1 hPiece with rfl | hPiece
    · subst hFront
      exact Leaf.quotes hLeaf index
    · exact (@ih pieces [] hRest rfl hMore hLast hPiece).mono (List.subset_cons_self _ _)
  | @more leaf leaves offset length spans hPos hStop h ih =>
    obtain ⟨⟨span, text⟩, pieces, rfl, hSpan, hRest⟩ := List.map_eq_cons_iff.1 hSpans
    obtain ⟨hLength, hMore⟩ := List.forall_mem_cons.1 hLengths
    obtain rfl : span = leaf.part offset length := hSpan
    obtain rfl : Text.byteLength text = length := hLength
    rw [List.flatMap_cons, ← List.append_assoc] at hText
    have hSize : Text.byteLength (front ++ text) ≤ Text.byteLength leaf.text.toList := by
      rw [Text.byteLength_append, hFront]
      exact hStop.le
    obtain ⟨more, hLeaf, -⟩ := @Text.exists_append_of_le (front ++ text) _ leaf.text.toList
      (Leaf.texts leaves) hText hSize
    rcases List.mem_cons.1 hPiece with rfl | hPiece
    · subst hFront
      exact Leaf.quotes hLeaf index
    · exact ih hRest (by rw [Text.byteLength_append, hFront]) hMore hText hPiece

/-- The line of a document without its blanks next to tags taken away. -/
def flattenPlain (format : Format) (root : Element) : Except Error Line := do
  let draft ← (← Template.Token.ofLeaves (format.leaves root)).foldlM Draft.lay {}
  return draft.line

variable {format : Format} {root : Element} {content : Content} {line : Line}

/-- Taking blanks away next to tags is the same as taking them from the text between
the tags. -/
theorem flatten_trims (h : flatten format root = .ok (content, line)) :
    ∃ plain, flattenPlain format root = .ok plain ∧
      Woven (format.leaves root) false
        ((scan (Leaf.texts (format.leaves root))).outline ++
          .ofText (scan (Leaf.texts (format.leaves root))).held) plain line := by
  obtain ⟨events, draft, hEvents, hDraft, rfl, -, hDrawn⟩ := exists_drawn h
  obtain ⟨found, hFound, -, -, hOutline⟩ := Template.Token.ofLeaves_laid hDrawn.ordered
  obtain rfl : events = found := Except.ok.inj (hEvents.symm.trans hFound)
  obtain ⟨hStarts, -⟩ := Template.Token.ofLeaves_seamed hDrawn.ordered hEvents
  have hText : textOf events = Leaf.texts (format.leaves root) := by
    rw [Template.Lexer.textOf_eq, hOutline, Template.Lexer.outline_text_scan]
  have hSpans : (events.flatMap fun event => event.2.pieces).map Prod.fst = spansOf events := by
    rw [List.map_flatMap]
    exact List.flatMap_congr fun event _ => Tagged.map_fst_divide _ _
  have hTexts : [] ++ (events.flatMap fun event => event.2.pieces).flatMap Prod.snd =
      Leaf.texts (format.leaves root) := by
    rw [List.nil_append, List.flatMap_assoc, ← hText]
    exact List.flatMap_congr fun event hEvent =>
      Tagged.flatMap_divide (hDrawn.sound event hEvent).covered.ge
  have hLengths : ∀ piece ∈ events.flatMap fun event => event.2.pieces,
      Text.byteLength piece.2 = piece.1.length := by
    intro piece hPiece
    obtain ⟨event, hEvent, hPiece⟩ := List.mem_flatMap.1 hPiece
    exact (Template.Lexer.mem_pieces hDrawn.sound hText hStarts hEvent hPiece).2
  have hStart : Draft.Trails (format.leaves root) false {} {} :=
    ⟨⟨rfl, rfl⟩, ⟨.nil, rfl⟩, rfl, by simp⟩
  obtain ⟨laid, plain, line, hLaid, hPlain, hLine, hWoven⟩ :=
    hStart.foldlM hDrawn.sound (fun event hEvent _ piece hPiece index =>
      hDrawn.tiles.quotes hSpans rfl hLengths hTexts
        (List.mem_flatMap.2 ⟨event, hEvent, hPiece⟩) index) hDraft
  refine ⟨laid.line, ?_, ?_⟩
  · rw [flattenPlain, hEvents, ok_bind, hLaid]
    rfl
  · rw [hPlain, hLine, ← hOutline]
    rw [show Line.text (Draft.recent {}) = [] from rfl, Outline.ofText_nil_append] at hWoven
    exact hWoven

/-- A letter with tags that take the blanks on both sides away, over the borders of
paragraphs, one of which is empty. -/
def Odt.note : Element :=
  element "section" none
    [element "p" (some "To ") [], element "p" (some " \x7b%- if x -%\x7d") [],
      element "p" none [], element "p" (some "\tyou \x7b#- hush -#\x7d") [],
      element "p" (some " and \x7b\x7b- x -\x7d\x7d ") []]

/-- The line of the letter. -/
def Odt.noteLine : Line :=
  [(⟨[0], false, 3, 0, 3, 1⟩, "To"), (⟨[1], false, 13, 0, 1, 2⟩, ""),
    (⟨[1], false, 13, 1, 12, 2⟩, "\x7b%- if x -%\x7d"), (⟨[2], true, 0, 0, 0, 3⟩, ""),
    (⟨[3], false, 17, 0, 5, 4⟩, "you"), (⟨[3], false, 17, 5, 12, 4⟩, "\x7b#- hush -#\x7d"),
    (⟨[4], false, 15, 0, 5, 5⟩, "and"), (⟨[4], false, 15, 5, 9, 5⟩, "\x7b\x7b- x -\x7d\x7d"),
    (⟨[4], false, 15, 14, 1, 5⟩, "")]

theorem flatten_trims_note :
    flatten .odt Odt.note = .ok (.template, Odt.noteLine) ∧
      ∃ plain, flattenPlain .odt Odt.note = .ok plain ∧
        Woven (Format.odt.leaves Odt.note) false
          ((scan (Leaf.texts (Format.odt.leaves Odt.note))).outline ++
            .ofText (scan (Leaf.texts (Format.odt.leaves Odt.note))).held) plain Odt.noteLine := by
  have hFlatten : flatten .odt Odt.note = .ok (.template, Odt.noteLine) := by decide +kernel
  exact ⟨hFlatten, flatten_trims hFlatten⟩

end Infill
