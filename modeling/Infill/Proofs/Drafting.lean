import Infill.Proofs.Marks
import Infill.Proofs.Numbering
import Mathlib.Data.List.Forall2

/-!
A draft turns every span of the events into one entry, in order. Taking blanks
away next to a tag changes texts alone, never the place of an entry; where no tag
asks for it the entries hold all characters.
-/
namespace Infill

open Template (Event)
open Template.Lexer (Sound tagRanges textOf)
open Tagged (covered)

/-- What an entry holds of a span. The span of a text keeps its bytes, whatever
becomes of the text; the first span of a tag carries the whole tag, and any other
one is a point at the end of its bytes. -/
inductive Shows : Mark → Pointer × String → Prop
  | text (start : Nat) (span : Span) (isConstant : Bool) (index : Nat) (text : String) :
    Shows ⟨start, .text, span⟩
      (⟨span.path, isConstant, span.total, span.offset, span.length, index⟩, text)
  | tagStart (start : Nat) (tag : List Char) (span : Span) (index : Nat) :
    Shows ⟨start, .tagStart tag, span⟩
      (⟨span.path, false, span.total, span.offset, span.length, index⟩, String.ofList tag)
  | tagRest (start : Nat) (span : Span) (index : Nat) :
    Shows ⟨start, .tagRest, span⟩
      (⟨span.path, false, span.total, span.offset + span.length, 0, index⟩, "")

/-- An entry ends where its span ends, and does not begin in front of it. -/
theorem Shows.place {mark : Mark} {entry : Pointer × String} (h : Shows mark entry) :
    entry.1.path = mark.span.path ∧ entry.1.total = mark.span.total ∧
      mark.span.offset ≤ entry.1.offset ∧
      entry.1.offset + entry.1.length = mark.span.offset + mark.span.length := by
  cases h with
  | text => exact ⟨rfl, rfl, Nat.le_refl _, rfl⟩
  | tagStart => exact ⟨rfl, rfl, Nat.le_refl _, rfl⟩
  | tagRest => exact ⟨rfl, rfl, Nat.le_add_right _ _, rfl⟩

/-- The entry of a span that continues no tag has the place of the span. -/
theorem Shows.place_eq {mark : Mark} {entry : Pointer × String} (h : Shows mark entry)
    (hRole : mark.role ≠ .tagRest) :
    entry.1.offset = mark.span.offset ∧ entry.1.length = mark.span.length := by
  cases h with
  | text => exact ⟨rfl, rfl⟩
  | tagStart => exact ⟨rfl, rfl⟩
  | tagRest => exact absurd rfl hRole

theorem Shows.of_tagStart {mark : Mark} {tag : List Char} {entry : Pointer × String}
    (h : Shows mark entry) (hRole : mark.role = .tagStart tag) :
    entry.1.isConstant = false ∧ entry.2 = String.ofList tag := by
  cases h with
  | text => cases hRole
  | tagStart =>
    cases hRole
    exact ⟨rfl, rfl⟩
  | tagRest => cases hRole

theorem Shows.of_tagRest {mark : Mark} {entry : Pointer × String} (h : Shows mark entry)
    (hRole : mark.role = .tagRest) :
    entry.1.offset = mark.span.offset + mark.span.length ∧ entry.1.length = 0 ∧
      entry.1.isConstant = false ∧ entry.2 = "" := by
  cases h with
  | text => cases hRole
  | tagStart => cases hRole
  | tagRest => exact ⟨rfl, rfl, rfl, rfl⟩

namespace Draft

/-- Point to the ends of spans. -/
def pushPoints (draft : Draft) (spans : List Span) : Draft :=
  spans.foldl
    (fun draft span =>
      draft.push
        { span with offset := span.offset + span.length, length := 0, isConstant := false } [])
    draft

theorem pushTagSpans_cons (draft : Draft) (text : List Char) (span : Span) (spans : List Span) :
    draft.pushTagSpans text (span :: spans) =
      (draft.push { span with isConstant := false } text).pushPoints spans :=
  rfl

/-- Whether a draft shows spans: those up to the last tag are settled, and those
since then are parts of texts. -/
structure Draws (draft : Draft) (front back : List Mark) : Prop where
  settled : List.Forall₂ Shows front draft.settled
  recent : List.Forall₂ Shows back draft.recent
  isText : ∀ mark ∈ back, mark.role = .text

variable {draft changed : Draft} {front back marks : List Mark} {entries : Line}

theorem Draws.shows_line (h : draft.Draws front back) :
    List.Forall₂ Shows (front ++ back) draft.line :=
  List.rel_append h.settled h.recent

theorem Draws.pushText (h : draft.Draws front back) (start : Nat) (span : Span)
    (text : List Char) :
    (draft.pushText span text).Draws front (back ++ [⟨start, .text, span⟩]) := by
  have hText : ∀ mark ∈ back ++ [⟨start, .text, span⟩], mark.role = .text := by
    intro mark hMark
    rcases List.mem_append.1 hMark with hMark | hMark
    · exact h.isText mark hMark
    · rw [List.mem_singleton.1 hMark]
  rw [Draft.pushText]
  split
  · refine ⟨h.settled, List.rel_append h.recent (.cons ?_ .nil), hText⟩
    split <;> exact Shows.text _ span _ _ _
  · exact ⟨h.settled, List.rel_append h.recent (.cons (Shows.text _ span _ _ _) .nil), hText⟩

/-- Blanks are taken away without any entry losing its place. -/
theorem shows_trimBack (h : List.Forall₂ Shows marks entries)
    (hText : ∀ mark ∈ marks, mark.role = .text) : List.Forall₂ Shows marks (trimBack entries) := by
  induction h with
  | nil => exact .nil
  | @cons mark entry marks entries hShows hRest ih =>
    have hHere : ∀ (isConstant : Bool) (text : String),
        Shows mark ({ entry.1 with isConstant := isConstant }, text) := by
      intro isConstant text
      cases hShows with
      | text start span => exact Shows.text start span _ _ _
      | tagStart => cases hText _ List.mem_cons_self
      | tagRest => cases hText _ List.mem_cons_self
    have hEntry : Shows mark
        (if (Text.trimEnd entry.2.toList).length = entry.2.toList.length then entry
          else
            ({ entry.1 with isConstant := false },
              String.ofList (Text.trimEnd entry.2.toList))) := by
      split
      · exact hShows
      · exact hHere false _
    rw [trimBack]
    split
    · exact .cons hEntry (ih fun other hOther => hText other (List.mem_cons_of_mem mark hOther))
    · exact .cons hEntry hRest

theorem shows_push {mark : Mark} {span : Span} {text : List Char}
    (h : List.Forall₂ Shows marks draft.line)
    (hMark : ∀ index, Shows mark (.ofSpan span index, String.ofList text)) :
    List.Forall₂ Shows (marks ++ [mark]) (draft.push span text).line := by
  rw [Draft.push, line]
  dsimp only
  rw [← List.append_assoc]
  exact List.rel_append h (.cons (hMark _) .nil)

theorem shows_pushPoints (h : List.Forall₂ Shows marks draft.line) (start : Nat)
    (spans : List Span) :
    List.Forall₂ Shows (marks ++ Mark.spread .tagRest start spans)
      (draft.pushPoints spans).line := by
  induction spans generalizing draft marks start with
  | nil => rwa [Mark.spread, List.append_nil]
  | cons span spans ih =>
    rw [Mark.spread, List.append_cons]
    exact ih (shows_push h fun index => Shows.tagRest start span index) _

/-- The entries of a tag. -/
theorem shows_pushTagSpans (start : Nat) (tag : Tagged)
    (h : List.Forall₂ Shows marks draft.line) :
    List.Forall₂ Shows (marks ++ Mark.ofEvent start (.terminal, tag))
      (draft.pushTagSpans tag.text.toList tag.spans).line := by
  rw [Mark.ofEvent]
  cases tag.spans with
  | nil => rwa [List.append_nil]
  | cons span spans =>
    dsimp only
    rw [pushTagSpans_cons, List.append_cons]
    exact shows_pushPoints
      (shows_push h fun index => Shows.tagStart start tag.text.toList span index) _ spans

theorem Draws.pushTag (h : draft.Draws front back) (start : Nat) {tag : Tagged}
    (hTag : draft.pushTag tag = .ok changed) :
    changed.Draws (front ++ back ++ Mark.ofEvent start (.terminal, tag)) [] := by
  rw [Draft.pushTag] at hTag
  split at hTag
  · cases hTag
  · obtain rfl := Except.ok.inj hTag
    refine ⟨shows_pushTagSpans start tag (List.rel_append h.settled ?_), .nil, by simp⟩
    dsimp only
    split
    · refine List.forall₂_reverse_iff.1 ?_
      rw [List.reverse_reverse]
      exact shows_trimBack (List.forall₂_reverse_iff.2 h.recent) fun mark hMark =>
        h.isText mark (List.mem_reverse.1 hMark)
    · exact h.recent

theorem Draws.pushPieces (h : draft.Draws front back) (start : Nat) (text : List Char)
    (spans : List Span) :
    ((Tagged.divide text spans).foldl (fun draft piece => draft.pushText piece.1 piece.2)
      draft).Draws front (back ++ Mark.spread .text start spans) := by
  induction spans generalizing draft back start text with
  | nil => rwa [Mark.spread, List.append_nil]
  | cons span spans ih =>
    rw [Tagged.divide, Mark.spread, List.append_cons]
    split
    · exact ih (h.pushText start span _) _ _
    · exact ih (h.pushText start span _) _ _

/-- Every span of an event becomes an entry. -/
theorem Draws.step (h : draft.Draws front back) (start : Nat) {event : Event}
    (hStep : draft.step event = .ok changed) :
    ∃ settled recent, settled ++ recent = front ++ back ++ Mark.ofEvent start event ∧
      changed.Draws settled recent := by
  obtain ⟨_ | _, part⟩ := event
  · obtain rfl := Except.ok.inj hStep
    exact ⟨front, _, (List.append_assoc _ _ _).symm,
      h.pushPieces start part.text.toList part.spans⟩
  · exact ⟨_, [], List.append_nil _, h.pushTag start hStep⟩

theorem Draws.foldlM {events : List Event} (h : draft.Draws front back) (start : Nat)
    (hEvents : events.foldlM Draft.step draft = .ok changed) :
    List.Forall₂ Shows (front ++ back ++ Mark.ofEvents start events) changed.line := by
  induction events generalizing draft front back start with
  | nil =>
    cases hEvents
    rw [Mark.ofEvents, List.append_nil]
    exact h.shows_line
  | cons event events ih =>
    obtain ⟨next, hNext, hRest⟩ := bind_eq_ok.1 hEvents
    obtain ⟨settled, recent, hMarks, hDraws⟩ := h.step start hNext
    rw [Mark.ofEvents, ← List.append_assoc, ← hMarks]
    exact ih hDraws _ hRest

end Draft

/-! ### Texts -/

/-- The characters of a line. -/
def Line.text (line : Line) : List Char :=
  line.flatMap fun entry => entry.2.toList

theorem Line.text_append (left right : Line) :
    Line.text (left ++ right) = Line.text left ++ Line.text right :=
  List.flatMap_append

/-- Spans that cover a text take all its characters. -/
theorem Tagged.flatMap_divide {text : List Char} {spans : List Span}
    (h : Text.byteLength text ≤ covered spans) : (divide text spans).flatMap Prod.snd = text := by
  induction spans generalizing text with
  | nil => exact (Text.eq_nil_of_byteLength (Nat.le_zero.1 h)).symm
  | cons span spans ih =>
    rw [covered_cons] at h
    rw [divide]
    split
    · rename_i front back hCut
      obtain ⟨rfl, hLength⟩ := Text.cut?_eq_some hCut
      rw [Text.byteLength_append] at h
      rw [List.flatMap_cons, ih (by omega)]
    · rw [List.flatMap_cons, ih (Nat.zero_le _), List.append_nil]

namespace Template

/-- Whether a tag takes the blanks in front of it away: it begins with `{{-`, `{%-`
or `{#-`. -/
def TrimsBefore (tag : List Char) : Prop :=
  ['{', '{', '-'] <+: tag ∨ ['{', '%', '-'] <+: tag ∨ ['{', '#', '-'] <+: tag

/-- Whether a tag takes the blanks behind it away: it ends with `-}}`, `-%}` or
`-#}`. -/
def TrimsAfter (tag : List Char) : Prop :=
  ['-', '}', '}'] <:+ tag ∨ ['-', '%', '}'] <:+ tag ∨ ['-', '#', '}'] <:+ tag

instance (tag : List Char) : Decidable (TrimsBefore tag) :=
  inferInstanceAs (Decidable (_ ∨ _ ∨ _))

instance (tag : List Char) : Decidable (TrimsAfter tag) :=
  inferInstanceAs (Decidable (_ ∨ _ ∨ _))

/-- Whether a tag takes no blanks away. -/
def TagRange.IsPlain (tag : TagRange) : Prop :=
  ¬ TrimsBefore tag.tag ∧ ¬ TrimsAfter tag.tag

end Template

namespace Draft

variable {draft changed : Draft}

theorem trimsBefore_eq (tag : List Char) : trimsBefore tag = decide (Template.TrimsBefore tag) := by
  rw [Bool.eq_iff_iff, decide_eq_true_iff]
  simp only [trimsBefore, Bool.or_eq_true, List.isPrefixOf_iff_prefix, or_assoc]
  rfl

theorem trimsAfter_eq (tag : List Char) : trimsAfter tag = decide (Template.TrimsAfter tag) := by
  rw [Bool.eq_iff_iff, decide_eq_true_iff]
  simp only [trimsAfter, Bool.or_eq_true, List.isSuffixOf_iff_suffix, or_assoc]
  rfl

@[simp] theorem text_push (draft : Draft) (span : Span) (text : List Char) :
    Line.text (draft.push span text).line = Line.text draft.line ++ text := by
  rw [push, line]
  dsimp only
  rw [← List.append_assoc, Line.text_append]
  simp [Line.text, line]

@[simp] theorem text_pushPoints (draft : Draft) (spans : List Span) :
    Line.text (draft.pushPoints spans).line = Line.text draft.line := by
  induction spans generalizing draft with
  | nil => rfl
  | cons span spans ih =>
    rw [pushPoints, List.foldl_cons, ← pushPoints, ih, text_push, List.append_nil]

theorem text_pushTagSpans {span : Span} {rest : List Span} (draft : Draft) (text : List Char) :
    Line.text (draft.pushTagSpans text (span :: rest)).line = Line.text draft.line ++ text := by
  rw [pushTagSpans_cons, text_pushPoints, text_push]

/-- Where no blanks are to go, pieces add their characters. -/
theorem text_pushPieces (hTrims : draft.trimsNext = false) (pieces : List (Span × List Char)) :
    (pieces.foldl (fun draft piece => draft.pushText piece.1 piece.2) draft).trimsNext = false ∧
      Line.text (pieces.foldl (fun draft piece => draft.pushText piece.1 piece.2) draft).line =
        Line.text draft.line ++ pieces.flatMap Prod.snd := by
  induction pieces generalizing draft with
  | nil => exact ⟨hTrims, (List.append_nil _).symm⟩
  | cons piece pieces ih =>
    have hPush : draft.pushText piece.1 piece.2 = draft.push piece.1 piece.2 := by
      rw [pushText, hTrims, if_neg Bool.false_ne_true]
    obtain ⟨hNext, hText⟩ := @ih (draft.push piece.1 piece.2) hTrims
    rw [List.foldl_cons, hPush]
    refine ⟨hNext, ?_⟩
    rw [hText, text_push, List.flatMap_cons, List.append_assoc]

/-- Without markers for blanks an event adds its characters to the line. -/
theorem text_step {event : Event} {start : Nat} (hTrims : draft.trimsNext = false)
    (hSound : Sound event) (hPlain : ∀ tag ∈ tagRanges start [event], tag.IsPlain)
    (hStep : draft.step event = .ok changed) :
    changed.trimsNext = false ∧
      Line.text changed.line = Line.text draft.line ++ event.2.text.toList := by
  obtain ⟨_ | _, part⟩ := event
  · obtain rfl := Except.ok.inj hStep
    rw [← Tagged.flatMap_divide hSound.covered.ge]
    exact text_pushPieces hTrims part.pieces
  · obtain ⟨hBefore, hAfter⟩ := hPlain _ (List.mem_singleton_self _)
    have hBefore : trimsBefore part.text.toList = false := by
      rw [trimsBefore_eq, decide_eq_false hBefore]
    have hAfter : trimsAfter part.text.toList = false := by
      rw [trimsAfter_eq, decide_eq_false hAfter]
    obtain ⟨span, hHead, -⟩ := (hSound.firm rfl).starts
    obtain ⟨rest, hSpans⟩ := List.head?_eq_some_iff.1 hHead
    change draft.pushTag part = _ at hStep
    rw [pushTag] at hStep
    split at hStep
    · cases hStep
    · obtain rfl := Except.ok.inj hStep
      refine ⟨hAfter, ?_⟩
      dsimp only at hBefore ⊢
      rw [line, List.append_nil, hBefore, if_neg Bool.false_ne_true]
      change Line.text (draft.pushTagSpans _ _).line = _
      rw [hSpans, text_pushTagSpans]

theorem text_foldlM {events : List Event} {start : Nat} (hTrims : draft.trimsNext = false)
    (hSound : ∀ event ∈ events, Sound event)
    (hPlain : ∀ tag ∈ tagRanges start events, tag.IsPlain)
    (hEvents : events.foldlM Draft.step draft = .ok changed) :
    Line.text changed.line = Line.text draft.line ++ textOf events := by
  induction events generalizing draft start with
  | nil =>
    cases hEvents
    exact (List.append_nil _).symm
  | cons event events ih =>
    obtain ⟨next, hNext, hRest⟩ := bind_eq_ok.1 hEvents
    rw [Mark.tagRanges_cons] at hPlain
    obtain ⟨hTrims', hText⟩ := text_step hTrims (hSound event List.mem_cons_self)
      (fun tag hTag => hPlain tag (List.mem_append_left _ hTag)) hNext
    rw [ih hTrims' (fun other hOther => hSound other (List.mem_cons_of_mem event hOther))
      (fun tag hTag => hPlain tag (List.mem_append_right _ hTag)) hRest, hText, List.append_assoc]
    rfl

end Draft

end Infill
