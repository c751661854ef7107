import Infill.Proofs.Feeding
import Infill.Proofs.Slices
import Mathlib.Data.List.DropRight

/-!
What becomes of the spans that a lexer is fed, in chunks of any kind. Every event
shows the characters that stood in the whole text between its borders, from their
places in the leaves, and no point is lost. Only the points at the end of a chunk
that ends in a tag come out twice, once with the tag and once behind it.
-/
namespace Infill

namespace Tagged

variable {start stop size cursor other : Nat} {spans : List Span} {whole buffer chunk : Tagged}
  {text : List Char}

theorem append_assoc (left middle right : Tagged) :
    left ++ middle ++ right = left ++ (middle ++ right) := by
  change mk _ _ = mk _ _
  simp [String.append_assoc]

theorem empty_append (tagged : Tagged) : .empty ++ tagged = tagged := by
  change mk _ _ = tagged
  simp [empty]

theorem append_empty (tagged : Tagged) : tagged ++ .empty = tagged := by
  change mk _ _ = tagged
  simp [empty]

theorem toList_text_append (left right : Tagged) :
    (left ++ right).text.toList = left.text.toList ++ right.text.toList := by
  rw [text_append, String.toList_append]

theorem size_append (left right : Tagged) : (left ++ right).size = left.size + right.size := by
  rw [size, Text.size, toList_text_append, Text.byteLength_append]
  rfl

/-! ### Spans that cover characters -/

/-- The spans that cover characters. -/
def firm (spans : List Span) : List Span :=
  spans.filter fun span => !span.isPoint

theorem firm_append (left right : List Span) : firm (left ++ right) = firm left ++ firm right :=
  List.filter_append _ _

theorem firm_of_points (h : ∀ span ∈ spans, span.isPoint = true) : firm spans = [] := by
  refine List.filter_eq_nil_iff.2 fun span hSpan => ?_
  rw [h span hSpan]
  exact Bool.false_ne_true

theorem firm_cons_point {span : Span} (h : span.isPoint = true) : firm (span :: spans) = firm spans :=
  List.filter_cons_of_neg (by rw [h]; exact Bool.false_ne_true)

theorem firm_cons {span : Span} (h : ¬ span.isPoint = true) :
    firm (span :: spans) = span :: firm spans :=
  List.filter_cons_of_pos (by simpa using h)

theorem length_of_isPoint {span : Span} (h : span.isPoint = true) : span.length = 0 := by
  simpa [Span.isPoint] using h

theorem firm_takeWhile (spans : List Span) : firm (spans.takeWhile Span.isPoint) = [] :=
  firm_of_points fun _ hSpan => List.mem_takeWhile_imp hSpan

theorem firm_dropWhile (spans : List Span) : firm (spans.dropWhile Span.isPoint) = firm spans := by
  have hSplit := congrArg firm (@List.takeWhile_append_dropWhile _ Span.isPoint spans)
  rwa [firm_append, firm_takeWhile, List.nil_append] at hSplit

/-- What a slice keeps of the spans that cover characters does not depend on where
the text ends. -/
theorem firm_keep (other : Nat) :
    firm (keep start stop size cursor spans) = keep start stop other cursor (firm spans) := by
  induction spans generalizing cursor with
  | nil => rfl
  | cons span spans ih =>
    rw [keep, firm_append, ih]
    by_cases hPoint : span.isPoint = true
    · have hNone : firm (keep? start stop size cursor span).toList = [] := by
        rw [keep?, if_pos hPoint]
        split
        · exact firm_of_points (List.forall_mem_singleton.2 hPoint)
        · rfl
      rw [hNone, List.nil_append, firm_cons_point hPoint, length_of_isPoint hPoint, Nat.add_zero]
    · rw [firm_cons hPoint, keep, keep?_of_not_point hPoint, keep?_of_not_point hPoint]
      congr 1
      split
      · rfl
      · have hLength := @length_between cursor (max cursor start)
          (min (cursor + span.length) stop) span (by omega)
        refine (firm_cons fun hKept => ?_).trans rfl
        have := length_of_isPoint hKept
        omega

/-- What a slice keeps of spans that end in it does not depend on where it ends. -/
theorem firm_keep_of_le (hStop : cursor + covered spans ≤ stop) (hOther : cursor + covered spans ≤ other) :
    firm (keep start stop size cursor spans) = firm (keep start other size cursor spans) := by
  rw [firm_keep 0, firm_keep 0]
  induction spans generalizing cursor with
  | nil => rfl
  | cons span spans ih =>
    rw [covered_cons] at hStop hOther
    by_cases hPoint : span.isPoint = true
    · have hLength := length_of_isPoint hPoint
      rw [firm_cons_point hPoint]
      exact ih (by omega) (by omega)
    · rw [firm_cons hPoint, keep, keep, ih (by omega) (by omega), keep?_of_not_point hPoint,
        keep?_of_not_point hPoint, Nat.min_eq_left (by omega), Nat.min_eq_left (by omega)]

theorem spans_part (tagged : Tagged) (start : Nat) (text : List Char) :
    (tagged.part start text).spans =
      keep start (start + Text.byteLength text) tagged.size 0 tagged.spans :=
  rfl

/-- More text behind a part of a text changes nothing for the part. -/
theorem firm_part_append (hCovered : covered whole.spans = whole.size)
    (hStop : start + Text.byteLength text ≤ whole.size) :
    firm ((whole ++ chunk).part start text).spans = firm (whole.part start text).spans := by
  rw [spans_part, spans_part, spans_append, keep_append, firm_append, Nat.zero_add, hCovered,
    firm_keep (start + Text.byteLength text + 1), firm_keep (start + Text.byteLength text + 1),
    keep_eq_nil_of_le hStop (.inr (Nat.lt_succ_self _)), List.append_nil, ← firm_keep]

/-- A part of what is behind a byte of a text is a part of the text. -/
theorem firm_part_of_buffer
    (hBuffer : firm buffer.spans = firm (whole.part start buffer.text.toList).spans)
    (hStop : cursor + Text.byteLength text ≤ buffer.size) :
    firm (buffer.part cursor text).spans = firm (whole.part (start + cursor) text).spans := by
  have hKeep := @keep_keep start (start + buffer.size) cursor (cursor + Text.byteLength text)
    (start + buffer.size) 0 (firm whole.spans) (by omega) (Nat.le_add_right _ _) (Nat.le_refl _)
  rw [Nat.zero_max, Nat.sub_self] at hKeep
  rw [spans_part, firm_keep (start + buffer.size)] at hBuffer
  rw [spans_part, spans_part, firm_keep (start + buffer.size - start), hBuffer,
    firm_keep (start + buffer.size), Nat.add_assoc]
  exact hKeep

/-- What is behind a byte of a text goes on with what is put behind the text. -/
theorem firm_buffer_append (hCovered : covered whole.spans = whole.size)
    (hChunk : covered chunk.spans = chunk.size) (hSize : start + buffer.size = whole.size)
    (hBuffer : firm buffer.spans = firm (whole.part start buffer.text.toList).spans) :
    firm (buffer ++ chunk).spans =
      firm ((whole ++ chunk).part start (buffer ++ chunk).text.toList).spans := by
  have hStop : start + Text.byteLength (buffer ++ chunk).text.toList = whole.size + chunk.size := by
    rw [← hSize, Nat.add_assoc, ← size_append]
    rfl
  have hRest := @keep_all start (whole.size + chunk.size) whole.size chunk.spans (by omega)
    (by rw [hChunk])
  have hFront : firm (keep start (whole.size + chunk.size) (whole.size + chunk.size) 0 whole.spans) =
      firm buffer.spans := by
    rw [hBuffer, spans_part, firm_keep whole.size, ← firm_keep whole.size]
    refine firm_keep_of_le (by omega) ?_
    change 0 + covered whole.spans ≤ start + buffer.size
    omega
  rw [spans_part, hStop, size_append, spans_append, spans_append, keep_append, firm_append,
    firm_append, Nat.zero_add, hCovered, hRest, hFront]

/-! ### Points at the end -/

theorem length_points (start : Nat) (spans : List Span) :
    (points start spans).length + (firm spans).length = spans.length := by
  induction spans generalizing start with
  | nil => rfl
  | cons span spans ih =>
    have := ih (start + span.length)
    rw [points_cons, List.length_append, List.length_cons]
    by_cases hPoint : span.isPoint = true
    · rw [if_pos hPoint, firm_cons_point hPoint, List.length_singleton]
      omega
    · rw [if_neg hPoint, firm_cons hPoint, List.length_cons, List.length_nil]
      omega

/-- The points behind the last character. -/
def endPoints (spans : List Span) : List Span :=
  spans.rtakeWhile Span.isPoint

theorem isPoint_of_mem_endPoints {span : Span} (h : span ∈ endPoints spans) : span.isPoint = true :=
  List.mem_rtakeWhile_imp h

theorem endPoints_ne_nil_iff : endPoints spans ≠ [] ↔ EndsInPoint spans := by
  rw [endPoints, Ne, List.rtakeWhile_eq_nil_iff, EndsInPoint]
  constructor
  · intro h
    obtain ⟨hNonempty, hLast⟩ := not_forall.1 h
    exact ⟨_, List.getLast_mem_getLast? hNonempty, not_not.1 hLast⟩
  · rintro ⟨last, hLast, hPoint⟩ hAll
    obtain ⟨hNonempty, rfl⟩ := List.mem_getLast?_eq_getLast hLast
    exact hAll hNonempty hPoint

/-- Points at the end are those of the last spans that cover something. -/
theorem endPoints_append {left right : List Span} (h : 0 < covered right) :
    endPoints (left ++ right) = endPoints right := by
  induction right using List.reverseRecOn with
  | nil => exact absurd h (Nat.lt_irrefl 0)
  | append_singleton right span ih =>
    rw [endPoints, endPoints, ← List.append_assoc]
    by_cases hPoint : span.isPoint = true
    · rw [List.rtakeWhile_concat_pos _ _ _ hPoint, List.rtakeWhile_concat_pos _ _ _ hPoint]
      refine congrArg (· ++ [span]) (ih ?_)
      rw [covered_append, covered_cons, length_of_isPoint hPoint] at h
      exact h
    · rw [List.rtakeWhile_concat_neg _ _ _ hPoint, List.rtakeWhile_concat_neg _ _ _ hPoint]

/-- A slice keeps nothing that ends in front of it. -/
theorem keep_eq_nil_of_end (hOrder : start ≤ stop) (hEnd : cursor + covered spans < start) :
    keep start stop size cursor spans = [] := by
  induction spans generalizing cursor with
  | nil => rfl
  | cons span spans ih =>
    rw [covered_cons] at hEnd
    rw [keep, ih (by omega), List.append_nil, keep?]
    split
    · rw [if_neg (by omega), Option.toList_none]
    · dsimp only
      rw [if_pos (by omega), Option.toList_none]

/-- The end of a text has nothing but the points there. -/
theorem keep_end (hSize : cursor + covered spans = size) :
    keep size size size cursor spans = endPoints spans := by
  induction spans using List.reverseRecOn generalizing size with
  | nil => rfl
  | append_singleton spans span ih =>
    rw [covered_append, covered_cons] at hSize
    change cursor + (covered spans + (span.length + 0)) = size at hSize
    rw [keep_append, endPoints, keep, keep, List.append_nil]
    by_cases hPoint : span.isPoint = true
    · have hLength := length_of_isPoint hPoint
      rw [List.rtakeWhile_concat_pos _ _ _ hPoint, ih (by omega), keep?, if_pos hPoint,
        if_pos (by omega)]
      rfl
    · have hPos : span.length ≠ 0 := fun hZero => hPoint (by rw [Span.isPoint, hZero]; rfl)
      rw [List.rtakeWhile_concat_neg _ _ _ hPoint, keep_eq_nil_of_end (Nat.le_refl _) (by omega),
        keep?_of_not_point hPoint, if_pos (by omega)]
      rfl

end Tagged

open Tagged (covered keep firm endPoints EndsInPoint Refines points)

namespace Template

/-- Whether the last tag of a text ends where the text does. -/
def Scan.EndsInTag (found : Scan) : Prop :=
  found.tags ≠ [] ∧ found.rest = [] ∧ found.held = []

instance (found : Scan) : Decidable found.EndsInTag :=
  inferInstanceAs (Decidable (_ ∧ _ ∧ _))

namespace Lexer

section Sorting

/-! ### Events between their borders -/

/-- Whether events, the first of which begins at byte `start`, show the characters
of a text from their places, whatever points there are. -/
def Excerpts (whole : Tagged) : (start : Nat) → List Event → Prop
  | _, [] => True
  | start, event :: events =>
    firm event.2.spans = firm (whole.part start event.2.text.toList).spans ∧
      Excerpts whole (start + event.2.size) events

variable {whole buffer chunk part : Tagged} {start : Nat} {events left right : List Event}
  {tags : List (List Char × List Char)}

theorem textOf_cons (event : Event) (events : List Event) :
    textOf (event :: events) = event.2.text.toList ++ textOf events :=
  rfl

theorem textOf_append (left right : List Event) :
    textOf (left ++ right) = textOf left ++ textOf right :=
  List.flatMap_append

theorem textOf_textEvent (part : Tagged) : textOf (textEvent part) = part.text.toList := by
  rw [textOf_eq, outline_textEvent]
  rfl

theorem size_eq_byteLength (tagged : Tagged) : tagged.size = Text.byteLength tagged.text.toList :=
  rfl

theorem excerpts_append : Excerpts whole start (left ++ right) ↔
    Excerpts whole start left ∧ Excerpts whole (start + Text.byteLength (textOf left)) right := by
  induction left generalizing start with
  | nil => exact (iff_of_eq (true_and _)).symm
  | cons event left ih =>
    rw [List.cons_append, Excerpts, Excerpts, ih, and_assoc, textOf_cons, Text.byteLength_append,
      ← size_eq_byteLength, Nat.add_assoc]

theorem excerpts_textEvent (h : firm part.spans = firm (whole.part start part.text.toList).spans) :
    Excerpts whole start (textEvent part) := by
  rw [textEvent]
  split
  · trivial
  · exact ⟨h, trivial⟩

theorem Excerpts.append_whole (h : Excerpts whole start events)
    (hCovered : covered whole.spans = whole.size)
    (hStop : start + Text.byteLength (textOf events) ≤ whole.size) (chunk : Tagged) :
    Excerpts (whole ++ chunk) start events := by
  induction events generalizing start with
  | nil => trivial
  | cons event events ih =>
    rw [textOf_cons, Text.byteLength_append] at hStop
    refine ⟨?_, ih h.2 (by rw [size_eq_byteLength]; omega)⟩
    rw [Tagged.firm_part_append hCovered (by omega)]
    exact h.1

/-- What a lexer makes of its buffer shows the whole text if the buffer does. -/
theorem Excerpts.of_buffer {cursor : Nat} (h : Excerpts buffer cursor events)
    (hBuffer : firm buffer.spans = firm (whole.part start buffer.text.toList).spans)
    (hStop : cursor + Text.byteLength (textOf events) ≤ buffer.size) :
    Excerpts whole (start + cursor) events := by
  induction events generalizing cursor with
  | nil => trivial
  | cons event events ih =>
    rw [textOf_cons, Text.byteLength_append] at hStop
    refine ⟨h.1.trans (Tagged.firm_part_of_buffer hBuffer (by omega)), ?_⟩
    rw [Nat.add_assoc]
    exact ih h.2 (by rw [size_eq_byteLength]; omega)

theorem excerpts_tagParts (buffer : Tagged) (start : Nat) (tags : List (List Char × List Char)) :
    Excerpts buffer start (tagParts buffer start tags) := by
  induction tags generalizing start with
  | nil => trivial
  | cons tag tags ih =>
    obtain ⟨before, tag⟩ := tag
    have hTag : (buffer.part (start + Text.byteLength before) tag).splitPoints.2.size =
        Text.byteLength tag :=
      Tagged.size_part buffer (start + Text.byteLength before) tag
    rw [tagParts]
    dsimp only
    rw [excerpts_append, textOf_textEvent, Excerpts, hTag]
    refine ⟨excerpts_textEvent ?_, ?_, ?_⟩
    · simp only [Tagged.addPoints, Tagged.splitPoints, Tagged.firm_append, Tagged.firm_takeWhile,
        List.append_nil, Tagged.text_part]
    · simp only [Tagged.addPoints, Tagged.splitPoints, Tagged.firm_dropWhile, Tagged.text_part]
    · simp only [Tagged.addPoints, Tagged.text_part]
      exact ih (start + Text.byteLength before + Text.byteLength tag)

theorem excerpts_sort (buffer : Tagged) : Excerpts buffer 0 (sort buffer) := by
  rw [sort, excerpts_append]
  refine ⟨excerpts_tagParts _ _ _, excerpts_textEvent ?_⟩
  rw [Tagged.text_part, textOf_eq, outline_tagParts, Nat.zero_add]
  simp only [Outline.text, List.append_nil, Scan.front]

theorem textOf_sort (buffer : Tagged) :
    textOf (sort buffer) ++ (kept buffer).text.toList = buffer.text.toList := by
  rw [textOf_eq, outline_sort, text_kept]
  exact front_append _

/-- What is kept of a buffer shows what is behind its events. -/
theorem firm_kept (buffer : Tagged) :
    firm (kept buffer).spans = firm
      (buffer.part (Text.byteLength (textOf (sort buffer))) (kept buffer).text.toList).spans := by
  have hFront : textOf (sort buffer) =
      (scan buffer.text.toList).front ++ (scan buffer.text.toList).rest := by
    rw [textOf_eq, outline_sort]
    rfl
  rw [hFront, kept]
  split
  · change [] = firm (buffer.part _ []).spans
    rw [Tagged.spans_part, Text.byteLength_nil, Nat.add_zero, Tagged.firm_keep (_ + 1),
      Tagged.keep_self (Nat.lt_succ_self _)]
  · rw [Tagged.text_part]

theorem covered_kept (hCovered : covered buffer.spans = buffer.size) :
    covered (kept buffer).spans = (kept buffer).size := by
  have hBytes := size_eq buffer
  rw [kept]
  split
  · rfl
  · rw [Tagged.size_part, covered_part hCovered (by rw [Text.byteLength_append]; omega)]

/-! ### Spans of events -/

/-- Tags and the text in front of them take away spans from the front of a buffer.
They take away the points at its end as well if the last tag ends there. -/
theorem refines_tagParts {stop : Nat} (hTags : ∀ tag ∈ tags, tag.2 ≠ [])
    (hStop : start + Text.byteLength (tags.flatMap fun tag => tag.1 ++ tag.2) = stop)
    (hSize : stop ≤ buffer.size) (hSome : tags = [] → start < buffer.size) :
    Refines
      (spansOf (tagParts buffer start tags) ++
        if stop = buffer.size then [] else keep stop buffer.size buffer.size 0 buffer.spans)
      (keep start buffer.size buffer.size 0 buffer.spans) := by
  induction tags generalizing start with
  | nil =>
    obtain rfl : start = stop := hStop
    rw [if_neg (hSome rfl).ne]
    exact .refl _
  | cons tag tags ih =>
    obtain ⟨before, tag⟩ := tag
    obtain ⟨hTag, hRest⟩ := List.forall_mem_cons.1 hTags
    have hPos : 0 < Text.byteLength tag :=
      Nat.pos_of_ne_zero fun hZero => hTag (Text.eq_nil_of_byteLength hZero)
    rw [List.flatMap_cons, Text.byteLength_append, Text.byteLength_append] at hStop
    dsimp only at hStop
    have hBefore := @Tagged.keep_split_of_lt start (start + Text.byteLength before) buffer.size
      buffer.size 0 buffer.spans (Nat.le_add_right _ _) (by omega) (by omega)
    rw [tagParts]
    dsimp only
    rw [spansOf_splitPoints, Tagged.spans_part, Tagged.spans_part]
    rcases (show start + Text.byteLength before + Text.byteLength tag ≤ buffer.size by
      omega).eq_or_lt with hEnd | hLess
    · -- the last tag: its slice ends the buffer and holds the points there
      have hNone : tags = [] := by
        obtain _ | ⟨⟨next, other⟩, tags⟩ := tags
        · rfl
        · have hOther := Text.eq_nil_of_byteLength.mt (hRest _ List.mem_cons_self)
          rw [List.flatMap_cons, Text.byteLength_append, Text.byteLength_append] at hStop
          dsimp only at hStop hOther
          omega
      subst hNone
      rw [List.flatMap_nil, Text.byteLength_nil] at hStop
      rw [if_pos (by omega), hEnd, tagParts, spansOf_nil, List.append_nil, List.append_nil]
      exact hBefore
    · have hMore := @Tagged.keep_split_of_lt (start + Text.byteLength before)
        (start + Text.byteLength before + Text.byteLength tag) buffer.size buffer.size 0
        buffer.spans (Nat.le_add_right _ _) hLess.le hLess
      rw [List.append_assoc, List.append_assoc]
      refine .trans (.append (.refl _) (.trans (.append (.refl _) ?_) hMore)) hBefore
      exact ih hRest (by omega) fun _ => hLess

/-- The text behind the last tag of a buffer and what is kept share the spans there. -/
theorem refines_rest (buffer : Tagged) :
    Refines
      (keep (Text.byteLength (scan buffer.text.toList).front)
          (Text.byteLength (scan buffer.text.toList).front +
            Text.byteLength (scan buffer.text.toList).rest) buffer.size 0 buffer.spans ++
        (kept buffer).spans)
      (keep (Text.byteLength (scan buffer.text.toList).front) buffer.size buffer.size 0
        buffer.spans) := by
  have hBytes := size_eq buffer
  rw [kept]
  generalize scan buffer.text.toList = found at *
  by_cases hHeld : found.held = []
  · rw [hHeld, Text.byteLength_nil, Nat.add_zero] at hBytes
    rw [hHeld, if_pos List.isEmpty_nil, ← hBytes]
    change Refines (_ ++ []) _
    rw [List.append_nil]
    exact .refl _
  · have hMore : 0 < Text.byteLength found.held :=
      Nat.pos_of_ne_zero fun hZero => hHeld (Text.eq_nil_of_byteLength hZero)
    rw [if_neg (by simpa using hHeld), Tagged.spans_part, Text.byteLength_append, ← hBytes]
    exact Tagged.keep_split_of_lt (Nat.le_add_right _ _) (by omega) (by omega)

/-- What comes out of a buffer twice: the points behind a tag that ends it. -/
def echo (buffer : Tagged) : List Span :=
  if (scan buffer.text.toList).EndsInTag then endPoints buffer.spans else []

/-- The spans of a buffer are those of its events and of what is kept, but for the
points that come out twice. -/
theorem refines_sort (hCovered : covered buffer.spans = buffer.size) :
    Refines (spansOf (sort buffer) ++ (kept buffer).spans) (buffer.spans ++ echo buffer) := by
  have hBytes := size_eq buffer
  have hSize : 0 + covered buffer.spans = buffer.size := by rw [Nat.zero_add, hCovered]
  by_cases hText : buffer.text.toList = []
  · have hHeld : Held buffer.text.toList := by
      rw [Held, hText]
      exact @scan_of_none [] [] rfl
    have hNone : ¬ (scan buffer.text.toList).EndsInTag := by
      rw [hHeld]
      exact fun hEnd => hEnd.1 rfl
    rw [spansOf_sort_of_held hCovered hHeld, echo, if_neg hNone, List.append_nil]
    exact .refl _
  · have hPos : 0 < buffer.size :=
      Nat.pos_of_ne_zero fun hZero => hText (Text.eq_nil_of_byteLength hZero)
    have hTags := @refines_tagParts buffer 0 _ (Text.byteLength (scan buffer.text.toList).front)
      (fun _ hTag => ne_nil_of_mem_scan hTag) (Nat.zero_add _) (by omega) fun _ => hPos
    rw [Tagged.keep_all (Nat.le_refl 0) hSize] at hTags
    have hBehind := refines_rest buffer
    rw [kept] at hBehind
    rw [sort, kept, echo]
    generalize scan buffer.text.toList = found at *
    rw [spansOf_append, spansOf_textEvent, Tagged.spans_part]
    by_cases hEnd : Text.byteLength found.front = buffer.size
    · obtain hRest : found.rest = [] := Text.eq_nil_of_byteLength (by omega)
      obtain hHeld : found.held = [] := Text.eq_nil_of_byteLength (by omega)
      have hSome : found.tags ≠ [] := by
        intro hNone
        rw [Scan.front, hNone, List.flatMap_nil, Text.byteLength_nil] at hEnd
        omega
      rw [if_pos hEnd, List.append_nil] at hTags
      rw [if_pos (show found.EndsInTag from ⟨hSome, hRest, hHeld⟩), if_pos (by rw [hHeld]; rfl), hRest,
        hEnd, Text.byteLength_nil, Nat.add_zero, Tagged.keep_end hSize]
      change Refines (_ ++ []) _
      rw [List.append_nil]
      exact hTags.append (.refl _)
    · rw [if_neg hEnd] at hTags
      have hOpen : ¬ found.EndsInTag := fun hEnds => hEnd (by
        rw [hEnds.2.1, hEnds.2.2, Text.byteLength_nil] at hBytes
        omega)
      rw [if_neg hOpen, List.append_nil, List.append_assoc]
      exact .trans (.append (.refl _) hBehind) hTags

end Sorting

/-! ### Sessions -/

/-- What is done with a lexer before it is closed. -/
inductive Action
  /-- Feed a chunk, with any spans. -/
  | feed (chunk : Tagged)
  /-- Take the events that are there. -/
  | read
  deriving DecidableEq, Inhabited, Repr

/-- The chunk that an action feeds. -/
def Action.chunk : Action → Tagged
  | feed chunk => chunk
  | read => .empty

def Action.run (session : Session) : Action → Except Error Session
  | feed chunk => do return (session.1, ← session.2.feed chunk)
  | read => .ok (session.1 ++ session.2.read.1, session.2.read.2)

/-- The events of a lexer that is closed after the actions and then read. -/
def collect (actions : List Action) : Except Error (List Event) := do
  let (seen, lexer) ← actions.foldlM Action.run ([], {})
  return seen ++ lexer.close.read.1

/-- Everything that actions feed, put together. -/
def fed (actions : List Action) : Tagged :=
  actions.foldr (fun action rest => action.chunk ++ rest) .empty

/-- What comes out twice of a chunk behind a text: the points at its end, if it
completes a tag there. -/
def doubled (before : List Char) (chunk : Tagged) : List Span :=
  if chunk.text.toList ≠ [] ∧ (scan (before ++ chunk.text.toList)).EndsInTag then
    endPoints chunk.spans
  else []

/-- The spans that actions feed behind a text, with those that come out twice. -/
def echoed : (before : List Char) → List Action → List Span
  | _, [] => []
  | before, action :: actions =>
    action.chunk.spans ++ doubled before action.chunk ++
      echoed (before ++ action.chunk.text.toList) actions

/-- Whether a longer text ends in a tag is seen from what was held back of the
shorter one. -/
theorem endsInTag_held_append (text more : List Char) :
    (scan ((scan text).held ++ more)).EndsInTag ↔
      more ≠ [] ∧ (scan (text ++ more)).EndsInTag := by
  obtain ⟨hOutline, hHeld⟩ := scan_append_more text more
  have hText := scan_append ((scan text).held ++ more)
  have hTags := congrArg Outline.tags hOutline
  have hRest := congrArg Outline.rest hOutline
  have hEmpty : more = [] → (scan ((scan text).held ++ more)).tags = [] := by
    rintro rfl
    rw [List.append_nil, scan_held]
  generalize scan ((scan text).held ++ more) = found at *
  obtain ⟨_ | ⟨⟨before, tag⟩, tags⟩, rest, held⟩ := found
  · refine iff_of_false (fun hEnd => hEnd.1 rfl) fun ⟨hMore, hEnd⟩ => hMore ?_
    obtain rfl : rest = [] := (List.append_eq_nil_iff.1 (hRest.symm.trans hEnd.2.1)).2
    obtain rfl : held = [] := hHeld.symm.trans hEnd.2.2
    exact (List.append_eq_nil_iff.1 hText.symm).2
  · have hMore : more ≠ [] := fun hNone => List.cons_ne_nil _ _ (hEmpty hNone)
    change (scan (text ++ more)).tags = _ ++ (_, tag) :: tags at hTags
    change (scan (text ++ more)).rest = rest at hRest
    change (scan (text ++ more)).held = held at hHeld
    rw [Scan.EndsInTag, Scan.EndsInTag, hTags, hRest, hHeld]
    simp [hMore]

/-- What comes out of a buffer twice is what does so of the chunk at its end. -/
theorem echo_append {buffer chunk : Tagged} {before : List Char}
    (hHeld : buffer.text.toList = (scan before).held) (hChunk : covered chunk.spans = chunk.size) :
    echo (buffer ++ chunk) = doubled before chunk := by
  rw [echo, doubled, Tagged.toList_text_append, hHeld]
  refine (if_congr (endsInTag_held_append before chunk.text.toList) rfl rfl).trans ?_
  split
  · rename_i hEnd
    refine Tagged.endPoints_append (Nat.pos_of_ne_zero fun hZero => hEnd.1 ?_)
    exact Text.eq_nil_of_byteLength (hChunk.symm.trans hZero)
  · rfl

/-- A session in which a text was fed. What came out are excerpts of the text, and
the lexer keeps the rest of it, with the given spans. -/
structure Conserves (session : Session) (whole : Tagged) (spans : List Span) : Prop where
  isOpen : session.2.isClosed = false
  held : session.2.buffer.text.toList = (scan whole.text.toList).held
  covered_whole : covered whole.spans = whole.size
  covered_buffer : covered session.2.buffer.spans = session.2.buffer.size
  text : textOf (session.1 ++ session.2.events) ++ session.2.buffer.text.toList =
    whole.text.toList
  excerpts : Excerpts whole 0 (session.1 ++ session.2.events)
  rest : firm session.2.buffer.spans =
    firm (whole.part (Text.byteLength (textOf (session.1 ++ session.2.events)))
      session.2.buffer.text.toList).spans
  refines : Refines (spansOf (session.1 ++ session.2.events) ++ session.2.buffer.spans) spans

namespace Conserves

variable {session : Session} {whole chunk : Tagged} {spans : List Span}

theorem start : Conserves ([], {}) .empty [] :=
  ⟨rfl, by rw [show Tagged.empty.text.toList = [] from rfl, @scan_of_none [] [] rfl]; rfl,
    rfl, rfl, rfl, trivial, rfl, .nil⟩

theorem size_eq (h : Conserves session whole spans) :
    Text.byteLength (textOf (session.1 ++ session.2.events)) + session.2.buffer.size =
      whole.size := by
  rw [size_eq_byteLength, size_eq_byteLength, ← Text.byteLength_append, h.text]

theorem feed (h : Conserves session whole spans) (hChunk : covered chunk.spans = chunk.size) :
    ∃ next, Action.run session (.feed chunk) = .ok next ∧
      Conserves next (whole ++ chunk)
        (spans ++ (chunk.spans ++ doubled whole.text.toList chunk)) := by
  obtain ⟨seen, lexer⟩ := session
  have hRun : Action.run (seen, lexer) (.feed chunk) =
      lexer.feed chunk >>= fun fed => .ok (seen, fed) := rfl
  have hSize : Text.byteLength (textOf (seen ++ lexer.events)) + lexer.buffer.size = whole.size :=
    h.size_eq
  have hCovered : covered (lexer.buffer ++ chunk).spans = (lexer.buffer ++ chunk).size := by
    rw [Tagged.spans_append, Tagged.covered_append, Tagged.size_append, hChunk, h.covered_buffer]
  have hWhole : covered (whole ++ chunk).spans = (whole ++ chunk).size := by
    rw [Tagged.spans_append, Tagged.covered_append, Tagged.size_append, hChunk, h.covered_whole]
  have hText : (lexer.buffer ++ chunk).text.toList = (scan whole.text.toList).held ++
      chunk.text.toList := by
    rw [Tagged.toList_text_append, h.held]
  have hRest := Tagged.firm_buffer_append h.covered_whole hChunk hSize h.rest
  have hSort := textOf_sort (lexer.buffer ++ chunk)
  have hReach : Text.byteLength (textOf (sort (lexer.buffer ++ chunk))) +
      (kept (lexer.buffer ++ chunk)).size = (lexer.buffer ++ chunk).size := by
    rw [size_eq_byteLength, ← Text.byteLength_append, hSort]
    rfl
  rw [hRun, feed_eq h.isOpen]
  refine ⟨_, rfl, h.isOpen, ?_, hWhole, ?_, ?_, ?_, ?_, ?_⟩
  · rw [text_kept, hText, Tagged.toList_text_append]
    exact (scan_append_more _ _).2.symm
  · exact covered_kept hCovered
  · dsimp only
    rw [← List.append_assoc, textOf_append, List.append_assoc, hSort, Tagged.toList_text_append,
      Tagged.toList_text_append, ← List.append_assoc]
    exact congrArg (· ++ chunk.text.toList) h.text
  · dsimp only
    rw [← List.append_assoc, excerpts_append, Nat.zero_add]
    refine ⟨h.excerpts.append_whole h.covered_whole (by dsimp only; omega) chunk, ?_⟩
    exact (excerpts_sort _).of_buffer hRest (by omega)
  · dsimp only
    rw [firm_kept, ← List.append_assoc, textOf_append, Text.byteLength_append]
    exact Tagged.firm_part_of_buffer hRest hReach.le
  · dsimp only
    have hBuffer := refines_sort hCovered
    rw [echo_append h.held hChunk, Tagged.spans_append, List.append_assoc] at hBuffer
    rw [← List.append_assoc, spansOf_append, List.append_assoc]
    refine .trans (.append (.refl _) hBuffer) ?_
    rw [← List.append_assoc]
    exact h.refines.append (.refl _)

theorem run (h : Conserves session whole spans) {action : Action}
    (hChunk : covered action.chunk.spans = action.chunk.size) :
    ∃ next, action.run session = .ok next ∧ Conserves next (whole ++ action.chunk)
      (spans ++ (action.chunk.spans ++ doubled whole.text.toList action.chunk)) := by
  cases action with
  | feed chunk => exact h.feed hChunk
  | read =>
    obtain ⟨seen, lexer⟩ := session
    have hRead : lexer.read = (lexer.events, { lexer with events := [] }) :=
      if_neg (ne_true_of_eq_false h.isOpen)
    have hNone : doubled whole.text.toList .empty = [] := if_neg fun hMore => hMore.1 rfl
    refine ⟨_, rfl, ?_⟩
    rw [Action.chunk, hNone, Tagged.append_empty, hRead]
    refine ⟨h.isOpen, h.held, h.covered_whole, h.covered_buffer, ?_, ?_, ?_, ?_⟩
    all_goals simp only [List.append_nil]
    exacts [h.text, h.excerpts, h.rest, (List.append_nil spans).symm ▸ h.refines]

end Conserves

variable {actions : List Action}

theorem Conserves.foldlM {session : Session} {whole : Tagged} {spans : List Span}
    (h : Conserves session whole spans)
    (hChunks : ∀ action ∈ actions, covered action.chunk.spans = action.chunk.size) :
    ∃ last, actions.foldlM Action.run session = .ok last ∧
      Conserves last (whole ++ fed actions) (spans ++ echoed whole.text.toList actions) := by
  induction actions generalizing session whole spans with
  | nil => exact ⟨session, rfl, by rwa [fed, echoed, List.foldr_nil, Tagged.append_empty, List.append_nil]⟩
  | cons action actions ih =>
    obtain ⟨hChunk, hMore⟩ := List.forall_mem_cons.1 hChunks
    obtain ⟨next, hNext, hConserves⟩ := h.run hChunk
    obtain ⟨last, hLast, hAll⟩ := ih hConserves hMore
    rw [Tagged.append_assoc, Tagged.toList_text_append, List.append_assoc] at hAll
    refine ⟨last, ?_, hAll⟩
    rw [List.foldlM_cons, hNext]
    exact hLast

/-! ### Points that come out twice -/

theorem fed_cons (action : Action) (actions : List Action) :
    fed (action :: actions) = action.chunk ++ fed actions :=
  rfl

theorem sublist_echoed (before : List Char) (actions : List Action) :
    (fed actions).spans.Sublist (echoed before actions) := by
  induction actions generalizing before with
  | nil => exact List.nil_sublist _
  | cons action actions ih =>
    rw [fed_cons, echoed, Tagged.spans_append]
    exact (List.sublist_append_left _ _).append (ih _)

theorem firm_doubled (before : List Char) (chunk : Tagged) : firm (doubled before chunk) = [] := by
  rw [doubled]
  split
  · exact Tagged.firm_of_points fun _ hSpan => Tagged.isPoint_of_mem_endPoints hSpan
  · rfl

/-- Only points come out twice. -/
theorem firm_echoed (before : List Char) (actions : List Action) :
    firm (echoed before actions) = firm (fed actions).spans := by
  induction actions generalizing before with
  | nil => rfl
  | cons action actions ih =>
    rw [fed_cons, echoed, Tagged.spans_append, Tagged.firm_append, Tagged.firm_append,
      Tagged.firm_append, firm_doubled, List.append_nil, ih]

theorem doubled_eq_nil_iff {before : List Char} {chunk : Tagged} :
    doubled before chunk = [] ↔ ¬ (EndsInPoint chunk.spans ∧ chunk.text.toList ≠ [] ∧
      (scan (before ++ chunk.text.toList)).EndsInTag) := by
  rw [← Tagged.endPoints_ne_nil_iff, doubled]
  split
  · rename_i hEnd
    exact ⟨fun hNone hAll => hAll.1 hNone, fun h => not_not.1 fun hSome => h ⟨hSome, hEnd⟩⟩
  · rename_i hOpen
    exact iff_of_true rfl fun hAll => hOpen hAll.2

theorem echoed_eq_iff {before : List Char} :
    echoed before actions = (fed actions).spans ↔ ∀ front action back,
      actions = front ++ action :: back →
        doubled (before ++ (fed front).text.toList) action.chunk = [] := by
  induction actions generalizing before with
  | nil => exact iff_of_true rfl fun front action back hNil => by simp at hNil
  | cons first actions ih =>
    have hLength := (sublist_echoed (before ++ first.chunk.text.toList) actions).length_le
    have hParts : echoed before (first :: actions) = (fed (first :: actions)).spans ↔
        doubled before first.chunk = [] ∧
          echoed (before ++ first.chunk.text.toList) actions = (fed actions).spans := by
      rw [echoed, fed_cons, Tagged.spans_append, List.append_assoc, List.append_cancel_left_eq]
      constructor
      · intro hAll
        have hNone : doubled before first.chunk = [] := by
          have := congrArg List.length hAll
          rw [List.length_append] at this
          exact List.eq_nil_of_length_eq_zero (by omega)
        rw [hNone] at hAll
        exact ⟨hNone, hAll⟩
      · rintro ⟨hNone, hRest⟩
        rw [hNone, hRest]
        rfl
    rw [hParts, ih]
    constructor
    · rintro ⟨hFirst, hRest⟩ front action back hSplit
      obtain _ | ⟨other, front⟩ := front
      · obtain ⟨rfl, rfl⟩ := List.cons.inj hSplit
        rwa [show (fed []).text.toList = [] from rfl, List.append_nil]
      · obtain ⟨rfl, rfl⟩ := List.cons.inj hSplit
        rw [fed_cons, Tagged.toList_text_append, ← List.append_assoc]
        exact hRest front action back rfl
    · intro hAll
      refine ⟨?_, fun front action back hSplit => ?_⟩
      · have hFirst := hAll [] first actions rfl
        rwa [show (fed []).text.toList = [] from rfl, List.append_nil] at hFirst
      · have hRest := hAll (first :: front) action back (by rw [hSplit]; rfl)
        rwa [fed_cons, Tagged.toList_text_append, ← List.append_assoc] at hRest

/-- The points come out as they were fed unless some of them come out twice. -/
theorem points_echoed_iff {before : List Char} :
    points 0 (echoed before actions) = points 0 (fed actions).spans ↔
      echoed before actions = (fed actions).spans := by
  refine ⟨fun h => ?_, fun h => by rw [h]⟩
  have hFirm := congrArg List.length (firm_echoed before actions)
  have hPoints := congrArg List.length h
  have hEchoed := Tagged.length_points 0 (echoed before actions)
  have hFed := Tagged.length_points 0 (fed actions).spans
  exact ((sublist_echoed before actions).eq_of_length (by omega)).symm

/-- Whatever chunks a lexer is fed, and whenever its events are read, no feeding
fails, and the events have the text of all chunks. Every event has the characters
that stood between its borders, with the spans they had there. The spans of all
events are those that were fed, some of them cut, but the points at the end of a
chunk that completes a tag there come out twice. So the points come out as they were
fed, each at its byte and in order, exactly if there is no such chunk. -/
theorem collect_conserves
    (hChunks : ∀ action ∈ actions, covered action.chunk.spans = action.chunk.size) :
    ∃ events, collect actions = .ok events ∧ textOf events = (fed actions).text.toList ∧
      (∀ front event back, events = front ++ event :: back →
        ∃ part, (fed actions).slice (Text.byteLength (textOf front))
            (Text.byteLength (textOf front) + event.2.size) = .ok part ∧
          part.text = event.2.text ∧ firm part.spans = firm event.2.spans) ∧
      Refines (spansOf events) (echoed [] actions) ∧
      (points 0 (spansOf events) = points 0 (fed actions).spans ↔
        ∀ front chunk back, actions = front ++ .feed chunk :: back →
          ¬ (EndsInPoint chunk.spans ∧ chunk.text.toList ≠ [] ∧
            (scan ((fed front).text.toList ++ chunk.text.toList)).EndsInTag)) := by
  obtain ⟨⟨seen, lexer⟩, hLast, hConserves⟩ := Conserves.start.foldlM hChunks
  rw [show Tagged.empty ++ fed actions = fed actions from Tagged.empty_append _,
    List.nil_append] at hConserves
  have hRead : lexer.close.read.1 = lexer.events ++ textEvent lexer.buffer := rfl
  have hText : textOf (seen ++ lexer.close.read.1) = (fed actions).text.toList := by
    rw [hRead, ← List.append_assoc, textOf_append, textOf_textEvent]
    exact hConserves.text
  have hRefines : Refines (spansOf (seen ++ lexer.close.read.1)) (echoed [] actions) := by
    rw [hRead, ← List.append_assoc, spansOf_append, spansOf_textEvent]
    exact hConserves.refines
  have hExcerpts : Excerpts (fed actions) 0 (seen ++ lexer.close.read.1) := by
    rw [hRead, ← List.append_assoc, excerpts_append, Nat.zero_add]
    exact ⟨hConserves.excerpts, excerpts_textEvent hConserves.rest⟩
  refine ⟨seen ++ lexer.close.read.1, ?_, hText, fun front event back hSplit => ?_, hRefines, ?_⟩
  · rw [collect, hLast]
    rfl
  · rw [hSplit, excerpts_append, Nat.zero_add] at hExcerpts
    rw [hSplit, textOf_append, textOf_cons, ← List.append_assoc] at hText
    exact ⟨_, Tagged.slice_eq_part hText.symm, String.ofList_toList, hExcerpts.2.1.symm⟩
  · rw [hRefines.points_eq, points_echoed_iff, echoed_eq_iff]
    refine ⟨fun h front chunk back hSplit => doubled_eq_nil_iff.1 (h front _ back hSplit),
      fun h front action back hSplit => ?_⟩
    cases action with
    | feed chunk => exact doubled_eq_nil_iff.2 (h front chunk back hSplit)
    | read => exact if_neg fun hMore => hMore.1 rfl

/-- A tag that is cut behind its first brace, with points at the start, at the cut and,
in a chunk of their own, behind the tag. -/
def pinnedTag : List Action :=
  [.feed ⟨"a \x7b", [⟨[0], [], 0, 0, 0, true⟩, ⟨[1], [], 3, 0, 3, true⟩, ⟨[2], [], 0, 0, 0, true⟩]⟩,
    .read, .feed ⟨"\x7b x \x7d\x7d", [⟨[3], [], 6, 0, 6, true⟩]⟩,
    .feed ⟨"", [⟨[4], [], 0, 0, 0, true⟩, ⟨[5], [], 0, 0, 0, true⟩]⟩]

theorem collect_conserves_pinnedTag :
    (∀ action ∈ pinnedTag, covered action.chunk.spans = action.chunk.size) ∧
      ∃ events, collect pinnedTag = .ok events ∧ textOf events = (fed pinnedTag).text.toList ∧
        Refines (spansOf events) (fed pinnedTag).spans ∧
        points 0 (spansOf events) = points 0 (fed pinnedTag).spans := by
  have hChunks : ∀ action ∈ pinnedTag, covered action.chunk.spans = action.chunk.size := by decide
  have hEchoed : echoed [] pinnedTag = (fed pinnedTag).spans := by decide +kernel
  obtain ⟨events, hEvents, hText, -, hRefines, -⟩ := collect_conserves hChunks
  rw [hEchoed] at hRefines
  exact ⟨hChunks, events, hEvents, hText, hRefines, hRefines.points_eq 0⟩

/-- A tag with a point right behind it, in one chunk. -/
def pointBehindTag : List Action :=
  [.feed ⟨"\x7b\x7bx\x7d\x7d", [⟨[0], [], 5, 0, 5, true⟩, ⟨[1], [], 0, 0, 0, true⟩]⟩]

/-- The point comes out with the tag and once more behind it. -/
theorem collect_pointBehindTag :
    (∀ action ∈ pointBehindTag, covered action.chunk.spans = action.chunk.size) ∧
      collect pointBehindTag = .ok
        [(.terminal, ⟨"\x7b\x7bx\x7d\x7d", [⟨[0], [], 5, 0, 5, true⟩, ⟨[1], [], 0, 0, 0, true⟩]⟩),
          (.text, ⟨"", [⟨[1], [], 0, 0, 0, true⟩]⟩)] ∧
      (collect pointBehindTag).map (fun events => points 0 (spansOf events)) =
        .ok [(5, ⟨[1], [], 0, 0, 0, true⟩), (5, ⟨[1], [], 0, 0, 0, true⟩)] ∧
      points 0 (fed pointBehindTag).spans = [(5, ⟨[1], [], 0, 0, 0, true⟩)] :=
  ⟨by decide, by decide +kernel, by decide +kernel, by decide +kernel⟩

end Lexer

end Template

end Infill
