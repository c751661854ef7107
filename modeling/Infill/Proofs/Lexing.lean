import Infill.Flatten
import Infill.Proofs.Order

/-!
The spans of what a lexer found name the leaves that were fed to it, in the
order in which they were fed. A lexer cuts its buffer into slices that follow
one another, and a span that is cut names the same leaf in both parts. Points
need care: two slices share the points at the end of a text, but whatever is
held back holds no complete tag, so a text that ends in points is never cut.
-/
namespace Infill

namespace Path

/-- Whether an element is another one or stands in front of it. -/
def AtOrBefore (left right : Path) : Prop :=
  left = right ∨ Before left right

end Path

open Infill.Path (AtOrBefore)

namespace Text

/-- A text is cut where two parts of it meet. -/
theorem cut?_append (front back : List Char) :
    cut? (byteLength front) (front ++ back) = some (front, back) := by
  induction front with
  | nil => simp [cut?]
  | cons c front ih =>
    have hPos := c.utf8Size_pos
    obtain ⟨count, hCount⟩ : ∃ count, byteLength (c :: front) = count + 1 :=
      ⟨c.utf8Size + byteLength front - 1, by rw [byteLength_cons]; omega⟩
    have hRest : count + 1 - c.utf8Size = byteLength front := by
      rw [byteLength_cons] at hCount
      omega
    have hFits : c.utf8Size ≤ count + 1 := by
      rw [byteLength_cons] at hCount
      omega
    rw [hCount, List.cons_append, cut?, if_pos hFits, hRest, ih]
    rfl

theorem slice?_append (front back : List Char) :
    slice? (byteLength front) (byteLength (front ++ back)) (front ++ back) = some back := by
  have hStop := cut?_append back []
  rw [List.append_nil] at hStop
  rw [slice?, if_pos (by simp), cut?_append]
  simp [hStop]

theorem eq_nil_of_byteLength {text : List Char} (h : byteLength text = 0) : text = [] := by
  cases text with
  | nil => rfl
  | cons c text =>
    have hPos := c.utf8Size_pos
    rw [byteLength_cons] at h
    omega

end Text

namespace Template

variable {text before after inside rest : List Char} {kind : TagKind}

theorem scan_of_tag (hUntil : untilTag text = (before, some (kind, after)))
    (hInside : kind.inside? after = some (inside, rest)) :
    scan text = { scan rest with tags := (before, kind.opening ++ inside) :: (scan rest).tags } := by
  rw [scan]
  split
  · rename_i hFound
    rw [hUntil] at hFound
    cases hFound
    split
    · rename_i hOther
      rw [hInside] at hOther
      cases hOther
      rfl
    · rename_i hNone
      rw [hInside] at hNone
      cases hNone
  · rename_i hFound
    rw [hUntil] at hFound
    cases hFound

theorem scan_of_open (hUntil : untilTag text = (before, some (kind, after)))
    (hInside : kind.inside? after = none) :
    scan text = ⟨[], before, kind.opening ++ after⟩ := by
  rw [scan]
  split
  · rename_i hFound
    rw [hUntil] at hFound
    cases hFound
    split
    · rename_i hOther
      rw [hInside] at hOther
      cases hOther
    · rfl
  · rename_i hFound
    rw [hUntil] at hFound
    cases hFound

theorem scan_of_none (hUntil : untilTag text = (before, none)) : scan text = .ofRest before := by
  rw [scan]
  split
  · rename_i hFound
    rw [hUntil] at hFound
    cases hFound
  · rename_i hFound
    rw [hUntil] at hFound
    cases hFound
    rfl

/-- A scan loses nothing of its text. -/
theorem scan_append (text : List Char) :
    ((scan text).tags.flatMap fun tag => tag.1 ++ tag.2) ++ (scan text).rest ++ (scan text).held =
      text := by
  induction text using scan.induct with
  | case1 text before kind after hUntil inside rest hInside _ ih =>
    rw [scan_of_tag hUntil hInside]
    have hText := append_of_untilTag hUntil
    have hAfter := TagKind.append_of_inside? hInside
    simp only [List.append_assoc] at ih hText
    simp [ih, hAfter, hText]
  | case2 text before kind after hUntil hInside =>
    rw [scan_of_open hUntil hInside]
    simpa using append_of_untilTag hUntil
  | case3 text before hUntil =>
    rw [scan_of_none hUntil, Scan.ofRest]
    have hText := append_of_untilTag_none hUntil
    split
    · rename_i hLast
      simpa [hText] using List.dropLast_append_getLast? '{' hLast
    · simpa using hText

/-- What is held back stays held back as long as nothing is added to it. -/
theorem scan_held (text : List Char) :
    scan (scan text).held = ⟨[], [], (scan text).held⟩ := by
  induction text using scan.induct with
  | case1 text before kind after hUntil inside rest hInside _ ih =>
    rw [scan_of_tag hUntil hInside]
    exact ih
  | case2 text before kind after hUntil hInside =>
    rw [scan_of_open hUntil hInside]
    refine scan_of_open ?_ hInside
    cases kind <;> rfl
  | case3 text before hUntil =>
    rw [scan_of_none hUntil, Scan.ofRest]
    split
    · exact @scan_of_none ['{'] ['{'] rfl
    · exact @scan_of_none [] [] rfl

end Template

namespace Tagged

/-- Spans name leaves in document order, a leaf as often as it has parts. -/
def Ascending (spans : List Span) : Prop :=
  spans.Pairwise fun left right => AtOrBefore left.path right.path

/-- A text that its spans cover from end to end. -/
structure Ordered (tagged : Tagged) : Prop where
  ascending : Ascending tagged.spans
  covered : covered tagged.spans = tagged.size

/-- Whether a text ends in points. -/
def EndsInPoint (spans : List Span) : Prop :=
  ∃ span ∈ spans.getLast?, span.isPoint = true

variable {start stop size cursor a b c d : Nat} {span kept : Span} {spans : List Span}

theorem path_of_keep? (h : keep? start stop size cursor span = some kept) :
    kept.path = span.path := by
  rw [keep?] at h
  split at h
  · split at h
    · rw [Option.some.inj h]
    · cases h
  · dsimp only at h
    split at h
    · cases h
    · split at h
      · rw [Option.some.inj h]
      · rw [← Option.some.inj h]
        rfl

/-- A slice keeps at most one part of a span. -/
theorem paths_keep_sublist (start stop size cursor : Nat) (spans : List Span) :
    ((keep start stop size cursor spans).map Span.path).Sublist (spans.map Span.path) := by
  induction spans generalizing cursor with
  | nil => exact List.Sublist.refl _
  | cons span spans ih =>
    rw [keep, List.map_append]
    cases hKeep : keep? start stop size cursor span with
    | none => exact (ih _).cons _
    | some kept =>
      have hPath := path_of_keep? hKeep
      simpa [hPath] using ih _

theorem exists_of_mem_keep (h : kept ∈ keep start stop size cursor spans) :
    ∃ span ∈ spans, kept.path = span.path := by
  have hPath := (paths_keep_sublist start stop size cursor spans).subset
    (List.mem_map_of_mem h)
  obtain ⟨span, hSpan, hSame⟩ := List.mem_map.1 hPath
  exact ⟨span, hSpan, hSame.symm⟩

theorem ascending_keep (h : Ascending spans) :
    Ascending (keep start stop size cursor spans) := by
  have hPaths : (spans.map Span.path).Pairwise AtOrBefore := List.pairwise_map.2 h
  exact List.pairwise_map.1 (hPaths.sublist (paths_keep_sublist start stop size cursor spans))

theorem covered_cons (span : Span) (spans : List Span) :
    covered (span :: spans) = span.length + covered spans := rfl

theorem covered_append (left right : List Span) :
    covered (left ++ right) = covered left + covered right := by
  induction left with
  | nil => exact (Nat.zero_add _).symm
  | cons span left ih => rw [List.cons_append, covered_cons, covered_cons, ih, Nat.add_assoc]

/-- What a slice keeps covers the slice. -/
theorem covered_keep (hStop : stop ≤ size) (h : cursor + covered spans = size) :
    covered (keep start stop size cursor spans) = stop - max start cursor := by
  induction spans generalizing cursor with
  | nil =>
    have : cursor = size := h
    simp only [keep, covered, List.foldr_nil]
    omega
  | cons span spans ih =>
    rw [covered_cons] at h
    have hRest := @ih (cursor + span.length) (by omega)
    rw [keep, keep?]
    split
    · rename_i hPoint
      have hLength : span.length = 0 := by simpa [Span.isPoint] using hPoint
      split
      · rw [Option.toList_some, List.singleton_append, covered_cons, hRest, hLength]
        omega
      · simp only [Option.toList_none, List.nil_append, hRest]
        omega
    · dsimp only
      split
      · simp only [Option.toList_none, List.nil_append, hRest]
        omega
      · split
        · simp only [Option.toList_some, List.singleton_append, covered_cons, hRest]
          omega
        · simp only [Option.toList_some, List.singleton_append, covered_cons, hRest, Span.narrow]
          omega

theorem not_endsInPoint_tail (h : ¬ EndsInPoint (span :: spans)) : ¬ EndsInPoint spans := by
  rintro ⟨last, hLast, hPoint⟩
  obtain _ | ⟨next, spans⟩ := spans
  · simp at hLast
  · exact h ⟨last, by rwa [List.getLast?_cons_cons], hPoint⟩

theorem covered_pos (hEnd : ¬ EndsInPoint (span :: spans)) : 0 < covered (span :: spans) := by
  induction spans generalizing span with
  | nil =>
    have hLength : span.length ≠ 0 := fun hZero => hEnd ⟨span, rfl, by simp [Span.isPoint, hZero]⟩
    rw [covered_cons]
    omega
  | cons next spans ih =>
    rw [covered_cons]
    exact Nat.lt_of_lt_of_le (ih (not_endsInPoint_tail hEnd)) (Nat.le_add_left _ _)

/-- What a slice keeps of a span begins in front of the end of the slice, and
the span reaches its beginning. -/
theorem bounds_of_keep? (hSize : cursor < size)
    (h : keep? start stop size cursor span = some kept) :
    cursor < stop ∧ start ≤ cursor + span.length := by
  rw [keep?] at h
  split at h
  · split at h
    · omega
    · cases h
  · dsimp only at h
    split at h
    · cases h
    · omega

theorem cursor_lt_of_mem_keep (hSize : cursor + covered spans = size)
    (hEnd : ¬ EndsInPoint spans) (h : kept ∈ keep start stop size cursor spans) :
    cursor < stop := by
  induction spans generalizing cursor with
  | nil => simp [keep] at h
  | cons span spans ih =>
    have hPos := covered_pos hEnd
    rw [keep, List.mem_append] at h
    rcases h with h | h
    · exact (bounds_of_keep? (by omega) (Option.mem_toList.1 h)).1
    · rw [covered_cons] at hSize
      have := ih (by omega) (not_endsInPoint_tail hEnd) h
      omega

/-- What an earlier slice keeps does not lie behind what a later one keeps. -/
theorem keep_atOrBefore {left right : Span} (hAscending : Ascending spans)
    (hSize : cursor + covered spans = size) (hEnd : ¬ EndsInPoint spans) (hOrder : b ≤ c)
    (hLeft : left ∈ keep a b size cursor spans) (hRight : right ∈ keep c d size cursor spans) :
    AtOrBefore left.path right.path := by
  induction spans generalizing cursor with
  | nil => simp [keep] at hLeft
  | cons span spans ih =>
    obtain ⟨hHead, hTail⟩ := List.pairwise_cons.1 hAscending
    have hPos := covered_pos hEnd
    have hRest : cursor + span.length + covered spans = size := by
      rw [covered_cons] at hSize
      omega
    rw [keep, List.mem_append] at hLeft hRight
    rcases hLeft with hLeft | hLeft
    · rw [path_of_keep? (Option.mem_toList.1 hLeft)]
      rcases hRight with hRight | hRight
      · exact .inl (path_of_keep? (Option.mem_toList.1 hRight)).symm
      · obtain ⟨other, hOther, hSame⟩ := exists_of_mem_keep hRight
        rw [hSame]
        exact hHead other hOther
    · rcases hRight with hRight | hRight
      · have hBehind := cursor_lt_of_mem_keep hRest (not_endsInPoint_tail hEnd) hLeft
        have hReach := (bounds_of_keep? (by omega) (Option.mem_toList.1 hRight)).2
        omega
      · exact ih hTail hRest (not_endsInPoint_tail hEnd) hLeft hRight

end Tagged

/-- Spans in order that slices of a text between two bytes keep. -/
structure Portion (buffer : Tagged) (start stop : Nat) (spans : List Span) : Prop where
  ascending : Tagged.Ascending spans
  kept : ∀ span ∈ spans, ∃ a b, start ≤ a ∧ b ≤ stop ∧
    span ∈ Tagged.keep a b buffer.size 0 buffer.spans

namespace Portion

variable {buffer part : Tagged} {start middle stop : Nat} {left right spans : List Span}

theorem nil (buffer : Tagged) (start stop : Nat) : Portion buffer start stop [] :=
  ⟨List.Pairwise.nil, by simp⟩

theorem slice (hBuffer : buffer.Ordered) (h : buffer.slice start stop = .ok part) :
    Portion buffer start stop part.spans := by
  rw [Tagged.slice] at h
  split at h
  · obtain rfl := Except.ok.inj h
    exact ⟨Tagged.ascending_keep hBuffer.ascending,
      fun span hSpan => ⟨start, stop, Nat.le_refl start, Nat.le_refl stop, hSpan⟩⟩
  · cases h

/-- Portions that follow one another, of a text that does not end in points if
there is anything in the first one. -/
theorem append (hBuffer : buffer.Ordered) (hEnd : left ≠ [] → ¬ Tagged.EndsInPoint buffer.spans)
    (hStart : start ≤ middle) (hStop : middle ≤ stop) (hLeft : Portion buffer start middle left)
    (hRight : Portion buffer middle stop right) : Portion buffer start stop (left ++ right) := by
  constructor
  · refine List.pairwise_append.2 ⟨hLeft.ascending, hRight.ascending, ?_⟩
    intro x hx y hy
    obtain ⟨a, b, -, hb, hKeepLeft⟩ := hLeft.kept x hx
    obtain ⟨c, d, hc, -, hKeepRight⟩ := hRight.kept y hy
    exact Tagged.keep_atOrBefore hBuffer.ascending (by rw [Nat.zero_add, hBuffer.covered])
      (hEnd (List.ne_nil_of_mem hx)) (hb.trans hc) hKeepLeft hKeepRight
  · intro span hSpan
    rcases List.mem_append.1 hSpan with hSpan | hSpan
    · obtain ⟨a, b, ha, hb, hKeep⟩ := hLeft.kept span hSpan
      exact ⟨a, b, ha, hb.trans hStop, hKeep⟩
    · obtain ⟨a, b, ha, hb, hKeep⟩ := hRight.kept span hSpan
      exact ⟨a, b, hStart.trans ha, hb, hKeep⟩

theorem path_mem (h : Portion buffer start stop spans) {span : Span} (hSpan : span ∈ spans) :
    span.path ∈ buffer.spans.map Span.path := by
  obtain ⟨a, b, -, -, hKeep⟩ := h.kept span hSpan
  obtain ⟨source, hSource, hSame⟩ := Tagged.exists_of_mem_keep hKeep
  exact List.mem_map.2 ⟨source, hSource, hSame.symm⟩

end Portion

/-- A chain of steps succeeds if every one of them does. -/
theorem bind_eq_ok {ε α β : Type} {result : Except ε α} {next : α → Except ε β} {b : β} :
    (result >>= next) = .ok b ↔ ∃ a, result = .ok a ∧ next a = .ok b := by
  cases result with
  | error e => simp [bind, Except.bind]
  | ok a => simp [bind, Except.bind]

namespace Template.Lexer

/-- The spans of events, in order. -/
def spansOf (events : List Event) : List Span :=
  events.flatMap fun event => event.2.spans

@[simp] theorem spansOf_nil : spansOf [] = [] := rfl

@[simp] theorem spansOf_cons (event : Event) (events : List Event) :
    spansOf (event :: events) = event.2.spans ++ spansOf events := rfl

@[simp] theorem spansOf_append (left right : List Event) :
    spansOf (left ++ right) = spansOf left ++ spansOf right :=
  List.flatMap_append

@[simp] theorem spansOf_textEvent (tagged : Tagged) : spansOf (textEvent tagged) = tagged.spans := by
  rw [textEvent]
  split
  · rename_i hEmpty
    simp only [Tagged.isEmpty, Bool.and_eq_true, List.isEmpty_iff] at hEmpty
    rw [hEmpty.2, spansOf_nil]
  · simp [spansOf]

/-- Points that move from a tag to the text in front of it stay in their place. -/
theorem spansOf_splitPoints (text tag : Tagged) (events : List Event) :
    spansOf (textEvent (text.addPoints tag.splitPoints.1) ++ (.terminal, tag.splitPoints.2) :: events) =
      text.spans ++ tag.spans ++ spansOf events := by
  simp only [Tagged.addPoints, Tagged.splitPoints, spansOf_append, spansOf_textEvent, spansOf_cons,
    List.append_assoc]
  rw [← List.append_assoc (List.takeWhile _ _), List.takeWhile_append_dropWhile]

variable {buffer : Tagged}

/-- Tags and the text in front of them are cut from a buffer one after the other. -/
theorem portion_tagEvents (hBuffer : buffer.Ordered)
    {tags : List (List Char × List Char)} {start stop : Nat} {events : List Event}
    (hEnd : tags ≠ [] → ¬ Tagged.EndsInPoint buffer.spans)
    (h : tagEvents buffer start tags = .ok (events, stop)) :
    stop = start + Text.byteLength (tags.flatMap fun tag => tag.1 ++ tag.2) ∧
      Portion buffer start stop (spansOf events) := by
  induction tags generalizing start events with
  | nil =>
    cases h
    exact ⟨rfl, Portion.nil buffer _ _⟩
  | cons tag tags ih =>
    obtain ⟨before, tag⟩ := tag
    have hNone := hEnd (List.cons_ne_nil (before, tag) tags)
    simp only [tagEvents, bind_eq_ok] at h
    obtain ⟨text, hText, part, hPart, ⟨more, last⟩, hMore, hDone⟩ := h
    cases hDone
    obtain ⟨hStop, hRest⟩ := ih (fun _ => hNone) hMore
    have hBefore := Portion.slice hBuffer hText
    have hTag := Portion.slice hBuffer hPart
    refine ⟨?_, ?_⟩
    · rw [List.flatMap_cons, Text.byteLength_append, Text.byteLength_append]
      dsimp only at hStop ⊢
      omega
    · rw [spansOf_splitPoints]
      have hFront := hBefore.append hBuffer (fun _ => hNone) (by omega) (by omega) hTag
      exact hFront.append hBuffer (fun _ => hNone) (by omega) (by omega) hRest

/-- Whether nothing of a text can be sorted yet. -/
def Held (text : List Char) : Prop :=
  scan text = ⟨[], [], text⟩

theorem ordered_slice (hBuffer : buffer.Ordered) {front back : List Char}
    (hText : buffer.text.toList = front ++ back) {part : Tagged}
    (h : buffer.slice (Text.byteLength front) buffer.size = .ok part) :
    part.Ordered ∧ part.text.toList = back := by
  have hSize : buffer.size = Text.byteLength (front ++ back) := by
    rw [Tagged.size, Text.size, hText]
  rw [Tagged.slice, hText, hSize, Text.slice?_append] at h
  obtain rfl := Except.ok.inj h
  refine ⟨⟨Tagged.ascending_keep hBuffer.ascending, ?_⟩, by simp⟩
  have hCovered : 0 + Tagged.covered buffer.spans = Text.byteLength (front ++ back) := by
    rw [Nat.zero_add, hBuffer.covered, hSize]
  rw [← hSize] at hCovered ⊢
  rw [Tagged.covered_keep (Nat.le_refl _) hCovered, hSize]
  simp [Tagged.size, Text.size]

/-- What a lexer sorts its buffer into: the tags with the text in front of them,
the text behind them and what is held back. -/
theorem process_cases {lexer done : Lexer} (h : lexer.process = .ok done) :
    ∃ events start,
      tagEvents lexer.buffer 0 (scan lexer.buffer.text.toList).tags = .ok (events, start) ∧
      ((∃ rest, lexer.buffer.slice start lexer.buffer.size = .ok rest ∧
          done = { lexer with
            buffer := .empty
            events := lexer.events ++ events ++ textEvent rest }) ∨
        ∃ rest held,
          ((scan lexer.buffer.text.toList).rest = [] ∧ rest = [] ∨
            (scan lexer.buffer.text.toList).rest ≠ [] ∧
              ∃ text, lexer.buffer.slice start
                  (start + Text.byteLength (scan lexer.buffer.text.toList).rest) = .ok text ∧
                rest = textEvent text) ∧
          lexer.buffer.slice (start + Text.byteLength (scan lexer.buffer.text.toList).rest)
              lexer.buffer.size = .ok held ∧
          done = { lexer with buffer := held, events := lexer.events ++ events ++ rest }) := by
  simp only [process, bind_eq_ok] at h
  obtain ⟨⟨events, start⟩, hEvents, hDone⟩ := h
  refine ⟨events, start, hEvents, ?_⟩
  dsimp only at hDone
  split at hDone
  · obtain ⟨rest, hRest, hDone⟩ := bind_eq_ok.1 hDone
    exact .inl ⟨rest, hRest, (Except.ok.inj hDone).symm⟩
  · right
    split at hDone
    · rename_i hNone
      obtain ⟨rest, hRest, hDone⟩ := bind_eq_ok.1 hDone
      obtain rfl : [] = rest := Except.ok.inj hRest
      obtain ⟨held, hKept, hDone⟩ := bind_eq_ok.1 hDone
      exact ⟨[], held, .inl ⟨by simpa using hNone, rfl⟩, hKept, (Except.ok.inj hDone).symm⟩
    · rename_i hSome
      obtain ⟨rest, hRest, hDone⟩ := bind_eq_ok.1 hDone
      obtain ⟨held, hKept, hDone⟩ := bind_eq_ok.1 hDone
      obtain ⟨text, hText, hRest⟩ := bind_eq_ok.1 hRest
      exact ⟨rest, held, .inr ⟨by simpa using hSome, text, hText, (Except.ok.inj hRest).symm⟩, hKept,
        (Except.ok.inj hDone).symm⟩

/-- A buffer is sorted into events and what is held back, in order. -/
theorem portion_process {lexer done : Lexer} (hBuffer : lexer.buffer.Ordered)
    (hEnd : Tagged.EndsInPoint lexer.buffer.spans → Held lexer.buffer.text.toList)
    (h : lexer.process = .ok done) :
    ∃ added, done.events = lexer.events ++ added ∧
      Portion lexer.buffer 0 lexer.buffer.size (spansOf added ++ done.buffer.spans) ∧
      done.buffer.Ordered ∧ Held done.buffer.text.toList := by
  have hScan := scan_append lexer.buffer.text.toList
  have hHeld := scan_held lexer.buffer.text.toList
  rw [Held] at hEnd
  obtain ⟨events, start, hEvents, hCases⟩ := process_cases h
  generalize scan lexer.buffer.text.toList = found at *
  have hTags : found.tags ≠ [] → ¬ Tagged.EndsInPoint lexer.buffer.spans := fun hSome hPoint =>
    hSome (by rw [hEnd hPoint])
  have hFound : spansOf events ≠ [] → ¬ Tagged.EndsInPoint lexer.buffer.spans := by
    intro hSome hPoint
    rw [hEnd hPoint] at hEvents
    cases hEvents
    exact hSome rfl
  obtain ⟨hStart, hFront⟩ := portion_tagEvents hBuffer hTags hEvents
  generalize hTagText : (found.tags.flatMap fun tag => tag.1 ++ tag.2) = tagText at *
  have hSize : lexer.buffer.size = start + Text.byteLength found.rest + Text.byteLength found.held := by
    rw [Tagged.size, Text.size, ← hScan, Text.byteLength_append, Text.byteLength_append, hStart]
    omega
  obtain ⟨rest, hRest, rfl⟩ | ⟨rest, held, hText, hKept, rfl⟩ := hCases
  · refine ⟨events ++ textEvent rest, by simp, ?_, ⟨List.Pairwise.nil, rfl⟩, ?_⟩
    · rw [spansOf_append, spansOf_textEvent]
      have := hFront.append hBuffer hFound (Nat.zero_le _) (by omega) (Portion.slice hBuffer hRest)
      simpa [Tagged.empty] using this
    · exact @scan_of_none [] [] rfl
  · have hRest : Portion lexer.buffer start (start + Text.byteLength found.rest) (spansOf rest) := by
      obtain ⟨-, rfl⟩ | ⟨-, text, hSlice, rfl⟩ := hText
      · exact Portion.nil _ _ _
      · exact spansOf_textEvent text ▸ Portion.slice hBuffer hSlice
    have hSome : spansOf events ++ spansOf rest ≠ [] → ¬ Tagged.EndsInPoint lexer.buffer.spans := by
      intro hSome hPoint
      obtain ⟨-, rfl⟩ | ⟨hRest, -⟩ := hText
      · rw [spansOf_nil, List.append_nil] at hSome
        exact hFound hSome hPoint
      · exact hRest (by rw [hEnd hPoint])
    have hKeptText : lexer.buffer.slice (Text.byteLength (tagText ++ found.rest)) lexer.buffer.size =
        .ok held := by
      rw [Text.byteLength_append, ← hKept, hStart, Nat.zero_add]
    obtain ⟨hOrdered, hText⟩ := ordered_slice hBuffer hScan.symm hKeptText
    refine ⟨events ++ rest, by simp, ?_, hOrdered, ?_⟩
    · rw [spansOf_append]
      have hBoth := hFront.append hBuffer hFound (Nat.zero_le _) (Nat.le_add_right _ _) hRest
      exact hBoth.append hBuffer hSome (Nat.zero_le _) (by omega) (Portion.slice hBuffer hKept)
    · rw [Held, hText]
      exact hHeld

/-- The spans of everything that was fed, in order. -/
def seen (lexer : Lexer) : List Span :=
  spansOf lexer.events ++ lexer.buffer.spans

/-- A lexer whose spans are in order between two chunks. -/
structure Sorted (lexer : Lexer) : Prop where
  buffer : lexer.buffer.Ordered
  held : Held lexer.buffer.text.toList
  ascending : Tagged.Ascending lexer.seen

theorem Sorted.start : Sorted {} :=
  ⟨⟨List.Pairwise.nil, rfl⟩, @scan_of_none [] [] rfl, List.Pairwise.nil⟩

/-- A leaf behind all those that were fed joins the buffer at its end. -/
theorem Sorted.ordered_append {lexer : Lexer} (h : lexer.Sorted) (leaf : Leaf)
    (hNew : ∀ span ∈ lexer.seen, Path.Before span.path leaf.path) :
    (lexer.buffer ++ Tagged.ofLeaf leaf.text leaf.path leaf.atom).Ordered := by
  constructor
  · refine List.pairwise_append.2 ⟨h.buffer.ascending, List.pairwise_singleton _ _, ?_⟩
    intro span hSpan other hOther
    obtain rfl := List.mem_singleton.1 hOther
    exact .inr (hNew span (List.mem_append_right _ hSpan))
  · rw [Tagged.spans_append, Tagged.covered_append, h.buffer.covered, Tagged.size, Tagged.size,
      Text.size, Text.size, Tagged.text_append, String.toList_append, Text.byteLength_append]
    rfl

/-- Only a leaf without text puts a point at the end of the buffer. -/
theorem Sorted.held_append {lexer : Lexer} (h : lexer.Sorted) (leaf : Leaf)
    (hEnd : Tagged.EndsInPoint (lexer.buffer ++ Tagged.ofLeaf leaf.text leaf.path leaf.atom).spans) :
    Held (lexer.buffer ++ Tagged.ofLeaf leaf.text leaf.path leaf.atom).text.toList := by
  obtain ⟨span, hLast, hPoint⟩ := hEnd
  obtain rfl : Span.whole leaf.path leaf.atom (Text.size leaf.text) = span := by
    simpa [Tagged.ofLeaf] using hLast
  have hSize : Text.byteLength leaf.text.toList = 0 := by
    simpa [Span.isPoint, Span.whole, Text.size] using hPoint
  have hText : leaf.text.toList = [] := Text.eq_nil_of_byteLength hSize
  rw [Tagged.text_append, String.toList_append, Tagged.ofLeaf, hText, List.append_nil]
  exact h.held

/-- Feeding a leaf that lies behind all others keeps the spans in order. -/
theorem Sorted.feed {lexer fed : Lexer} (h : lexer.Sorted) (leaf : Leaf)
    (hNew : ∀ span ∈ lexer.seen, Path.Before span.path leaf.path)
    (hFeed : lexer.feed (.ofLeaf leaf.text leaf.path leaf.atom) = .ok fed) :
    fed.Sorted ∧ ∀ span ∈ fed.seen, span.path ∈ lexer.seen.map Span.path ++ [leaf.path] := by
  have hBuffer := h.ordered_append leaf hNew
  rw [Lexer.feed] at hFeed
  split at hFeed
  · cases hFeed
  · obtain ⟨added, hEvents, hPortion, hOrdered, hHeld⟩ :=
      portion_process hBuffer (h.held_append leaf) hFeed
    have hSeen : fed.seen = spansOf lexer.events ++ (spansOf added ++ fed.buffer.spans) := by
      rw [seen, hEvents, spansOf_append, List.append_assoc]
    have hPath : ∀ span ∈ spansOf added ++ fed.buffer.spans,
        span.path ∈ lexer.buffer.spans.map Span.path ++ [leaf.path] := by
      intro span hSpan
      simpa [Tagged.ofLeaf, Span.whole] using hPortion.path_mem hSpan
    obtain ⟨hOld, -, hCross⟩ := List.pairwise_append.1 h.ascending
    refine ⟨⟨hOrdered, hHeld, ?_⟩, ?_⟩
    · rw [hSeen]
      refine List.pairwise_append.2 ⟨hOld, hPortion.ascending, fun span hSpan other hOther => ?_⟩
      rcases List.mem_append.1 (hPath other hOther) with hPart | hLeaf
      · obtain ⟨source, hSource, hSame⟩ := List.mem_map.1 hPart
        rw [← hSame]
        exact hCross span hSpan source hSource
      · rw [List.mem_singleton.1 hLeaf]
        exact .inr (hNew span (List.mem_append_left _ hSpan))
    · intro span hSpan
      rw [hSeen] at hSpan
      rw [seen, List.map_append, List.append_assoc]
      rcases List.mem_append.1 hSpan with hSpan | hSpan
      · exact List.mem_append_left _ (List.mem_map_of_mem hSpan)
      · exact List.mem_append_right _ (hPath span hSpan)

/-- Feeding leaves in document order keeps the spans in order. -/
theorem Sorted.feedLeaves {lexer fed : Lexer} {leaves : List Leaf} (h : lexer.Sorted)
    (hLeaves : (leaves.map Leaf.path).Pairwise Path.Before)
    (hNew : ∀ span ∈ lexer.seen, ∀ leaf ∈ leaves, Path.Before span.path leaf.path)
    (hFeed : lexer.feedLeaves leaves = .ok fed) :
    fed.Sorted ∧
      ∀ span ∈ fed.seen, span.path ∈ lexer.seen.map Span.path ++ leaves.map Leaf.path := by
  induction leaves generalizing lexer with
  | nil =>
    cases hFeed
    exact ⟨h, fun span hSpan => List.mem_append_left _ (List.mem_map_of_mem hSpan)⟩
  | cons leaf leaves ih =>
    obtain ⟨hHead, hTail⟩ := List.pairwise_cons.1 hLeaves
    obtain ⟨next, hNext, hRest⟩ := bind_eq_ok.1 hFeed
    obtain ⟨hSorted, hPaths⟩ := h.feed leaf (fun span hSpan => hNew span hSpan leaf List.mem_cons_self)
      hNext
    have hLater : ∀ span ∈ next.seen, ∀ other ∈ leaves, Path.Before span.path other.path := by
      intro span hSpan other hOther
      rcases List.mem_append.1 (hPaths span hSpan) with hOld | hLeaf
      · obtain ⟨source, hSource, hSame⟩ := List.mem_map.1 hOld
        rw [← hSame]
        exact hNew source hSource other (List.mem_cons_of_mem leaf hOther)
      · rw [List.mem_singleton.1 hLeaf]
        exact hHead other.path (List.mem_map_of_mem hOther)
    obtain ⟨hDone, hAll⟩ := ih hSorted hTail hLater hRest
    refine ⟨hDone, fun span hSpan => ?_⟩
    rw [List.map_cons, List.append_cons]
    rcases List.mem_append.1 (hAll span hSpan) with hOld | hLeaf
    · obtain ⟨source, hSource, hSame⟩ := List.mem_map.1 hOld
      rw [← hSame]
      exact List.mem_append_left _ (hPaths source hSource)
    · exact List.mem_append_right _ hLeaf

end Template.Lexer

namespace Template.Token

/-- The events that leaves in document order give rise to name the leaves in
this order. -/
theorem ascending_ofLeaves {leaves : List Leaf} {events : List Event}
    (hLeaves : (leaves.map Leaf.path).Pairwise Path.Before) (h : ofLeaves leaves = .ok events) :
    Tagged.Ascending (Lexer.spansOf events) ∧
      ∀ span ∈ Lexer.spansOf events, span.path ∈ leaves.map Leaf.path := by
  obtain ⟨fed, hFeed, hRead⟩ := bind_eq_ok.1 h
  obtain ⟨hSorted, hPaths⟩ := Lexer.Sorted.start.feedLeaves hLeaves (by simp [Lexer.seen, Tagged.empty]) hFeed
  have hSeen : Lexer.spansOf events = fed.seen := by
    rw [← Except.ok.inj hRead]
    simp [Lexer.read, Lexer.close, Lexer.seen]
  rw [hSeen]
  exact ⟨hSorted.ascending, fun span hSpan => by
    simpa [Lexer.seen, Tagged.empty] using hPaths span hSpan⟩

end Template.Token

end Infill
