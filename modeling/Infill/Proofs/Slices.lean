import Infill.Proofs.Tiling
import Infill.Proofs.Tree

/-!
The laws of slices. A text has a slice between two of its cuts, and a slice of a
slice is a slice of the text. Slices that meet share neither bytes nor points,
except that both hold the points at the end of the text if they meet there. So a
text that is sliced at growing cuts can be put together again: every byte still
names its place in a leaf, and every point is where it was.
-/
namespace Infill

/-! ### Cuts between characters -/

namespace Text

/-- Whether a text has a cut at a byte. -/
def IsEdge (text : List Char) (byte : Nat) : Prop :=
  ∃ front back, text = front ++ back ∧ byteLength front = byte

variable {front back first last text part : List Char} {start stop : Nat}

/-- Of two cuts of a text the later one cuts what is behind the earlier one. -/
theorem exists_append_of_le (h : front ++ back = first ++ last)
    (hLe : byteLength front ≤ byteLength first) :
    ∃ more, first = front ++ more ∧ back = more ++ last := by
  rcases List.append_eq_append_iff.1 h with ⟨more, hFirst, hBack⟩ | ⟨more, rfl, rfl⟩
  · exact ⟨more, hFirst, hBack⟩
  · rw [byteLength_append] at hLe
    obtain rfl : more = [] := eq_nil_of_byteLength (by omega)
    exact ⟨[], by simp, rfl⟩

/-- The characters between two bytes are those between two cuts. -/
theorem slice?_eq_some_iff :
    slice? start stop text = some part ↔ ∃ front back, text = front ++ part ++ back ∧
      byteLength front = start ∧ start + byteLength part = stop := by
  constructor
  · intro h
    rw [slice?] at h
    split at h
    · rename_i hOrder
      split at h
      · rename_i front rest hFront
        obtain ⟨⟨part', back⟩, hPart, rfl⟩ := Option.map_eq_some_iff.1 h
        obtain ⟨rfl, rfl⟩ := cut?_eq_some hFront
        obtain ⟨rfl, hLength⟩ := cut?_eq_some hPart
        exact ⟨front, back, List.append_assoc _ _ _ ▸ rfl, rfl, by dsimp only; omega⟩
      · cases h
    · cases h
  · rintro ⟨front, back, rfl, rfl, rfl⟩
    exact slice?_middle front part back

/-- There are characters between two bytes exactly if the text has cuts at both,
in this order. -/
theorem exists_slice?_iff :
    (∃ part, slice? start stop text = some part) ↔
      start ≤ stop ∧ IsEdge text start ∧ IsEdge text stop := by
  constructor
  · rintro ⟨part, h⟩
    obtain ⟨front, back, rfl, rfl, rfl⟩ := slice?_eq_some_iff.1 h
    exact ⟨Nat.le_add_right _ _, ⟨front, part ++ back, List.append_assoc _ _ _, rfl⟩,
      front ++ part, back, rfl, byteLength_append _ _⟩
  · rintro ⟨hOrder, ⟨front, rest, rfl, rfl⟩, first, back, hText, rfl⟩
    obtain ⟨part, rfl, rfl⟩ := exists_append_of_le hText hOrder
    refine ⟨part, slice?_eq_some_iff.2 ⟨front, back, (List.append_assoc _ _ _).symm, rfl, ?_⟩⟩
    rw [byteLength_append]

theorem IsEdge.le (h : IsEdge text start) : start ≤ byteLength text := by
  obtain ⟨front, back, rfl, rfl⟩ := h
  rw [byteLength_append]
  exact Nat.le_add_right _ _

end Text

open Text (IsEdge)

namespace Tagged

variable {a b c d start middle stop size cursor : Nat} {span : Span}
  {spans left right fine coarse : List Span}

/-! ### Slices of slices -/

theorem keep_append :
    keep start stop size cursor (left ++ right) = keep start stop size cursor left ++
      keep start stop size (cursor + covered left) right := by
  induction left generalizing cursor with
  | nil => rfl
  | cons span left ih =>
    rw [List.cons_append, keep, keep, ih, covered_cons, List.append_assoc, Nat.add_assoc]

/-- A slice keeps nothing behind its end, and no points at it if the text goes on. -/
theorem keep_eq_nil_of_le (h : stop ≤ cursor) (hEnd : stop < cursor ∨ stop < size) :
    keep start stop size cursor spans = [] := by
  induction spans generalizing cursor with
  | nil => rfl
  | cons span spans ih =>
    rw [keep, ih (by omega) (by omega), List.append_nil, keep?]
    split
    · rw [if_neg (by omega), Option.toList_none]
    · dsimp only
      rw [if_pos (by omega), Option.toList_none]

theorem keep_eq_nil_of_lt (h : stop < cursor) : keep start stop size cursor spans = [] :=
  keep_eq_nil_of_le h.le (.inl h)

theorem length_between {low high : Nat} {span : Span} (hOrder : low ≤ high) :
    low + (between cursor low high span).length = high := by
  rw [between]
  split
  · omega
  · exact Nat.add_sub_cancel' hOrder

/-- A part of a part of a span is a part of the span. -/
theorem between_between {low high low' high' : Nat} (hStart : start ≤ low) (hLow : low ≤ low' + start)
    (hOrder : low' ≤ high') (hHigh : high' + start ≤ high) (hCursor : cursor ≤ low)
    (hReach : high ≤ cursor + span.length) :
    between (low - start) low' high' (between cursor low high span) =
      between cursor (low' + start) (high' + start) span := by
  by_cases hWhole : low = cursor ∧ high = cursor + span.length
  · have hOuter : between cursor low high span = span := if_pos hWhole
    obtain ⟨rfl, rfl⟩ := hWhole
    rw [hOuter, between, between]
    refine if_congr (by omega) rfl ?_
    congr 1 <;> omega
  · have hOuter : between cursor low high span = span.narrow (low - cursor) (high - low) :=
      if_neg hWhole
    rw [hOuter, between, between, if_neg (show ¬ (low' + start = cursor ∧ _) by omega)]
    split
    · rename_i hInner
      change low' = low - start ∧ high' = low - start + (high - low) at hInner
      congr 1 <;> omega
    · rw [Span.narrow_narrow]
      congr 1 <;> omega

/-- What a slice keeps of what another one kept of a span. -/
theorem keep?_keep? (hStop : a + d ≤ b) (hOrder : c ≤ d) (hSize : b ≤ size) :
    (keep? a b size cursor span).bind (keep? c d (b - a) (max cursor a - a)) =
      keep? (a + c) (a + d) size cursor span := by
  by_cases hPoint : span.isPoint = true
  · rw [keep?, if_pos hPoint, keep?, if_pos hPoint]
    split
    · rw [Option.bind_some, keep?, if_pos hPoint]
      exact if_congr (by omega) rfl rfl
    · rw [if_neg (by omega)]
      rfl
  · rw [keep?_of_not_point hPoint, keep?_of_not_point hPoint]
    split
    · rw [if_pos (by omega)]
      rfl
    · rename_i hSome
      obtain ⟨low, hLow⟩ : ∃ low, low + a = max cursor a := ⟨max cursor a - a, by omega⟩
      have hLength := @length_between cursor _ _ span (Nat.le_of_not_le hSome)
      have hPart := @between_between a cursor span (max cursor a) (min (cursor + span.length) b)
      rw [show max cursor a - a = low by omega] at hPart ⊢
      generalize between cursor (max cursor a) (min (cursor + span.length) b) span = part at *
      have hKept : ¬ part.isPoint = true := by
        simp only [Span.isPoint, beq_iff_eq]
        omega
      have hFrom : max low c + a = max cursor (a + c) := by omega
      have hTo : min (low + part.length) d + a = min (cursor + span.length) (a + d) := by omega
      rw [Option.bind_some, keep?_of_not_point hKept, ← hFrom, ← hTo]
      split
      · rw [if_pos (by omega)]
      · rw [if_neg (by omega), hPart]
        all_goals omega

/-- What is kept of a span that ends in the slice ends where the span does. -/
theorem next_of_keep? (hReach : cursor + span.length ≤ stop) :
    max cursor start + covered (keep? start stop size cursor span).toList =
      max (cursor + span.length) start := by
  by_cases hPoint : span.isPoint = true
  · have hLength : span.length = 0 := by simpa [Span.isPoint] using hPoint
    rw [keep?, if_pos hPoint]
    split
    · simp [covered, hLength]
    · simp [covered, hLength]
  · rw [keep?_of_not_point hPoint]
    split
    · simp only [Option.toList_none, covered, List.foldr_nil]
      omega
    · have := @length_between cursor (max cursor start) (min (cursor + span.length) stop) span
        (by omega)
      simp only [Option.toList_some, covered, List.foldr_cons, List.foldr_nil]
      omega

theorem keep_toList (kept : Option Span) :
    keep start stop size cursor kept.toList = (kept.bind (keep? start stop size cursor)).toList := by
  cases kept with
  | none => rfl
  | some span => exact List.append_nil _

/-- A slice of a slice is a slice of the text. -/
theorem keep_keep (hStop : a + d ≤ b) (hOrder : c ≤ d) (hSize : b ≤ size) :
    keep c d (b - a) (max cursor a - a) (keep a b size cursor spans) =
      keep (a + c) (a + d) size cursor spans := by
  induction spans generalizing cursor with
  | nil => rfl
  | cons span spans ih =>
    rw [keep, keep, keep_append, keep_toList, keep?_keep? hStop hOrder hSize]
    congr 1
    rcases Nat.lt_or_ge b (cursor + span.length) with hLess | hGe
    · -- behind a span that reaches over the end of the slice neither side keeps anything
      rw [keep_eq_nil_of_lt hLess, @keep_eq_nil_of_lt (a + c) _ _ _ _ (by omega)]
      rfl
    · have hNext := @next_of_keep? a b size cursor span hGe
      rw [show max cursor a - a + covered (keep? a b size cursor span).toList =
        max (cursor + span.length) a - a by omega]
      exact ih

/-! ### Slices that meet in front of the end -/

/-- Spans that are cut may be cut again. -/
theorem Refines.trans {finer : List Span} (h : Refines finer fine) (hMore : Refines fine coarse) :
    Refines finer coarse := by
  induction h generalizing coarse with
  | nil => exact hMore
  | same h ih =>
    cases hMore with
    | same hMore => exact .same (ih hMore)
    | cut hPos hLess hMore => exact .cut hPos hLess (ih hMore)
  | @cut span finer fine first hPos hLess h ih =>
    cases hMore with
    | same hMore => exact .cut hPos hLess (ih (.same hMore))
    | @cut whole _ coarse second hPos' hLess' hMore =>
      -- the first part was cut in two: the second cut is now one of the rest
      have hFirst : first < second := hLess
      rw [Span.narrow_narrow, Nat.zero_add]
      refine .cut hPos (hFirst.trans hLess') (ih ?_)
      have hHead : (whole.narrow 0 second).narrow first ((whole.narrow 0 second).length - first) =
          (whole.narrow first (whole.length - first)).narrow 0 (second - first) := by
        rw [Span.narrow_narrow, Span.narrow_narrow, Nat.zero_add, Nat.add_zero]
        rfl
      rw [hHead]
      refine .cut (Nat.sub_pos_of_lt hFirst) ?_ ?_
      · change second - first < whole.length - first
        omega
      · rw [Span.narrow_narrow, Nat.add_sub_cancel' hFirst.le]
        change Refines fine (whole.narrow second (whole.length - first - (second - first)) :: coarse)
        rwa [show whole.length - first - (second - first) = whole.length - second by omega]

/-- Where a slice begins has no bearing on the spans behind that byte. -/
theorem keep_of_le (hStart : start ≤ cursor) (hMiddle : middle ≤ cursor) :
    keep middle stop size cursor spans = keep start stop size cursor spans := by
  induction spans generalizing cursor with
  | nil => rfl
  | cons span spans ih =>
    rw [keep, keep, ih (by omega) (by omega), keep?, keep?, Nat.max_eq_left hStart,
      Nat.max_eq_left hMiddle]
    congr 2
    exact if_congr Iff.rfl (if_congr (by omega) rfl rfl) rfl

/-- Two slices that meet in front of the end of the text keep what the slice of
both keeps. -/
theorem keep_split_of_lt (hStart : start ≤ middle) (hStop : middle ≤ stop) (hMiddle : middle < size) :
    Refines (keep start middle size cursor spans ++ keep middle stop size cursor spans)
      (keep start stop size cursor spans) := by
  induction spans generalizing cursor with
  | nil => exact .nil
  | cons span spans ih =>
    by_cases hBefore : middle ≤ cursor
    · rw [keep_eq_nil_of_le hBefore (.inr hMiddle), List.nil_append,
        @keep_of_le start _ _ _ _ _ (hStart.trans hBefore) hBefore]
      exact .refl _
    · exact keep_split_cons hStart hStop (by omega)
        (fun hReach => keep_eq_nil_of_le hReach (.inr hMiddle)) ih

/-! ### Bytes and points -/

/-- What a span says of one of its bytes: the leaf, the atom and the place in the
text of the leaf. -/
structure Origin where
  path : Path
  atom : Path
  offset : Nat
  deriving DecidableEq, Inhabited, Repr

/-- What spans say of the bytes they cover, byte by byte. -/
def origins (spans : List Span) : List Origin :=
  spans.flatMap fun span =>
    (List.range span.length).map fun byte => ⟨span.path, span.atom, span.offset + byte⟩

/-- Spans with the bytes at which they begin, the first one at byte `start`. -/
def placed : (start : Nat) → List Span → List (Nat × Span)
  | _, [] => []
  | start, span :: spans => (start, span) :: placed (start + span.length) spans

/-- The points among spans with the bytes at which they stand. -/
def points (start : Nat) (spans : List Span) : List (Nat × Span) :=
  (placed start spans).filter fun place => place.2.isPoint

theorem origins_cons (span : Span) (spans : List Span) :
    origins (span :: spans) =
      ((List.range span.length).map fun byte => ⟨span.path, span.atom, span.offset + byte⟩) ++
        origins spans :=
  rfl

theorem length_origins (spans : List Span) : (origins spans).length = covered spans := by
  induction spans with
  | nil => rfl
  | cons span spans ih =>
    rw [origins_cons, List.length_append, List.length_map, List.length_range, ih, covered_cons]

theorem points_cons (start : Nat) (span : Span) (spans : List Span) :
    points start (span :: spans) =
      (if span.isPoint then [(start, span)] else []) ++ points (start + span.length) spans := by
  rw [points, placed, List.filter_cons]
  split <;> rfl

/-- A span that is cut says of its bytes what it said before. -/
theorem origins_cut {first : Nat} (hLess : first < span.length) :
    origins (span.narrow 0 first :: span.narrow first (span.length - first) :: spans) =
      origins (span :: spans) := by
  have hRange : List.range span.length =
      List.range first ++ (List.range (span.length - first)).map (first + ·) := by
    rw [← List.range_add, Nat.add_sub_cancel' hLess.le]
  rw [origins_cons, origins_cons, origins_cons, hRange, List.map_append, List.map_map,
    List.append_assoc]
  simp only [Span.narrow, Nat.add_zero, Nat.add_assoc, Function.comp_def]

/-- Cutting spans changes nothing for their bytes. -/
theorem Refines.origins_eq (h : Refines fine coarse) : origins fine = origins coarse := by
  induction h with
  | nil => rfl
  | same h ih => rw [origins_cons, origins_cons, ih]
  | cut hPos hLess h ih => rw [origins_cons, ih, ← origins_cons, origins_cut hLess]

/-- Cutting spans leaves the points where they are. -/
theorem Refines.points_eq (h : Refines fine coarse) (start : Nat) :
    points start fine = points start coarse := by
  induction h generalizing start with
  | nil => rfl
  | same h ih => rw [points_cons, points_cons, ih]
  | @cut span fine coarse first hPos hLess h ih =>
    have hPoint : ∀ {skip length}, 0 < length → (span.narrow skip length).isPoint = false :=
      fun hLength => by simpa [Span.isPoint, Span.narrow] using hLength.ne'
    have hWhole : span.isPoint = false := by
      simp only [Span.isPoint, beq_eq_false_iff_ne]
      omega
    rw [points_cons, ih, points_cons, points_cons, hPoint hPos, hPoint (by omega), hWhole]
    simp only [Bool.false_eq_true, if_false, List.nil_append]
    change points (start + first + (span.length - first)) coarse = _
    rw [Nat.add_assoc, Nat.add_sub_cancel' hLess.le]

/-! ### What a slice keeps of each span -/

/-- Whether a span at a byte is what a slice may keep of another one at its own
byte. A span that is shortened is not constant, any other one is left as it was. -/
structure IsCutOf (part whole : Nat × Span) : Prop where
  path : part.2.path = whole.2.path
  atom : part.2.atom = whole.2.atom
  total : part.2.total = whole.2.total
  begins : whole.1 ≤ part.1
  ends : part.1 + part.2.length ≤ whole.1 + whole.2.length
  offset : part.2.offset + whole.1 = whole.2.offset + part.1
  same : part.2.length = whole.2.length → part = whole
  shortened : part.2.length < whole.2.length → part.2.isConstant = false

theorem IsCutOf.refl (place : Nat × Span) : IsCutOf place place :=
  ⟨rfl, rfl, rfl, Nat.le_refl _, Nat.le_refl _, rfl, fun _ => rfl,
    fun hLess => absurd hLess (Nat.lt_irrefl _)⟩

/-- The bytes of a span between two places are a part of it. -/
theorem isCutOf_between {low high : Nat} (hFits : span.offset + span.length ≤ span.total)
    (hCursor : cursor ≤ low) (hOrder : low ≤ high) (hReach : high ≤ cursor + span.length) :
    IsCutOf (low, between cursor low high span) (cursor, span) := by
  rw [between]
  split
  · rename_i hWhole
    rw [hWhole.1]
    exact .refl _
  · rename_i hCut
    have hLess : high - low < span.length := by omega
    refine ⟨rfl, rfl, rfl, hCursor, ?_, ?_, fun hSame => absurd hSame hLess.ne, fun _ => ?_⟩
    · change low + (high - low) ≤ cursor + span.length
      omega
    · change span.offset + (low - cursor) + cursor = span.offset + low
      omega
    · change (span.offset + (low - cursor) == 0 && high - low == span.total) = false
      rw [Bool.and_eq_false_iff, beq_eq_false_iff_ne, beq_eq_false_iff_ne]
      omega

/-- What a slice keeps of a span is a part of the span, at its place. -/
theorem isCutOf_keep? {kept : Span} (hFits : span.offset + span.length ≤ span.total)
    (hOrder : start ≤ stop) (h : keep? start stop size cursor span = some kept) :
    IsCutOf (max cursor start, kept) (cursor, span) := by
  by_cases hPoint : span.isPoint = true
  · rw [keep?, if_pos hPoint] at h
    split at h
    · obtain rfl := Option.some.inj h
      rw [show max cursor start = cursor by omega]
      exact .refl _
    · cases h
  · rw [keep?_of_not_point hPoint] at h
    split at h
    · cases h
    · obtain rfl := Option.some.inj h
      exact isCutOf_between hFits (by omega) (by omega) (by omega)

/-- A slice keeps parts of some of the spans, each at its place and in order. -/
theorem exists_isCutOf_keep (hFits : ∀ span ∈ spans, span.offset + span.length ≤ span.total)
    (hOrder : start ≤ stop) :
    ∃ sources, sources.Sublist (placed cursor spans) ∧
      List.Forall₂ IsCutOf (placed (max cursor start) (keep start stop size cursor spans))
        sources := by
  induction spans generalizing cursor with
  | nil => exact ⟨[], .slnil, .nil⟩
  | cons span spans ih =>
    obtain ⟨hHead, hTail⟩ := List.forall_mem_cons.1 hFits
    have hRest : ∃ sources, sources.Sublist (placed (cursor + span.length) spans) ∧
        List.Forall₂ IsCutOf
          (placed (max cursor start + covered (keep? start stop size cursor span).toList)
            (keep start stop size (cursor + span.length) spans)) sources := by
      rcases Nat.lt_or_ge stop (cursor + span.length) with hLess | hGe
      · rw [keep_eq_nil_of_lt hLess]
        exact ⟨[], List.nil_sublist _, .nil⟩
      · rw [next_of_keep? hGe]
        exact ih hTail
    obtain ⟨sources, hSources, hParts⟩ := hRest
    rw [keep, placed]
    cases hKept : keep? start stop size cursor span with
    | none =>
      rw [hKept] at hParts
      exact ⟨sources, hSources.cons _, hParts⟩
    | some kept =>
      rw [hKept] at hParts
      exact ⟨_, hSources.cons_cons _, .cons (isCutOf_keep? hHead hOrder hKept) hParts⟩

/-! ### Slices put together -/

/-- The slices of a text from byte `start` to the first cut, and from each cut to
the next one. -/
def slices (tagged : Tagged) : (start : Nat) → List Nat → Except Error (List Tagged)
  | _, [] => .ok []
  | start, cut :: cuts => do
    let part ← tagged.slice start cut
    return part :: (← tagged.slices cut cuts)

/-- Texts put together, one behind the other. -/
def join (parts : List Tagged) : Tagged :=
  parts.foldl (· ++ ·) .empty

theorem foldl_append_eq (tagged : Tagged) (parts : List Tagged) :
    (parts.foldl (· ++ ·) tagged).text.toList =
        tagged.text.toList ++ parts.flatMap (·.text.toList) ∧
      (parts.foldl (· ++ ·) tagged).spans = tagged.spans ++ parts.flatMap (·.spans) := by
  induction parts generalizing tagged with
  | nil => simp
  | cons part parts ih =>
    obtain ⟨hText, hSpans⟩ := ih (tagged ++ part)
    rw [List.foldl_cons, hText, hSpans, text_append, String.toList_append, spans_append]
    simp

theorem text_join (parts : List Tagged) :
    (join parts).text.toList = parts.flatMap (·.text.toList) :=
  (foldl_append_eq .empty parts).1

theorem spans_join (parts : List Tagged) : (join parts).spans = parts.flatMap (·.spans) :=
  (foldl_append_eq .empty parts).2

variable {tagged part inner : Tagged}

theorem slice_eq_ok_iff :
    tagged.slice start stop = .ok part ↔ ∃ front text back,
      tagged.text.toList = front ++ text ++ back ∧ Text.byteLength front = start ∧
        start + Text.byteLength text = stop ∧ part = tagged.part start text := by
  constructor
  · intro h
    rw [slice] at h
    split at h
    · rename_i text hText
      obtain rfl := Except.ok.inj h
      obtain ⟨front, back, hAll, rfl, rfl⟩ := Text.slice?_eq_some_iff.1 hText
      exact ⟨front, text, back, hAll, rfl, rfl, rfl⟩
    · cases h
  · rintro ⟨front, text, back, hAll, rfl, rfl, rfl⟩
    exact slice_eq_part hAll

/-- A text has a slice between two of its cuts that are in order, and nowhere else. -/
theorem exists_slice_iff :
    (∃ part, tagged.slice start stop = .ok part) ↔ start ≤ stop ∧ stop ≤ tagged.size ∧
      IsEdge tagged.text.toList start ∧ IsEdge tagged.text.toList stop := by
  have hSlice : (∃ part, tagged.slice start stop = .ok part) ↔
      ∃ text, Text.slice? start stop tagged.text.toList = some text := by
    rw [slice]
    cases Text.slice? start stop tagged.text.toList with
    | none => simp
    | some text => simp
  rw [hSlice, Text.exists_slice?_iff]
  exact and_congr_right fun _ => ⟨fun h => ⟨h.2.le, h⟩, fun h => h.2⟩

theorem size_part (tagged : Tagged) (start : Nat) (text : List Char) :
    (tagged.part start text).size = Text.byteLength text := by
  rw [size, Text.size, text_part]

/-- A part of a part of a text is a part of the text. -/
theorem part_part {first more last : List Char}
    (hSize : start + Text.byteLength (first ++ more ++ last) ≤ tagged.size) :
    (tagged.part start (first ++ more ++ last)).part (Text.byteLength first) more =
      tagged.part (start + Text.byteLength first) more := by
  have hKeep := @keep_keep start (start + Text.byteLength (first ++ more ++ last))
    (Text.byteLength first) (Text.byteLength first + Text.byteLength more) tagged.size 0
    tagged.spans
  rw [Nat.zero_max, Nat.sub_self, Nat.add_sub_cancel_left] at hKeep
  have hSpans : ((tagged.part start (first ++ more ++ last)).part (Text.byteLength first) more).spans =
      (tagged.part (start + Text.byteLength first) more).spans := by
    change keep _ _ (tagged.part start (first ++ more ++ last)).size 0 (keep _ _ _ _ _) = keep _ _ _ _ _
    rw [size_part, hKeep ?_ (Nat.le_add_right _ _) hSize, Nat.add_assoc]
    rw [Text.byteLength_append, Text.byteLength_append]
    omega
  rw [part, part]
  exact congrArg (Tagged.mk _) hSpans

/-- The slices of a slice are the slices of the text that lie in it. -/
theorem slice_slice_iff (h : tagged.slice a b = .ok part) :
    part.slice c d = .ok inner ↔ a + d ≤ b ∧ tagged.slice (a + c) (a + d) = .ok inner := by
  obtain ⟨front, text, back, hAll, rfl, rfl, rfl⟩ := slice_eq_ok_iff.1 h
  have hBound : Text.byteLength front + Text.byteLength text ≤ tagged.size := by
    rw [size, Text.size, hAll, Text.byteLength_append, Text.byteLength_append]
    exact Nat.le_add_right _ _
  constructor
  · intro hInner
    obtain ⟨first, more, last, hText, rfl, rfl, rfl⟩ := slice_eq_ok_iff.1 hInner
    obtain rfl : text = first ++ more ++ last := (text_part _ _ _).symm.trans hText
    refine ⟨?_, slice_eq_ok_iff.2
      ⟨front ++ first, more, last ++ back, ?_, Text.byteLength_append _ _, ?_, part_part hBound⟩⟩
    · rw [Text.byteLength_append, Text.byteLength_append]
      omega
    · rw [hAll]
      simp
    · omega
  · rintro ⟨hStop, hOuter⟩
    obtain ⟨before, more, behind, hOther, hBefore, hMore, rfl⟩ := slice_eq_ok_iff.1 hOuter
    rw [hOther, List.append_assoc front, List.append_assoc before] at hAll
    obtain ⟨first, rfl, hRest⟩ := Text.exists_append_of_le hAll.symm (by omega)
    rw [Text.byteLength_append] at hBefore
    rw [← List.append_assoc] at hRest
    obtain ⟨last, rfl, -⟩ := Text.exists_append_of_le hRest.symm
      (by rw [Text.byteLength_append]; omega)
    obtain rfl : Text.byteLength first = c := by omega
    exact slice_eq_ok_iff.2
      ⟨first, more, last, text_part _ _ _, rfl, by omega, (part_part hBound).symm⟩

/-- The spans of neighbouring slices, up to the end of the text, are those of the
text, some of them cut. -/
theorem exists_slices {front rest : List Char} {cuts : List Nat}
    (hText : tagged.text.toList = front ++ rest) (hStart : Text.byteLength front = start)
    (hOrder : (start :: cuts).Pairwise (· < ·)) (hEnd : cuts.getLastD start = tagged.size)
    (hEdges : ∀ cut ∈ cuts, IsEdge tagged.text.toList cut) :
    ∃ parts, tagged.slices start cuts = .ok parts ∧ parts.flatMap (·.text.toList) = rest ∧
      (cuts ≠ [] → Refines (parts.flatMap (·.spans))
        (keep start tagged.size tagged.size 0 tagged.spans)) := by
  induction cuts generalizing start front rest with
  | nil =>
    obtain rfl : start = tagged.size := hEnd
    rw [size, Text.size, hText, Text.byteLength_append] at hStart
    obtain rfl : rest = [] := Text.eq_nil_of_byteLength (by omega)
    exact ⟨[], rfl, rfl, fun hNone => absurd rfl hNone⟩
  | cons cut cuts ih =>
    obtain ⟨hFirst, hLater⟩ := List.pairwise_cons.1 hOrder
    obtain ⟨⟨first, last, hSplit, rfl⟩, hMore⟩ := List.forall_mem_cons.1 hEdges
    rw [hText] at hSplit
    obtain ⟨text, rfl, rfl⟩ := Text.exists_append_of_le hSplit
      (by rw [hStart]; exact (hFirst _ List.mem_cons_self).le)
    have hPart : tagged.slice start (Text.byteLength (front ++ text)) = .ok (tagged.part start text) :=
      slice_eq_ok_iff.2 ⟨front, text, last, by rw [hText, List.append_assoc], hStart,
        by rw [Text.byteLength_append, hStart], rfl⟩
    rw [List.getLastD_cons] at hEnd
    obtain ⟨parts, hParts, hRest, hRefines⟩ :=
      ih (by rw [hText, List.append_assoc]) rfl hLater hEnd hMore
    rw [Text.byteLength_append, hStart] at hRefines hEnd hLater
    refine ⟨tagged.part start text :: parts, ?_, ?_, fun _ => ?_⟩
    · rw [slices, hPart, ok_bind, hParts]
      rfl
    · rw [List.flatMap_cons, text_part, hRest]
    · rw [List.flatMap_cons, part]
      dsimp only
      obtain _ | ⟨next, cuts⟩ := cuts
      · obtain rfl : parts = [] := (Except.ok.inj hParts).symm
        rw [List.flatMap_nil, List.append_nil, show start + Text.byteLength text = tagged.size from hEnd]
        exact .refl _
      · have hLess : start + Text.byteLength text < tagged.size := by
          have hLast : tagged.size ∈ next :: cuts := by
            rw [← hEnd, List.getLastD_eq_getLast?,
              List.getLast?_eq_some_getLast (List.cons_ne_nil next cuts)]
            exact List.getLast_mem _
          exact (List.pairwise_cons.1 hLater).1 _ hLast
        exact ((Refines.refl _).append (hRefines (List.cons_ne_nil _ _))).trans
          (keep_split_of_lt (Nat.le_add_right _ _) hLess.le hLess)

/-- A slice covers exactly its bytes. -/
theorem covered_slice (hCovered : covered tagged.spans = tagged.size)
    (h : tagged.slice start stop = .ok part) : covered part.spans = stop - start := by
  obtain ⟨front, text, back, hAll, rfl, rfl, rfl⟩ := slice_eq_ok_iff.1 h
  rw [part, covered_keep ?_ (by rw [Nat.zero_add, hCovered]), Nat.max_zero]
  rw [size, Text.size, hAll, Text.byteLength_append, Text.byteLength_append]
  exact Nat.le_add_right _ _

/-- A text is its own slice. -/
theorem slice_self (hCovered : covered tagged.spans = tagged.size) :
    tagged.slice 0 tagged.size = .ok tagged := by
  refine slice_eq_ok_iff.2 ⟨[], tagged.text.toList, [], (List.append_nil _).symm, rfl,
    Nat.zero_add _, ?_⟩
  have hAll := @keep_all 0 tagged.size 0 tagged.spans (Nat.le_refl _) (by rw [Nat.zero_add, hCovered])
  rw [part, String.ofList_toList, show 0 + Text.byteLength tagged.text.toList = tagged.size from
    Nat.zero_add _, hAll]

/-- The laws of slices of a text whose spans cover it and lie in their leaves. It
has a slice between two cuts in order and nowhere else, and the slice covers its
bytes. The slices of a slice are slices of the text. Slices at growing cuts, from
the start to the end, make up the text, with every byte from its place in a leaf
and every point once and where it was, and the slice of everything is the text.
Every span of a slice is a part of a span of the text; a part that is shorter is not
constant. -/
theorem slice_laws (hCovered : covered tagged.spans = tagged.size)
    (hFits : ∀ span ∈ tagged.spans, span.offset + span.length ≤ span.total) :
    (∀ start stop,
      ((∃ part, tagged.slice start stop = .ok part) ↔ start ≤ stop ∧ stop ≤ tagged.size ∧
        IsEdge tagged.text.toList start ∧ IsEdge tagged.text.toList stop) ∧
      ∀ part, tagged.slice start stop = .ok part →
        part.size = stop - start ∧ covered part.spans = stop - start) ∧
    (∀ a b c d part, tagged.slice a b = .ok part → ∀ inner,
      part.slice c d = .ok inner ↔ a + d ≤ b ∧ tagged.slice (a + c) (a + d) = .ok inner) ∧
    (∀ cuts, (0 :: cuts).Pairwise (· < ·) → cuts.getLastD 0 = tagged.size →
      (∀ cut ∈ cuts, IsEdge tagged.text.toList cut) →
      ∃ parts, tagged.slices 0 cuts = .ok parts ∧ (join parts).text = tagged.text ∧
        origins (join parts).spans = origins tagged.spans ∧
        -- the empty text has no growing cuts: there is no slice to hold its points
        (cuts ≠ [] → points 0 (join parts).spans = points 0 tagged.spans)) ∧
    tagged.slice 0 tagged.size = .ok tagged ∧
    (∀ start stop part, tagged.slice start stop = .ok part →
      ∃ sources, sources.Sublist (placed 0 tagged.spans) ∧
        List.Forall₂ IsCutOf (placed start part.spans) sources) := by
  refine ⟨fun start stop => ⟨exists_slice_iff, fun part h => ⟨?_, covered_slice hCovered h⟩⟩,
    fun a b c d part h inner => slice_slice_iff h, fun cuts hOrder hEnd hEdges => ?_,
    slice_self hCovered, fun start stop part h => ?_⟩
  · obtain ⟨front, text, back, -, rfl, rfl, rfl⟩ := slice_eq_ok_iff.1 h
    rw [size_part, Nat.add_sub_cancel_left]
  · obtain ⟨parts, hParts, hText, hRefines⟩ :=
      @exists_slices 0 tagged [] _ cuts (List.nil_append _).symm rfl hOrder hEnd hEdges
    rw [keep_all (Nat.le_refl _) (by rw [Nat.zero_add, hCovered])] at hRefines
    refine ⟨parts, hParts, String.toList_inj.1 ((text_join parts).trans hText), ?_, fun hCuts => ?_⟩
    · by_cases hCuts : cuts = []
      · subst hCuts
        obtain rfl : parts = [] := (Except.ok.inj hParts).symm
        have hNone : origins tagged.spans = [] :=
          List.eq_nil_of_length_eq_zero (by rw [length_origins, hCovered, ← hEnd]; rfl)
        rw [hNone]
        rfl
      · rw [spans_join]
        exact (hRefines hCuts).origins_eq
    · rw [spans_join]
      exact (hRefines hCuts).points_eq 0
  · obtain ⟨front, text, back, -, rfl, rfl, rfl⟩ := slice_eq_ok_iff.1 h
    have hParts := @exists_isCutOf_keep (Text.byteLength front)
      (Text.byteLength front + Text.byteLength text) tagged.size 0 tagged.spans hFits
      (Nat.le_add_right _ _)
    rwa [Nat.zero_max] at hParts

/-- A price with points at both ends and in front of the sign. -/
def price : Tagged :=
  ⟨"3 €", [⟨[0], [0], 0, 0, 0, true⟩, ⟨[1], [1], 2, 0, 2, true⟩, ⟨[2], [2], 0, 0, 0, true⟩,
    ⟨[3], [3], 7, 4, 3, false⟩, ⟨[4], [4], 0, 0, 0, true⟩]⟩

theorem slice_laws_price :
    covered price.spans = price.size ∧
      (∀ span ∈ price.spans, span.offset + span.length ≤ span.total) ∧
      ∃ parts, price.slices 0 [1, 2, 5] = .ok parts ∧ (join parts).text = price.text ∧
        origins (join parts).spans = origins price.spans ∧
        points 0 (join parts).spans = points 0 price.spans := by
  have hEdges : ∀ cut ∈ [1, 2, 5], IsEdge price.text.toList cut :=
    List.forall_mem_cons.2 ⟨⟨['3'], [' ', '€'], by decide⟩,
      List.forall_mem_cons.2 ⟨⟨['3', ' '], ['€'], by decide⟩,
        List.forall_mem_singleton.2 ⟨['3', ' ', '€'], [], by decide⟩⟩⟩
  obtain ⟨parts, hParts, hText, hOrigins, hPoints⟩ :=
    (slice_laws (by decide) (by decide)).2.2.1 [1, 2, 5] (by decide) (by decide) hEdges
  exact ⟨by decide, by decide, parts, hParts, hText, hOrigins, hPoints (by decide)⟩

end Tagged

end Infill
