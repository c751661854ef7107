import Infill.Proofs.Marks
import Infill.Proofs.Seams
import Infill.Proofs.Straightening

/-!
Tags that lie over several atoms. A tag holds a pointer for every leaf that it takes
bytes from and for every empty leaf inside of it. If two of these leaves differ in
their atom, the line of the document cannot be drawn up, and nothing else is in the
way of it.
-/
namespace Infill

open Infill.Xml

open Template (Event TagRange)
open Template.Lexer (Sound spansOf tagRanges textOf)
open Tagged (covered)

/-! ### Texts of spans -/

namespace Tagged

/-- Divide characters among spans, where every cut must lie between characters. -/
def divide? : List Char → List Span → Option (List (Span × List Char))
  | _, [] => some []
  | text, span :: rest => do
    let (front, back) ← Text.cut? span.length text
    let pieces ← divide? back rest
    return (span, front) :: pieces

/-- Where all pieces have the bytes that their spans cover, no cut failed. -/
theorem divide?_eq {text : List Char} {spans : List Span}
    (h : ∀ piece ∈ divide text spans, Text.byteLength piece.2 = piece.1.length) :
    divide? text spans = some (divide text spans) := by
  induction spans generalizing text with
  | nil => rfl
  | cons span spans ih =>
    rw [divide] at h ⊢
    cases hCut : Text.cut? span.length text with
    | none =>
      rw [hCut] at h
      have hAll : Text.byteLength text = span.length := h _ List.mem_cons_self
      have hWhole := Text.cut?_append text []
      rw [List.append_nil, hAll, hCut] at hWhole
      cases hWhole
    | some cut =>
      obtain ⟨front, back⟩ := cut
      rw [hCut] at h
      have hRest := ih fun piece hPiece => h piece (List.mem_cons_of_mem _ hPiece)
      rw [divide?, hCut]
      simp only [Option.bind_eq_bind, Option.bind_some, hRest]
      rfl

/-- Whether two spans of a tag have different atoms. -/
def IsSplit (tag : Tagged) : Prop :=
  ∃ first ∈ tag.spans, ∃ second ∈ tag.spans, first.atom ≠ second.atom

/-- The atoms of a tag in the order of its spans, each once. -/
def atoms (tag : Tagged) : List Path :=
  (tag.spans.map Span.atom).eraseDups

end Tagged

/-! ### Distinct atoms -/

/-- A list has two distinct members if and only if two of its members differ. -/
theorem one_lt_length_eraseDups {paths : List Path} :
    1 < paths.eraseDups.length ↔ ∃ first ∈ paths, ∃ second ∈ paths, first ≠ second := by
  obtain _ | ⟨path, paths⟩ := paths
  · simp
  have hOthers : ∀ {other}, other ∈ (paths.filter fun other => !other == path).eraseDups ↔
      other ∈ paths ∧ other ≠ path := by
    simp [List.mem_eraseDups]
  rw [List.eraseDups_cons, List.length_cons, Nat.lt_add_left_iff_pos, List.length_pos_iff_exists_mem]
  constructor
  · rintro ⟨other, hOther⟩
    obtain ⟨hMem, hApart⟩ := hOthers.1 hOther
    exact ⟨other, List.mem_cons_of_mem path hMem, path, List.mem_cons_self, hApart⟩
  · rintro ⟨first, hFirst, second, hSecond, hApart⟩
    by_cases hHead : first = path
    · refine ⟨second, hOthers.2 ⟨?_, fun hSame => hApart (hHead.trans hSame.symm)⟩⟩
      exact (List.mem_cons.1 hSecond).resolve_left fun hSame => hApart (hHead.trans hSame.symm)
    · exact ⟨first, hOthers.2 ⟨(List.mem_cons.1 hFirst).resolve_left hHead, hHead⟩⟩

namespace Draft

variable {draft : Draft} {error : Error} {tag : Tagged}

theorem foldl_atoms (found : List Path) (spans : List Span) :
    spans.foldl (fun found span => if span.atom ∈ found then found else found ++ [span.atom]) found =
      found ++ ((spans.map Span.atom).filter (· ∉ found)).eraseDups := by
  induction spans generalizing found with
  | nil => simp
  | cons span spans ih =>
    rw [List.foldl_cons, List.map_cons]
    split
    · rename_i hFound
      rw [ih, List.filter_cons_of_neg (by simpa using hFound)]
    · rename_i hNew
      rw [ih, List.filter_cons_of_pos (by simpa using hNew), List.eraseDups_cons,
        List.filter_filter, List.append_assoc, List.singleton_append]
      congr 4
      funext other
      by_cases hSame : other = span.atom <;> simp [hSame]

/-- The atoms of a tag are collected in the order of its spans. -/
theorem atoms_eq (tag : Tagged) : atoms tag.spans = tag.atoms := by
  rw [atoms, foldl_atoms, Tagged.atoms, List.nil_append]
  simp

theorem one_lt_length_atoms : 1 < (atoms tag.spans).length ↔ tag.IsSplit := by
  rw [atoms_eq, Tagged.atoms, one_lt_length_eraseDups]
  simp [Tagged.IsSplit]

end Draft

namespace Template.Lexer

/-- The tags among events. -/
def terminals : List Event → List Tagged
  | [] => []
  | (.text, _) :: events => terminals events
  | (.terminal, tag) :: events => tag :: terminals events

end Template.Lexer

open Template.Lexer (terminals)

namespace Draft

theorem pushTag_of_isSplit (draft : Draft) (h : tag.IsSplit) :
    draft.pushTag tag = .error (.splitTerminal tag.text tag.atoms) := by
  rw [pushTag, if_pos (one_lt_length_atoms.2 h), atoms_eq]

theorem pushTag_of_not_isSplit (draft : Draft) (h : ¬ tag.IsSplit) :
    ∃ next, draft.pushTag tag = .ok next := by
  rw [pushTag, if_neg fun hLess => h (one_lt_length_atoms.1 hLess)]
  exact ⟨_, rfl⟩

/-- Drawing up a line fails for the first tag that is split, and for nothing else. -/
theorem foldlM_step_eq_error_iff {events : List Event} :
    events.foldlM step draft = .error error ↔
      ∃ front tag back, terminals events = front ++ tag :: back ∧
        (∀ other ∈ front, ¬ other.IsSplit) ∧ tag.IsSplit ∧
        error = .splitTerminal tag.text tag.atoms := by
  induction events generalizing draft with
  | nil => simp [terminals, pure, Except.pure]
  | cons event events ih =>
    obtain ⟨_ | _, part⟩ := event
    · rw [List.foldlM_cons, step, ok_bind, ih, terminals]
    rw [List.foldlM_cons, step, terminals]
    by_cases hSplit : part.IsSplit
    · rw [pushTag_of_isSplit draft hSplit]
      constructor
      · intro hError
        exact ⟨[], part, _, rfl, by simp, hSplit, (Except.error.inj hError).symm⟩
      · rintro ⟨_ | ⟨other, front⟩, tag, back, hTags, hFront, -, rfl⟩
        · obtain ⟨rfl, -⟩ := List.cons.inj hTags
          rfl
        · obtain ⟨rfl, -⟩ := List.cons.inj hTags
          exact absurd hSplit (hFront _ List.mem_cons_self)
    · obtain ⟨next, hNext⟩ := pushTag_of_not_isSplit draft hSplit
      rw [hNext, ok_bind, ih]
      constructor
      · rintro ⟨front, tag, back, hTags, hFront, hTag⟩
        refine ⟨part :: front, tag, back, by rw [hTags]; rfl, fun other hOther => ?_, hTag⟩
        rcases List.mem_cons.1 hOther with rfl | hOther
        · exact hSplit
        · exact hFront other hOther
      · rintro ⟨_ | ⟨other, front⟩, tag, back, hTags, hFront, hTag, hError⟩
        · obtain ⟨rfl, -⟩ := List.cons.inj hTags
          exact absurd hTag hSplit
        · obtain ⟨-, hTags⟩ := List.cons.inj hTags
          exact ⟨front, tag, back, hTags, fun other hOther =>
            hFront other (List.mem_cons_of_mem _ hOther), hTag, hError⟩

end Draft

/-! ### The leaves that a tag touches -/

namespace Leaf

/-- Whether a tag takes bytes of a leaf whose text begins at byte `start`, or lies
around it where the leaf has none. -/
def IsTouched (leaf : Leaf) (start : Nat) (tag : TagRange) : Prop :=
  tag.start < start + Text.size leaf.text ∧ start < tag.stop

instance (leaf : Leaf) (start : Nat) (tag : TagRange) : Decidable (leaf.IsTouched start tag) :=
  inferInstanceAs (Decidable (_ ∧ _))

/-- The leaves that a tag touches, where the first one begins at byte `start`. -/
def touched (tag : TagRange) : (start : Nat) → List Leaf → List Leaf
  | _, [] => []
  | start, leaf :: leaves =>
    let rest := touched tag (start + Text.size leaf.text) leaves
    if leaf.IsTouched start tag then leaf :: rest else rest

variable {leaf : Leaf} {leaves : List Leaf} {tag : TagRange} {start : Nat}

theorem touched_sublist (tag : TagRange) (start : Nat) (leaves : List Leaf) :
    (touched tag start leaves).Sublist leaves := by
  induction leaves generalizing start with
  | nil => exact .slnil
  | cons leaf leaves ih =>
    rw [touched]
    split
    · exact (ih _).cons_cons leaf
    · exact (ih _).cons leaf

theorem mem_touched : leaf ∈ touched tag start leaves ↔
    ∃ front back, leaves = front ++ leaf :: back ∧
      leaf.IsTouched (start + Text.byteLength (texts front)) tag := by
  induction leaves generalizing start with
  | nil => simp [touched]
  | cons first leaves ih =>
    have hRest : (∃ front back, first :: leaves = front ++ leaf :: back ∧
          leaf.IsTouched (start + Text.byteLength (texts front)) tag) ↔
        (first = leaf ∧ leaf.IsTouched start tag) ∨
          leaf ∈ touched tag (start + Text.size first.text) leaves := by
      rw [ih]
      constructor
      · rintro ⟨_ | ⟨other, front⟩, back, hSplit, hTouched⟩
        · exact .inl ⟨(List.cons.inj hSplit).1, hTouched⟩
        · obtain ⟨rfl, hLeaves⟩ := List.cons.inj hSplit
          refine .inr ⟨front, back, hLeaves, ?_⟩
          rwa [← List.singleton_append, texts_append, texts_singleton, Text.byteLength_append,
            ← Text.size, ← Nat.add_assoc] at hTouched
      · rintro (⟨rfl, hTouched⟩ | ⟨front, back, rfl, hTouched⟩)
        · exact ⟨[], leaves, rfl, hTouched⟩
        · refine ⟨first :: front, back, rfl, ?_⟩
          rwa [← List.singleton_append, texts_append, texts_singleton, Text.byteLength_append,
            ← Text.size, ← Nat.add_assoc]
    rw [hRest, touched]
    split
    · rename_i hTouched
      rw [List.mem_cons]
      constructor
      · exact Or.imp_left fun hSame => ⟨hSame.symm, hSame ▸ hTouched⟩
      · exact Or.imp_left fun hSame => hSame.1.symm
    · rename_i hApart
      exact ⟨.inr, fun hCases => hCases.resolve_left fun hHere => hApart (hHere.1 ▸ hHere.2)⟩

end Leaf

/-! ### The spans of a tag -/

namespace Mark

variable {leaves : List Leaf} {spans : List Span} {marks before here behind : List Mark}
  {mark : Mark} {base offset start byte : Nat} {part : Tagged}

/-- Every mark lies in a leaf, at the byte that its offset says. -/
theorem exists_leaf (hTiles : Tiles leaves offset (marks.map Mark.span))
    (hPlaced : Placed (base + offset) marks) (hMark : mark ∈ marks) :
    ∃ front leaf back, leaves = front ++ leaf :: back ∧
      mark.span.path = leaf.path ∧ mark.span.atom = leaf.atom ∧
      mark.start = base + Text.byteLength (Leaf.texts front) + mark.span.offset ∧
      mark.span.offset + mark.span.length ≤ Text.size leaf.text ∧
      (mark.span.length = 0 → Text.size leaf.text = 0) := by
  generalize hSpans : marks.map Mark.span = spans at hTiles
  induction hTiles generalizing marks base with
  | nil =>
    rw [List.map_eq_nil_iff.1 hSpans] at hMark
    cases hMark
  | @last leaf leaves offset length spans hStop hPoint hRest ih =>
    obtain ⟨first, marks, rfl, hFirst, rfl⟩ := List.map_eq_cons_iff.1 hSpans
    obtain ⟨hStart, hPlaced⟩ := hPlaced
    rcases List.mem_cons.1 hMark with rfl | hMark
    · rw [hFirst]
      exact ⟨[], leaf, leaves, rfl, rfl, rfl, hStart, hStop.le, fun hNone => by
        rw [Leaf.length_part] at hNone
        have := hPoint hNone
        omega⟩
    · rw [hFirst, Leaf.length_part, Nat.add_assoc, hStop] at hPlaced
      obtain ⟨front, other, back, rfl, hPath, hAtom, hPlace, hRest⟩ :=
        @ih marks (base + Text.size leaf.text) hPlaced hMark rfl
      refine ⟨leaf :: front, other, back, rfl, hPath, hAtom, ?_, hRest⟩
      rw [hPlace, ← List.singleton_append, Leaf.texts_append, Leaf.texts_singleton,
        Text.byteLength_append, ← Text.size]
      simp only [Nat.add_assoc]
  | @more leaf leaves offset length spans hPos hStop hRest ih =>
    obtain ⟨first, marks, rfl, hFirst, rfl⟩ := List.map_eq_cons_iff.1 hSpans
    obtain ⟨hStart, hPlaced⟩ := hPlaced
    rcases List.mem_cons.1 hMark with rfl | hMark
    · rw [hFirst]
      exact ⟨[], leaf, leaves, rfl, rfl, rfl, hStart, hStop.le, fun hNone => by
        rw [Leaf.length_part] at hNone
        omega⟩
    · rw [hFirst, Leaf.length_part, Nat.add_assoc] at hPlaced
      exact ih hPlaced hMark rfl

/-- Every byte that marks cover lies in one of them. -/
theorem exists_covering (hPlaced : Placed start marks) (hStart : start ≤ byte)
    (hStop : byte < start + covered (marks.map Mark.span)) :
    ∃ mark ∈ marks, mark.start ≤ byte ∧ byte < mark.start + mark.span.length := by
  induction marks generalizing start with
  | nil =>
    change byte < start + 0 at hStop
    omega
  | cons first marks ih =>
    obtain ⟨hFirst, hRest⟩ := hPlaced
    rw [List.map_cons, Tagged.covered_cons, ← Nat.add_assoc] at hStop
    by_cases hHere : byte < start + first.span.length
    · exact ⟨first, List.mem_cons_self, by omega, by omega⟩
    · obtain ⟨mark, hMark, hByte⟩ := ih hRest (by omega) hStop
      exact ⟨mark, List.mem_cons_of_mem first hMark, hByte⟩

/-- The marks of a leaf stand together. -/
theorem exists_marks {front back : List Leaf} {leaf : Leaf}
    (hTiles : Tiles (front ++ leaf :: back) 0 (marks.map Mark.span)) (hPlaced : Placed 0 marks) :
    ∃ own, own ⊆ marks ∧ Tiles [leaf] 0 (own.map Mark.span) ∧
      Placed (Text.byteLength (Leaf.texts front)) own := by
  obtain ⟨left, right, hSplit, hFront, hBack⟩ := hTiles.split rfl fun _ => rfl
  obtain ⟨first, second, hRight, hHere, -⟩ := (hBack.split List.singleton_append.symm (by simp))
  rw [hRight, List.map_eq_append_iff] at hSplit
  obtain ⟨lead, rest, rfl, rfl, hRest⟩ := hSplit
  obtain ⟨own, last, rfl, rfl, rfl⟩ := List.map_eq_append_iff.1 hRest
  obtain ⟨-, hPlaced⟩ := placed_append.1 hPlaced
  have hStart := hFront.covered_eq
  rw [← hStart]
  exact ⟨own, fun mark hMark => by simp [hMark], hHere, (placed_append.1 hPlaced).1⟩

/-- A leaf that a tag touches has a mark that reaches into the tag. -/
theorem exists_mark_of_isTouched {front back : List Leaf} {leaf : Leaf} {tag : TagRange}
    (hTiles : Tiles (front ++ leaf :: back) 0 (marks.map Mark.span)) (hPlaced : Placed 0 marks)
    (hTag : tag.start < tag.stop)
    (hTouched : leaf.IsTouched (Text.byteLength (Leaf.texts front)) tag) :
    ∃ mark ∈ marks, mark.span.path = leaf.path ∧ mark.span.atom = leaf.atom ∧
      tag.start < mark.start + mark.span.length ∧ mark.start < tag.stop := by
  obtain ⟨own, hOwn, hHere, hPlace⟩ := exists_marks hTiles hPlaced
  obtain ⟨hAfter, hBefore⟩ := hTouched
  generalize Text.byteLength (Leaf.texts front) = start at *
  have hFound : ∃ mark ∈ own, tag.start < mark.start + mark.span.length ∧ mark.start < tag.stop := by
    by_cases hSize : Text.size leaf.text = 0
    · obtain _ | ⟨first, own⟩ := own
      · exact absurd rfl hHere.ne_nil
      · have := hPlace.1
        exact ⟨first, List.mem_cons_self, by omega, by omega⟩
    · have hBytes := hHere.covered_eq
      rw [Leaf.texts_singleton, ← Text.size] at hBytes
      obtain ⟨mark, hMark, hFrom, hUntil⟩ :=
        @exists_covering own start (max start tag.start) hPlace (by omega) (by omega)
      exact ⟨mark, hMark, by omega, by omega⟩
  obtain ⟨mark, hMark, hReach⟩ := hFound
  obtain ⟨front, other, back, hLeaf, hPath, hAtom, -⟩ := @exists_leaf _ _ mark start 0 hHere hPlace hMark
  obtain rfl : other = leaf := by
    have hOther : other ∈ [leaf] := by rw [hLeaf]; simp
    exact List.mem_singleton.1 hOther
  exact ⟨mark, hOwn hMark, hPath, hAtom, hReach⟩

end Mark

namespace Template.Lexer

variable {leaves : List Leaf} {before behind : List Event} {part : Tagged}

/-- A tag among events and the same tag in the texts of leaves. The tag has a pointer
for each leaf that it touches. -/
structure Matches (leaves : List Leaf) (part : Tagged) (tag : TagRange) : Prop where
  text : part.text.toList = tag.tag
  bytes : Text.slice? tag.start tag.stop (Leaf.texts leaves) = some tag.tag
  pointers : part.spans.map (fun span => (span.path, span.atom)) =
    (Leaf.touched tag 0 leaves).map fun leaf => (leaf.path, leaf.atom)

/-- The place of a tag behind other events. -/
def rangeBehind (before : List Event) (part : Tagged) : TagRange :=
  let start := Text.byteLength (textOf before)
  ⟨start, start + part.size, part.text.toList⟩

theorem ofEvents_append (start : Nat) (left right : List Event) :
    Mark.ofEvents start (left ++ right) =
      Mark.ofEvents start left ++ Mark.ofEvents (start + Text.byteLength (textOf left)) right := by
  induction left generalizing start with
  | nil => rfl
  | cons event left ih =>
    have hText : Text.byteLength (textOf (event :: left)) =
        event.2.size + Text.byteLength (textOf left) :=
      Text.byteLength_append _ _
    rw [List.cons_append, Mark.ofEvents, ih, Mark.ofEvents, List.append_assoc, hText, Nat.add_assoc]

/-- The marks of a tag are those that reach into it. -/
theorem mem_ofEvent_iff (hSound : ∀ event ∈ before ++ (.terminal, part) :: behind, Sound event)
    {mark : Mark} (hMark : mark ∈ Mark.ofEvents 0 (before ++ (.terminal, part) :: behind)) :
    mark ∈ Mark.ofEvent (rangeBehind before part).start (.terminal, part) ↔
      (rangeBehind before part).start < mark.start + mark.span.length ∧
        mark.start < (rangeBehind before part).stop := by
  have hHere : Sound (.terminal, part) := hSound _ (by simp)
  have hFront : ∀ event ∈ before, Sound event := fun event hEvent =>
    hSound event (List.mem_append_left _ hEvent)
  have hPlaced := Mark.placed_ofEvents hSound 0
  rw [ofEvents_append, Mark.ofEvents, Nat.zero_add] at hMark hPlaced
  obtain ⟨hBefore, hRest⟩ := Mark.placed_append.1 hPlaced
  rw [Mark.map_span_ofEvents, Nat.zero_add, covered_spansOf hFront] at hRest
  obtain ⟨hOwn, hBehind⟩ := Mark.placed_append.1 hRest
  rw [Mark.map_span_ofEvent, hHere.covered] at hBehind
  rw [rangeBehind]
  dsimp only
  constructor
  · intro hMark
    have hStop := Mark.start_lt_of_placed hOwn
      (by rw [Mark.map_span_ofEvent]; exact (hHere.firm rfl).ends) hMark
    rw [Mark.map_span_ofEvent, hHere.covered] at hStop
    refine ⟨?_, hStop⟩
    obtain ⟨span, rest, -, hPos, hEvent⟩ :=
      Mark.ofEvent_tag (hHere.firm rfl) (Text.byteLength (textOf before))
    rw [hEvent] at hMark
    rcases List.mem_cons.1 hMark with rfl | hMark
    · exact Nat.lt_add_of_pos_right hPos
    · have := (Mark.bounds_of_placed (Mark.placed_spread .tagRest _ rest) hMark).1
      omega
  · rintro ⟨hAfter, hUntil⟩
    rcases List.mem_append.1 hMark with hMark | hMark
    · have hBounds := (Mark.bounds_of_placed hBefore hMark).2
      rw [Mark.map_span_ofEvents, covered_spansOf hFront] at hBounds
      omega
    · refine (List.mem_append.1 hMark).resolve_right fun hMark => ?_
      have hBounds := (Mark.bounds_of_placed hBehind hMark).1
      dsimp only at hBounds
      omega

/-- The pointers of a tag are those of the leaves that it touches. -/
theorem mem_pointers_iff (hTiles : Tiles leaves 0 (spansOf (before ++ (.terminal, part) :: behind)))
    (hSound : ∀ event ∈ before ++ (.terminal, part) :: behind, Sound event)
    {pointer : Path × Path} :
    pointer ∈ part.spans.map (fun span => (span.path, span.atom)) ↔
      pointer ∈ (Leaf.touched (rangeBehind before part) 0 leaves).map
        fun leaf => (leaf.path, leaf.atom) := by
  have hPlaced := Mark.placed_ofEvents hSound 0
  rw [← Mark.map_span_ofEvents 0] at hTiles
  constructor
  · intro hPointer
    obtain ⟨span, hSpan, rfl⟩ := List.mem_map.1 hPointer
    rw [← Mark.map_span_ofEvent (rangeBehind before part).start (.terminal, part)] at hSpan
    obtain ⟨mark, hMark, rfl⟩ := List.mem_map.1 hSpan
    have hAll : mark ∈ Mark.ofEvents 0 (before ++ (.terminal, part) :: behind) := by
      rw [ofEvents_append, Nat.zero_add]
      exact List.mem_append_right _ (List.mem_append_left _ hMark)
    obtain ⟨hAfter, hUntil⟩ := (mem_ofEvent_iff hSound hAll).1 hMark
    obtain ⟨front, leaf, back, rfl, hPath, hAtom, hStart, hLength, -⟩ :=
      @Mark.exists_leaf _ _ mark 0 0 hTiles hPlaced hAll
    refine List.mem_map.2 ⟨leaf, Leaf.mem_touched.2 ⟨front, back, rfl, ?_, ?_⟩, by rw [hPath, hAtom]⟩
    · omega
    · omega
  · intro hPointer
    obtain ⟨leaf, hLeaf, rfl⟩ := List.mem_map.1 hPointer
    obtain ⟨front, back, rfl, hTouched⟩ := Leaf.mem_touched.1 hLeaf
    rw [Nat.zero_add] at hTouched
    have hTag : (rangeBehind before part).start < (rangeBehind before part).stop := by
      have hHere : Sound (.terminal, part) := hSound _ (by simp)
      obtain ⟨span, rest, hSpans, hPos, -⟩ := Mark.ofEvent_tag (hHere.firm rfl) 0
      have hSize := hHere.covered
      dsimp only at hSize
      rw [hSpans, Tagged.covered_cons] at hSize
      rw [rangeBehind]
      dsimp only
      omega
    obtain ⟨mark, hMark, hPath, hAtom, hReach⟩ :=
      Mark.exists_mark_of_isTouched hTiles hPlaced hTag hTouched
    have hSpan := List.mem_map_of_mem (f := Mark.span) ((mem_ofEvent_iff hSound hMark).2 hReach)
    rw [Mark.map_span_ofEvent] at hSpan
    exact List.mem_map.2 ⟨mark.span, hSpan, by rw [hPath, hAtom]⟩

/-- The pointers of a tag stand in the order of the leaves that it touches. -/
theorem matches_rangeBehind (hOrder : (leaves.map Leaf.path).Pairwise Path.Before)
    (hTiles : Tiles leaves 0 (spansOf (before ++ (.terminal, part) :: behind)))
    (hAscending : Tagged.Ascending (spansOf (before ++ (.terminal, part) :: behind)))
    (hSound : ∀ event ∈ before ++ (.terminal, part) :: behind, Sound event)
    (hText : textOf (before ++ (.terminal, part) :: behind) = Leaf.texts leaves) :
    Matches leaves part (rangeBehind before part) where
  text := rfl
  bytes := by
    rw [← hText, textOf, List.flatMap_append, List.flatMap_cons, ← List.append_assoc]
    exact Text.slice?_middle _ _ _
  pointers := by
    have hFirm := (hSound _ (List.mem_append_right before List.mem_cons_self)).firm rfl
    have hSpans : part.spans.Pairwise fun left right => Path.Before left.path right.path := by
      have hPart : part.spans.Pairwise fun left right => Path.AtOrBefore left.path right.path := by
        rw [Tagged.Ascending, spansOf_append, spansOf_cons] at hAscending
        exact (List.pairwise_append.1 (List.pairwise_append.1 hAscending).2.1).1
      exact (hPart.and (List.pairwise_map.1 hFirm.nodup)).imp fun h => h.1.resolve_left h.2
    have hLeaves : (Leaf.touched (rangeBehind before part) 0 leaves).Pairwise fun left right =>
        Path.Before left.path right.path :=
      (List.pairwise_map.1 hOrder).sublist (Leaf.touched_sublist _ _ _)
    have hNodup : ∀ {pointers : List (Path × Path)},
        pointers.Pairwise (fun left right => Path.Before left.1 right.1) → pointers.Nodup :=
      fun h => .of_map Prod.fst (Path.nodup_of_sorted (List.pairwise_map.2 h))
    rw [← @List.pairwise_map _ _ (fun span : Span => (span.path, span.atom))
      fun left right => Path.Before left.1 right.1] at hSpans
    rw [← @List.pairwise_map _ _ (fun leaf : Leaf => (leaf.path, leaf.atom))
      fun left right => Path.Before left.1 right.1] at hLeaves
    -- both are in document order, so it is enough that they have the same members
    exact ((List.perm_ext_iff_of_nodup (hNodup hSpans) (hNodup hLeaves)).2 fun _ =>
      mem_pointers_iff hTiles hSound).eq_of_pairwise
        (fun left right _ _ hLeft hRight => absurd hRight hLeft.asymm) hSpans hLeaves

theorem forall₂_terminals {R : Tagged → TagRange → Prop} {events : List Event} (before : List Event)
    (h : ∀ front part back, events = front ++ (.terminal, part) :: back →
      R part (rangeBehind (before ++ front) part)) :
    List.Forall₂ R (terminals events) (tagRanges (Text.byteLength (textOf before)) events) := by
  induction events generalizing before with
  | nil => exact .nil
  | cons event events ih =>
    have hNext := ih (before ++ [event]) fun front part back hSplit => by
      rw [List.append_assoc]
      exact h (event :: front) part back (by rw [hSplit]; rfl)
    have hBytes : Text.byteLength (textOf (before ++ [event])) =
        Text.byteLength (textOf before) + event.2.size := by
      rw [textOf, List.flatMap_append, List.flatMap_singleton, Text.byteLength_append]
      rfl
    rw [hBytes] at hNext
    obtain ⟨_ | _, part⟩ := event
    · exact hNext
    · refine .cons ?_ hNext
      have hHere := h [] part events rfl
      rwa [List.append_nil] at hHere

/-- The tags among the events of leaves are those that one scan of all texts finds. -/
theorem forall₂_matches {events : List Event} (hOrder : (leaves.map Leaf.path).Pairwise Path.Before)
    (h : Template.Token.ofLeaves leaves = .ok events) :
    List.Forall₂ (Matches leaves) (terminals events) (Leaf.tags leaves) := by
  obtain ⟨found, hFound, hTiles, hSound, hOutline⟩ := Template.Token.ofLeaves_laid hOrder
  obtain rfl : events = found := Except.ok.inj (h.symm.trans hFound)
  have hTags : tagRanges 0 events = Leaf.tags leaves := by
    rw [tagRanges_eq, hOutline]
    rfl
  have hText : textOf events = Leaf.texts leaves := by
    rw [textOf_eq, hOutline, outline_text_scan]
  have hAscending := (Template.Token.ascending_ofLeaves hOrder h).1
  rw [← hTags]
  refine forall₂_terminals [] fun front part back hSplit => ?_
  subst hSplit
  exact matches_rangeBehind hOrder hTiles hAscending hSound hText

end Template.Lexer

/-! ### The atoms of leaves -/

theorem Path.atom_zero (path : Path) : path.atom 0 = path := by
  rw [atom, Int.add_zero, Int.toNat_natCast, List.take_length]

namespace Format

variable {format : Format} {root : Element}

/-- An element on the way to a leaf, the first one that carries text, and the leaf as
one of its texts. -/
structure Anchors (format : Format) (root : Element) (node below : Path) (leaf : Leaf) : Prop where
  path : leaf.path = node ++ below
  carries : node ≠ [] ∧ format.isCarrier root node = true
  first : ∀ above, above <+: node → above ≠ [] → above ≠ node → format.isCarrier root above = false
  text : (below, leaf.text) ∈ format.texts (root.descendant node)
  /-- Word art in a run is its own atom, a run's atom is the element around the run,
  and any other element that carries text is its own atom. -/
  atom : leaf.atom =
    if below ≠ [] ∧ (root.descendant leaf.path).tag = Docx.textPath then leaf.path
    else if (root.descendant node).tag ∈ [Docx.word "r", Docx.math "r"] then node.dropLast
    else node

theorem atom_of_atomDepth? {tag : String} {depth : Int} (h : format.atomDepth? tag = some depth)
    (node : Path) :
    Path.atom node depth =
      if tag ∈ [Docx.word "r", Docx.math "r"] then node.dropLast else node := by
  have hAround : Path.atom node (-1) = node.dropLast := by
    rw [Path.atom, List.dropLast_eq_take]
    congr 1
    omega
  have hEntry : (tag, depth) ∈ format.textNodes := by
    obtain ⟨front, back, hSplit, -⟩ := List.lookup_eq_some_iff.1 h
    exact hSplit ▸ List.mem_append_right front List.mem_cons_self
  cases format with
  | odt =>
    rcases List.mem_pair.1 hEntry with hEntry | hEntry <;> obtain ⟨rfl, rfl⟩ := Prod.mk.inj hEntry
    · rw [Path.atom_zero, if_neg (by decide)]
    · rw [Path.atom_zero, if_neg (by decide)]
  | docx =>
    have hCases : (tag, depth) = (Docx.word "r", -1) ∨ (tag, depth) = (Docx.textPath, 0) ∨
        (tag, depth) = (Docx.math "r", -1) := by
      simpa [textNodes, Docx.textNodes] using hEntry
    rcases hCases with hEntry | hEntry | hEntry <;> obtain ⟨rfl, rfl⟩ := Prod.mk.inj hEntry
    · rw [hAround, if_pos (by decide)]
    · rw [Path.atom_zero, if_neg (by decide)]
    · rw [hAround, if_pos (by decide)]

/-- Below an element that carries text only word art does so as well. -/
theorem atomDepth?_of_mem_texts {e inner : Element} {found : Path × String}
    (hCarrier : (format.atomDepth? e.tag).isSome = true) (h : found ∈ format.texts e)
    (hInner : e.descendant? found.1 = some inner) (hBelow : found.1 ≠ []) :
    format.atomDepth? inner.tag = if inner.tag = Docx.textPath then some 0 else none := by
  obtain ⟨other, hOther, hKind⟩ := place_of_mem_texts hCarrier h
  obtain rfl : inner = other := Option.some.inj (hInner.symm.trans hOther)
  cases format with
  | odt =>
    obtain rfl := List.mem_singleton.1 h
    exact absurd rfl hBelow
  | docx =>
    rcases hKind with hSolid | ⟨hPiece, -⟩
    · have hTag : inner.tag = Docx.textPath := by simpa [isSolid] using hSolid
      rw [hTag, if_pos rfl]
      decide
    · have hTag : inner.tag ∈
          [Docx.word "t", Docx.math "t", Docx.word "tab", Docx.word "br", Docx.word "cr"] := by
        by_contra hNot
        simp only [List.mem_cons, List.not_mem_nil, or_false, not_or] at hNot
        simp [isPiece, Docx.isText, Docx.glyph?, hNot] at hPiece
      simp only [List.mem_cons, List.not_mem_nil, or_false] at hTag
      rcases hTag with hTag | hTag | hTag | hTag | hTag <;> rw [hTag] <;> decide

theorem anchors_of_mem_leavesOf {node : Path} {depth : Int} {leaf : Leaf} {e : Element}
    (hNonempty : node ≠ []) (hReach : root.descendant? node = some e)
    (hDepth : format.atomDepth? e.tag = some depth)
    (hFirst : ∀ above, above <+: node → above ≠ [] → above ≠ node →
      format.isCarrier root above = false)
    (h : leaf ∈ format.leavesOf node depth e) : ∃ below, format.Anchors root node below leaf := by
  obtain ⟨⟨below, text⟩, hFound, rfl⟩ := List.mem_map.1 h
  have hCarrier : (format.atomDepth? e.tag).isSome = true := by rw [hDepth]; rfl
  have hNode : root.descendant node = e := by rw [Element.descendant, hReach]; rfl
  refine ⟨below, rfl, ⟨hNonempty, by rw [isCarrier, hNode, hCarrier]⟩, hFirst,
    by rw [hNode]; exact hFound, ?_⟩
  dsimp only
  rw [hNode]
  obtain _ | ⟨index, below⟩ := below
  · rw [if_neg fun h => h.1 rfl, ← atom_of_atomDepth? hDepth]
    rfl
  · obtain ⟨inner, hInner, -⟩ := place_of_mem_texts hCarrier hFound
    have hReaches : e.Reaches (index :: below) := Option.isSome_iff_exists.2 ⟨inner, hInner⟩
    have hLeaf : root.descendant (node ++ index :: below) = inner := by
      rw [Element.descendant, Element.descendant?_append, hReach, Option.bind_some, hInner]
      rfl
    have hHere : e.descendant (index :: below) = inner := by
      rw [Element.descendant, hInner]
      rfl
    have hInnerDepth := atomDepth?_of_mem_texts hCarrier hFound hInner (List.cons_ne_nil _ _)
    simp only [leafAtom, hReaches.find, hHere, hLeaf, hInnerDepth]
    by_cases hArt : inner.tag = Docx.textPath
    · rw [if_pos hArt, if_pos ⟨List.cons_ne_nil _ _, hArt⟩]
      exact Path.atom_zero _
    · rw [if_neg hArt, if_neg fun h => hArt h.2, ← atom_of_atomDepth? hDepth]

mutual

theorem exists_anchor_of_mem_leavesIn {path : Path} {leaf : Leaf} : (e : Element) → path ≠ [] →
    root.descendant? path = some e →
    (∀ above, above <+: path → above ≠ [] → above ≠ path → format.isCarrier root above = false) →
    leaf ∈ format.leavesIn path e → ∃ node below, format.Anchors root node below leaf
  | ⟨name, tag, attributes, text, tail, children⟩, hPath, hReach, hOutside, h => by
    rw [leavesIn] at h
    split at h
    · rename_i depth hDepth
      exact ⟨path, anchors_of_mem_leavesOf hPath hReach hDepth hOutside h⟩
    · rename_i hNone
      refine exists_anchor_of_mem_leavesInList children (fun k e hChild => ⟨by simp, ?_⟩) ?_ h
      · rw [Element.descendant?_append, hReach]
        simpa [Element.descendant?] using hChild
      · intro above hAbove hSome
        by_cases hHere : above = path
        · subst hHere
          simp [isCarrier, Element.descendant, hReach, hNone]
        · exact hOutside above hAbove hSome hHere

theorem exists_anchor_of_mem_leavesInList {path : Path} {index : Nat} {leaf : Leaf} :
    (elements : List Element) →
    (∀ k e, elements[k]? = some e → path ++ [index + k] ≠ [] ∧
      root.descendant? (path ++ [index + k]) = some e) →
    (∀ above, above <+: path → above ≠ [] → format.isCarrier root above = false) →
    leaf ∈ format.leavesInList path index elements →
      ∃ node below, format.Anchors root node below leaf
  | [], _, _, h => by simp [leavesInList] at h
  | e :: rest, hPath, hOutside, h => by
    rcases List.mem_append.1 h with h | h
    · refine exists_anchor_of_mem_leavesIn e (hPath 0 e rfl).1 (hPath 0 e rfl).2 ?_ h
      intro above hAbove hSome hOther
      exact hOutside above ((List.prefix_concat_iff.1 hAbove).resolve_left hOther) hSome
    · refine exists_anchor_of_mem_leavesInList rest (fun k child hChild => ?_) hOutside h
      have := hPath (k + 1) child (by simpa using hChild)
      rwa [Nat.add_assoc, Nat.add_comm 1 k]

end

/-- Every leaf is a text of the first element on the way to it that carries text, and
has its atom from there. -/
theorem exists_anchor_of_mem_leaves {leaf : Leaf} (h : leaf ∈ format.leaves root) :
    ∃ node below, format.Anchors root node below leaf := by
  refine exists_anchor_of_mem_leavesInList root.children (fun k e hChild => ?_) ?_ h
  · simpa [Element.descendant?] using hChild
  · intro above hAbove hSome
    exact absurd (List.prefix_nil.1 hAbove) hSome

end Format

/-! ### Flattening -/

/-- Flattening fails for tags that lie over several atoms, and for nothing else. Read
step by step it does what it does on the leaves of the document, each of which has its
atom from the first element on the way to it that carries text. The events of the
leaves are always there, their texts are cut between characters, and their tags are
those of one scan, each with a pointer for every leaf that it touches. If the leaves
that a tag touches have two atoms, the first such tag is refused with its atoms in
order. -/
theorem flatten_eq_error_iff (format : Format) (root : Element) :
    format.straighten root = flatten format root ∧
    (∀ leaf ∈ format.leaves root, ∃ node below, format.Anchors root node below leaf) ∧
    ∃ events, Template.Token.ofLeaves (format.leaves root) = .ok events ∧
      (∀ event ∈ events, Tagged.divide? event.2.text.toList event.2.spans = some event.2.pieces) ∧
      List.Forall₂ (Template.Lexer.Matches (format.leaves root)) (terminals events)
        (Leaf.tags (format.leaves root)) ∧
      ∀ error, flatten format root = .error error ↔
        ∃ front tag back, terminals events = front ++ tag :: back ∧
          (∀ other ∈ front, ¬ other.IsSplit) ∧ tag.IsSplit ∧
          error = .splitTerminal tag.text tag.atoms := by
  have hOrder := format.leaves_sorted root
  obtain ⟨events, hEvents, hTiles, hSound, hOutline⟩ := Template.Token.ofLeaves_laid hOrder
  have hText : textOf events = Leaf.texts (format.leaves root) := by
    rw [Template.Lexer.textOf_eq, hOutline, Template.Lexer.outline_text_scan]
  obtain ⟨hStarts, -⟩ := Template.Token.ofLeaves_seamed hOrder hEvents
  refine ⟨format.straighten_eq root, fun _ => Format.exists_anchor_of_mem_leaves, events, hEvents,
    fun event hEvent => ?_, Template.Lexer.forall₂_matches hOrder hEvents, fun error => ?_⟩
  · exact Tagged.divide?_eq fun piece hPiece =>
      (Template.Lexer.mem_pieces hSound hText hStarts hEvent hPiece).2
  · rw [← @Draft.foldlM_step_eq_error_iff {} error events, flatten, hEvents, ok_bind]
    cases events.foldlM Draft.step {} with
    | error e => simp [bind, Except.bind]
    | ok draft => simp [bind, Except.bind, pure, Except.pure]

end Infill
