import Infill.Proofs.Drafting
import Infill.Proofs.Retention

/-!
The shape of the line of a document. Its entries number the leaves in document
order and cover the bytes of each of them. A tag that lies over several leaves
rides on its first entry; in every later leaf a point stands at the end of the
bytes that the tag took from it.
-/
namespace Infill

open Infill.Xml

open Template (TagRange scan)
open Template.Lexer (Sound spansOf tagRanges)

/-- The tags in the texts of leaves. -/
def Leaf.tags (leaves : List Leaf) : List TagRange :=
  Template.Outline.ranges 0 (scan (Leaf.texts leaves)).tags

/-- Whether entries cover a leaf from byte `offset` on, one behind the other and
none of them empty. -/
def Line.Fills (total : Nat) : (offset : Nat) → Line → Prop
  | offset, [] => offset = total
  | offset, entry :: rest =>
    entry.1.offset = offset ∧ 0 < entry.1.length ∧ Fills total (offset + entry.1.length) rest

/-- What a line holds of a leaf whose text begins at byte `start` of all texts. -/
structure Leaf.Shown (leaf : Leaf) (start : Nat) (tags : List TagRange) (entries : Line) :
    Prop where
  nonempty : entries ≠ []
  /-- Where no tag goes on in the leaf, its entries cover it. -/
  entire : (∀ tag ∈ tags, ¬ (tag.start < start ∧ start < tag.stop)) →
    0 < Text.size leaf.text → Line.Fills (Text.size leaf.text) 0 entries
  /-- A leaf without bytes is a point. -/
  point : (∀ tag ∈ tags, ¬ (tag.start < start ∧ start < tag.stop)) → Text.size leaf.text = 0 →
    ∃ entry, entries = [entry] ∧ entry.1.offset = 0 ∧ entry.1.length = 0
  /-- A tag that goes on in the leaf is a point at the end of its bytes, and the
  other entries cover what follows. -/
  continued : ∀ tag ∈ tags, tag.start < start → start < tag.stop →
    ∃ first rest, entries = first :: rest ∧
      first.1.offset = min (tag.stop - start) (Text.size leaf.text) ∧ first.1.length = 0 ∧
      first.1.isConstant = false ∧ first.2 = "" ∧
      Line.Fills (Text.size leaf.text) first.1.offset rest
  /-- A tag that begins in the leaf rides on the entry of its bytes there. -/
  carried : ∀ tag ∈ tags, start ≤ tag.start → tag.start < start + Text.size leaf.text →
    ∃ entry ∈ entries, start + entry.1.offset = tag.start ∧ 0 < entry.1.length ∧
      tag.start + entry.1.length = min tag.stop (start + Text.size leaf.text) ∧
      entry.1.isConstant = false ∧ entry.2 = String.ofList tag.tag

/-- The shape of a line that shows leaves. -/
structure Line.Flattens (line : Line) (leaves : List Leaf) : Prop where
  indices : ∀ index, (∃ entry ∈ line, entry.1.index = index) ↔ 1 ≤ index ∧ index ≤ leaves.length
  belongs : ∀ entry ∈ line, ∃ leaf, leaves[entry.1.index - 1]? = some leaf ∧
    entry.1.path = leaf.path ∧ entry.1.total = Text.size leaf.text ∧
    entry.1.offset + entry.1.length ≤ entry.1.total
  forward : line.IsForward
  shown : ∀ front leaf back, leaves = front ++ leaf :: back →
    leaf.Shown (Text.byteLength (Leaf.texts front)) (Leaf.tags leaves)
      (line.filter fun entry => entry.1.index == front.length + 1)
  text : (∀ tag ∈ Leaf.tags leaves, tag.IsPlain) → Line.text line = Leaf.texts leaves

theorem exists_of_forall₂ {α β : Type} {R : α → β → Prop} {left : List α} {right : List β} {a : α}
    (h : List.Forall₂ R left right) (ha : a ∈ left) : ∃ b ∈ right, R a b := by
  induction h with
  | nil => cases ha
  | @cons first second left right hFirst hRest ih =>
    rcases List.mem_cons.1 ha with rfl | ha
    · exact ⟨second, List.mem_cons_self, hFirst⟩
    · obtain ⟨b, hb, hRelated⟩ := ih ha
      exact ⟨b, List.mem_cons_of_mem second hb, hRelated⟩

theorem pairwise_of_forall₂ {α β : Type} {R : α → β → Prop} {S : α → α → Prop} {T : β → β → Prop}
    {left : List α} {right : List β} (h : List.Forall₂ R left right) (hLeft : left.Pairwise S)
    (hStep : ∀ {a b c d}, R a c → R b d → S a b → T c d) : right.Pairwise T := by
  induction h with
  | nil => exact .nil
  | cons hFirst hRest ih =>
    obtain ⟨hHead, hTail⟩ := List.pairwise_cons.1 hLeft
    refine List.pairwise_cons.2 ⟨fun d hd => ?_, ih hTail⟩
    obtain ⟨b, hb, hRelated⟩ := exists_of_forall₂ hRest.flip hd
    exact hStep hFirst hRelated (hHead b hb)

/-! ### One leaf -/

variable {leaf : Leaf} {leaves front back : List Leaf} {start offset : Nat} {tags : List TagRange}
  {mark : Mark} {marks others : List Mark} {entry : Pointer × String} {entries line : Line}

namespace Leaf

/-- Spans of a leaf that begin behind its start continue no tag. -/
theorem role_of_tiles (h : Tiles [leaf] offset (marks.map Mark.span)) (hPos : 0 < offset)
    (hRest : ∀ mark ∈ marks, mark.role = .tagRest → mark.span.offset = 0) (hMark : mark ∈ marks) :
    mark.role ≠ .tagRest := by
  intro hRole
  have hZero := hRest mark hMark hRole
  rcases h.le_offset (List.mem_map_of_mem hMark) with ⟨-, hOffset⟩ | ⟨other, hOther, -⟩
  · omega
  · cases hOther

theorem start_of_tiles (h : Tiles [leaf] offset (marks.map Mark.span))
    (hPlaced : Mark.Placed (start + offset) marks) (hMark : mark ∈ marks) :
    mark.start = start + mark.span.offset := by
  induction marks generalizing offset with
  | nil => cases hMark
  | cons first marks ih =>
    obtain ⟨hOffset, hRest⟩ := h.cons_inv
    obtain ⟨hStart, hPlaced⟩ := hPlaced
    rcases List.mem_cons.1 hMark with rfl | hMark
    · rw [hStart, hOffset]
    · rcases hRest with ⟨-, -, hNone⟩ | ⟨-, -, hMore⟩
      · rw [List.map_eq_nil_iff.1 hNone.nil_inv.2] at hMark
        cases hMark
      · rw [Nat.add_assoc] at hPlaced
        exact ih hMore hPlaced hMark

/-- The entries of spans that continue no tag cover what the spans cover. -/
theorem fills_of_tiles (hShows : List.Forall₂ Shows marks entries)
    (h : Tiles [leaf] offset (marks.map Mark.span)) (hSize : 0 < Text.size leaf.text)
    (hRole : ∀ mark ∈ marks, mark.role ≠ .tagRest) :
    Line.Fills (Text.size leaf.text) offset entries := by
  induction hShows generalizing offset with
  | nil => exact absurd rfl h.ne_nil
  | @cons mark entry marks entries hShow hShows ih =>
    obtain ⟨hOffset, hRest⟩ := h.cons_inv
    obtain ⟨hBegin, hLength⟩ := hShow.place_eq (hRole mark List.mem_cons_self)
    rcases hRest with ⟨hStop, hPoint, hNone⟩ | ⟨hPos, hStop, hMore⟩
    · rw [List.map_eq_nil_iff.1 hNone.nil_inv.2] at hShows
      cases hShows
      exact ⟨hBegin.trans hOffset, by omega, by rw [hLength]; exact hStop⟩
    · refine ⟨hBegin.trans hOffset, by omega, ?_⟩
      rw [hLength]
      exact ih hMore fun other hOther => hRole other (List.mem_cons_of_mem mark hOther)

/-- Where the bytes of a leaf go on, there is another span. -/
theorem exists_next (h : Tiles [leaf] offset (marks.map Mark.span))
    (hPlaced : Mark.Placed (start + offset) marks) (hMark : mark ∈ marks)
    (hMore : mark.span.offset + mark.span.length < Text.size leaf.text) :
    ∃ next ∈ marks, next.start = mark.start + mark.span.length ∧ 0 < next.span.offset := by
  induction marks generalizing offset with
  | nil => cases hMark
  | cons first marks ih =>
    obtain ⟨hOffset, hRest⟩ := h.cons_inv
    obtain ⟨hStart, hPlaced⟩ := hPlaced
    rcases hRest with ⟨hStop, -, hNone⟩ | ⟨hPos, -, hTail⟩
    · obtain rfl := List.map_eq_nil_iff.1 hNone.nil_inv.2
      obtain rfl := List.mem_singleton.1 hMark
      omega
    · rw [Nat.add_assoc] at hPlaced
      rcases List.mem_cons.1 hMark with rfl | hMark
      · obtain _ | ⟨next, marks⟩ := marks
        · exact absurd rfl hTail.ne_nil
        · have hNext := hTail.head_eq.1
          refine ⟨next, by simp, ?_, by omega⟩
          rw [hPlaced.1, hStart, Nat.add_assoc]
      · obtain ⟨next, hNext, hFound⟩ := ih hTail hPlaced hMark
        exact ⟨next, List.mem_cons_of_mem first hNext, hFound⟩

/-- The spans of a leaf as the events have them. -/
structure Marked (leaf : Leaf) (start : Nat) (tags : List TagRange) (marks : List Mark) : Prop where
  tiles : Tiles [leaf] 0 (marks.map Mark.span)
  placed : Mark.Placed start marks
  fits : ∀ mark ∈ marks, mark.Fits tags
  rest : ∀ mark ∈ marks, mark.role = .tagRest → mark.span.offset = 0
  starts : ∀ tag ∈ tags, start ≤ tag.start → tag.start < start + Text.size leaf.text →
    tag.start < tag.stop ∧
      ∃ span, ⟨tag.start, .tagStart tag.tag, span⟩ ∈ marks ∧ 0 < span.length

namespace Marked

variable {tag : TagRange}

/-- Behind its first span a leaf continues no tag. -/
theorem role_tail (h : leaf.Marked start tags (mark :: marks)) {other : Mark}
    (hOther : other ∈ marks) : other.role ≠ .tagRest := by
  rcases h.tiles.cons_inv.2 with ⟨-, -, hNone⟩ | ⟨hPos, -, hMore⟩
  · rw [List.map_eq_nil_iff.1 hNone.nil_inv.2] at hOther
    cases hOther
  · rw [Nat.zero_add] at hMore
    exact role_of_tiles hMore hPos
      (fun mark hMark => h.rest mark (List.mem_cons_of_mem _ hMark)) hOther

/-- Where no tag goes on in a leaf, its spans continue none. -/
theorem role (h : leaf.Marked start tags marks)
    (hNone : ∀ tag ∈ tags, ¬ (tag.start < start ∧ start < tag.stop)) (hMark : mark ∈ marks) :
    mark.role ≠ .tagRest := by
  obtain _ | ⟨first, marks⟩ := marks
  · cases hMark
  rcases List.mem_cons.1 hMark with rfl | hMark
  · intro hRole
    obtain ⟨tag, hTag, hInside⟩ := (h.fits mark List.mem_cons_self).inside hRole
    rw [h.placed.1] at hInside
    exact hNone tag hTag hInside
  · exact h.role_tail hMark

/-- A span that has begun in a tag reaches its end or that of the leaf, because
what comes behind it in the leaf continues no tag. -/
theorem stop_eq (h : leaf.Marked start tags marks) (hMark : mark ∈ marks) (hTag : tag ∈ tags)
    (hStart : tag.start ≤ mark.start) (hStop : mark.start < tag.stop)
    (hInside : tag.start < mark.start + mark.span.length) :
    mark.start + mark.span.length = min tag.stop (start + Text.size leaf.text) := by
  have hPlaced : Mark.Placed (start + 0) marks := h.placed
  have hWithin := (h.fits mark hMark).within tag hTag hStart hStop
  have hPlace := start_of_tiles h.tiles hPlaced hMark
  obtain ⟨other, hOther, -, -, hLeaf⟩ := h.tiles.mem (List.mem_map_of_mem hMark)
  obtain rfl := List.mem_singleton.1 hOther
  by_contra hLess
  obtain ⟨next, hNext, hAt, hPos⟩ := exists_next h.tiles hPlaced hMark (by omega)
  have hRole : next.role ≠ .tagRest := fun hRole => by
    have := h.rest next hNext hRole
    omega
  exact (h.fits next hNext).outside hRole tag hTag (by omega)

theorem point (h : leaf.Marked start tags marks) (hShows : List.Forall₂ Shows marks entries)
    (hNone : ∀ tag ∈ tags, ¬ (tag.start < start ∧ start < tag.stop))
    (hSize : Text.size leaf.text = 0) :
    ∃ entry, entries = [entry] ∧ entry.1.offset = 0 ∧ entry.1.length = 0 := by
  obtain _ | @⟨mark, entry, marks, entries, hShow, hShows⟩ := hShows
  · exact absurd rfl h.tiles.ne_nil
  obtain ⟨hBegin, hLength⟩ := hShow.place_eq (h.role hNone List.mem_cons_self)
  obtain ⟨hOffset, hRest⟩ := h.tiles.cons_inv
  rcases hRest with ⟨hStop, -, hNil⟩ | ⟨hPos, hStop, -⟩
  · obtain rfl := List.map_eq_nil_iff.1 hNil.nil_inv.2
    cases hShows
    exact ⟨entry, rfl, hBegin.trans hOffset, by omega⟩
  · omega

theorem continued (h : leaf.Marked start tags marks) (hShows : List.Forall₂ Shows marks entries)
    (hTag : tag ∈ tags) (hBefore : tag.start < start) (hBehind : start < tag.stop) :
    ∃ first rest, entries = first :: rest ∧
      first.1.offset = min (tag.stop - start) (Text.size leaf.text) ∧ first.1.length = 0 ∧
      first.1.isConstant = false ∧ first.2 = "" ∧
      Line.Fills (Text.size leaf.text) first.1.offset rest := by
  obtain _ | @⟨mark, entry, marks, entries, hShow, hShows⟩ := hShows
  · exact absurd rfl h.tiles.ne_nil
  have hFirst : mark ∈ mark :: marks := List.mem_cons_self
  have hStart : mark.start = start := h.placed.1
  have hStop := h.stop_eq hFirst hTag (by omega) (by omega) (by omega)
  have hRole : mark.role = .tagRest := by
    by_contra hRole
    exact (h.fits mark hFirst).outside hRole tag hTag (by omega)
  obtain ⟨hEnd, hEmpty, hDynamic, hText⟩ := hShow.of_tagRest hRole
  obtain ⟨hOffset, hRest⟩ := h.tiles.cons_inv
  refine ⟨entry, entries, rfl, by omega, hEmpty, hDynamic, hText, ?_⟩
  rw [hEnd, hOffset]
  rcases hRest with ⟨hLast, -, hNone⟩ | ⟨hPos, hLast, hMore⟩
  · obtain rfl := List.map_eq_nil_iff.1 hNone.nil_inv.2
    cases hShows
    exact hLast
  · exact fills_of_tiles hShows hMore (by omega) fun other hOther => h.role_tail hOther

theorem carried (h : leaf.Marked start tags marks) (hShows : List.Forall₂ Shows marks entries)
    (hTag : tag ∈ tags) (hBegin : start ≤ tag.start)
    (hInside : tag.start < start + Text.size leaf.text) :
    ∃ entry ∈ entries, start + entry.1.offset = tag.start ∧ 0 < entry.1.length ∧
      tag.start + entry.1.length = min tag.stop (start + Text.size leaf.text) ∧
      entry.1.isConstant = false ∧ entry.2 = String.ofList tag.tag := by
  obtain ⟨hOrder, span, hMark, hPos⟩ := h.starts tag hTag hBegin hInside
  have hStop := h.stop_eq hMark hTag (Nat.le_refl _) hOrder (Nat.lt_add_of_pos_right hPos)
  have hPlace : tag.start = start + span.offset :=
    start_of_tiles h.tiles (by rw [Nat.add_zero]; exact h.placed) hMark
  obtain ⟨entry, hEntry, hShow⟩ := exists_of_forall₂ hShows hMark
  obtain ⟨hOffset, hLength⟩ := hShow.place_eq (by simp)
  rw [← hOffset] at hPlace
  rw [← hLength] at hStop hPos
  exact ⟨entry, hEntry, hPlace.symm, hPos, hStop, hShow.of_tagStart rfl⟩

theorem shown (h : leaf.Marked start tags marks) (hShows : List.Forall₂ Shows marks entries) :
    leaf.Shown start tags entries where
  nonempty := by
    rintro rfl
    cases hShows
    exact h.tiles.ne_nil rfl
  entire hNone hSize := fills_of_tiles hShows h.tiles hSize fun _ hMark => h.role hNone hMark
  point hNone hSize := h.point hShows hNone hSize
  continued _ hTag hBefore hBehind := h.continued hShows hTag hBefore hBehind
  carried _ hTag hBegin hInside := h.carried hShows hTag hBegin hInside

end Marked

end Leaf

/-! ### All leaves -/

/-- The numbers of places in document order go up with them. -/
theorem Path.index_le_of_sorted {places : List Path} (h : places.Pairwise Path.Before)
    {i j : Nat} {p q : Path} (hp : places[i]? = some p) (hq : places[j]? = some q)
    (hOrder : Path.AtOrBefore p q) : i ≤ j := by
  obtain ⟨hi, rfl⟩ := List.getElem?_eq_some_iff.1 hp
  obtain ⟨hj, rfl⟩ := List.getElem?_eq_some_iff.1 hq
  by_contra hLess
  have hBack := List.pairwise_iff_getElem.1 h j i hj hi (Nat.lt_of_not_le hLess)
  rcases hOrder with hSame | hBefore
  · rw [hSame] at hBack
    exact Path.before_irrefl _ hBack
  · exact hBefore.asymm hBack

/-- Leaves that come one after the other, each as often as it has parts, are
numbered without gaps. -/
theorem Tiles.foldl_extend {spans : List Span} (h : Tiles leaves offset spans)
    (hNodup : (leaves.map Leaf.path).Nodup) (found : List Path) :
    (offset = 0 → (∀ leaf ∈ leaves.head?, found.getLast? ≠ some leaf.path) →
      (spans.map Span.path).foldl Path.extend found = found ++ leaves.map Leaf.path) ∧
    (0 < offset → (∀ leaf ∈ leaves.head?, found.getLast? = some leaf.path) →
      (spans.map Span.path).foldl Path.extend found = found ++ leaves.tail.map Leaf.path) := by
  induction h generalizing found with
  | nil => simp
  | @last leaf leaves offset length spans hStop hPoint h ih =>
    obtain ⟨hHead, hTail⟩ := List.nodup_cons.1 hNodup
    have hNext : ∀ found : List Path, found.getLast? = some leaf.path →
        (spans.map Span.path).foldl Path.extend found = found ++ leaves.map Leaf.path := by
      intro found hFound
      refine (ih hTail found).1 rfl fun next hNext hSame => hHead ?_
      rw [hFound] at hSame
      rw [Option.some.inj hSame]
      exact List.mem_map_of_mem (List.mem_of_mem_head? hNext)
    refine ⟨fun _ hFound => ?_, fun _ hFound => ?_⟩
    · rw [List.map_cons, List.foldl_cons, Path.extend, Leaf.path_part, if_neg (hFound leaf rfl),
        hNext _ (by simp)]
      simp
    · rw [List.map_cons, List.foldl_cons, Path.extend, Leaf.path_part, if_pos (hFound leaf rfl),
        hNext _ (hFound leaf rfl), List.tail_cons]
  | @more leaf leaves offset length spans hPos hStop h ih =>
    have hNext := fun found => (ih hNodup found).2 (by omega)
    refine ⟨fun _ hFound => ?_, fun _ hFound => ?_⟩
    · rw [List.map_cons, List.foldl_cons, Path.extend, Leaf.path_part, if_neg (hFound leaf rfl),
        hNext _ (by simp)]
      simp
    · rw [List.map_cons, List.foldl_cons, Path.extend, Leaf.path_part, if_pos (hFound leaf rfl),
        hNext _ hFound]

theorem shows_append (h : List.Forall₂ Shows (marks ++ others) entries) :
    ∃ left right, entries = left ++ right ∧ List.Forall₂ Shows marks left ∧
      List.Forall₂ Shows others right := by
  refine ⟨entries.take marks.length, entries.drop marks.length,
    (List.take_append_drop _ _).symm, ?_, ?_⟩
  · simpa using List.forall₂_take marks.length h
  · simpa using List.forall₂_drop marks.length h

/-- A line with the events from which it was drawn. -/
structure Drawn (leaves : List Leaf) (events : List Template.Event) (line : Line) : Prop where
  ordered : (leaves.map Leaf.path).Pairwise Path.Before
  tiles : Tiles leaves 0 (spansOf events)
  ascending : Tagged.Ascending (spansOf events)
  sound : ∀ event ∈ events, Sound event
  tags : tagRanges 0 events = Leaf.tags leaves
  shows : List.Forall₂ Shows (Mark.ofEvents 0 events) line
  numbered : ∀ entry ∈ line, ∃ i, entry.1.index = i + 1 ∧
    (leaves.map Leaf.path)[i]? = some entry.1.path
  text : (∀ tag ∈ Leaf.tags leaves, tag.IsPlain) → Line.text line = Leaf.texts leaves

namespace Drawn

variable {events : List Template.Event}

theorem nodup (h : Drawn leaves events line) : (leaves.map Leaf.path).Nodup :=
  Path.nodup_of_sorted h.ordered

theorem index_eq_iff (h : Drawn (front ++ leaf :: back) events line) (hEntry : entry ∈ line) :
    entry.1.index = front.length + 1 ↔ entry.1.path = leaf.path := by
  obtain ⟨i, hIndex, hPath⟩ := h.numbered entry hEntry
  have hLeaf : ((front ++ leaf :: back).map Leaf.path)[front.length]? = some leaf.path := by simp
  constructor
  · intro hSame
    obtain rfl : i = front.length := by omega
    exact Option.some.inj (hPath.symm.trans hLeaf)
  · intro hSame
    rw [hSame] at hPath
    have hLength := (List.getElem?_eq_some_iff.1 hPath).1
    rw [hIndex, (List.getElem?_inj hLength h.nodup).1 (hPath.trans hLeaf.symm)]

/-- Spans that tile leaves, and the entries that show them. -/
structure Excerpt (leaves : List Leaf) (marks : List Mark) (entries : Line) : Prop where
  tiles : Tiles leaves 0 (marks.map Mark.span)
  shows : List.Forall₂ Shows marks entries

theorem Excerpt.path_mem (h : Excerpt leaves marks entries) (hEntry : entry ∈ entries) :
    entry.1.path ∈ leaves.map Leaf.path := by
  obtain ⟨mark, hMark, hShow⟩ := exists_of_forall₂ h.shows.flip hEntry
  obtain ⟨leaf, hLeaf, hPath, -⟩ := h.tiles.mem (List.mem_map_of_mem hMark)
  rw [hShow.place.1, hPath]
  exact List.mem_map_of_mem hLeaf

theorem Excerpt.split (h : Excerpt (front ++ back) marks entries) :
    ∃ left right first last, marks = left ++ right ∧ entries = first ++ last ∧
      Excerpt front left first ∧ Excerpt back right last := by
  obtain ⟨spans, others, hSpans, hFront, hBack⟩ := h.tiles.split rfl fun _ => rfl
  obtain ⟨left, right, rfl, rfl, rfl⟩ := List.map_eq_append_iff.1 hSpans
  obtain ⟨first, last, rfl, hFirst, hLast⟩ := shows_append h.shows
  exact ⟨left, right, first, last, rfl, rfl, ⟨hFront, hFirst⟩, ⟨hBack, hLast⟩⟩

theorem excerpt (h : Drawn leaves events line) : Excerpt leaves (Mark.ofEvents 0 events) line :=
  ⟨by rw [Mark.map_span_ofEvents]; exact h.tiles, h.shows⟩

/-- The entries of a leaf are those with its index. -/
theorem filter_index {first last : Line} {before behind : List Mark}
    (h : Drawn (front ++ leaf :: back) events (first ++ (entries ++ last)))
    (hFirst : Excerpt front before first) (hHere : Excerpt [leaf] marks entries)
    (hLast : Excerpt back behind last) :
    (first ++ (entries ++ last)).filter (fun entry => entry.1.index == front.length + 1) =
      entries := by
  have hNodup := h.nodup
  rw [List.map_append, List.map_cons, List.nodup_middle, List.nodup_cons, List.mem_append,
    not_or] at hNodup
  have hBefore : first.filter (fun entry => entry.1.index == front.length + 1) = [] := by
    refine List.filter_eq_nil_iff.2 fun entry hEntry hIndex => hNodup.1.1 ?_
    rw [← (h.index_eq_iff (List.mem_append_left _ hEntry)).1 (by simpa using hIndex)]
    exact hFirst.path_mem hEntry
  have hBehind : last.filter (fun entry => entry.1.index == front.length + 1) = [] := by
    refine List.filter_eq_nil_iff.2 fun entry hEntry hIndex => hNodup.1.2 ?_
    have hMem := List.mem_append_right first (List.mem_append_right entries hEntry)
    rw [← (h.index_eq_iff hMem).1 (by simpa using hIndex)]
    exact hLast.path_mem hEntry
  have hOwn : entries.filter (fun entry => entry.1.index == front.length + 1) = entries := by
    refine List.filter_eq_self.2 fun entry hEntry => ?_
    rw [beq_iff_eq, h.index_eq_iff (by simp [hEntry])]
    exact List.mem_singleton.1 (hHere.path_mem hEntry)
  rw [List.filter_append, List.filter_append, hBefore, hOwn, hBehind, List.nil_append,
    List.append_nil]

/-- The spans of a leaf in those of all leaves. -/
theorem marked {before behind : List Mark} (h : Drawn (front ++ leaf :: back) events line)
    (hMarks : Mark.ofEvents 0 events = before ++ (marks ++ behind))
    (hBefore : Tiles front 0 (before.map Mark.span))
    (hHere : Tiles [leaf] 0 (marks.map Mark.span)) :
    leaf.Marked (Text.byteLength (Leaf.texts front)) (Leaf.tags (front ++ leaf :: back)) marks := by
  have hMem : ∀ {mark}, mark ∈ marks → mark ∈ Mark.ofEvents 0 events := by
    intro mark hMark
    rw [hMarks]
    exact List.mem_append_right _ (List.mem_append_left _ hMark)
  have hPlaced := Mark.placed_ofEvents h.sound 0
  rw [hMarks] at hPlaced
  obtain ⟨hPlacedBefore, hPlaced⟩ := Mark.placed_append.1 hPlaced
  obtain ⟨hPlacedHere, hPlacedBehind⟩ := Mark.placed_append.1 hPlaced
  rw [hBefore.covered_eq] at hPlacedHere hPlacedBehind
  refine ⟨hHere, hPlacedHere, fun mark hMark => ?_, fun mark hMark hRole => ?_,
    fun tag hTag hAfter hUntil => ?_⟩
  · rw [← h.tags, ← List.nil_append (tagRanges 0 events)]
    exact Mark.fits_ofEvents h.sound (by simp) (hMem hMark)
  · exact Mark.offset_of_tagRest h.tiles h.sound (hMem hMark) hRole
  · rw [← h.tags] at hTag
    obtain ⟨hOrder, span, hFound, hPos⟩ := Mark.exists_tagStart h.sound hTag
    refine ⟨hOrder, span, ?_, hPos⟩
    -- the spans in front end where the leaf begins, and those behind begin where it ends
    have hStart := hBefore.covered_eq
    have hStop := hHere.covered_eq
    rw [Leaf.texts, List.flatMap_singleton, ← Text.size] at hStop
    rw [hMarks] at hFound
    rcases List.mem_append.1 hFound with hFound | hFound
    · have hEnd := (Mark.bounds_of_placed hPlacedBefore hFound).2
      dsimp only at hEnd
      omega
    · refine (List.mem_append.1 hFound).resolve_right fun hFound => ?_
      have hBegin := (Mark.bounds_of_placed hPlacedBehind hFound).1
      dsimp only at hBegin
      omega

/-- The spans and the entries of a leaf, with those in front of it and behind it. -/
theorem exists_excerpts (h : Drawn (front ++ leaf :: back) events line) :
    ∃ before marks behind first entries last,
      Mark.ofEvents 0 events = before ++ (marks ++ behind) ∧ line = first ++ (entries ++ last) ∧
      Excerpt front before first ∧ Excerpt [leaf] marks entries ∧ Excerpt back behind last := by
  obtain ⟨before, others, first, more, hMarks, rfl, hFirst, hMore⟩ := h.excerpt.split
  rw [← List.singleton_append] at hMore
  obtain ⟨marks, behind, entries, last, rfl, rfl, hHere, hLast⟩ := hMore.split
  exact ⟨before, marks, behind, first, entries, last, hMarks, rfl, hFirst, hHere, hLast⟩

theorem shown (h : Drawn (front ++ leaf :: back) events line) :
    leaf.Shown (Text.byteLength (Leaf.texts front)) (Leaf.tags (front ++ leaf :: back))
      (line.filter fun entry => entry.1.index == front.length + 1) := by
  obtain ⟨before, marks, behind, first, entries, last, hMarks, rfl, hFirst, hHere, hLast⟩ :=
    h.exists_excerpts
  rw [h.filter_index hFirst hHere hLast]
  exact (h.marked hMarks hFirst.tiles hHere.tiles).shown hHere.shows

/-- Entries stand in the order of the places they point to. -/
theorem forward (h : Drawn leaves events line) : line.IsForward := by
  have hSpans : (spansOf events).Pairwise fun first second =>
      Path.AtOrBefore first.path second.path ∧
        (first.path = second.path → first.offset + first.length ≤ second.offset) :=
    h.ascending.and (h.tiles.pairwise h.nodup)
  rw [← Mark.map_span_ofEvents 0, List.pairwise_map] at hSpans
  have hLine : line.Pairwise fun first second =>
      Path.AtOrBefore first.1.path second.1.path ∧
        (first.1.path = second.1.path → first.1.offset ≤ second.1.offset) := by
    refine pairwise_of_forall₂ h.shows hSpans fun hFirst hSecond hOrder => ?_
    obtain ⟨hPath, -, -, hEnd⟩ := hFirst.place
    obtain ⟨hPath', -, hBegin, -⟩ := hSecond.place
    rw [hPath, hPath']
    refine ⟨hOrder.1, fun hSame => ?_⟩
    have := hOrder.2 hSame
    omega
  refine hLine.imp_of_mem fun {first second} hFirst hSecond hOrder => ?_
  obtain ⟨i, hIndex, hPath⟩ := h.numbered first hFirst
  obtain ⟨j, hIndex', hPath'⟩ := h.numbered second hSecond
  have hLe := Path.index_le_of_sorted h.ordered hPath hPath' hOrder.1
  refine Bool.eq_false_iff.2 fun hBack => ?_
  rw [Position.before_iff] at hBack
  dsimp only [Pointer.position] at hBack
  obtain rfl : i = j := by omega
  have hOffset := hOrder.2 (Option.some.inj (hPath.symm.trans hPath'))
  omega

theorem belongs (h : Drawn leaves events line) (hEntry : entry ∈ line) :
    ∃ leaf, leaves[entry.1.index - 1]? = some leaf ∧ entry.1.path = leaf.path ∧
      entry.1.total = Text.size leaf.text ∧ entry.1.offset + entry.1.length ≤ entry.1.total := by
  obtain ⟨i, hIndex, hPath⟩ := h.numbered entry hEntry
  rw [List.getElem?_map, Option.map_eq_some_iff] at hPath
  obtain ⟨leaf, hLeaf, hPath⟩ := hPath
  obtain ⟨mark, hMark, hShow⟩ := exists_of_forall₂ h.shows.flip hEntry
  obtain ⟨other, hOther, hSame, hTotal, hStop⟩ :=
    h.excerpt.tiles.mem (List.mem_map_of_mem hMark)
  obtain ⟨hPlace, hWhole, -, hEnd⟩ := hShow.place
  obtain rfl : leaf = other :=
    List.inj_on_of_nodup_map h.nodup (List.mem_of_getElem? hLeaf) hOther
      (hPath.trans (hPlace.trans hSame))
  refine ⟨leaf, by rw [hIndex, Nat.add_sub_cancel, hLeaf], hPath.symm, hWhole.trans hTotal, ?_⟩
  rw [hEnd, hWhole, hTotal]
  exact hStop

theorem flattens (h : Drawn leaves events line) : line.Flattens leaves where
  indices index := by
    constructor
    · rintro ⟨entry, hEntry, rfl⟩
      obtain ⟨i, hIndex, hPath⟩ := h.numbered entry hEntry
      have hLength := (List.getElem?_eq_some_iff.1 hPath).1
      rw [List.length_map] at hLength
      omega
    · rintro ⟨hPos, hCount⟩
      obtain ⟨i, rfl⟩ := Nat.exists_eq_add_of_le' hPos
      obtain ⟨front, leaf, back, rfl, rfl⟩ : ∃ front leaf back,
          leaves = front ++ leaf :: back ∧ front.length = i :=
        ⟨leaves.take i, leaves[i], leaves.drop (i + 1), by simp, by simp; omega⟩
      obtain ⟨entry, hEntry⟩ := List.exists_mem_of_ne_nil _ h.shown.nonempty
      obtain ⟨hMem, hIndex⟩ := List.mem_filter.1 hEntry
      exact ⟨entry, hMem, beq_iff_eq.1 hIndex⟩
  belongs _ hEntry := h.belongs hEntry
  forward := h.forward
  shown := by
    rintro front leaf back rfl
    exact h.shown
  text := h.text

end Drawn

variable {format : Format} {root : Element} {content : Content}

/-- The line of a document is drawn from the events of its leaves. -/
theorem exists_drawn (h : flatten format root = .ok (content, line)) :
    ∃ events draft, Template.Token.ofLeaves (format.leaves root) = .ok events ∧
      events.foldlM Draft.step {} = .ok draft ∧ draft.line = line ∧
      content = (if draft.hasTag then .template else .plaintext) ∧
      Drawn (format.leaves root) events line := by
  obtain ⟨events, hEvents, hRest⟩ := bind_eq_ok.1 h
  obtain ⟨draft, hDraft, hDone⟩ := bind_eq_ok.1 hRest
  obtain ⟨hContent, rfl⟩ := Prod.mk.inj (Except.ok.inj hDone)
  have hOrdered := format.leaves_sorted root
  obtain ⟨found, hFound, hTiles, hSound, hOutline⟩ := Template.Token.ofLeaves_laid hOrdered
  obtain rfl : events = found := Except.ok.inj (hEvents.symm.trans hFound)
  have hTags : tagRanges 0 events = Leaf.tags (format.leaves root) := by
    rw [Template.Lexer.tagRanges_eq, hOutline]
    rfl
  have hNumbered := (Draft.Numbered.start.foldlM hDraft).found
  rw [(hTiles.foldl_extend (Path.nodup_of_sorted hOrdered) []).1 rfl (by simp), List.nil_append]
    at hNumbered
  refine ⟨events, draft, hEvents, hDraft, rfl, hContent.symm, hOrdered, hTiles,
    (Template.Token.ascending_ofLeaves hOrdered hEvents).1, hSound, hTags, ?_,
    fun entry hEntry => ?_, fun hPlain => ?_⟩
  · exact Draft.Draws.foldlM ⟨.nil, .nil, by simp⟩ 0 hDraft
  · exact hNumbered entry.1.place (List.mem_map_of_mem hEntry)
  · rw [Draft.text_foldlM rfl hSound (by rwa [hTags]) hDraft, Template.Lexer.textOf_eq, hOutline,
      Template.Lexer.outline_text_scan]
    rfl

/-- The line of a document numbers its leaves in document order and covers the
bytes of each of them, apart from those that belong to a tag of an earlier leaf. -/
theorem flatten_flattens (h : flatten format root = .ok (content, line)) :
    line.Flattens (format.leaves root) := by
  obtain ⟨events, draft, -, -, -, -, hDrawn⟩ := exists_drawn h
  exact hDrawn.flattens

/-- A letter with a tag that lies over three runs, the second of them empty. -/
def Docx.splitLetter : Element :=
  element "body" none
    [element "p" none
      [element "r" none [element "t" (some "Dear \x7b\x7b na") []],
        element "r" none [element "t" (some "") []],
        element "r" none [element "t" (some "me \x7d\x7d, hi") []]]]

/-- The line of the letter. -/
def Docx.splitLine : Line :=
  [(⟨[0, 0, 0], false, 10, 0, 5, 1⟩, "Dear "),
    (⟨[0, 0, 0], false, 10, 5, 5, 1⟩, "\x7b\x7b name \x7d\x7d"),
    (⟨[0, 1, 0], false, 0, 0, 0, 2⟩, ""), (⟨[0, 2, 0], false, 9, 5, 0, 3⟩, ""),
    (⟨[0, 2, 0], false, 9, 5, 4, 3⟩, ", hi")]

theorem flatten_flattens_split :
    flatten .docx Docx.splitLetter = .ok (.template, Docx.splitLine) ∧
      Docx.splitLine.Flattens (Format.docx.leaves Docx.splitLetter) := by
  have hFlatten : flatten .docx Docx.splitLetter = .ok (.template, Docx.splitLine) := by
    decide +kernel
  exact ⟨hFlatten, flatten_flattens hFlatten⟩

end Infill
