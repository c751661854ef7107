import Infill.Proofs.Boundary
import Infill.Proofs.Leaves
import Infill.Proofs.Lexing

/-!
The line of a document numbers the leaves that hold its text from one on, in
document order. The draft of a line gives a leaf the next number when it differs
from the one before it; as the spans come in document order, a leaf that was
left does not come again.
-/
namespace Infill

open Infill.Xml

namespace Path

/-- Add a leaf behind others, unless it is the last one of them. -/
def extend (leaves : List Path) (path : Path) : List Path :=
  if leaves.getLast? = some path then leaves else leaves ++ [path]

variable {leaves paths : List Path} {path : Path}

theorem mem_extend {x : Path} (h : x ∈ extend leaves path) : x ∈ leaves ∨ x = path := by
  rw [extend] at h
  split at h
  · exact .inl h
  · simpa using h

/-- A leaf that is not behind the last one is the last one. -/
theorem sorted_extend (hLeaves : leaves.Pairwise Before)
    (hPath : ∀ x ∈ leaves, AtOrBefore x path) : (extend leaves path).Pairwise Before := by
  rw [extend]
  split
  · exact hLeaves
  · rename_i hLast
    refine List.pairwise_append.2 ⟨hLeaves, List.pairwise_singleton _ _, fun x hx y hy => ?_⟩
    obtain rfl := List.mem_singleton.1 hy
    rcases hPath x hx with rfl | hBefore
    · obtain ⟨last, hFound⟩ := Option.isSome_iff_exists.1 (List.getLast?_isSome.2 (List.ne_nil_of_mem hx))
      obtain ⟨front, rfl⟩ := List.getLast?_eq_some_iff.1 hFound
      have hNot : last ≠ x := fun hSame => hLast (by rw [hFound, hSame])
      have hFront : x ∈ front := by
        rcases List.mem_append.1 hx with hx | hx
        · exact hx
        · exact absurd (List.mem_singleton.1 hx).symm hNot
      have hLess : Before x last :=
        (List.pairwise_append.1 hLeaves).2.2 x hFront last (List.mem_singleton_self last)
      rcases hPath last (by simp) with hSame | hMore
      · exact absurd hSame hNot
      · exact absurd hMore hLess.asymm
    · exact hBefore

/-- Leaves that come in document order, each as often as it has parts, are told
apart by telling each from the one before it. -/
theorem sorted_foldl_extend (hLeaves : leaves.Pairwise Before) (hPaths : paths.Pairwise AtOrBefore)
    (hCross : ∀ x ∈ leaves, ∀ path ∈ paths, AtOrBefore x path) :
    (paths.foldl extend leaves).Pairwise Before ∧
      ∀ x ∈ paths.foldl extend leaves, x ∈ leaves ∨ x ∈ paths := by
  induction paths generalizing leaves with
  | nil => exact ⟨hLeaves, fun x hx => .inl hx⟩
  | cons path paths ih =>
    obtain ⟨hHead, hTail⟩ := List.pairwise_cons.1 hPaths
    have hNext : ∀ x ∈ extend leaves path, ∀ other ∈ paths, AtOrBefore x other := by
      intro x hx other hOther
      rcases mem_extend hx with hx | rfl
      · exact hCross x hx other (List.mem_cons_of_mem path hOther)
      · exact hHead other hOther
    obtain ⟨hSorted, hMem⟩ := ih
      (sorted_extend hLeaves fun x hx => hCross x hx path List.mem_cons_self) hTail hNext
    refine ⟨hSorted, fun x hx => ?_⟩
    rcases hMem x hx with hx | hx
    · rcases mem_extend hx with hx | rfl
      · exact .inl hx
      · exact .inr List.mem_cons_self
    · exact .inr (List.mem_cons_of_mem path hx)

end Path

namespace Ascending

variable {α : Type}

@[simp] theorem map_fst_numbered (values : List α) :
    (numbered values).map Prod.fst = List.range' 1 values.length :=
  List.map_fst_zip (by simp)

theorem lookup_numbered_eq_none {values : List α} {index : Nat}
    (h : ¬ (1 ≤ index ∧ index ≤ values.length)) :
    (numbered values).lookup index = none := by
  cases index with
  | zero =>
    rw [List.lookup_eq_none_iff]
    rintro ⟨key, value⟩ hMem
    have hKey := List.mem_range'_1.1 (List.of_mem_zip hMem).1
    rw [bne_iff_ne]
    omega
  | succ i =>
    rw [lookup_numbered, List.getElem?_eq_none_iff]
    omega

theorem insert_of_lt {key : Nat} {entries : Ascending α} (h : ∀ entry ∈ entries, entry.1 < key)
    (value : α) : insert key value entries = entries ++ [(key, value)] := by
  induction entries with
  | nil => rfl
  | cons entry entries ih =>
    have hLess : entry.1 < key := h entry List.mem_cons_self
    rw [insert, if_neg (Nat.not_lt_of_lt hLess), if_neg (Nat.ne_of_gt hLess),
      ih fun other hOther => h other (List.mem_cons_of_mem entry hOther)]
    rfl

theorem insertNew_numbered (values : List α) (value : α) :
    insertNew (values.length + 1) value (numbered values) = numbered (values ++ [value]) := by
  have hNone : (numbered values).lookup (values.length + 1) = none := by
    rw [lookup_numbered]
    simp
  have hLess : ∀ entry ∈ numbered values, entry.1 < values.length + 1 := by
    intro entry hEntry
    have := (List.of_mem_zip hEntry).1
    simp at this
    omega
  rw [insertNew, hNone, if_neg (by simp), insert_of_lt hLess, numbered, numbered,
    List.length_append, List.length_singleton, List.range'_concat, List.zip_append (by simp)]
  simp [Nat.add_comm]

theorem insertNew_of_found {values : List α} {index : Nat} {value other : α}
    (h : values[index]? = some value) :
    insertNew (index + 1) other (numbered values) = numbered values := by
  rw [insertNew, lookup_numbered, h]
  rfl

/-- Every number with the first value that stands under it. -/
def ofPlaces (places : List (Nat × α)) : Ascending α :=
  places.foldl (fun values place => insertNew place.1 place.2 values) []

theorem mem_insert {key : Nat} {value : α} {entries : Ascending α} {entry : Nat × α}
    (h : entry ∈ insert key value entries) : entry = (key, value) ∨ entry ∈ entries := by
  induction entries with
  | nil => exact .inl (List.mem_singleton.1 h)
  | cons first entries ih =>
    rw [insert] at h
    split at h
    · exact List.mem_cons.1 h
    · split at h
      · exact (List.mem_cons.1 h).imp_right (List.mem_cons_of_mem first)
      · rcases List.mem_cons.1 h with rfl | h
        · exact .inr List.mem_cons_self
        · exact (ih h).imp_right (List.mem_cons_of_mem first)

/-- Nothing stands under a number that was not given to it. -/
theorem mem_ofPlaces {places : List (Nat × α)} {entry : Nat × α} (h : entry ∈ ofPlaces places) :
    entry ∈ places := by
  have general : ∀ (places : List (Nat × α)) (values : Ascending α),
      entry ∈ places.foldl (fun values place => insertNew place.1 place.2 values) values →
        entry ∈ values ∨ entry ∈ places := by
    intro places
    induction places with
    | nil => exact fun values hEntry => .inl hEntry
    | cons place places ih =>
      intro values hEntry
      rcases ih _ hEntry with hFound | hFound
      · simp only [insertNew] at hFound
        split at hFound
        · exact .inl hFound
        · rcases mem_insert hFound with rfl | hFound
          · exact .inr List.mem_cons_self
          · exact .inl hFound
      · exact .inr (List.mem_cons_of_mem place hFound)
  simpa using general places [] h

theorem ofPlaces_concat (places : List (Nat × α)) (key : Nat) (value : α) :
    ofPlaces (places ++ [(key, value)]) = insertNew key value (ofPlaces places) := by
  rw [ofPlaces, List.foldl_append]
  rfl

/-! ### What stands under a number -/

theorem sorted_insert {entries : Ascending α} (h : entries.Pairwise fun x y => x.1 < y.1)
    (key : Nat) (value : α) :
    (insert key value entries).Pairwise fun x y => x.1 < y.1 := by
  induction entries with
  | nil => exact List.pairwise_singleton _ _
  | cons first rest ih =>
    obtain ⟨hFirst, hRest⟩ := List.pairwise_cons.1 h
    rw [insert]
    split
    · rename_i hLess
      apply List.pairwise_cons.2 ⟨?_, h⟩
      intro entry hEntry
      rcases List.mem_cons.1 hEntry with rfl | hEntry
      · exact hLess
      · exact hLess.trans (hFirst entry hEntry)
    · split
      · rename_i hSame
        subst hSame
        exact List.pairwise_cons.2 ⟨hFirst, hRest⟩
      · rename_i hNotLess hNe
        apply List.pairwise_cons.2 ⟨?_, ih hRest⟩
        intro entry hEntry
        rcases mem_insert hEntry with rfl | hEntry
        · exact Nat.lt_of_le_of_ne (Nat.le_of_not_lt hNotLess) (Ne.symm hNe)
        · exact hFirst entry hEntry

/-- In ascending order, what stands under a number is what is found there. -/
theorem mem_iff_lookup {entries : Ascending α} (h : entries.Pairwise fun x y => x.1 < y.1)
    {key : Nat} {value : α} :
    (key, value) ∈ entries ↔ entries.lookup key = some value := by
  induction entries with
  | nil => simp
  | cons first rest ih =>
    obtain ⟨hFirst, hRest⟩ := List.pairwise_cons.1 h
    obtain ⟨key', value'⟩ := first
    rw [lookup_cons, List.mem_cons, ih hRest]
    by_cases hSame : key = key'
    · subst hSame
      have hNone : ¬ rest.lookup key = some value := fun hFound =>
        Nat.lt_irrefl key (hFirst _ ((ih hRest).2 hFound))
      simp [hNone, eq_comm]
    · simp [hSame]

/-- Ascending lists in which the same is found are the same. -/
theorem eq_of_lookup {left right : Ascending α} (hLeft : left.Pairwise fun x y => x.1 < y.1)
    (hRight : right.Pairwise fun x y => x.1 < y.1)
    (h : ∀ key, left.lookup key = right.lookup key) : left = right := by
  have hIrrefl : Std.Irrefl fun x y : Nat × α => x.1 < y.1 := ⟨fun x => Nat.lt_irrefl x.1⟩
  have hAntisymm : Std.Antisymm fun x y : Nat × α => x.1 < y.1 :=
    ⟨fun _ _ hxy hyx => absurd hyx (Nat.lt_asymm hxy)⟩
  apply hLeft.eq_of_mem_iff hRight
  rintro ⟨key, value⟩
  rw [mem_iff_lookup hLeft, mem_iff_lookup hRight, h]

theorem sorted_numbered (values : List α) :
    (numbered values).Pairwise fun x y => x.1 < y.1 := by
  rw [← List.pairwise_map, map_fst_numbered]
  exact List.pairwise_lt_range'

theorem sorted_ofPlaces (places : List (Nat × α)) :
    (ofPlaces places).Pairwise fun x y => x.1 < y.1 := by
  have general : ∀ (places : List (Nat × α)) (values : Ascending α),
      (values.Pairwise fun x y => x.1 < y.1) →
        (places.foldl (fun values place => insertNew place.1 place.2 values) values).Pairwise
          fun x y => x.1 < y.1 := by
    intro places
    induction places with
    | nil => exact fun _ h => h
    | cons place places ih =>
      intro values h
      apply ih
      simp only [insertNew]
      split
      · exact h
      · exact sorted_insert h place.1 place.2
  exact general places [] List.Pairwise.nil

/-- The first value that is given to a number stands under it. -/
theorem lookup_ofPlaces (places : List (Nat × α)) (key : Nat) :
    (ofPlaces places).lookup key = places.lookup key := by
  have general : ∀ (places : List (Nat × α)) (values : Ascending α),
      (places.foldl (fun values place => insertNew place.1 place.2 values) values).lookup key =
        (values.lookup key).or (places.lookup key) := by
    intro places
    induction places with
    | nil => simp
    | cons place places ih =>
      obtain ⟨key', value'⟩ := place
      intro values
      rw [List.foldl_cons, ih, lookup_cons, insertNew]
      cases hFound : values.lookup key' with
      | some found =>
        by_cases hSame : key = key'
        · simp [hSame, hFound]
        · simp [hSame]
      | none =>
        simp only [Option.isSome_none, Bool.false_eq_true, if_false, lookup_insert]
        by_cases hSame : key = key'
        · simp [hSame, hFound]
        · simp [hSame]
  rw [ofPlaces, general places []]
  rfl

/-- Places that number values from one on, in any order and as often as they like. -/
theorem ofPlaces_eq_numbered {places : List (Nat × α)} {values : List α}
    (hFound : ∀ place ∈ places, ∃ i, place.1 = i + 1 ∧ values[i]? = some place.2)
    (hEvery : ∀ i < values.length, ∃ place ∈ places, place.1 = i + 1) :
    ofPlaces places = numbered values := by
  apply eq_of_lookup (sorted_ofPlaces places) (sorted_numbered values)
  intro key
  rw [lookup_ofPlaces]
  cases hPlace : places.lookup key with
  | some value =>
    obtain ⟨front, back, rfl, -⟩ := List.lookup_eq_some_iff.1 hPlace
    obtain ⟨i, hKey, hValue⟩ := hFound (key, value) (by simp)
    obtain rfl : key = i + 1 := hKey
    rw [lookup_numbered, hValue]
  | none =>
    have hNone := List.lookup_eq_none_iff.1 hPlace
    apply (lookup_numbered_eq_none _).symm
    rintro ⟨hPos, hCount⟩
    obtain ⟨i, rfl⟩ := Nat.exists_eq_add_of_le' hPos
    obtain ⟨place, hMem, hSame⟩ := hEvery i hCount
    exact (bne_iff_ne.1 (hNone place hMem)) hSame.symm

end Ascending

/-- The number and the place of an entry's leaf. -/
def Pointer.place (pointer : Pointer) : Nat × Path :=
  (pointer.index, pointer.path)

/-- The numbers and places of a line's entries. -/
def Line.places (line : Line) : List (Nat × Path) :=
  line.map fun entry => entry.1.place

@[simp] theorem Line.places_append (left right : Line) :
    Line.places (left ++ right) = Line.places left ++ Line.places right :=
  List.map_append

/-- The leaves of a line depend on the places of its entries alone. -/
theorem Boundaries.leavesOf_eq (line : Line) :
    Boundaries.leavesOf line = Ascending.ofPlaces (Line.places line) := by
  rw [Boundaries.leavesOf, Ascending.ofPlaces, Line.places, List.foldl_map]
  rfl

namespace Draft

/-- Whether the entries of a draft number leaves from one on. -/
structure Numbered (draft : Draft) (leaves : List Path) : Prop where
  index : draft.index = leaves.length
  lastPath : draft.lastPath = leaves.getLast?
  leavesOf : Ascending.ofPlaces (Line.places draft.line) = Ascending.numbered leaves
  found : ∀ place ∈ Line.places draft.line, ∃ i, place.1 = i + 1 ∧ leaves[i]? = some place.2

variable {draft changed : Draft} {leaves : List Path}

theorem Numbered.start : Numbered {} [] :=
  ⟨rfl, rfl, rfl, by simp [Line.places, line]⟩

/-- Texts may change, places may not. -/
theorem Numbered.congr (h : draft.Numbered leaves) (hIndex : changed.index = draft.index)
    (hLast : changed.lastPath = draft.lastPath)
    (hPlaces : Line.places changed.line = Line.places draft.line) : changed.Numbered leaves :=
  ⟨hIndex.trans h.index, hLast.trans h.lastPath, by rw [hPlaces, h.leavesOf],
    by rw [hPlaces]; exact h.found⟩

theorem Numbered.push (h : draft.Numbered leaves) (span : Span) (text : List Char) :
    (draft.push span text).Numbered (Path.extend leaves span.path) := by
  have hPlaces : Line.places (draft.push span text).line = Line.places draft.line ++
      [(if draft.lastPath = some span.path then draft.index else draft.index + 1, span.path)] := by
    simp [Draft.push, Draft.line, Line.places, Pointer.place, Pointer.ofSpan]
  by_cases hSame : leaves.getLast? = some span.path
  · have hPos : 0 < leaves.length := List.length_pos_iff.2 (by rintro rfl; simp at hSame)
    obtain ⟨last, hLast⟩ := Nat.exists_eq_add_of_le' hPos
    have hFound : leaves[last]? = some span.path := by
      rw [List.getLast?_eq_getElem?, hLast] at hSame
      exact hSame
    rw [Path.extend, if_pos hSame]
    rw [h.lastPath, if_pos hSame, h.index, hLast] at hPlaces
    refine ⟨?_, ?_, ?_, ?_⟩
    · simp [Draft.push, h.lastPath, hSame, h.index]
    · simp [Draft.push, hSame]
    · rw [hPlaces, Ascending.ofPlaces_concat, h.leavesOf]
      exact Ascending.insertNew_of_found hFound
    · rw [hPlaces]
      intro place hPlace
      rcases List.mem_append.1 hPlace with hPlace | hPlace
      · exact h.found place hPlace
      · rw [List.mem_singleton.1 hPlace]
        exact ⟨last, rfl, hFound⟩
  · rw [Path.extend, if_neg hSame]
    rw [h.lastPath, if_neg hSame, h.index] at hPlaces
    refine ⟨?_, ?_, ?_, ?_⟩
    · simp [Draft.push, h.lastPath, hSame, h.index]
    · simp [Draft.push]
    · rw [hPlaces, Ascending.ofPlaces_concat, h.leavesOf]
      exact Ascending.insertNew_numbered leaves span.path
    · rw [hPlaces]
      intro place hPlace
      rcases List.mem_append.1 hPlace with hPlace | hPlace
      · obtain ⟨i, hIndex, hFound⟩ := h.found place hPlace
        refine ⟨i, hIndex, ?_⟩
        rw [List.getElem?_append_left (List.getElem?_eq_some_iff.1 hFound).1, hFound]
      · rw [List.mem_singleton.1 hPlace]
        exact ⟨leaves.length, rfl, by simp⟩

theorem Numbered.pushText (h : draft.Numbered leaves) (span : Span) (text : List Char) :
    (draft.pushText span text).Numbered (Path.extend leaves span.path) := by
  rw [Draft.pushText]
  split
  · have hPath : (if (Text.trimStart text).length = text.length then span
        else { span with isConstant := false }).path = span.path := by
      split <;> rfl
    have hPush := h.push (if (Text.trimStart text).length = text.length then span
      else { span with isConstant := false }) (Text.trimStart text)
    rw [hPath] at hPush
    exact hPush.congr rfl rfl rfl
  · exact h.push span text

theorem places_trimBack (line : Line) : Line.places (trimBack line) = Line.places line := by
  induction line with
  | nil => rfl
  | cons entry line ih =>
    obtain ⟨pointer, text⟩ := entry
    have hEntry : ∀ rest : Line, Line.places
        ((if (Text.trimEnd text.toList).length = text.toList.length then (pointer, text)
          else ({ pointer with isConstant := false }, String.ofList (Text.trimEnd text.toList))) ::
            rest) = pointer.place :: Line.places rest := by
      intro rest
      split <;> rfl
    rw [trimBack]
    split
    · rw [hEntry, ih]
      rfl
    · exact hEntry line

theorem Numbered.pushTagSpans (h : draft.Numbered leaves) (text : List Char) (spans : List Span) :
    (draft.pushTagSpans text spans).Numbered ((spans.map Span.path).foldl Path.extend leaves) := by
  have hPoints : ∀ (spans : List Span) (draft : Draft) (leaves : List Path), draft.Numbered leaves →
      (spans.foldl
        (fun draft span =>
          draft.push
            { span with offset := span.offset + span.length, length := 0, isConstant := false } [])
        draft).Numbered ((spans.map Span.path).foldl Path.extend leaves) := by
    intro spans
    induction spans with
    | nil => exact fun draft leaves h => h
    | cons span spans ih => exact fun draft leaves h => ih _ _ (h.push _ [])
  cases spans with
  | nil => exact h
  | cons span spans => exact hPoints spans _ _ (h.push { span with isConstant := false } text)

theorem Numbered.pushTag (h : draft.Numbered leaves) {tag : Tagged}
    (hTag : draft.pushTag tag = .ok changed) :
    changed.Numbered ((tag.spans.map Span.path).foldl Path.extend leaves) := by
  rw [Draft.pushTag] at hTag
  split at hTag
  · cases hTag
  · obtain rfl := Except.ok.inj hTag
    have hTrimmed : Draft.Numbered { draft with
        recent := if trimsBefore tag.text.toList then (trimBack draft.recent.reverse).reverse
          else draft.recent } leaves := by
      refine h.congr rfl rfl ?_
      rw [line, line, Line.places_append, Line.places_append]
      congr 1
      split
      · rw [Line.places, List.map_reverse, ← Line.places, places_trimBack, Line.places,
          List.map_reverse, List.reverse_reverse, Line.places]
      · rfl
    refine (hTrimmed.pushTagSpans tag.text.toList tag.spans).congr rfl rfl ?_
    simp [line]

theorem Numbered.step (h : draft.Numbered leaves) {event : Template.Event}
    (hStep : draft.step event = .ok changed) :
    changed.Numbered ((event.2.spans.map Span.path).foldl Path.extend leaves) := by
  obtain ⟨token, tagged⟩ := event
  cases token with
  | terminal => exact h.pushTag hStep
  | text =>
    obtain rfl := Except.ok.inj hStep
    have hPieces : ∀ (spans : List Span) (text : List Char) (draft : Draft) (leaves : List Path),
        draft.Numbered leaves →
        ((Tagged.divide text spans).foldl (fun draft piece => draft.pushText piece.1 piece.2)
          draft).Numbered ((spans.map Span.path).foldl Path.extend leaves) := by
      intro spans
      induction spans with
      | nil => exact fun text draft leaves h => h
      | cons span spans ih =>
        intro text draft leaves h
        rw [Tagged.divide]
        split
        · exact ih _ _ _ (h.pushText span _)
        · exact ih _ _ _ (h.pushText span _)
    exact hPieces tagged.spans _ draft leaves h

/-- The draft of a line numbers the leaves of the events' spans. -/
theorem Numbered.foldlM {events : List Template.Event} (h : draft.Numbered leaves)
    (hEvents : events.foldlM Draft.step draft = .ok changed) :
    changed.Numbered
      (((Template.Lexer.spansOf events).map Span.path).foldl Path.extend leaves) := by
  induction events generalizing draft leaves with
  | nil =>
    cases hEvents
    exact h
  | cons event events ih =>
    obtain ⟨next, hNext, hRest⟩ := bind_eq_ok.1 hEvents
    rw [Template.Lexer.spansOf_cons, List.map_append, List.foldl_append]
    exact ih (h.step hNext) hRest

end Draft

variable {format : Format} {root : Element} {content : Content} {line : Line}

/-- The leaves of a line were found in the document and stand in its order, and
the line numbers them. -/
theorem flatten_numbered (h : flatten format root = .ok (content, line)) :
    ∃ leaves : List Path, leaves.Pairwise Path.Before ∧
      (∀ path ∈ leaves, path ∈ (format.leaves root).map Leaf.path) ∧
      Boundaries.leavesOf line = Ascending.numbered leaves ∧
      ∀ entry ∈ line, ∃ i, entry.1.index = i + 1 ∧ leaves[i]? = some entry.1.path := by
  obtain ⟨events, hEvents, hRest⟩ := bind_eq_ok.1 h
  obtain ⟨draft, hDraft, hDone⟩ := bind_eq_ok.1 hRest
  obtain rfl : draft.line = line := congrArg Prod.snd (Except.ok.inj hDone)
  obtain ⟨hAscending, hPaths⟩ :=
    Template.Token.ascending_ofLeaves (format.leaves_sorted root) hEvents
  have hNumbered := Draft.Numbered.start.foldlM hDraft
  obtain ⟨hSorted, hMem⟩ := Path.sorted_foldl_extend List.Pairwise.nil
    (List.pairwise_map.2 hAscending) (by simp)
  refine ⟨_, hSorted, fun path hPath => ?_, by rw [Boundaries.leavesOf_eq, hNumbered.leavesOf],
    fun entry hEntry => hNumbered.found entry.1.place (List.mem_map_of_mem hEntry)⟩
  rcases hMem path hPath with hNone | hFound
  · cases hNone
  · obtain ⟨span, hSpan, rfl⟩ := List.mem_map.1 hFound
    exact hPaths span hSpan

namespace Layout

theorem leaves_of_numbered {leaves : List Path}
    (h : Boundaries.leavesOf line = Ascending.numbered leaves) :
    (Boundaries.leavesOf line).map Prod.snd = leaves := by
  rw [h, Ascending.map_snd_numbered]

/-- The layout of a document by its line. -/
def ofLine (h : flatten format root = .ok (content, line)) : Layout where
  root := root
  format := format
  leaves := (Boundaries.leavesOf line).map Prod.snd
  ordered := by
    obtain ⟨leaves, hSorted, -, hLeaves, -⟩ := flatten_numbered h
    rwa [leaves_of_numbered hLeaves]
  holdsText := by
    obtain ⟨leaves, -, hFound, hLeaves, -⟩ := flatten_numbered h
    rw [leaves_of_numbered hLeaves]
    intro path hPath
    obtain ⟨leaf, hLeaf, rfl⟩ := List.mem_map.1 (hFound path hPath)
    exact Format.holdsText_of_mem_leaves hLeaf

variable (h : flatten format root = .ok (content, line))

@[simp] theorem ofLine_root : (ofLine h).root = root := rfl

theorem mem_leaves_of_mem_ofLine {path : Path} (hPath : path ∈ (ofLine h).leaves) :
    path ∈ (format.leaves root).map Leaf.path := by
  obtain ⟨leaves, -, hFound, hLeaves, -⟩ := flatten_numbered h
  have hSame : (ofLine h).leaves = leaves := leaves_of_numbered hLeaves
  exact hFound path (hSame ▸ hPath)

theorem leavesOf_ofLine : Boundaries.leavesOf line = (ofLine h).numbered := by
  obtain ⟨leaves, -, -, hLeaves, -⟩ := flatten_numbered h
  have hSame : (ofLine h).leaves = leaves := leaves_of_numbered hLeaves
  rw [numbered, hSame, hLeaves]

/-- An entry points to a leaf of the layout. -/
theorem mem_ofLine {entry : Pointer × String} (hEntry : entry ∈ line) :
    1 ≤ entry.1.index ∧ entry.1.index ≤ (ofLine h).count ∧
      (ofLine h).path entry.1.index = entry.1.path := by
  obtain ⟨leaves, -, -, hLeaves, hFound⟩ := flatten_numbered h
  obtain ⟨i, hIndex, hPath⟩ := hFound entry hEntry
  have hLength := (List.getElem?_eq_some_iff.1 hPath).1
  have hSame : (ofLine h).leaves = leaves := leaves_of_numbered hLeaves
  refine ⟨by omega, by rw [count, hSame]; omega, ?_⟩
  rw [path, hIndex, leaf?, hSame, hPath]
  rfl

/-- Every leaf of the layout has an entry in the line. -/
theorem exists_mem_ofLine {index : Nat} (hPos : 1 ≤ index) (hCount : index ≤ (ofLine h).count) :
    ∃ entry ∈ line, entry.1.index = index := by
  obtain ⟨i, rfl⟩ := Nat.exists_eq_add_of_le' hPos
  have hLookup : (ofLine h).numbered.lookup (i + 1) = (ofLine h).leaves[i]? :=
    Ascending.lookup_numbered _ i
  have hLess : i < (ofLine h).leaves.length := hCount
  rw [List.getElem?_eq_getElem hLess, ← leavesOf_ofLine h, Boundaries.leavesOf_eq] at hLookup
  obtain ⟨front, back, hSplit, -⟩ := List.lookup_eq_some_iff.1 hLookup
  have hMem := Ascending.mem_ofPlaces
    (hSplit ▸ List.mem_append_right front List.mem_cons_self)
  obtain ⟨entry, hEntry, hPlace⟩ := List.mem_map.1 hMem
  exact ⟨entry, hEntry, congrArg Prod.fst hPlace⟩

end Layout

end Infill
