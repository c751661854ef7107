import Infill.Proofs.Reading
import Mathlib.Data.List.Chain

/-!
Documents with loops. A loop begins behind a tag that is all that an atom holds
but for formatting properties, and it ends in front of another one in the same
element. A tape goes through the children of an element in order, and through
those between two tags as often as it likes, each time from the first entry of
the first leaf there. What it leaves behind is the document in which the
children between the tags stand once for every pass.
-/
namespace Infill

open Infill.Xml

/-- A part of a document that a tape goes through. -/
inductive Region
  /-- Some children of the element at a path. -/
  | children (path : Path) (start stop : Nat)
  /-- The passes of a loop between two of the children. -/
  | passes (path : Path) (opening closing : Nat)

/-- Whether an entry is the first one of its leaf on a line. -/
def Line.Heads (line : Line) (entry : Pointer × String) : Prop :=
  ∀ other ∈ line, other.1.index = entry.1.index → entry.1.offset ≤ other.1.offset

instance (line : Line) (entry : Pointer × String) : Decidable (line.Heads entry) :=
  inferInstanceAs (Decidable (∀ other ∈ line, _ → _))

/-- What a tape leaves behind when it goes through a part of the document of a
line, behind the elements `front`. -/
inductive Layout.Unrolls (layout : Layout) (line : Line) :
    Region → List Element → Line → List Element → Prop
  | nil {path : Path} {index : Nat} {front : List Element} :
      Unrolls layout line (.children path index index) front [] []
  /-- A subtree without leaves stays as it is. -/
  | clone {path : Path} {index stop : Nat} {front out : List Element} {tape : Line}
      (hOff : layout.OffPath (path ++ [index]))
      (rest : Unrolls layout line (.children path (index + 1) stop)
        (front ++ [layout.root.descendant (path ++ [index])]) tape out) :
      Unrolls layout line (.children path index stop) front tape
        (layout.root.descendant (path ++ [index]) :: out)
  /-- A leaf is written with its present entries. -/
  | leaf {path : Path} {index stop key : Nat} {front out : List Element} {entries tape : Line}
      (hLeaf : layout.leaf? key = some (path ++ [index])) (hEntries : entries.Covers key)
      (rest : Unrolls layout line (.children path (index + 1) stop)
        (front ++ layout.written front (path ++ [index]) entries.text?) tape out) :
      Unrolls layout line (.children path index stop) front (entries ++ tape)
        (layout.written front (path ++ [index]) entries.text? ++ out)
  /-- The tape goes through the children of an element that holds leaves. -/
  | inner {path : Path} {index stop : Nat} {front kids out : List Element} {inside tape : Line}
      (hInner : ∃ leaf ∈ layout.leaves, path ++ [index] <+: leaf ∧ path ++ [index] ≠ leaf)
      (body : Unrolls layout line
        (.children (path ++ [index]) 0 (layout.root.degree (path ++ [index]))) [] inside kids)
      (rest : Unrolls layout line (.children path (index + 1) stop)
        (front ++ [{ layout.root.descendant (path ++ [index]) with children := kids }]) tape out) :
      Unrolls layout line (.children path index stop) front (inside ++ tape)
        ({ layout.root.descendant (path ++ [index]) with children := kids } :: out)
  /-- The entry of an opening tag is dropped, then the loop is passed through. -/
  | loop {path : Path} {index closing stop : Nat} {front unrolled out : List Element}
      {entry : Pointer × String} {inside tape : Line}
      (hTag : layout.IsTag (path ++ [index]) entry.1.index) (hAbsent : ¬ Line.IsPresent entry)
      (body : Unrolls layout line (.passes path index closing) front inside unrolled)
      (rest : Unrolls layout line (.children path (closing + 1) stop) (front ++ unrolled) tape out) :
      Unrolls layout line (.children path index stop) front (entry :: inside ++ tape) (unrolled ++ out)
  /-- A pass runs over a leaf, and ends with the dropped entry of the closing
  tag. It may be the last one. -/
  | last {path : Path} {opening closing : Nat} {front out : List Element}
      {entry : Pointer × String} {pass : Line} (hLess : opening < closing)
      (hTag : layout.IsTag (path ++ [closing]) entry.1.index) (hAbsent : ¬ Line.IsPresent entry)
      (hSome : ∃ entry ∈ pass, Line.IsPresent entry)
      (body : Unrolls layout line (.children path (opening + 1) closing) front pass out) :
      Unrolls layout line (.passes path opening closing) front (pass ++ [entry]) out
  /-- Another pass may follow, which begins with the first entry of a leaf. -/
  | again {path : Path} {opening closing : Nat} {front out more : List Element}
      {entry : Pointer × String} {pass tape : Line} (hLess : opening < closing)
      (hTag : layout.IsTag (path ++ [closing]) entry.1.index) (hAbsent : ¬ Line.IsPresent entry)
      (hSome : ∃ entry ∈ pass, Line.IsPresent entry)
      (body : Unrolls layout line (.children path (opening + 1) closing) front pass out)
      (hStart : ∀ entry ∈ tape.head?, line.Heads entry)
      (later : Unrolls layout line (.passes path opening closing) (front ++ out) tape more) :
      Unrolls layout line (.passes path opening closing) front (pass ++ entry :: tape) (out ++ more)

namespace Line

variable {tape back : Line}

/-- Whether a line has an entry that is present. -/
def IsLively (line : Line) : Bool :=
  line.any fun entry => IsPresent entry

@[simp] theorem isLively_append (front back : Line) :
    IsLively (front ++ back) = (front.IsLively || back.IsLively) :=
  List.any_append

theorem isLively_iff : tape.IsLively = true ↔ ∃ entry ∈ tape, IsPresent entry := by
  simp [IsLively]

theorem FreshStarts.of_append (h : FreshStarts (tape ++ back)) : FreshStarts tape := by
  intro before entry after hTape
  exact h before entry (after ++ back) (by rw [hTape]; simp)

/-- Whether entries belong to the leaves behind `low` up to `high`, and none of
them goes back but to the first entry of a leaf. -/
structure Tours (line : Line) (low high : Nat) (tape : Line) : Prop where
  within : ∀ entry ∈ tape, low < entry.1.index ∧ entry.1.index ≤ high
  goesOn : tape.IsChain fun last entry =>
    entry.1.position.before last.1.position = true → line.Heads entry

namespace Tours

variable {line : Line} {low middle high : Nat}

theorem nil : line.Tours low high [] :=
  ⟨by simp, List.isChain_nil⟩

theorem of_forward (hWithin : ∀ entry ∈ tape, low < entry.1.index ∧ entry.1.index ≤ high)
    (hForward : IsForward tape) : line.Tours low high tape := by
  refine ⟨hWithin, (List.Pairwise.isChain hForward).imp fun last entry hOrder hBack => ?_⟩
  rw [hOrder] at hBack
  cases hBack

theorem mono {low' high' : Nat} (h : line.Tours low' high' tape) (hLow : low ≤ low')
    (hHigh : high' ≤ high) : line.Tours low high tape := by
  refine ⟨fun entry hEntry => ?_, h.goesOn⟩
  obtain ⟨hAbove, hBelow⟩ := h.within entry hEntry
  exact ⟨hLow.trans_lt hAbove, hBelow.trans hHigh⟩

/-- Entries that begin with the first one of a leaf may follow any others. -/
theorem append_of_heads (h : line.Tours low high tape) (hBack : line.Tours low high back)
    (hHeads : ∀ entry ∈ back.head?, line.Heads entry) : line.Tours low high (tape ++ back) := by
  refine ⟨fun entry hEntry => ?_, h.goesOn.append hBack.goesOn ?_⟩
  · exact (List.mem_append.1 hEntry).elim (h.within entry) (hBack.within entry)
  · exact fun last _ entry hEntry _ => hHeads entry hEntry

/-- Entries of later leaves may follow. -/
theorem append (h : line.Tours low middle tape) (hBack : line.Tours middle high back)
    (hLow : low ≤ middle) (hHigh : middle ≤ high) : line.Tours low high (tape ++ back) := by
  refine ⟨fun entry hEntry => ?_, h.goesOn.append hBack.goesOn fun last hLast entry hEntry => ?_⟩
  · rcases List.mem_append.1 hEntry with hEntry | hEntry
    · exact (h.mono (Nat.le_refl low) hHigh).within entry hEntry
    · exact (hBack.mono hLow (Nat.le_refl high)).within entry hEntry
  · have hHere := (h.within last (List.mem_of_getLast? hLast)).2
    have hThere := (hBack.within entry (List.mem_of_head? hEntry)).1
    rw [Position.before_iff]
    simp only [Pointer.position]
    omega

/-- An entry that goes back on a tape of a line has none of its leaf in front of it. -/
theorem freshStarts (h : line.Tours low high tape) (hTape : PointsInto tape line) :
    FreshStarts tape := by
  rintro front entry back rfl hBack dropped hDropped - hIndex
  obtain ⟨last, hLast, hBefore⟩ := (Option.any_eq_true _ _).1 hBack
  have hHeads := (List.isChain_append.1 h.goesOn).2.2 last hLast entry (by simp) hBefore
  obtain ⟨source, hSource, hSame⟩ := List.mem_map.1 (hTape dropped (by simp [hDropped]))
  rw [← hSame] at hIndex ⊢
  exact hHeads source hSource hIndex

end Tours

end Line

namespace Layout

variable {layout : Layout} {path : Path} {start stop index opening closing key : Nat}
  {front out more : List Element} {line tape back : Line} {entry : Pointer × String}

/-- What is known of a run through some children of an element. -/
structure BuildsChildren (layout : Layout) (path : Path) (start stop : Nat) (front : List Element)
    (tape : Line) (out : List Element) : Prop where
  le : start ≤ stop
  lively : layout.rank (path ++ [start]) < layout.rank (path ++ [stop]) → tape.IsLively = true
  builds : ∀ read limit steady V, Line.FreshStarts (read ++ tape) →
    layout.rank (path ++ [stop]) ≤ limit → layout.At read limit steady (path ++ [start]) V →
    ∃ W, layout.At (read ++ tape) limit (steady || tape.IsLively) (path ++ [stop]) (V ++ W) ∧
      layout.Assembles path start stop front W out ∧ (out ≠ [] ∨ W = []) ∧
      (tape.IsLively = true → Visit.hasFill W = true)

/-- What is known of a run through the passes of a loop. -/
structure BuildsPasses (layout : Layout) (path : Path) (opening closing : Nat)
    (front : List Element) (tape : Line) (out : List Element) : Prop where
  less : opening < closing
  lively : tape.IsLively = true
  builds : ∀ read limit steady V head, layout.IsTag (path ++ [opening]) head →
    (∃ tag ∈ read, ¬ Line.IsPresent tag ∧ tag.1.index = head) → Line.FreshStarts (read ++ tape) →
    layout.rank (path ++ [closing]) ≤ limit →
    layout.At read limit steady (path ++ [opening + 1]) V →
    ∃ W, layout.At (read ++ tape) limit true (path ++ [closing + 1]) (V ++ W) ∧
      layout.Assembles path (opening + 1) (closing + 1) front W out ∧
      Visit.hasFill W = true ∧ out ≠ []

/-- What is known of a run through a part of a document. -/
def Builds (layout : Layout) : Region → List Element → Line → List Element → Prop
  | .children path start stop => layout.BuildsChildren path start stop
  | .passes path opening closing => layout.BuildsPasses path opening closing

theorem rank_mono (layout : Layout) (path : Path) (h : start ≤ stop) :
    layout.rank (path ++ [start]) ≤ layout.rank (path ++ [stop]) := by
  refine List.countP_mono_left fun leaf _ hBefore => ?_
  rcases Nat.eq_or_lt_of_le h with rfl | hLess
  · exact hBefore
  · have hNext : Path.Before (path ++ [start]) (path ++ [stop]) := by
      rw [Path.before_append_left]
      exact .inl hLess
    simpa using Path.Before.trans (by simpa using hBefore) hNext

private theorem nonempty_of_hasFill {W : List Visit} (hOut : out ≠ [] ∨ W = [])
    (hFill : Visit.hasFill W = true) : out ≠ [] := by
  refine hOut.resolve_right ?_
  rintro rfl
  cases hFill

namespace BuildsChildren

theorem nil (layout : Layout) (path : Path) (index : Nat) (front : List Element) :
    layout.BuildsChildren path index index front [] [] := by
  refine ⟨Nat.le_refl _, fun h => absurd h (Nat.lt_irrefl _), fun read limit steady V _ _ hAt => ?_⟩
  exact ⟨[], by simpa [Line.IsLively] using hAt, .nil layout path index index front, .inr rfl,
    by simp [Line.IsLively]⟩

theorem clone (hOff : layout.OffPath (path ++ [index]))
    (h : layout.BuildsChildren path (index + 1) stop
      (front ++ [layout.root.descendant (path ++ [index])]) tape out) :
    layout.BuildsChildren path index stop front tape
      (layout.root.descendant (path ++ [index]) :: out) := by
  refine ⟨Nat.le_of_succ_le h.le, fun hRank => ?_, fun read limit steady V hFresh hLimit hAt => ?_⟩
  · rw [← (trail_offPath hOff 0).1] at hRank
    exact h.lively hRank
  · obtain ⟨W, hEnd, hBuilds, -, hLively⟩ :=
      h.builds read limit steady _ hFresh hLimit (hAt.offPath hOff)
    refine ⟨.clone (layout.floor (layout.rank (path ++ [index]) + 1)) (path ++ [index]) :: W,
      by simpa using hEnd, ?_, .inl (by simp), hLively⟩
    exact (Assembles.clone layout path index _ front).append hBuilds (Nat.le_succ _) h.le

theorem leaf {entries : Line} (hLeaf : layout.leaf? key = some (path ++ [index]))
    (hEntries : entries.Covers key)
    (h : layout.BuildsChildren path (index + 1) stop
      (front ++ layout.written front (path ++ [index]) entries.text?) tape out) :
    layout.BuildsChildren path index stop front (entries ++ tape)
      (layout.written front (path ++ [index]) entries.text? ++ out) := by
  obtain ⟨hPos, hCount, hPath⟩ := leaf?_mem hLeaf
  have hSome : entries.IsLively = true := Line.isLively_iff.2 hEntries.present
  refine ⟨Nat.le_of_succ_le h.le, fun _ => by simp [hSome], fun read limit steady V hFresh hLimit hAt => ?_⟩
  have hKey : key ≤ limit := by
    have hEnds : layout.EndsAt (path ++ [index]) key := hPath ▸ EndsAt.leaf hPos hCount
    rw [← hEnds.rank_next]
    exact (layout.rank_mono path h.le).trans hLimit
  rw [← List.append_assoc] at hFresh
  obtain ⟨W, hEnd, hBuilds, -, -⟩ := h.builds (read ++ entries) limit true _ hFresh hLimit
    (hAt.leaf hPos hCount hPath hKey hEntries hFresh)
  refine ⟨_ :: W, by simpa [hSome] using hEnd, ?_, .inl ?_, fun _ => rfl⟩
  · have hMem : path ++ [index] ∈ layout.leaves := mem_leaf? hLeaf
    exact (Assembles.fill hMem _ front entries.text?).append hBuilds (Nat.le_succ _) h.le
  · simp [written_ne_nil (mem_leaf? hLeaf) front entries]

theorem inner {kids : List Element} {inside : Line}
    (hInner : ∃ leaf ∈ layout.leaves, path ++ [index] <+: leaf ∧ path ++ [index] ≠ leaf)
    (hBody : layout.BuildsChildren (path ++ [index]) 0 (layout.root.degree (path ++ [index])) []
      inside kids)
    (h : layout.BuildsChildren path (index + 1) stop
      (front ++ [{ layout.root.descendant (path ++ [index]) with children := kids }]) tape out) :
    layout.BuildsChildren path index stop front (inside ++ tape)
      ({ layout.root.descendant (path ++ [index]) with children := kids } :: out) := by
  obtain ⟨hEndRank, -⟩ := trail_end hInner 0
  have hSome : inside.IsLively = true := by
    refine hBody.lively ?_
    rw [hEndRank, (layout.trail_first 0 (path ++ [index])).1]
    obtain ⟨leaf, hLeaf, hPrefix, -⟩ := hInner
    obtain ⟨key, hPos, hCount, rfl⟩ := exists_path_eq hLeaf
    by_contra hNot
    have hBefore := (before_iff_le_rank hPos hCount).1 ((Path.before_next _ _ _).2 (.inr hPrefix))
    exact Path.not_inside_before hPrefix
      ((before_iff_le_rank hPos hCount).2 (hBefore.trans (Nat.le_of_not_lt hNot)))
  refine ⟨Nat.le_of_succ_le h.le, fun _ => by simp [hSome], fun read limit steady V hFresh hLimit hAt => ?_⟩
  rw [← List.append_assoc] at hFresh
  obtain ⟨W, hEnd, hBuilds, hKids, hLively⟩ := hBody.builds read limit steady V hFresh.of_append
    (hEndRank ▸ (layout.rank_mono path h.le).trans hLimit) hAt.enter
  obtain ⟨W', hEnd', hBuilds', -, -⟩ := h.builds (read ++ inside) limit _ _ hFresh hLimit
    (hEnd.leave hInner)
  have hFill := hLively hSome
  have hKids := nonempty_of_hasFill hKids hFill
  refine ⟨W ++ W', by simpa [hSome] using hEnd', ?_, .inl (by simp), fun _ => by simp [hFill]⟩
  exact (hBuilds.child hFill hKids front).append hBuilds' (Nat.le_succ _) h.le

theorem loop {unrolled : List Element} {inside : Line}
    (hTag : layout.IsTag (path ++ [index]) entry.1.index) (hAbsent : ¬ Line.IsPresent entry)
    (hBody : layout.BuildsPasses path index closing front inside unrolled)
    (h : layout.BuildsChildren path (closing + 1) stop (front ++ unrolled) tape out) :
    layout.BuildsChildren path index stop front (entry :: inside ++ tape) (unrolled ++ out) := by
  have hLess := hBody.less
  have hLe := h.le
  have hSome : Line.IsLively (entry :: inside ++ tape) = true := by
    have hInside := Line.isLively_iff.1 hBody.lively
    obtain ⟨other, hOther, hPresent⟩ := hInside
    exact Line.isLively_iff.2 ⟨other, by simp [hOther], hPresent⟩
  refine ⟨by omega, fun _ => hSome, fun read limit steady V hFresh hLimit hAt => ?_⟩
  have hKey : entry.1.index ≤ limit := by
    rw [← hTag.rank_next]
    exact (layout.rank_mono path (by omega)).trans hLimit
  have hOpened := hAt.tag hTag hAbsent rfl hKey hFresh
  have hFresh' : Line.FreshStarts (read ++ [entry] ++ inside ++ tape) := by simpa using hFresh
  obtain ⟨W, hEnd, hBuilds, hFill, hUnrolled⟩ := hBody.builds (read ++ [entry]) limit steady _
    entry.1.index hTag ⟨entry, by simp, hAbsent, rfl⟩ hFresh'.of_append
    ((layout.rank_mono path (by omega)).trans hLimit) hOpened
  obtain ⟨W', hEnd', hBuilds', -, -⟩ := h.builds _ limit true _ hFresh' hLimit hEnd
  refine ⟨layout.bypass (path ++ [index]) entry.1.index ++ (W ++ W'), ?_, ?_, .inl ?_, fun _ => ?_⟩
  · rw [hSome]
    simpa using hEnd'
  · have hOpening := Assembles.bare hTag.not_carries hTag.bare_bypass front
    have hPasses := hBuilds.append hBuilds' (by omega) hLe
    exact hOpening.append (by simpa using hPasses) (Nat.le_succ index) (by omega)
  · simp [hUnrolled]
  · simp [hFill]

end BuildsChildren

namespace BuildsPasses

theorem last {pass : Line} (hLess : opening < closing)
    (hTag : layout.IsTag (path ++ [closing]) entry.1.index) (hAbsent : ¬ Line.IsPresent entry)
    (hSome : ∃ entry ∈ pass, Line.IsPresent entry)
    (hBody : layout.BuildsChildren path (opening + 1) closing front pass out) :
    layout.BuildsPasses path opening closing front (pass ++ [entry]) out := by
  have hSome := Line.isLively_iff.2 hSome
  refine ⟨hLess, by simp [hSome], fun read limit steady V head _ _ hFresh hLimit hAt => ?_⟩
  rw [← List.append_assoc] at hFresh
  obtain ⟨W, hEnd, hBuilds, hOut, hLively⟩ :=
    hBody.builds read limit steady V hFresh.of_append hLimit hAt
  have hFill := hLively hSome
  have hOut := nonempty_of_hasFill hOut hFill
  rw [hSome, Bool.or_true] at hEnd
  have hClosed := (hEnd.relax entry.1.index true).tag hTag hAbsent rfl (Nat.le_refl _) hFresh
  refine ⟨W ++ layout.bypass (path ++ [closing]) entry.1.index, ?_, ?_, by simp [hFill], hOut⟩
  · simpa using hClosed.relax limit true
  · have hJunk := Assembles.bare hTag.not_carries hTag.bare_bypass (front ++ out)
    simpa using hBuilds.append hJunk hBody.le (Nat.le_succ closing)

theorem again {pass : Line} (hLess : opening < closing)
    (hTag : layout.IsTag (path ++ [closing]) entry.1.index) (hAbsent : ¬ Line.IsPresent entry)
    (hSome : ∃ entry ∈ pass, Line.IsPresent entry)
    (hBody : layout.BuildsChildren path (opening + 1) closing front pass out)
    (h : layout.BuildsPasses path opening closing (front ++ out) tape more) :
    layout.BuildsPasses path opening closing front (pass ++ entry :: tape) (out ++ more) := by
  have hSome := Line.isLively_iff.2 hSome
  refine ⟨hLess, by simp [hSome], fun read limit steady V head hHead hDropped hFresh hLimit hAt => ?_⟩
  have hFresh : Line.FreshStarts (read ++ pass ++ [entry] ++ tape) := by simpa using hFresh
  obtain ⟨W, hEnd, hBuilds, hOut, hLively⟩ :=
    hBody.builds read limit steady V hFresh.of_append.of_append hLimit hAt
  have hFill := hLively hSome
  have hOut := nonempty_of_hasFill hOut hFill
  rw [hSome, Bool.or_true] at hEnd
  have hTurned := hEnd.turn hHead hTag hLess
    (hDropped.imp fun tag hDropped => ⟨by simp [hDropped.1], hDropped.2⟩) hAbsent rfl
  obtain ⟨W', hEnd', hBuilds', -, -⟩ := h.builds _ (entry.1.index - 1) false _ head hHead
    (hDropped.imp fun tag hDropped => ⟨by simp [hDropped.1], hDropped.2⟩) hFresh
    (Nat.le_of_eq hTag.rank_eq) hTurned
  refine ⟨W ++ (layout.lining (path ++ [closing]) entry.1.index).map
    (.clone (layout.floor entry.1.index)) ++ .back path.length :: W', ?_, ?_, by simp [hFill],
    by simp [hOut]⟩
  · simpa using hEnd'.relax limit true
  · have hJunk := Assembles.bare hTag.not_carries hTag.bare_lining (front ++ out)
    have hPass := hBuilds.append hJunk hBody.le (Nat.le_succ closing)
    rw [List.append_nil] at hPass
    refine hPass.append_back hBuilds' ?_
    intro hNil
    rw [List.append_eq_nil_iff.1 hNil |>.1] at hFill
    cases hFill

end BuildsPasses

/-- Every run through a part of a document builds what the tape leaves behind. -/
theorem Unrolls.builds {region : Region} (h : layout.Unrolls line region front tape out) :
    layout.Builds region front tape out := by
  induction h with
  | nil => exact .nil layout _ _ _
  | clone hOff rest hRest => exact hRest.clone hOff
  | leaf hLeaf hEntries rest hRest => exact hRest.leaf hLeaf hEntries
  | inner hInner body rest hBody hRest => exact .inner hInner hBody hRest
  | loop hTag hAbsent body rest hBody hRest => exact .loop hTag hAbsent hBody hRest
  | last hLess hTag hAbsent hSome body hBody => exact .last hLess hTag hAbsent hSome hBody
  | again hLess hTag hAbsent hSome body hStart later hBody hLater =>
    exact .again hLess hTag hAbsent hSome hBody hLater

/-! ### The order of the entries -/

/-- The number of leaves in front of a part of a document. -/
def low (layout : Layout) : Region → Nat
  | .children path start _ => layout.rank (path ++ [start])
  | .passes path opening _ => layout.rank (path ++ [opening + 1])

/-- The number of leaves up to the end of a part of a document. -/
def high (layout : Layout) : Region → Nat
  | .children path _ stop => layout.rank (path ++ [stop])
  | .passes path _ closing => layout.rank (path ++ [closing + 1])

/-- The entry of a tag is the only one of its leaf. -/
theorem IsTag.tours (h : layout.IsTag (path ++ [index]) entry.1.index) (line : Line) :
    line.Tours (layout.rank (path ++ [index])) (layout.rank (path ++ [index + 1])) [entry] := by
  have hPos := h.pos
  refine ⟨fun other hOther => ?_, List.isChain_singleton entry⟩
  rw [List.mem_singleton.1 hOther, h.rank_eq, h.rank_next]
  omega

/-- A tape goes through the leaves of its part, and back only to begin a pass. -/
theorem Unrolls.tours {region : Region} (h : layout.Unrolls line region front tape out) :
    line.Tours (layout.low region) (layout.high region) tape := by
  induction h with
  | nil => exact .nil
  | @clone path index stop _ _ _ hOff rest ih =>
    exact ih.mono (layout.rank_mono path (Nat.le_succ index)) (Nat.le_refl _)
  | @leaf path index stop key _ _ entries _ hLeaf hEntries rest ih =>
    obtain ⟨hPos, hCount, hPath⟩ := leaf?_mem hLeaf
    have hEnds : layout.EndsAt (path ++ [index]) key := hPath ▸ EndsAt.leaf hPos hCount
    have hRank := hEnds.rank_eq
    have hNext := hEnds.rank_next
    have hHere : line.Tours (layout.rank (path ++ [index])) (layout.rank (path ++ [index + 1]))
        entries := by
      refine .of_forward (fun entry hEntry => ?_) hEntries.forward
      rw [hEntries.index entry hEntry]
      omega
    exact hHere.append ih (layout.rank_mono path (Nat.le_succ index))
      (layout.rank_mono path rest.builds.le)
  | @inner path index stop _ _ _ inside _ hInner body rest hBody ih =>
    have hHere : line.Tours (layout.rank (path ++ [index])) (layout.rank (path ++ [index + 1]))
        inside := by
      rw [← (layout.trail_first 0 (path ++ [index])).1, ← (trail_end hInner 0).1]
      exact hBody
    exact hHere.append ih (layout.rank_mono path (Nat.le_succ index))
      (layout.rank_mono path rest.builds.le)
  | @loop path index closing stop _ _ _ entry inside _ hTag hAbsent body rest hBody ih =>
    have hLess : index < closing := body.builds.less
    have hLoop := (hTag.tours line).append hBody (layout.rank_mono path (Nat.le_succ index))
      (layout.rank_mono path (by omega))
    exact hLoop.append ih (layout.rank_mono path (by omega)) (layout.rank_mono path rest.builds.le)
  | @last path opening closing _ _ entry pass hLess hTag hAbsent hSome body ih =>
    exact ih.append (hTag.tours line) (layout.rank_mono path hLess)
      (layout.rank_mono path (Nat.le_succ closing))
  | @again path opening closing _ _ _ entry pass tape hLess hTag hAbsent hSome body hStart later
      hBody ih =>
    -- only the next pass goes back
    have hPass := hBody.append (hTag.tours line) (layout.rank_mono path hLess)
      (layout.rank_mono path (Nat.le_succ closing))
    have hTape := hPass.append_of_heads ih hStart
    rwa [List.append_assoc] at hTape

/-- What a tape leaves behind of a whole document is what a run builds. -/
theorem Unrolls.assemble_itinerary
    (h : layout.Unrolls line (.children [] 0 (layout.root.degree [])) [] tape out)
    (hTape : Line.PointsInto tape line) :
    layout.assemble (layout.itinerary tape) = { layout.root with children := out } := by
  have hBuilds : layout.BuildsChildren [] 0 (layout.root.degree []) [] tape out := h.builds
  obtain ⟨W, hEnd, hAssembles, hOut, -⟩ := hBuilds.builds [] layout.count true []
    (h.tours.freshStarts hTape) (layout.rank_le _) (At.begins layout _)
  have hItinerary : layout.itinerary tape = W := by
    simpa using hEnd.finish
  rw [hItinerary, hAssembles.assemble hOut]

end Layout

/-- A tape that goes through a document, with as many passes of each loop as it
likes, rebuilds what it leaves behind. -/
theorem enforce_unrolls {format : Format} {root : Element} {content : Content} {line tape : Line}
    {out : List Element} (h : flatten format root = .ok (content, line))
    (hTape : Line.PointsInto tape line)
    (hUnrolls : (Layout.ofLine h).Unrolls line (.children [] 0 root.children.length) [] tape out) :
    ∃ boundaries, Boundaries.ofLine root line = .ok boundaries ∧
      enforce root tape boundaries format = .ok { root with children := out } := by
  obtain ⟨boundaries, hBoundaries, hEnforce⟩ := Layout.enforce_ofLine h hTape
  refine ⟨boundaries, hBoundaries, ?_⟩
  rw [hEnforce, hUnrolls.assemble_itinerary hTape]
  rfl

namespace Odt

/-- An element of a text document. -/
def element (localPart : String) (text : Option String) (children : List Element) : Element :=
  ⟨"text:" ++ localPart, Element.expanded textNamespace localPart, [], text, none, children⟩

/-- A loop over rows around a loop over the cells of a row, and page breaks that
hold no text. -/
def rows : Element :=
  element "section" none
    [element "p" (some "\x7b% for row in rows %\x7d") [],
      element "p" (some "\x7b% for cell in row %\x7d") [],
      element "soft-page-break" none [],
      element "p" (some "\x7b\x7b cell \x7d\x7d\x7b\x7b mark \x7d\x7d") [],
      element "p" (some "\x7b% endfor %\x7d") [],
      element "soft-page-break" none [],
      element "p" (some "\x7b% endfor %\x7d") []]

def rowsLine : Line :=
  [(⟨[0], false, 21, 0, 21, 1⟩, "\x7b% for row in rows %\x7d"),
    (⟨[1], false, 21, 0, 21, 2⟩, "\x7b% for cell in row %\x7d"),
    (⟨[3], false, 20, 0, 10, 3⟩, "\x7b\x7b cell \x7d\x7d"),
    (⟨[3], false, 20, 10, 10, 3⟩, "\x7b\x7b mark \x7d\x7d"),
    (⟨[4], false, 12, 0, 12, 4⟩, "\x7b% endfor %\x7d"),
    (⟨[6], false, 12, 0, 12, 5⟩, "\x7b% endfor %\x7d")]

theorem flatten_rows : flatten .odt rows = .ok (.template, rowsLine) := by decide +kernel

/-- The entry of a tag, which is dropped. -/
def tag (path total index : Nat) : Pointer × String :=
  (⟨[path], false, total, 0, total, index⟩, "")

/-- The entries of a cell and its mark. -/
def cell (content mark : String) : Line :=
  [(⟨[3], false, 20, 0, 10, 3⟩, content), (⟨[3], false, 20, 10, 10, 3⟩, mark)]

/-- A row of two cells and a row of one. -/
def rowsTape : Line :=
  [tag 0 21 1, tag 1 21 2] ++ cell "a" "" ++ [tag 4 12 4] ++ cell "" "b" ++
    [tag 4 12 4, tag 6 12 5, tag 1 21 2] ++ cell "c" "d" ++ [tag 4 12 4, tag 6 12 5]

def rowsOut : List Element :=
  let pageBreak := element "soft-page-break" none []
  [pageBreak, element "p" (some "a") [], pageBreak, element "p" (some "b") [], pageBreak,
    pageBreak, element "p" (some "cd") [], pageBreak]

end Odt

/-- A pass over a cell, with the page break in front of it. -/
private theorem Odt.unrolls_cell (front : List Element) {entries : Line}
    (hCovers : entries.Covers 3) :
    (Layout.ofLine Odt.flatten_rows).Unrolls Odt.rowsLine (.children [] 2 4) front entries
      (Odt.element "soft-page-break" none [] ::
        (Layout.ofLine Odt.flatten_rows).written (front ++ [Odt.element "soft-page-break" none []])
          [3] entries.text?) := by
  have hBreak : (Layout.ofLine Odt.flatten_rows).OffPath ([] ++ [2]) := by decide +kernel
  have hLeaf : (Layout.ofLine Odt.flatten_rows).leaf? 3 = some ([] ++ [3]) := by decide +kernel
  have hPass : (Layout.ofLine Odt.flatten_rows).Unrolls Odt.rowsLine (.children [] 2 4) front
      (entries ++ []) (_ :: (_ ++ [])) :=
    .clone hBreak (.leaf hLeaf hCovers .nil)
  rw [List.append_nil, List.append_nil] at hPass
  exact hPass

theorem enforce_unrolls_rows :
    ∃ h : flatten .odt Odt.rows = .ok (.template, Odt.rowsLine),
      Line.PointsInto Odt.rowsTape Odt.rowsLine ∧
      (Layout.ofLine h).Unrolls Odt.rowsLine (.children [] 0 Odt.rows.children.length) []
        Odt.rowsTape Odt.rowsOut ∧
      ∃ boundaries, Boundaries.ofLine Odt.rows Odt.rowsLine = .ok boundaries ∧
        enforce Odt.rows Odt.rowsTape boundaries .odt =
          .ok { Odt.rows with children := Odt.rowsOut } := by
  have hTape : Line.PointsInto Odt.rowsTape Odt.rowsLine := by decide
  have hRow : (Layout.ofLine Odt.flatten_rows).IsTag ([] ++ [0]) (Odt.tag 0 21 1).1.index := by
    decide +kernel
  have hCell : (Layout.ofLine Odt.flatten_rows).IsTag ([] ++ [1]) (Odt.tag 1 21 2).1.index := by
    decide +kernel
  have hCellEnd : (Layout.ofLine Odt.flatten_rows).IsTag ([] ++ [4]) (Odt.tag 4 12 4).1.index := by
    decide +kernel
  have hRowEnd : (Layout.ofLine Odt.flatten_rows).IsTag ([] ++ [6]) (Odt.tag 6 12 5).1.index := by
    decide +kernel
  have hBreak : (Layout.ofLine Odt.flatten_rows).OffPath ([] ++ [5]) := by decide +kernel
  -- the first row has two cells, the second one
  have hRun : (Layout.ofLine Odt.flatten_rows).Unrolls Odt.rowsLine (.children [] 0 7) []
      (Odt.tag 0 21 1 ::
        ((Odt.tag 1 21 2 :: (Odt.cell "a" "" ++ Odt.tag 4 12 4 ::
          (Odt.cell "" "b" ++ [Odt.tag 4 12 4])) ++ []) ++ Odt.tag 6 12 5 ::
        ((Odt.tag 1 21 2 :: (Odt.cell "c" "d" ++ [Odt.tag 4 12 4]) ++ []) ++
          [Odt.tag 6 12 5])) ++ []) _ :=
    .loop hRow (by decide)
      (.again (by decide) hRowEnd (by decide) (by decide)
        (.loop hCell (by decide)
          (.again (by decide) hCellEnd (by decide) (by decide) (Odt.unrolls_cell _ (by decide))
            (by decide) (.last (by decide) hCellEnd (by decide) (by decide)
              (Odt.unrolls_cell _ (by decide))))
          (.clone hBreak .nil))
        (by decide) (.last (by decide) hRowEnd (by decide) (by decide)
          (.loop hCell (by decide)
            (.last (by decide) hCellEnd (by decide) (by decide)
              (Odt.unrolls_cell _ (by decide)))
            (.clone hBreak .nil))))
      .nil
  have hUnrolls : (Layout.ofLine Odt.flatten_rows).Unrolls Odt.rowsLine
      (.children [] 0 Odt.rows.children.length) [] Odt.rowsTape Odt.rowsOut := by
    refine (congrArg ((Layout.ofLine Odt.flatten_rows).Unrolls Odt.rowsLine (.children [] 0 7) []
      Odt.rowsTape) ?_).mp hRun
    decide +kernel
  exact ⟨Odt.flatten_rows, hTape, hUnrolls, enforce_unrolls Odt.flatten_rows hTape hUnrolls⟩

end Infill
