import Infill.Proofs.Unrolling

/-!
Documents without loops. A tape that goes forward and has an entry for every
leaf leaves the document as it is but for the texts of the leaves.
-/
namespace Infill

open Infill.Xml

namespace Format

variable {format : Format} {texts : Path → Option (List String)}

mutual

/-- What takes the place of the element at a path behind `front`, when some
elements of the tree are written with new texts. -/
def refilled (format : Format) (texts : Path → Option (List String)) (parent : Element)
    (path : Path) (front : List Element) : Element → List Element
  | ⟨name, tag, attributes, text, tail, children⟩ =>
    match texts path with
    | some chunks =>
      format.written parent front ⟨name, tag, attributes, text, tail, children⟩ chunks
    | none =>
      [⟨name, tag, attributes, text, tail,
        refilledList format texts ⟨name, tag, attributes, text, tail, children⟩ path 0 [] children⟩]

/-- What takes the place of children of the element at a path from `index` on. -/
def refilledList (format : Format) (texts : Path → Option (List String)) (parent : Element)
    (path : Path) (index : Nat) (front : List Element) : List Element → List Element
  | [] => []
  | e :: rest =>
    let here := refilled format texts parent (path ++ [index]) front e
    here ++ refilledList format texts parent path (index + 1) (front ++ here) rest

end

/-- A tree in which some elements below the root are written with new texts. -/
def refill (format : Format) (texts : Path → Option (List String)) (root : Element) : Element :=
  { root with children := format.refilledList texts root [] 0 [] root.children }

mutual

theorem refilled_of_none {path : Path} (h : ∀ p, path <+: p → texts p = none) (parent : Element)
    (front : List Element) : (e : Element) → format.refilled texts parent path front e = [e]
  | ⟨name, tag, attributes, text, tail, children⟩ => by
    rw [refilled, h path List.prefix_rfl]
    simp only
    rw [refilledList_of_none (fun k p hp => h p ((List.prefix_append _ _).trans hp))]

theorem refilledList_of_none {path : Path} (h : ∀ k p, path ++ [k] <+: p → texts p = none) {parent : Element}
    {index : Nat} {front : List Element} : (elements : List Element) →
    format.refilledList texts parent path index front elements = elements
  | [] => rfl
  | e :: rest => by
    rw [refilledList, refilled_of_none (h index) parent front e, refilledList_of_none h rest]
    rfl

end

theorem refill_of_none (h : ∀ path, texts path = none) (root : Element) :
    format.refill texts root = root := by
  cases root with
  | mk name tag attributes text tail children =>
    rw [refill, refilledList_of_none fun _ p _ => h p]

end Format

namespace Line

/-- The entries of the leaves behind `low` up to `high`. -/
def between (line : Line) (low high : Nat) : Line :=
  line.filter fun entry => low < entry.1.index ∧ entry.1.index ≤ high

/-- A line that goes forward falls apart at every leaf. -/
theorem between_append {line : Line} (hLine : IsForward line) {low middle high : Nat}
    (hLow : low ≤ middle) (hHigh : middle ≤ high) :
    line.between low middle ++ line.between middle high = line.between low high := by
  induction line with
  | nil => rfl
  | cons entry line ih =>
    have hSplit := ih (List.pairwise_cons.1 hLine).2
    have hLater := hLine.le_index
    rw [between, between, between] at hSplit ⊢
    by_cases hMiddle : entry.1.index ≤ middle
    · rw [List.filter_cons, List.filter_cons_of_neg (by simp; omega), List.filter_cons, ← hSplit]
      by_cases hBelow : low < entry.1.index
      · simp [hBelow, hMiddle, hMiddle.trans hHigh]
      · simp [hBelow]
    · -- nothing of the first part is left
      have hNone : (entry :: line).filter
          (fun other => low < other.1.index ∧ other.1.index ≤ middle) = [] := by
        refine List.filter_eq_nil_iff.2 fun other hOther => ?_
        rcases List.mem_cons.1 hOther with rfl | hOther
        · simp; omega
        · have := hLater other hOther
          simp; omega
      rw [hNone, List.nil_append]
      refine List.filter_congr fun other hOther => decide_eq_decide.2 ?_
      rcases List.mem_cons.1 hOther with rfl | hOther
      · omega
      · have := hLater other hOther
        omega

theorem between_self (line : Line) (index : Nat) : line.between index index = [] := by
  refine List.filter_eq_nil_iff.2 fun entry _ => ?_
  simp

/-- The text of the leaf at a path, if it is written anew. -/
def textAt (line : Line) (path : Path) : Option (List String) :=
  text? (line.filter fun entry => entry.1.path = path)

theorem textAt_of_constant {line : Line} (h : ∀ entry ∈ line, entry.1.isConstant = true)
    (path : Path) : line.textAt path = none := by
  rw [textAt, text?, if_neg]
  rw [collected, List.any_eq_true]
  rintro ⟨entry, hEntry, hChanges⟩
  have hMem := List.mem_of_mem_filter (List.mem_of_mem_filter hEntry)
  rw [h entry hMem] at hChanges
  cases hChanges

end Line

namespace Layout

variable {layout : Layout} {tape : Line}

/-- Whether a tape goes forward through a laid out document and has a present
entry for every leaf. -/
structure Sweeps (layout : Layout) (tape : Line) : Prop where
  forward : Line.IsForward tape
  opens : ∀ key, 1 ≤ key → key ≤ layout.count → Line.Opens tape key
  places : ∀ entry ∈ tape, 1 ≤ entry.1.index ∧ entry.1.index ≤ layout.count ∧
    layout.path entry.1.index = entry.1.path

namespace Sweeps

variable {path : Path} {index stop key : Nat} {front out : List Element} {back : Line}

/-- The entries of one leaf. -/
theorem covers (h : layout.Sweeps tape) (hPos : 1 ≤ key) (hCount : key ≤ layout.count) :
    Line.Covers key (tape.between (key - 1) key) := by
  refine ⟨fun entry hEntry => ?_, h.forward.filter _, ?_⟩
  · have := (List.mem_filter.1 hEntry).2
    simp at this
    omega
  · obtain ⟨entry, hEntry, hPresent, hIndex⟩ := h.opens key hPos hCount
    exact ⟨entry, List.mem_filter.2 ⟨hEntry, by simp; omega⟩, hPresent⟩

/-- The entries of a leaf are those with its path. -/
theorem textAt_path (h : layout.Sweeps tape) (hPos : 1 ≤ key) (hCount : key ≤ layout.count) :
    tape.textAt (layout.path key) = (tape.between (key - 1) key).text? := by
  rw [Line.textAt, Line.between]
  congr 1
  refine List.filter_congr fun entry hEntry => decide_eq_decide.2 ?_
  obtain ⟨hEntryPos, hEntryCount, hPath⟩ := h.places entry hEntry
  constructor
  · intro hSame
    have hIndex : entry.1.index = key := by
      rcases Nat.lt_trichotomy entry.1.index key with hLess | hEq | hLess
      · have hBefore := path_before hEntryPos hLess hCount
        rw [hPath, hSame] at hBefore
        exact absurd hBefore (Path.before_irrefl _)
      · exact hEq
      · have hBefore := path_before hPos hLess hEntryCount
        rw [hPath, hSame] at hBefore
        exact absurd hBefore (Path.before_irrefl _)
    omega
  · intro hIndex
    rw [← hPath, show entry.1.index = key by omega]

/-- No other element is written. -/
theorem textAt_eq_none (h : layout.Sweeps tape) (hPath : path ∉ layout.leaves) :
    tape.textAt path = none := by
  have hNone : tape.filter (fun entry => entry.1.path = path) = [] := by
    refine List.filter_eq_nil_iff.2 fun entry hEntry hSame => hPath ?_
    obtain ⟨hPos, hCount, hLeaf⟩ := h.places entry hEntry
    have hSame : entry.1.path = path := by simpa using hSame
    rw [← hSame, ← hLeaf]
    exact path_mem hPos hCount
  rw [Line.textAt, hNone]
  rfl

/-- A leaf is written as its entries say. -/
theorem refilled_leaf (h : layout.Sweeps tape) (hPos : 1 ≤ key) (hCount : key ≤ layout.count)
    (hPath : layout.path key = path ++ [index]) (front : List Element) :
    layout.format.refilled tape.textAt (layout.root.descendant path) (path ++ [index]) front
        (layout.root.descendant (path ++ [index])) =
      layout.written front (path ++ [index]) (tape.between (key - 1) key).text? := by
  rw [← h.textAt_path hPos hCount, hPath]
  cases hText : tape.textAt (path ++ [index]) with
  | some chunks =>
    rw [written, List.dropLast_concat]
    cases layout.root.descendant (path ++ [index]) with
    | mk name tag attributes text tail children => rw [Format.refilled, hText]
  | none =>
    rw [Format.refilled_of_none, written]
    intro p hInside
    by_cases hLeaf : p ∈ layout.leaves
    · have hMem := path_mem hPos hCount
      rw [hPath] at hMem
      rw [← eq_of_inside hMem hLeaf hInside, hText]
    · exact h.textAt_eq_none hLeaf

mutual

/-- The tape goes through one child. -/
theorem unrolls_child (h : layout.Sweeps tape) {line : Line} {path : Path} {index stop : Nat}
    {front out : List Element} {back : Line} : (e : Element) →
    layout.root.descendant? (path ++ [index]) = some e →
    (path = [] ∨ ∃ leaf ∈ layout.leaves, path <+: leaf ∧ path ≠ leaf) →
    layout.Unrolls line (.children path (index + 1) stop)
      (front ++ layout.format.refilled tape.textAt (layout.root.descendant path)
        (path ++ [index]) front e) back out →
    layout.Unrolls line (.children path index stop) front
      (tape.between (layout.rank (path ++ [index])) (layout.rank (path ++ [index + 1])) ++ back)
      (layout.format.refilled tape.textAt (layout.root.descendant path) (path ++ [index]) front e
        ++ out)
  | ⟨name, tag, attributes, text, tail, children⟩, hFound, hAttached, hRest => by
    have hReaches : layout.root.Reaches (path ++ [index]) := by rw [Element.Reaches, hFound]; rfl
    have hHere : layout.root.descendant (path ++ [index]) =
        ⟨name, tag, attributes, text, tail, children⟩ := by
      rw [Element.descendant, hFound, Option.getD_some]
    by_cases hLeaf : path ++ [index] ∈ layout.leaves
    · obtain ⟨key, hPos, hCount, hPath⟩ := exists_path_eq hLeaf
      have hEnds : layout.EndsAt (path ++ [index]) key := hPath ▸ EndsAt.leaf hPos hCount
      rw [← hHere, h.refilled_leaf hPos hCount hPath] at hRest ⊢
      rw [hEnds.rank_eq, hEnds.rank_next]
      exact .leaf (hPath ▸ leaf?_eq_path hPos hCount) (h.covers hPos hCount) hRest
    · by_cases hInner : ∃ leaf ∈ layout.leaves, path ++ [index] <+: leaf
      · obtain ⟨leaf, hMem, hInside⟩ := hInner
        have hInner : ∃ leaf ∈ layout.leaves, path ++ [index] <+: leaf ∧ path ++ [index] ≠ leaf :=
          ⟨leaf, hMem, hInside, fun hSame => hLeaf (hSame ▸ hMem)⟩
        have hKids : layout.Unrolls line
            (.children (path ++ [index]) 0 (layout.root.degree (path ++ [index]))) []
            (tape.between (layout.rank (path ++ [index] ++ [0]))
              (layout.rank (path ++ [index] ++ [layout.root.degree (path ++ [index])])))
            (layout.format.refilledList tape.textAt (layout.root.descendant (path ++ [index]))
              (path ++ [index]) 0 [] children) := by
          refine unrolls_children h children (fun k child hChild => ?_) ?_ (.inr hInner)
          · rw [Element.descendant?_append, hFound]
            simpa [Element.descendant?] using hChild
          · rw [Nat.zero_add, Element.degree, hHere]
        rw [(layout.trail_first 0 (path ++ [index])).1, (trail_end hInner 0).1] at hKids
        rw [Format.refilled, h.textAt_eq_none hLeaf] at hRest ⊢
        simp only [← hHere] at hRest ⊢
        have hSame : ∀ kids, (⟨name, tag, attributes, text, tail, kids⟩ : Element) =
            { layout.root.descendant (path ++ [index]) with children := kids } := by
          intro kids
          rw [hHere]
        rw [hSame] at hRest ⊢
        exact .inner hInner hKids hRest
      · have hOff : layout.OffPath (path ++ [index]) :=
          ⟨hReaches, fun leaf hMem hInside => hInner ⟨leaf, hMem, hInside⟩, path, index, rfl, hAttached⟩
        have hNone : ∀ p, path ++ [index] <+: p → tape.textAt p = none :=
          fun p hInside => h.textAt_eq_none fun hMem => hInner ⟨p, hMem, hInside⟩
        rw [Format.refilled_of_none hNone, ← hHere] at hRest ⊢
        rw [(trail_offPath hOff 0).1, Line.between_self]
        exact .clone hOff hRest

/-- The tape goes through the children of an element. -/
theorem unrolls_children (h : layout.Sweeps tape) {line : Line} {path : Path} {index : Nat}
    {front : List Element} : (elements : List Element) →
    (∀ k e, elements[k]? = some e → layout.root.descendant? (path ++ [index + k]) = some e) →
    index + elements.length = layout.root.degree path →
    (path = [] ∨ ∃ leaf ∈ layout.leaves, path <+: leaf ∧ path ≠ leaf) →
    layout.Unrolls line (.children path index (layout.root.degree path)) front
      (tape.between (layout.rank (path ++ [index]))
        (layout.rank (path ++ [layout.root.degree path])))
      (layout.format.refilledList tape.textAt (layout.root.descendant path) path index front
        elements)
  | [], _, hLength, _ => by
    rw [List.length_nil, Nat.add_zero] at hLength
    rw [← hLength, Line.between_self]
    exact .nil
  | e :: rest, hElements, hLength, hAttached => by
    rw [List.length_cons] at hLength
    rw [Format.refilledList, ← Line.between_append h.forward
      (layout.rank_mono path (Nat.le_succ index)) (layout.rank_mono path (by omega))]
    refine unrolls_child h e (hElements 0 e rfl) hAttached
      (unrolls_children h rest (fun k child hChild => ?_) (by omega) hAttached)
    rw [Nat.add_assoc, Nat.add_comm 1 k]
    exact hElements (k + 1) child hChild

end

end Sweeps

end Layout

/-- A tape that goes forward and has a present entry for every leaf puts new texts
into the document and leaves the rest as it is. -/
theorem enforce_forward {format : Format} {root : Element} {content : Content} {line tape : Line}
    (h : flatten format root = .ok (content, line)) (hTape : Line.PointsInto tape line)
    (hForward : Line.IsForward tape)
    (hOpens : ∀ entry ∈ line, Line.Opens tape entry.1.index) :
    ∃ boundaries, Boundaries.ofLine root line = .ok boundaries ∧
      enforce root tape boundaries format = .ok (format.refill tape.textAt root) ∧
      ((∀ entry ∈ tape, entry.1.isConstant = true) →
        enforce root tape boundaries format = .ok root) := by
  have hSweeps : (Layout.ofLine h).Sweeps tape := by
    refine ⟨hForward, fun key hPos hCount => ?_, fun entry hEntry => ?_⟩
    · obtain ⟨entry, hEntry, rfl⟩ := Layout.exists_mem_ofLine h hPos hCount
      exact hOpens entry hEntry
    · obtain ⟨source, hSource, hSame⟩ := List.mem_map.1 (hTape entry hEntry)
      rw [← hSame]
      exact Layout.mem_ofLine h hSource
  have hUnrolls : (Layout.ofLine h).Unrolls line (.children [] 0 root.children.length) []
      (tape.between ((Layout.ofLine h).rank ([] ++ [0]))
        ((Layout.ofLine h).rank ([] ++ [(Layout.ofLine h).root.degree []])))
      (format.refilledList tape.textAt root [] 0 [] root.children) :=
    hSweeps.unrolls_children root.children
      (fun k e hChild => by simpa [Element.descendant?] using hChild) (Nat.zero_add _) (.inl rfl)
  have hAll : tape.between ((Layout.ofLine h).rank ([] ++ [0]))
      ((Layout.ofLine h).rank ([] ++ [(Layout.ofLine h).root.degree []])) = tape := by
    rw [((Layout.ofLine h).trail_first 0 []).1, Layout.rank_nil, Layout.rank_end]
    refine List.filter_eq_self.2 fun entry hEntry => ?_
    obtain ⟨hPos, hCount, -⟩ := hSweeps.places entry hEntry
    exact decide_eq_true ⟨hPos, hCount⟩
  rw [hAll] at hUnrolls
  obtain ⟨boundaries, hBoundaries, hEnforce⟩ := Layout.enforce_ofLine h hTape
  rw [hUnrolls.assemble_itinerary hTape] at hEnforce
  refine ⟨boundaries, hBoundaries, hEnforce, fun hConstant => hEnforce.trans ?_⟩
  exact congrArg Except.ok
    (Format.refill_of_none (fun path => Line.textAt_of_constant hConstant path) root)

/-- The letter with its text. -/
def Docx.letterFilled : Element :=
  element "body" none
    [element "p" none
      [element "pPr" none [], element "r" none [element "t" (some "Dear Ada") []],
        element "drawing" none []],
      element "sectPr" none []]

theorem enforce_forward_letter :
    flatten .docx Docx.letter = .ok (.template, Docx.letterLine) ∧
      Line.PointsInto Docx.letterTape Docx.letterLine ∧ Line.IsForward Docx.letterTape ∧
      (∀ entry ∈ Docx.letterLine, Line.Opens Docx.letterTape entry.1.index) ∧
      ∃ boundaries, Boundaries.ofLine Docx.letter Docx.letterLine = .ok boundaries ∧
        enforce Docx.letter Docx.letterTape boundaries .docx = .ok Docx.letterFilled := by
  have hTape : Line.PointsInto Docx.letterTape Docx.letterLine := by decide
  have hForward : Line.IsForward Docx.letterTape := by decide
  have hOpens : ∀ entry ∈ Docx.letterLine, Line.Opens Docx.letterTape entry.1.index := by decide
  have hRefill : Format.docx.refill (Line.textAt Docx.letterTape) Docx.letter =
      Docx.letterFilled := by
    decide +kernel
  obtain ⟨boundaries, hBoundaries, hEnforce, -⟩ :=
    enforce_forward Docx.flatten_letter hTape hForward hOpens
  exact ⟨Docx.flatten_letter, hTape, hForward, hOpens, boundaries, hBoundaries, hRefill ▸ hEnforce⟩

end Infill
