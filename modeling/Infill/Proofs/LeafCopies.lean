import Infill.Proofs.Batches
import Infill.Proofs.KeptPieces
import Infill.Proofs.Unrolling

/-!
Where the copied leaves stand in a finished document. A run copies one leaf for
every batch of its line. None of the copies is lost, they stand in the document
in the order of the batches, and each holds what the format writes for its
batch.
-/
namespace Infill

open Infill.Xml
open Infill.Path (Before Spread)

/-- The copy of a leaf in a document. -/
structure Landing where
  /-- The element that it stands in. -/
  parent : Path
  /-- The index of its first element among the children there. -/
  index : Nat
  /-- The pieces in front of it there, apart from those that may be taken out. -/
  front : List Copy
  /-- The leaf. -/
  source : Path
  /-- What took its place. -/
  elements : List Element
  deriving Inhabited

namespace Landing

/-- The places of the elements. -/
def places (landing : Landing) : List Path :=
  (List.range' landing.index landing.elements.length).map fun index => landing.parent ++ [index]

/-- A landing as a piece of the document. -/
def grain (landing : Landing) : Grain :=
  ⟨landing.front, .leaf landing.source landing.elements⟩

end Landing

namespace Copy

variable (root : Element)

mutual

/-- The copied leaves in a piece that is the child `index` at `place`, behind
`front`. -/
def landings (place : Path) (index : Nat) (front : List Copy) : Copy → List Landing
  | clone _ => []
  | leaf source elements => [⟨place, index, lasting front, source, elements⟩]
  | shell _ _ copies => landingsOf (place ++ [index]) 0 [] copies

/-- The same for pieces that are children at `place` from `index` on. -/
def landingsOf (place : Path) (index : Nat) (front : List Copy) : List Copy → List Landing
  | [] => []
  | copy :: rest =>
    landings place index front copy ++
      landingsOf place (index + (copy.elements root).length) (front ++ [copy]) rest

end

mutual

theorem map_grain_landings (place : Path) (index : Nat) (front : List Copy) : (copy : Copy) →
    (landings root place index front copy).map Landing.grain =
      (grains front copy).filter (·.piece.leaf?.isSome)
  | clone _ => rfl
  | leaf .. => rfl
  | shell _ _ copies => map_grain_landingsOf (place ++ [index]) 0 [] copies

theorem map_grain_landingsOf (place : Path) (index : Nat) (front : List Copy) :
    (copies : List Copy) → (landingsOf root place index front copies).map Landing.grain =
      (grainsOf front copies).filter (·.piece.leaf?.isSome)
  | [] => rfl
  | copy :: rest => by
    rw [landingsOf, List.map_append, map_grain_landings, map_grain_landingsOf, grainsOf,
      List.filter_append]

end

/-- Children that follow each other go in front of what lies below later ones. -/
theorem spread_range' {place : Path} {index count : Nat} {rest : List Path}
    (h : Spread place (index + count) rest) :
    Spread place index ((List.range' index count).map (fun index => place ++ [index]) ++ rest) := by
  induction count generalizing index with
  | zero => simpa using h
  | succ count ih =>
    have hRest := @ih (index + 1) (by rwa [Nat.add_right_comm, Nat.add_assoc])
    rw [List.range'_succ, List.map_cons, List.cons_append]
    exact @Spread.append _ _ [place ++ [index]] _ (List.pairwise_singleton _ _) (by simp) hRest

mutual

/-- The copied leaves stand in the document in their order. -/
theorem landings_spread (place : Path) (index : Nat) (front : List Copy) {rest : List Path} :
    (copy : Copy) → Spread place (index + (copy.elements root).length) rest →
      Spread place index ((landings root place index front copy).flatMap Landing.places ++ rest)
  | clone _, h => h.mono (Nat.le_succ index)
  | leaf source elements, h => by
    rw [landings, List.flatMap_singleton, Landing.places]
    exact spread_range' h
  | shell source isBare copies, h => by
    have hInside := landingsOf_spread (place ++ [index]) 0 [] copies
    exact Spread.append hInside.sorted hInside.below h

theorem landingsOf_spread (place : Path) (index : Nat) (front : List Copy) :
    (copies : List Copy) →
      Spread place index ((landingsOf root place index front copies).flatMap Landing.places)
  | [] => Spread.nil place index
  | copy :: rest => by
    rw [landingsOf, List.flatMap_append]
    exact landings_spread place index front copy (landingsOf_spread place _ _ rest)

end

mutual

/-- A copied leaf stands in the document where it says. -/
theorem descendant?_of_mem_landings {out : Element} {place : Path} {index : Nat}
    {front : List Copy} {landing : Landing} : (copy : Copy) →
    (∀ k e, (copy.elements root)[k]? = some e →
      out.descendant? (place ++ [index + k]) = some e) →
    landing ∈ landings root place index front copy → ∀ k e, landing.elements[k]? = some e →
      out.descendant? (landing.parent ++ [landing.index + k]) = some e
  | clone source, _, h => by simp [landings] at h
  | leaf source elements, hPlace, h => by
    obtain rfl := List.mem_singleton.1 h
    exact hPlace
  | shell source isBare copies, hPlace, h => by
    refine descendant?_of_mem_landingsOf copies (fun k e hChild => ?_) h
    have hShell := hPlace 0 _ rfl
    rw [Nat.add_zero] at hShell
    rw [Element.descendant?_append, hShell]
    simpa [Element.descendant?] using hChild

theorem descendant?_of_mem_landingsOf {out : Element} {place : Path} {index : Nat}
    {front : List Copy} {landing : Landing} : (copies : List Copy) →
    (∀ k e, (elementsOf root copies)[k]? = some e →
      out.descendant? (place ++ [index + k]) = some e) →
    landing ∈ landingsOf root place index front copies →
      ∀ k e, landing.elements[k]? = some e →
        out.descendant? (landing.parent ++ [landing.index + k]) = some e
  | [], _, h => by simp [landingsOf] at h
  | copy :: rest, hPlace, h => by
    rw [landingsOf, List.mem_append] at h
    rcases h with h | h
    · refine descendant?_of_mem_landings copy (fun k e hOne => hPlace k e ?_) h
      rw [elementsOf_cons, List.getElem?_append_left (List.getElem?_eq_some_iff.1 hOne).1, hOne]
    · refine descendant?_of_mem_landingsOf rest (fun k e hChild => ?_) h
      rw [Nat.add_assoc]
      refine hPlace ((copy.elements root).length + k) e ?_
      rw [elementsOf_cons, List.getElem?_append_right (Nat.le_add_right _ _),
        Nat.add_sub_cancel_left, hChild]

end

end Copy

namespace Visit

variable {layout : Layout}

/-- The leaf that a visit copies, with a text if it is written anew. -/
def fill? : Visit → Option (Path × Option (List String))
  | fill _ path text => some (path, text)
  | _ => none

variable (layout) in
/-- What a run lays down for the leaves that its visits copy. -/
theorem laidOf_fills (visits : List Visit) (desk : Desk) :
    List.Forall₂ (fun fill grain => ∃ pieces, grain = Grain.mk (Copy.lasting pieces)
        (.leaf fill.1 (layout.written (Copy.elementsOf layout.root pieces) fill.1 fill.2)))
      (visits.filterMap fill?)
      ((laidOf layout visits desk).filter (·.piece.leaf?.isSome)) := by
  induction visits generalizing desk with
  | nil => exact .nil
  | cons visit visits ih =>
    rw [laidOf, List.filter_append]
    cases visit with
    | fill floor path text => exact .cons ⟨_, rfl⟩ (ih _)
    | clone floor path => exact ih _
    | pass floor path => exact ih _
    | back depth => exact ih _

end Visit

namespace Layout

variable {layout : Layout}

theorem filterMap_fill_visits (legs : List Leg) :
    (layout.visits legs).filterMap Visit.fill? =
      (Leg.fills legs).map fun fill => (layout.path fill.1, fill.2) := by
  have hClones (floor : Option Nat) (paths : List Path) :
      (paths.map (Visit.clone floor)).filterMap Visit.fill? = [] := by
    induction paths with
    | nil => rfl
    | cons path paths ih => exact ih
  have hStopover (key target : Nat) :
      (layout.stopover key target).filterMap Visit.fill? = [] := by
    rw [stopover]
    split <;> rfl
  induction legs with
  | nil => rfl
  | cons leg legs ih =>
    rw [visits_cons, List.filterMap_append, ih]
    cases leg with
    | fill index text => rfl
    | cross key target =>
      rw [Leg.visits, List.filterMap_append, hClones, hStopover]
      rfl
    | reenter exit head index =>
      cases head with
      | none =>
        simp only [Leg.visits, List.filterMap_append, hClones]
        rfl
      | some head =>
        simp only [Leg.visits, List.filterMap_append, hClones, hStopover]
        rfl

/-- The copied leaves in a document that a run over a line leaves behind. -/
structure Landed (layout : Layout) (line : Line) (out : Element) (landings : List Landing) :
    Prop where
  /-- The document is made of clones, of leaves with an entry that is present and
  of shells, and these are its copied leaves. -/
  made : ∃ copies, (∀ copy ∈ copies,
      layout.Faithful (· ∈ layout.deepClones line) (layout.Opened line) copy) ∧
    out = { layout.root with children := Copy.elementsOf layout.root copies } ∧
    landings = Copy.landingsOf layout.root [] 0 [] copies
  found : ∀ landing ∈ landings, ∀ k e, landing.elements[k]? = some e →
    out.descendant? (landing.parent ++ [landing.index + k]) = some e
  sorted : (landings.flatMap Landing.places).Pairwise Before

theorem landed_assemble {line : Line}
    (hLine : ∀ entry ∈ line, 1 ≤ entry.1.index ∧ entry.1.index ≤ layout.count) :
    layout.Landed line (layout.assemble (layout.itinerary line))
      (Copy.landingsOf layout.root [] 0 [] (layout.copied (layout.itinerary line))) := by
  have hFaithful := @faithful_copied layout _ _ _ fun visit hVisit => itinerary_fits hLine hVisit
  refine ⟨⟨_, hFaithful, rfl, rfl⟩, fun landing hLanding => ?_,
    (Copy.landingsOf_spread layout.root [] 0 [] _).sorted⟩
  refine Copy.descendant?_of_mem_landingsOf layout.root _ (fun k e hChild => ?_) hLanding
  rw [assemble_eq]
  simpa [Element.descendant?] using hChild

/-- Whether the copy of a leaf holds what the format writes for a batch. -/
structure Holds (layout : Layout) (batch : Line) (landing : Landing) : Prop where
  source : ∀ entry ∈ batch, layout.path entry.1.index = landing.source
  nonempty : landing.elements ≠ []
  written : ∃ pieces, Copy.lasting pieces = landing.front ∧
    landing.elements =
      layout.written (Copy.elementsOf layout.root pieces) landing.source batch.text?

/-- Whether a document has one copy of a leaf for every batch of a line, in order,
which holds what is written for the batch. The batches hold every entry that is
present once; they end with their constants exactly if the line parts these from
what follows, and then a batch that leaves its leaf as it is has only one entry. -/
structure WritesBatches (layout : Layout) (line : Line) (out : Element)
    (landings : List Landing) : Prop where
  landed : layout.Landed line out landings
  holds : List.Forall₂ layout.Holds line.batches landings
  flatten : line.batches.flatten = line.filter fun entry => Line.IsPresent entry
  parts_iff : line.Parts ↔ ∀ batch ∈ line.batches, batch.EndsConstant
  single : line.Parts → ∀ batch ∈ line.batches, batch.text? = none → batch.length = 1

/-- Every batch of a line has its copy of a leaf in the document, in order. -/
theorem holds_landings {line : Line}
    (hLine : ∀ entry ∈ line, 1 ≤ entry.1.index ∧ entry.1.index ≤ layout.count) :
    List.Forall₂ layout.Holds line.batches
      (Copy.landingsOf layout.root [] 0 [] (layout.copied (layout.itinerary line))) := by
  have hFills := Visit.laidOf_fills layout (layout.itinerary line) {}
  rw [← leaves_copied, ← Copy.map_grain_landingsOf layout.root [] 0, itinerary,
    filterMap_fill_visits, Leg.fills_ofLine hLine, List.map_map, List.forall₂_map_left_iff,
    List.forall₂_map_right_iff] at hFills
  have hBatches : ∀ batch ∈ line.batches, batch ≠ [] ∧
      ∀ entry ∈ batch, entry.1.index = batch.lead ∧ 1 ≤ batch.lead ∧ batch.lead ≤ layout.count := by
    intro batch hBatch
    have hMem : ∀ entry ∈ batch, entry ∈ line := by
      intro entry hEntry
      have hFlat := Line.batches_flatten fun entry hEntry => (hLine entry hEntry).1
      exact (List.mem_filter.1 (hFlat ▸ List.mem_flatten_of_mem hBatch hEntry)).1
    obtain ⟨first, rest, rfl, hUniform⟩ := (Line.batchesFrom_uniform 0 0 line).2 batch hBatch
    have hFirst := hLine first (hMem first List.mem_cons_self)
    refine ⟨List.cons_ne_nil _ _, fun entry hEntry => ⟨?_, hFirst⟩⟩
    rcases List.mem_cons.1 hEntry with rfl | hEntry
    · rfl
    · exact hUniform entry hEntry
  refine ((List.forall₂_and_left _ _).2 ⟨hBatches, hFills⟩).imp ?_
  rintro batch landing ⟨⟨hSome, hBatch⟩, pieces, hGrain⟩
  obtain ⟨hFront, hLeaf⟩ := Grain.mk.inj hGrain
  obtain ⟨hSource, hElements⟩ := Copy.leaf.inj hLeaf
  obtain ⟨entry, hEntry⟩ := List.exists_mem_of_ne_nil batch hSome
  obtain ⟨-, hPos, hCount⟩ := hBatch entry hEntry
  dsimp only [Function.comp] at hSource hElements
  refine ⟨fun other hOther => ?_, ?_, pieces, hFront.symm, ?_⟩
  · rw [(hBatch other hOther).1, hSource]
  · rw [hElements]
    exact written_ne_nil (path_mem hPos hCount) _ batch
  · rw [hElements, hSource]

end Layout

variable {format : Format} {root : Element} {content : Content} {line tape : Line}

/-- Whatever the order of its entries, a tape leaves one copy of a leaf behind
for every batch, in order, which holds what the format writes for the batch. The
batches hold every entry that is present once. Where the tape leaves constants
for a leaf behind before it comes back, a batch that leaves its leaf as it is has
only one entry. -/
theorem enforce_writes_batches (h : flatten format root = .ok (content, line))
    (hTape : Line.PointsInto tape line) :
    ∃ boundaries out landings, Boundaries.ofLine root line = .ok boundaries ∧
      enforce root tape boundaries format = .ok out ∧
      (Layout.ofLine h).WritesBatches tape out landings := by
  obtain ⟨boundaries, hBoundaries, hEnforce⟩ := Layout.enforce_ofLine h hTape
  have hPlaces := Layout.bounds_of_pointsInto h hTape
  have hPos : ∀ entry ∈ tape, 1 ≤ entry.1.index := fun entry hEntry => (hPlaces entry hEntry).1
  have hFlat := Line.batches_flatten hPos
  have hHolds := Layout.holds_landings hPlaces
  refine ⟨boundaries, _, _, hBoundaries, hEnforce, Layout.landed_assemble hPlaces, hHolds, hFlat,
    Line.parts_iff hPos, ?_⟩
  intro hParts batch hBatch hText
  obtain ⟨first, rest, rfl, -⟩ := (Line.batchesFrom_uniform 0 0 tape).2 batch hBatch
  apply ((Line.parts_iff hPos).1 hParts _ hBatch).length_eq_one (List.cons_ne_nil _ _) _ hText
  intro entry hEntry
  have hMem : entry ∈ tape.filter fun entry => Line.IsPresent entry :=
    hFlat ▸ List.mem_flatten_of_mem hBatch hEntry
  simpa using (List.mem_filter.1 hMem).2

/-- A paragraph between two tags. -/
def Odt.refrain : Element :=
  element "section" none
    [element "p" (some "\x7b% for x in xs %\x7d") [], element "p" (some "A") [],
      element "p" (some "\x7b% endfor %\x7d") []]

/-- The line of the paragraph between two tags. -/
def Odt.refrainLine : Line :=
  [(⟨[0], false, 17, 0, 17, 1⟩, "\x7b% for x in xs %\x7d"), (⟨[1], true, 1, 0, 1, 2⟩, "A"),
    (⟨[2], false, 12, 0, 12, 3⟩, "\x7b% endfor %\x7d")]

/-- The paragraph once for each of two items. -/
def Odt.versesTape : Line :=
  [(⟨[0], false, 17, 0, 17, 1⟩, ""), (⟨[1], true, 1, 0, 1, 2⟩, "A"),
    (⟨[2], false, 12, 0, 12, 3⟩, ""), (⟨[1], true, 1, 0, 1, 2⟩, "A"),
    (⟨[2], false, 12, 0, 12, 3⟩, "")]

theorem Odt.flatten_refrain :
    flatten .odt Odt.refrain = .ok (.template, Odt.refrainLine) := by
  decide +kernel

/-- The closing tag parts the two entries of the paragraph, and each has a copy. -/
theorem enforce_writes_batches_refrain :
    ∃ h : flatten .odt Odt.refrain = .ok (.template, Odt.refrainLine),
      Line.PointsInto Odt.versesTape Odt.refrainLine ∧
      ∃ boundaries out landings, Boundaries.ofLine Odt.refrain Odt.refrainLine = .ok boundaries ∧
        enforce Odt.refrain Odt.versesTape boundaries .odt = .ok out ∧
        (Layout.ofLine h).WritesBatches Odt.versesTape out landings ∧
        Odt.versesTape.batches =
          [[(⟨[1], true, 1, 0, 1, 2⟩, "A")], [(⟨[1], true, 1, 0, 1, 2⟩, "A")]] ∧
        landings.length = 2 ∧ Odt.versesTape.Parts := by
  have hTape : Line.PointsInto Odt.versesTape Odt.refrainLine := by decide
  obtain ⟨boundaries, out, landings, hBoundaries, hEnforce, hWrites⟩ :=
    enforce_writes_batches Odt.flatten_refrain hTape
  have hBatches : Odt.versesTape.batches =
      [[(⟨[1], true, 1, 0, 1, 2⟩, "A")], [(⟨[1], true, 1, 0, 1, 2⟩, "A")]] := by
    decide
  have hLength := hWrites.holds.length_eq
  rw [hBatches] at hLength
  refine ⟨Odt.flatten_refrain, hTape, boundaries, out, landings, hBoundaries, hEnforce, hWrites,
    hBatches, hLength.symm, hWrites.parts_iff.2 ?_⟩
  simp [hBatches, Line.EndsConstant]

/-- The paragraph twice, with the opening tag in between. -/
def Odt.refrainTape : Line :=
  [(⟨[1], true, 1, 0, 1, 2⟩, "A"), (⟨[0], false, 17, 0, 17, 1⟩, ""),
    (⟨[1], true, 1, 0, 1, 2⟩, "A")]

/-- A leaf in front does not part two entries of a constant leaf, which come to
stand in one copy. -/
theorem enforce_refrain :
    flatten .odt Odt.refrain = .ok (.template, Odt.refrainLine) ∧
      Line.PointsInto Odt.refrainTape Odt.refrainLine ∧
      Odt.refrainTape.IsChain (fun constant entry => constant.1.isConstant = true →
        Line.IsPresent entry → entry.1.index ≠ constant.1.index) ∧
      (do
        let boundaries ← Boundaries.ofLine Odt.refrain Odt.refrainLine
        enforce Odt.refrain Odt.refrainTape boundaries .odt) =
          .ok (Odt.element "section" none [Odt.element "p" (some "A") []]) ∧
      Odt.refrainTape.batches =
        [[(⟨[1], true, 1, 0, 1, 2⟩, "A"), (⟨[1], true, 1, 0, 1, 2⟩, "A")]] ∧
      ¬ Odt.refrainTape.Parts := by
  refine ⟨Odt.flatten_refrain, by decide, by decide, by decide +kernel, by decide, ?_⟩
  intro hParts
  obtain ⟨dropped, hDropped, hLess⟩ := hParts [] _ [_] _ [] rfl rfl (by decide) rfl (by decide)
  obtain rfl := List.mem_singleton.1 hDropped
  exact absurd hLess (by decide)

end Infill
