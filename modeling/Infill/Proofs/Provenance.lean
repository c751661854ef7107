import Infill.Proofs.Itinerary
import Infill.Proofs.Numbering

/-!
Where the parts of a rebuilt document come from. Every piece of it is a subtree
of the source, the text of a leaf, or the shell of an element that holds a leaf,
and the subtrees among them can be told by the places where they stand.
-/
namespace Infill

open Infill.Xml
open Infill.Path (Before Spread)

namespace Copy

mutual

/-- The places of the subtrees that were cloned into a piece, in order. -/
def clones : Copy → List Path
  | clone source => [source]
  | leaf .. => []
  | shell _ _ copies => clonesOf copies

def clonesOf : List Copy → List Path
  | [] => []
  | copy :: rest => clones copy ++ clonesOf rest

end

variable (root : Element)

mutual

/-- Where the subtrees that were cloned into a piece stand, when the piece
stands at `place`, each with where it comes from. -/
def spots (place : Path) : Copy → List (Path × Path)
  | clone source => [(place, source)]
  | leaf .. => []
  | shell _ _ copies => spotsOf place 0 copies

/-- The same for pieces that are children at `place` from `index` on. -/
def spotsOf (place : Path) (index : Nat) : List Copy → List (Path × Path)
  | [] => []
  | copy :: rest =>
    spots (place ++ [index]) copy ++ spotsOf place (index + (copy.elements root).length) rest

end

mutual

theorem spots_sources (place : Path) : (copy : Copy) →
    (spots root place copy).map Prod.snd = copy.clones
  | clone _ => rfl
  | leaf .. => rfl
  | shell _ _ copies => spotsOf_sources place 0 copies

theorem spotsOf_sources (place : Path) (index : Nat) : (copies : List Copy) →
    (spotsOf root place index copies).map Prod.snd = clonesOf copies
  | [] => rfl
  | copy :: rest => by
    rw [spotsOf, List.map_append, clonesOf, spots_sources, spotsOf_sources]

end

mutual

/-- Pieces stand in the document in their order. -/
theorem spots_sorted (place : Path) : (copy : Copy) →
    ((spots root place copy).map Prod.fst).Pairwise Before ∧
      ∀ x ∈ (spots root place copy).map Prod.fst, place <+: x
  | clone source => by simp [spots]
  | leaf source written => by simp [spots]
  | shell source isBare copies => by
    have hSpread := spotsOf_spread place 0 copies
    exact ⟨hSpread.sorted, hSpread.below⟩

theorem spotsOf_spread (place : Path) (index : Nat) : (copies : List Copy) →
    Spread place index ((spotsOf root place index copies).map Prod.fst)
  | [] => Spread.nil place index
  | copy :: rest => by
    have hRest := spotsOf_spread place (index + (copy.elements root).length) rest
    rw [spotsOf, List.map_append]
    cases copy with
    | leaf source written =>
      simp only [spots, List.map_nil, List.nil_append]
      exact hRest.mono (Nat.le_add_right _ _)
    | clone source =>
      obtain ⟨hSorted, hInside⟩ := spots_sorted (place ++ [index]) (clone source)
      exact Spread.append hSorted hInside hRest
    | shell source isBare copies =>
      obtain ⟨hSorted, hInside⟩ := spots_sorted (place ++ [index]) (shell source isBare copies)
      exact Spread.append hSorted hInside hRest

end

mutual

/-- A clone stands in the document as it stands in the source. -/
theorem descendant?_of_mem_spots {out : Element} {place : Path} {spot : Path × Path} :
    (copy : Copy) → (∀ e, copy.elements root = [e] → out.descendant? place = some e) →
    spot ∈ spots root place copy → out.descendant? spot.1 = some (root.descendant spot.2)
  | clone source, hPlace, h => by
    obtain rfl := List.mem_singleton.1 h
    exact hPlace _ rfl
  | leaf source written, _, h => by simp [spots] at h
  | shell source isBare copies, hPlace, h => by
    refine descendant?_of_mem_spotsOf copies (fun k e hChild => ?_) h
    rw [Element.descendant?_append, hPlace _ rfl]
    simpa [Element.descendant?] using hChild

theorem descendant?_of_mem_spotsOf {out : Element} {place : Path} {index : Nat}
    {spot : Path × Path} : (copies : List Copy) →
    (∀ k e, (elementsOf root copies)[k]? = some e →
      out.descendant? (place ++ [index + k]) = some e) →
    spot ∈ spotsOf root place index copies → out.descendant? spot.1 = some (root.descendant spot.2)
  | [], _, h => by simp [spotsOf] at h
  | copy :: rest, hPlace, h => by
    rw [spotsOf, List.mem_append] at h
    rcases h with h | h
    · refine descendant?_of_mem_spots copy (fun e hOne => hPlace 0 e ?_) h
      rw [elementsOf_cons, hOne]
      rfl
    · refine descendant?_of_mem_spotsOf rest (fun k e hChild => ?_) h
      rw [Nat.add_assoc]
      refine hPlace ((copy.elements root).length + k) e ?_
      rw [elementsOf_cons, List.getElem?_append_right (Nat.le_add_right _ _), Nat.add_sub_cancel_left,
        hChild]

end

end Copy

namespace Layout

variable {layout : Layout} {cloned opened : Path → Prop}

/-- Whether an element is the root, a leaf or an ancestor of one. -/
def Above (layout : Layout) (path : Path) : Prop :=
  path = [] ∨ ∃ leaf ∈ layout.leaves, path <+: leaf

/-- Whether an element stands right below the root, a leaf or an ancestor of one. -/
def Sited (layout : Layout) (x : Path) : Prop :=
  layout.root.Reaches x ∧ layout.Above x.dropLast

theorem Above.upward {path front : Path} (h : layout.Above path) (hFront : front <+: path) :
    layout.Above front := by
  rcases h with rfl | ⟨leaf, hLeaf, hPath⟩
  · exact .inl (List.prefix_nil.1 hFront)
  · exact .inr ⟨leaf, hLeaf, hFront.trans hPath⟩

theorem above_path {index : Nat} (hPos : 1 ≤ index) (hCount : index ≤ layout.count) :
    layout.Above (layout.path index) :=
  .inr ⟨_, path_mem hPos hCount, List.prefix_rfl⟩

/-- What a piece may be: a subtree that may be cloned, a leaf that was opened, as
it is or as the format writes it, or the shell of an element that is or holds a
leaf. -/
inductive Faithful (layout : Layout) (cloned opened : Path → Prop) : Copy → Prop where
  | clone {source : Path} : layout.root.Reaches source → cloned source →
      Faithful layout cloned opened (.clone source)
  | leaf {path : Path} (front : List Element) (text : Option (List String)) :
      path ∈ layout.leaves → opened path →
      Faithful layout cloned opened (.leaf path (layout.written front path text))
  | shell {source : Path} {isBare : Bool} {copies : List Copy} : layout.Above source →
      source ≠ [] → (∀ copy ∈ copies, Faithful layout cloned opened copy) →
      Faithful layout cloned opened (.shell source isBare copies)

mutual

theorem cloned_of_mem_clones : (copy : Copy) → layout.Faithful cloned opened copy → {x : Path} →
    x ∈ copy.clones → cloned x
  | .clone source, h, x, hx => by
    obtain rfl := List.mem_singleton.1 hx
    cases h with
    | clone _ hCloned => exact hCloned
  | .leaf source written, h, x, hx => by cases hx
  | .shell source isBare copies, h, x, hx => by
    cases h with
    | shell _ _ hCopies => exact cloned_of_mem_clonesOf copies hCopies hx

theorem cloned_of_mem_clonesOf : (copies : List Copy) →
    (∀ copy ∈ copies, layout.Faithful cloned opened copy) → {x : Path} →
    x ∈ Copy.clonesOf copies → cloned x
  | [], _, x, hx => by cases hx
  | copy :: rest, h, x, hx => by
    rcases List.mem_append.1 hx with hx | hx
    · exact cloned_of_mem_clones copy (h copy List.mem_cons_self) hx
    · exact cloned_of_mem_clonesOf rest (fun other hOther => h other (List.mem_cons_of_mem copy hOther)) hx

end

theorem dropBare_sublist (count : Nat) (copies : List Copy) :
    (Copy.dropBare count copies).Sublist copies := by
  induction copies generalizing count with
  | nil => simp [Copy.dropBare]
  | cons copy copies ih =>
    by_cases hBare : copy.isBare = true
    · cases count with
      | zero => simpa [Copy.dropBare, hBare] using (ih 0).cons copy
      | succ count => simpa [Copy.dropBare, hBare] using ih count
    · simpa [Copy.dropBare, hBare] using ih count

theorem mem_of_mem_prune {copy : Copy} {copies : List Copy} {root : Element}
    (h : copy ∈ Copy.prune root copies) : copy ∈ copies :=
  (dropBare_sublist _ _).subset h

end Layout

namespace Desk

variable {layout : Layout} {cloned opened : Path → Prop} {desk : Desk} {floor : Option Nat}

/-- A desk on which all pieces are faithful, and that stands above a leaf. -/
structure Faithful (layout : Layout) (cloned opened : Path → Prop) (desk : Desk) : Prop where
  base : ∀ copy ∈ desk.base, layout.Faithful cloned opened copy
  sheets : ∀ sheet ∈ desk.sheets, ∀ copy ∈ sheet.copies, layout.Faithful cloned opened copy
  above : layout.Above desk.chain

theorem Faithful.put (h : desk.Faithful layout cloned opened) {copy : Copy}
    (hCopy : layout.Faithful cloned opened copy) :
    (desk.put layout copy).Faithful layout cloned opened := by
  have hAppend : ∀ copies : List Copy, (∀ other ∈ copies, layout.Faithful cloned opened other) →
      ∀ other ∈ copies ++ [copy], layout.Faithful cloned opened other := by
    intro copies hCopies other hOther
    rcases List.mem_append.1 hOther with hOther | hOther
    · exact hCopies other hOther
    · rwa [List.mem_singleton.1 hOther]
  refine ⟨?_, ?_, by rw [chain_put]; exact h.above⟩
  · obtain ⟨base, _ | ⟨sheet, rest⟩⟩ := desk
    · exact hAppend base h.base
    · exact h.base
  · obtain ⟨base, _ | ⟨sheet, rest⟩⟩ := desk
    · exact h.sheets
    · intro other hOther
      rcases List.mem_cons.1 hOther with rfl | hOther
      · exact hAppend sheet.copies (h.sheets sheet List.mem_cons_self)
      · exact h.sheets other (List.mem_cons_of_mem sheet hOther)

theorem Faithful.close (h : desk.Faithful layout cloned opened) :
    (desk.close layout).Faithful layout cloned opened := by
  obtain ⟨base, _ | ⟨sheet, rest⟩⟩ := desk
  · exact h
  · have hRest : Desk.Faithful layout cloned opened ⟨base, rest⟩ :=
      ⟨h.base, fun other hOther => h.sheets other (List.mem_cons_of_mem sheet hOther),
        h.above.upward ⟨[sheet.step], by simp [chain]⟩⟩
    refine hRest.put (.shell h.above (by simp [chain]) fun copy hCopy => ?_)
    exact h.sheets sheet List.mem_cons_self copy (Layout.mem_of_mem_prune hCopy)

theorem Faithful.rewind (h : desk.Faithful layout cloned opened) (depth : Nat) :
    (desk.rewind layout depth).Faithful layout cloned opened := by
  rw [Desk.rewind]
  induction desk.sheets.length - depth with
  | zero => exact h
  | succ count ih => exact ih.close

theorem Faithful.descend (h : desk.Faithful layout cloned opened) {branch : Path}
    (hBranch : layout.Above branch) :
    (desk.descend layout floor branch).Faithful layout cloned opened := by
  have hOpen : ∀ (path : Path) (desk : Desk),
      (∀ copy ∈ desk.base, layout.Faithful cloned opened copy) →
      (∀ sheet ∈ desk.sheets, ∀ copy ∈ sheet.copies, layout.Faithful cloned opened copy) →
      (∀ copy ∈ (path.foldl (openChild floor) desk).base, layout.Faithful cloned opened copy) ∧
        ∀ sheet ∈ (path.foldl (openChild floor) desk).sheets,
          ∀ copy ∈ sheet.copies, layout.Faithful cloned opened copy := by
    intro path
    induction path with
    | nil => exact fun desk hBase hSheets => ⟨hBase, hSheets⟩
    | cons step path ih =>
      intro desk hBase hSheets
      refine ih (openChild floor desk step) hBase fun sheet hSheet => ?_
      rcases List.mem_cons.1 hSheet with rfl | hSheet
      · simp
      · exact hSheets sheet hSheet
  have hRewound := h.rewind (Path.sharedLength desk.chain branch)
  obtain ⟨hBase, hSheets⟩ := hOpen (branch.drop (Path.sharedLength desk.chain branch)) _
    hRewound.base hRewound.sheets
  exact ⟨hBase, hSheets, by rw [chain_descend]; exact hBranch⟩

theorem Faithful.settle (h : desk.Faithful layout cloned opened) :
    desk.settle.Faithful layout cloned opened := by
  refine ⟨h.base, fun sheet hSheet => ?_, by rw [chain_settle]; exact h.above⟩
  obtain ⟨other, hOther, rfl⟩ := List.mem_map.1 hSheet
  exact h.sheets other hOther

end Desk

namespace Visit

variable {layout : Layout} {cloned opened : Path → Prop} {desk : Desk}

/-- The subtree that a visit clones, if it clones one. -/
def cloned? : Visit → Option Path
  | clone _ path => some path
  | _ => none

/-- Whether a visit goes to a place at a leaf or above one. -/
def Fits (layout : Layout) (cloned opened : Path → Prop) : Visit → Prop
  | clone _ path => layout.Sited path ∧ cloned path
  | fill _ path _ => path ∈ layout.leaves ∧ opened path
  | pass _ path => layout.Above path
  | back _ => True

/-- Visits leave faithful pieces behind. -/
theorem faithful_run (visits : List Visit) (h : desk.Faithful layout cloned opened)
    (hVisits : ∀ visit ∈ visits, visit.Fits layout cloned opened) :
    (run layout visits desk).Faithful layout cloned opened := by
  induction visits generalizing desk with
  | nil => exact h
  | cons visit visits ih =>
    refine ih ?_ fun other hOther => hVisits other (List.mem_cons_of_mem visit hOther)
    have hFits := hVisits visit List.mem_cons_self
    cases visit with
    | clone floor path => exact (h.descend hFits.1.2).put (.clone hFits.1.1 hFits.2)
    | fill floor path text =>
      have hAbove : layout.Above path.dropLast :=
        .inr ⟨path, hFits.1, List.dropLast_prefix path⟩
      exact ((h.descend hAbove).put (.leaf _ text hFits.1 hFits.2)).settle
    | pass floor path => exact h.descend hFits
    | back depth => exact h.rewind depth

end Visit

/-! ### The leaves that a run opens have an entry that is present -/

/-- Whether an entry is not dropped. -/
def Line.IsPresent (entry : Pointer × String) : Prop :=
  entry.1.isConstant = true ∨ entry.2.isEmpty = false

instance (entry : Pointer × String) : Decidable (Line.IsPresent entry) :=
  inferInstanceAs (Decidable (_ ∨ _))

/-- Whether a line has an entry for a leaf that is present. -/
def Line.Opens (line : Line) (index : Nat) : Prop :=
  ∃ entry ∈ line, Line.IsPresent entry ∧ entry.1.index = index

instance (line : Line) (index : Nat) : Decidable (line.Opens index) :=
  inferInstanceAs (Decidable (∃ entry ∈ line, _ ∧ _))

namespace Course

variable {course : Course} {front line : Line} {index : Nat} {text : Option (List String)}

theorem fill_mem_flush (h : course.leaf.isSome = true → Line.Opens front course.standing)
    (hLeg : Leg.fill index text ∈ course.flush) : Line.Opens front index := by
  rw [flush] at hLeg
  cases hLeaf : course.leaf with
  | none => simp [hLeaf] at hLeg
  | some leaf =>
    rw [hLeaf] at hLeg
    obtain ⟨rfl, -⟩ := Leg.fill.inj (List.mem_singleton.1 hLeg)
    exact h (by rw [hLeaf]; rfl)

theorem fill_not_mem_crossings {target key count : Nat} :
    Leg.fill index text ∉ Leg.crossings target key count := by
  simp [Leg.crossings]

/-- A move writes the leaf that is open, and no other. -/
theorem fill_mem_move {target : Nat} (h : course.leaf.isSome = true → Line.Opens front course.standing)
    (hLeg : Leg.fill index text ∈ (course.move target).2) : Line.Opens front index := by
  have hForward : ∀ target, Leg.fill index text ∈ course.flush ++ course.advance target →
      Line.Opens front index := by
    intro target hLeg
    rcases List.mem_append.1 hLeg with hLeg | hLeg
    · exact fill_mem_flush h hLeg
    · exact absurd hLeg fill_not_mem_crossings
  rcases course.move_cases target with hAhead | ⟨restart, hRestart, hReach, hOther⟩ | hStays
  · rw [move_forward hAhead] at hLeg
    exact hForward _ hLeg
  · rw [move_back hRestart hReach hOther] at hLeg
    rcases mem_reenter.1 hLeg with hLeg | hLeg | ⟨tag, -, hLeg⟩
    · exact hForward _ hLeg
    · cases hLeg
    · exact absurd hLeg fill_not_mem_crossings
  · rw [move_stay hStays] at hLeg
    cases hLeg

/-- A move opens the leaf it leads to, or changes nothing about the open leaf. -/
theorem leaf_move (target : Nat) :
    (course.move target).1.standing = target ∨
      (course.move target).1.standing = course.standing ∧
        (course.move target).1.leaf = course.leaf := by
  rcases course.move_cases target with hForward | ⟨restart, hRestart, hReach, hOther⟩ | hStays
  · rw [move_forward hForward]
    exact .inl rfl
  · rw [move_back hRestart hReach hOther]
    exact .inl rfl
  · rw [move_stay hStays]
    exact .inr ⟨rfl, rfl⟩

theorem Opens_mono {more : Line} (h : Line.Opens front index) : Line.Opens (front ++ more) index :=
  h.imp fun _ hEntry => hEntry.imp_left (List.mem_append_left more)

/-- Whatever a run writes, an entry that is present called for it. -/
theorem fill_mem_read (h : course.leaf.isSome = true → Line.Opens front course.standing) :
    ((course.read line).1.leaf.isSome = true →
        Line.Opens (front ++ line) (course.read line).1.standing) ∧
      (Leg.fill index text ∈ (course.read line).2 → Line.Opens (front ++ line) index) := by
  induction line generalizing course front with
  | nil => exact ⟨fun hLeaf => Opens_mono (h hLeaf), fun hLeg => absurd hLeg List.not_mem_nil⟩
  | cons entry line ih =>
    obtain ⟨pointer, content⟩ := entry
    have hStep : ((course.step pointer content).1.leaf.isSome = true →
        Line.Opens (front ++ [(pointer, content)]) (course.step pointer content).1.standing) ∧
        (Leg.fill index text ∈ (course.step pointer content).2 → Line.Opens front index) := by
      rw [step]
      dsimp only
      split
      · exact ⟨fun hLeaf => Opens_mono (h hLeaf), fun hLeg => absurd hLeg List.not_mem_nil⟩
      · rename_i hPresent
        refine ⟨fun hLeaf => ?_, fun hLeg =>
          @fill_mem_move (course.see pointer.position) front index text pointer.index h hLeg⟩
        have hOpen : ((course.see pointer.position).move pointer.index).1.leaf.isSome = true := by
          simpa [collect] using hLeaf
        rcases @leaf_move (course.see pointer.position) pointer.index with hHere | ⟨hSame, hLeafSame⟩
        · refine ⟨(pointer, content), by simp, ?_, hHere.symm⟩
          rw [Line.IsPresent]
          by_contra hNot
          simp only [not_or, Bool.not_eq_true, Bool.not_eq_false] at hNot
          simp [hNot.1, hNot.2] at hPresent
        · show Line.Opens _ ((course.see pointer.position).move pointer.index).1.standing
          rw [hSame]
          exact Opens_mono (h (by rwa [hLeafSame] at hOpen))
    obtain ⟨hLast, hMore⟩ := ih hStep.1
    rw [read]
    dsimp only
    rw [List.append_cons]
    refine ⟨hLast, fun hLeg => ?_⟩
    rcases List.mem_append.1 hLeg with hLeg | hLeg
    · exact Opens_mono (Opens_mono (hStep.2 hLeg))
    · exact hMore hLeg

end Course

theorem Leg.opens_ofLine {count index : Nat} {line : Line} {text : Option (List String)}
    (hLeg : Leg.fill index text ∈ Leg.ofLine count line) : Line.Opens line index := by
  obtain ⟨hLast, hRead⟩ := @Course.fill_mem_read {} [] line index text (by simp)
  rw [ofLine] at hLeg
  rcases List.mem_append.1 hLeg with hLeg | hLeg
  · rcases List.mem_append.1 hLeg with hLeg | hLeg
    · exact hRead hLeg
    · exact Course.fill_mem_flush hLast hLeg
  · exact absurd hLeg Course.fill_not_mem_crossings

/-! ### The legs of a run stay within the leaves of its line -/

/-- Whether a leg goes to leaves that exist. -/
def Leg.Bounded (count : Nat) : Leg → Prop
  | fill index _ => 1 ≤ index ∧ index ≤ count
  | cross key _ => 1 ≤ key ∧ key ≤ count + 1
  | reenter exit head index => (1 ≤ exit ∧ exit ≤ count) ∧ (1 ≤ index ∧ index ≤ count) ∧
      ∀ tag ∈ head, 1 ≤ tag ∧ tag < index

namespace Course

variable {count index : Nat} {course : Course} {leg : Leg}

theorem Bounded.flush (h : course.Bounded count) (hLeg : leg ∈ course.flush) :
    leg.Bounded count := by
  rw [Course.flush] at hLeg
  cases hLeaf : course.leaf with
  | none => simp [hLeaf] at hLeg
  | some leaf =>
    rw [hLeaf] at hLeg
    obtain rfl := List.mem_singleton.1 hLeg
    exact ⟨h.leaf_iff.1 (by rw [hLeaf]; rfl), h.standing_le_reach.trans h.reach_le⟩

theorem bounded_crossings {target key steps : Nat} (hPos : 1 ≤ key)
    (hSteps : key + steps ≤ count + 2) (hLeg : leg ∈ Leg.crossings target key steps) :
    leg.Bounded count := by
  obtain ⟨k, hk, rfl⟩ := List.mem_map.1 hLeg
  have := List.mem_range'_1.1 hk
  exact ⟨by omega, by omega⟩

theorem bounded_advance {target : Nat} (hTarget : target ≤ count + 1)
    (hStanding : course.standing ≤ count) (hLeg : leg ∈ course.advance target) :
    leg.Bounded count :=
  bounded_crossings (Nat.succ_pos _) (by omega) hLeg

theorem head?_bounds (h : course.Bounded count) {restart : Position} :
    ∀ tag ∈ course.head? restart index, 1 ≤ tag ∧ tag < index :=
  fun _ hTag => ⟨h.head?_pos hTag, head?_lt hTag⟩

theorem Bounded.legs_move (h : course.Bounded count) (hPos : 1 ≤ index) (hCount : index ≤ count)
    (hLeg : leg ∈ (course.move index).2) : leg.Bounded count := by
  have hStanding : course.standing ≤ count := h.standing_le_reach.trans h.reach_le
  have hForward {target : Nat} (hTarget : target ≤ count + 1)
      (hLeg : leg ∈ course.flush ++ course.advance target) : leg.Bounded count := by
    rcases List.mem_append.1 hLeg with hLeg | hLeg
    · exact h.flush hLeg
    · exact bounded_advance hTarget hStanding hLeg
  rcases course.move_cases index with hAhead | ⟨restart, hRestart, hReached, hOther⟩ | hStays
  · rw [Course.move_forward hAhead] at hLeg
    exact hForward (by omega) hLeg
  · rw [Course.move_back hRestart hReached hOther] at hLeg
    have hReach := h.reach_le
    have hHead := @head?_bounds count index course h restart
    rcases mem_reenter.1 hLeg with hLeg | rfl | ⟨tag, hFound, hLeg⟩
    · exact hForward (by omega) hLeg
    · exact ⟨⟨by omega, by omega⟩, ⟨hPos, hCount⟩, hHead⟩
    · have := hHead tag hFound
      exact bounded_crossings (by omega) (by omega) hLeg
  · rw [Course.move_stay hStays] at hLeg
    cases hLeg

theorem Valid.legs_read {line : Line} (h : course.Valid count)
    (hLine : ∀ entry ∈ line, 1 ≤ entry.1.index ∧ entry.1.index ≤ count)
    (hLeg : leg ∈ (course.read line).2) : leg.Bounded count := by
  induction line generalizing course with
  | nil => cases hLeg
  | cons entry line ih =>
    obtain ⟨pointer, text⟩ := entry
    obtain ⟨hPos, hCount⟩ := hLine (pointer, text) List.mem_cons_self
    rw [Course.read] at hLeg
    rcases List.mem_append.1 hLeg with hLeg | hLeg
    · rw [Course.step] at hLeg
      dsimp only at hLeg
      split at hLeg
      · cases hLeg
      · exact (h.toBounded.see pointer.position).legs_move hPos hCount hLeg
    · exact ih (h.step text hPos hCount)
        (fun other hOther => hLine other (List.mem_cons_of_mem _ hOther)) hLeg

end Course

theorem Leg.bounded_ofLine {count : Nat} {line : Line} {leg : Leg}
    (hLine : ∀ entry ∈ line, 1 ≤ entry.1.index ∧ entry.1.index ≤ count)
    (hLeg : leg ∈ Leg.ofLine count line) : leg.Bounded count := by
  have hStart := Course.Valid.start count
  have hLast := hStart.read hLine
  rw [ofLine] at hLeg
  rcases List.mem_append.1 hLeg with hLeg | hLeg
  · rcases List.mem_append.1 hLeg with hLeg | hLeg
    · exact hStart.legs_read hLine hLeg
    · exact hLast.toBounded.flush hLeg
  · exact Course.bounded_advance (Nat.le_refl _) (hLast.standing_le_reach.trans hLast.reach_le) hLeg

namespace Layout

variable {layout : Layout} {cloned opened : Path → Prop}

theorem OffPath.sited {x : Path} (h : layout.OffPath x) : layout.Sited x := by
  obtain ⟨u, i, rfl, hAttached⟩ := h.attached
  refine ⟨h.reaches, ?_⟩
  rw [List.dropLast_concat]
  exact hAttached.imp_right fun ⟨leaf, hLeaf, hPrefix, _⟩ => ⟨leaf, hLeaf, hPrefix⟩

theorem stopover_fits {key target : Nat} (hPos : 1 ≤ key) {visit : Visit}
    (hVisit : visit ∈ layout.stopover key target) : visit.Fits layout cloned opened := by
  rw [stopover] at hVisit
  split at hVisit
  · rename_i hKey
    obtain rfl := List.mem_singleton.1 hVisit
    exact (above_path hPos hKey.2).upward (List.take_prefix _ _)
  · cases hVisit

theorem trailingFrom_sited {exit depth : Nat} (hPos : 1 ≤ exit) (hCount : exit ≤ layout.count)
    {x : Path} (hx : x ∈ Path.trailingFrom layout.root (layout.path exit) depth) :
    layout.Sited x := by
  obtain ⟨hReaches, -, u, i, rfl, -, hPrefix⟩ :=
    (Path.mem_trailingFrom (reaches_path hPos hCount)).1 hx
  exact ⟨hReaches, by rw [List.dropLast_concat]; exact (above_path hPos hCount).upward hPrefix⟩

theorem leadingFrom_sited {index depth : Nat} (hPos : 1 ≤ index) (hCount : index ≤ layout.count)
    {x : Path} (hx : x ∈ Path.leadingFrom (layout.path index) depth) : layout.Sited x := by
  obtain ⟨hReaches, -, u, i, rfl, -, hPrefix⟩ :=
    (Path.mem_leadingFrom (reaches_path hPos hCount)).1 hx
  exact ⟨hReaches, by rw [List.dropLast_concat]; exact (above_path hPos hCount).upward hPrefix⟩

/-- The visits of a leg go to the leaves it names or right below what holds one. -/
theorem fits_of_bounded {leg : Leg} (h : leg.Bounded layout.count)
    (hCloned : ∀ x ∈ (leg.visits layout).filterMap Visit.cloned?, cloned x)
    (hOpened : ∀ index text, leg = .fill index text → opened (layout.path index)) {visit : Visit}
    (hVisit : visit ∈ leg.visits layout) : visit.Fits layout cloned opened := by
  have hClone : ∀ floor x, Visit.clone floor x ∈ leg.visits layout → layout.Sited x →
      (Visit.clone floor x).Fits layout cloned opened := fun floor x hMem hSited =>
    ⟨hSited, hCloned x (List.mem_filterMap.2 ⟨_, hMem, rfl⟩)⟩
  cases leg with
  | fill index text =>
    obtain rfl := List.mem_singleton.1 hVisit
    exact ⟨path_mem h.1 h.2, hOpened index text rfl⟩
  | cross key target =>
    obtain ⟨hPos, hCount⟩ := h
    rcases List.mem_append.1 hVisit with hPlace | hPlace
    · obtain ⟨x, hx, rfl⟩ := List.mem_map.1 hPlace
      exact hClone _ x hVisit ((mem_gap (by omega)).1 hx).1.sited
    · exact stopover_fits hPos hPlace
  | reenter exit head index =>
    obtain ⟨⟨hExit, hExitCount⟩, ⟨hPos, hCount⟩, hHead⟩ := h
    have hRetreat {floor depth common} (hPlace : visit ∈
        (Path.trailingFrom layout.root (layout.path exit) depth).map (.clone floor) ++
          [.back common]) : visit.Fits layout cloned opened := by
      rcases List.mem_append.1 hPlace with hPlace | hPlace
      · obtain ⟨x, hx, rfl⟩ := List.mem_map.1 hPlace
        exact hClone _ x hVisit (trailingFrom_sited hExit hExitCount hx)
      · obtain rfl := List.mem_singleton.1 hPlace
        trivial
    cases head with
    | none =>
      rcases List.mem_append.1 hVisit with hPlace | hPlace
      · exact hRetreat hPlace
      · obtain ⟨x, hx, rfl⟩ := List.mem_map.1 hPlace
        exact hClone _ x hVisit (leadingFrom_sited hPos hCount hx)
    | some tag =>
      obtain ⟨-, hTag⟩ := hHead tag rfl
      rcases List.mem_append.1 hVisit with hPlace | hPlace
      · rcases List.mem_append.1 hPlace with hPlace | hPlace
        · exact hRetreat hPlace
        · obtain ⟨x, hx, rfl⟩ := List.mem_map.1 hPlace
          have hGap : x ∈ layout.gap tag := List.mem_append_right _ hx
          exact hClone _ x hVisit ((mem_gap (by omega)).1 hGap).1.sited
      · exact stopover_fits (by omega) hPlace

/-- The subtrees that a run over a line clones, in order. -/
def deepClones (layout : Layout) (line : Line) : List Path :=
  (layout.itinerary line).filterMap Visit.cloned?

/-- Whether a leaf has an entry that is present. -/
def Opened (layout : Layout) (line : Line) (path : Path) : Prop :=
  ∃ index, Line.Opens line index ∧ layout.path index = path

theorem itinerary_fits {line : Line}
    (hLine : ∀ entry ∈ line, 1 ≤ entry.1.index ∧ entry.1.index ≤ layout.count) {visit : Visit}
    (hVisit : visit ∈ layout.itinerary line) :
    visit.Fits layout (· ∈ layout.deepClones line) (layout.Opened line) := by
  obtain ⟨leg, hLeg, hPlace⟩ := List.mem_flatMap.1 hVisit
  refine fits_of_bounded (Leg.bounded_ofLine hLine hLeg) (fun x hx => ?_)
    (fun index text hFill => ?_) hPlace
  · obtain ⟨other, hOther, hFound⟩ := List.mem_filterMap.1 hx
    exact List.mem_filterMap.2 ⟨other, List.mem_flatMap.2 ⟨leg, hLeg, hOther⟩, hFound⟩
  · exact ⟨index, Leg.opens_ofLine (hFill ▸ hLeg), rfl⟩

/-- The pieces of the finished copy. -/
def copied (layout : Layout) (visits : List Visit) : List Copy :=
  Copy.prune layout.root ((Visit.run layout visits {}).rewind layout 0).base

theorem assemble_eq (layout : Layout) (visits : List Visit) :
    layout.assemble visits =
      { layout.root with children := Copy.elementsOf layout.root (layout.copied visits) } := rfl

theorem faithful_copied {visits : List Visit}
    (hVisits : ∀ visit ∈ visits, visit.Fits layout cloned opened) :
    ∀ copy ∈ layout.copied visits, layout.Faithful cloned opened copy := by
  have hStart : Desk.Faithful layout cloned opened {} := ⟨by simp, by simp, .inl rfl⟩
  exact fun copy hCopy =>
    ((Visit.faithful_run visits hStart hVisits).rewind 0).base copy (mem_of_mem_prune hCopy)

/-- The clones in a document that a run over a line leaves behind, each with the
place where it stands and the place it comes from. -/
structure Clones (layout : Layout) (line : Line) (out : Element) (spots : List (Path × Path)) :
    Prop where
  /-- The document is made of clones, of leaves with an entry that is present and
  of shells, and these are its clones. -/
  made : ∃ copies, (∀ copy ∈ copies,
      layout.Faithful (· ∈ layout.deepClones line) (layout.Opened line) copy) ∧
    out = { layout.root with children := Copy.elementsOf layout.root copies } ∧
    spots = Copy.spotsOf layout.root [] 0 copies
  identical : ∀ spot ∈ spots,
    out.descendant? spot.1 = some (layout.root.descendant spot.2)
  sorted : (spots.map Prod.fst).Pairwise Before

/-- Every document that a run leaves behind has its clones. -/
theorem clones_assemble {line : Line}
    (hLine : ∀ entry ∈ line, 1 ≤ entry.1.index ∧ entry.1.index ≤ layout.count) :
    layout.Clones line (layout.assemble (layout.itinerary line))
      (Copy.spotsOf layout.root [] 0 (layout.copied (layout.itinerary line))) := by
  have hFaithful := @faithful_copied layout _ _ _ fun visit hVisit => itinerary_fits hLine hVisit
  refine ⟨⟨_, hFaithful, rfl, rfl⟩, fun spot hSpot => ?_,
    (Copy.spotsOf_spread layout.root [] 0 _).sorted⟩
  refine Copy.descendant?_of_mem_spotsOf layout.root _ (fun k e hChild => ?_) hSpot
  rw [assemble_eq]
  simpa [Element.descendant?] using hChild

/-- What stands in a document as a clone was cloned. -/
theorem Clones.source_mem {line : Line} {out : Element} {spots : List (Path × Path)}
    (h : layout.Clones line out spots) {spot : Path × Path} (hSpot : spot ∈ spots) :
    spot.2 ∈ layout.deepClones line := by
  obtain ⟨copies, hCopies, -, rfl⟩ := h.made
  have hMem : spot.2 ∈ Copy.clonesOf copies := by
    rw [← Copy.spotsOf_sources layout.root [] 0]
    exact List.mem_map_of_mem hSpot
  exact cloned_of_mem_clonesOf copies hCopies hMem

end Layout

/-! ### Tapes of a document's own line -/

/-- Whether every entry of a tape points where an entry of the line does. -/
def Line.PointsInto (tape line : Line) : Prop :=
  ∀ entry ∈ tape, entry.1 ∈ line.map Prod.fst

instance (tape line : Line) : Decidable (Line.PointsInto tape line) :=
  inferInstanceAs (Decidable (∀ entry ∈ tape, entry.1 ∈ line.map Prod.fst))

namespace Layout

variable {format : Format} {root : Element} {content : Content} {line tape : Line}
  (h : flatten format root = .ok (content, line))

theorem bounds_of_pointsInto (hTape : Line.PointsInto tape line) :
    ∀ entry ∈ tape, 1 ≤ entry.1.index ∧ entry.1.index ≤ (ofLine h).count := by
  intro entry hEntry
  obtain ⟨source, hSource, hSame⟩ := List.mem_map.1 (hTape entry hEntry)
  obtain ⟨hPos, hCount, -⟩ := mem_ofLine h hSource
  rw [← hSame]
  exact ⟨hPos, hCount⟩

/-- A tape of a document's own line is rebuilt along its itinerary. -/
theorem enforce_ofLine (hTape : Line.PointsInto tape line) :
    ∃ boundaries, Boundaries.ofLine root line = .ok boundaries ∧
      enforce root tape boundaries format =
        .ok ((ofLine h).assemble ((ofLine h).itinerary tape)) := by
  obtain ⟨boundaries, hBoundaries, charted⟩ := exists_charted _ (leavesOf_ofLine h)
  exact ⟨boundaries, hBoundaries, enforce_eq_assemble charted (bounds_of_pointsInto h hTape)⟩

end Layout

end Infill
