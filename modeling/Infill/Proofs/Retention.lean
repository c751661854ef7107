import Infill.Proofs.KeptPieces

/-!
A run applies every boundary at least once, so no content off the paths to the
leaves is missing in the document that it leaves behind. A line that never goes
back applies every boundary once.
-/
namespace Infill

open Infill.Xml

/-! ### Every boundary is applied -/

namespace Course

variable {course : Course} {index key : Nat}

theorem cross_mem_advance {target : Nat} (hLow : course.standing < key) (hHigh : key ≤ target) :
    Leg.cross key target ∈ course.advance target := by
  rw [advance, Leg.crossings, List.mem_map]
  exact ⟨key, List.mem_range'_1.2 (by omega), rfl⟩

/-- A move crosses every boundary up to the leaf it leads to that the run had
not passed. -/
theorem cross_mem_move (hLow : course.standing < key) (hHigh : key ≤ (course.move index).1.standing) :
    ∃ target, Leg.cross key target ∈ (course.move index).2 := by
  rcases course.move_cases index with hForward | ⟨restart, hRestart, hReach, hOther⟩ | hStays
  · rw [move_forward hForward] at hHigh ⊢
    exact ⟨index, List.mem_append_right _ (cross_mem_advance hLow hHigh)⟩
  · rw [move_back hRestart hReach hOther] at hHigh ⊢
    have hExit : key ≤ max course.reach course.standing :=
      (Nat.le_trans hHigh hReach).trans (Nat.le_max_left _ _)
    refine ⟨max course.reach course.standing, ?_⟩
    rw [reenter, List.append_assoc]
    exact List.mem_append_right _ (List.mem_append_left _ (cross_mem_advance hLow hExit))
  · rw [move_stay hStays] at hHigh
    exact absurd hHigh (Nat.not_le_of_lt hLow)

theorem cross_mem_step {pointer : Pointer} {text : String} (hLow : course.standing < key)
    (hHigh : key ≤ (course.step pointer text).1.standing) :
    ∃ target, Leg.cross key target ∈ (course.step pointer text).2 := by
  rw [step] at hHigh ⊢
  dsimp only at hHigh ⊢
  split at hHigh
  · exact absurd hHigh (Nat.not_le_of_lt hLow)
  · rw [if_neg ‹_›]
    exact @cross_mem_move (course.see pointer.position) pointer.index key hLow hHigh

theorem cross_mem_read {line : Line} (hLow : course.standing < key)
    (hHigh : key ≤ (course.read line).1.standing) :
    ∃ target, Leg.cross key target ∈ (course.read line).2 := by
  induction line generalizing course with
  | nil => exact absurd hHigh (Nat.not_le_of_lt hLow)
  | cons entry line ih =>
    obtain ⟨pointer, text⟩ := entry
    rw [read] at hHigh ⊢
    dsimp only at hHigh ⊢
    by_cases hNext : key ≤ (course.step pointer text).1.standing
    · obtain ⟨target, hCross⟩ := cross_mem_step hLow hNext
      exact ⟨target, List.mem_append_left _ hCross⟩
    · obtain ⟨target, hCross⟩ := ih (Nat.lt_of_not_le hNext) hHigh
      exact ⟨target, List.mem_append_right _ hCross⟩

end Course

/-- Whatever the entries of a line, its run applies every boundary. -/
theorem Leg.cross_mem_ofLine {count key : Nat} (line : Line) (hLow : 1 ≤ key)
    (hHigh : key ≤ count + 1) : ∃ target, Leg.cross key target ∈ Leg.ofLine count line := by
  rw [Leg.ofLine]
  by_cases hRead : key ≤ (Course.read {} line).1.standing
  · obtain ⟨target, hCross⟩ := @Course.cross_mem_read {} key line hLow hRead
    exact ⟨target, List.mem_append_left _ (List.mem_append_left _ hCross)⟩
  · exact ⟨count + 1, List.mem_append_right _
      (Course.cross_mem_advance (Nat.lt_of_not_le hRead) hHigh)⟩

/-- Every subtree off the paths that is content is cloned into the document. -/
theorem Layout.OffPath.mem_clones {layout : Layout} {x : Path} (h : layout.OffPath x)
    (hKept : layout.isKept x = true) (line : Line) :
    x ∈ Copy.clonesOf (layout.copied (layout.itinerary line)) := by
  obtain ⟨target, hCross⟩ := @Leg.cross_mem_ofLine layout.count (layout.rank x + 1) line
    (Nat.succ_pos (layout.rank x)) (Nat.succ_le_succ (Layout.rank_le layout x))
  have hVisit : Visit.clone (layout.floor (layout.rank x + 1)) x ∈ layout.itinerary line :=
    List.mem_flatMap.2 ⟨_, hCross,
      List.mem_append_left _ (List.mem_map.2 ⟨x, by simpa using h.mem_gap, rfl⟩)⟩
  have hCloned : x ∈ layout.kept ((layout.itinerary line).filterMap Visit.cloned?) :=
    List.mem_filter.2 ⟨List.mem_filterMap.2 ⟨_, hVisit, rfl⟩, hKept⟩
  rw [← Layout.kept_clonesOf_copied] at hCloned
  exact (List.mem_filter.1 hCloned).1

/-! ### Lines that never go back -/

/-- Whether no entry of a line stands in front of an earlier one. -/
def Line.IsForward (line : Line) : Prop :=
  line.Pairwise fun first second => second.1.position.before first.1.position = false

/-- The entries behind the first one do not point to leaves in front of its leaf. -/
theorem Line.IsForward.le_index {entry : Pointer × String} {line : Line}
    (h : Line.IsForward (entry :: line)) : ∀ other ∈ line, entry.1.index ≤ other.1.index := by
  intro other hOther
  have hNot := (List.pairwise_cons.1 h).1 other hOther
  rw [Bool.eq_false_iff, Ne, Position.before_iff] at hNot
  simp only [Pointer.position] at hNot
  omega

instance (line : Line) : Decidable (Line.IsForward line) :=
  inferInstanceAs (Decidable (line.Pairwise fun first second =>
    second.1.position.before first.1.position = false))

namespace Layout

variable {layout : Layout}

/-- What legs clone, in order. -/
def cloned (layout : Layout) (legs : List Leg) : List Path :=
  (layout.visits legs).filterMap Visit.cloned?

@[simp] theorem cloned_append (left right : List Leg) :
    layout.cloned (left ++ right) = layout.cloned left ++ layout.cloned right := by
  simp [cloned]

theorem filterMap_cloned_clone (floor : Option Nat) (paths : List Path) :
    (paths.map (Visit.clone floor)).filterMap Visit.cloned? = paths := by
  induction paths with
  | nil => rfl
  | cons path paths ih => simp [Visit.cloned?, ih]

theorem filterMap_cloned_stopover (key target : Nat) :
    (layout.stopover key target).filterMap Visit.cloned? = [] := by
  rw [stopover]
  split <;> rfl

theorem cloned_crossings (target key count : Nat) :
    layout.cloned (Leg.crossings target key count) =
      (List.range' key count).flatMap fun key => layout.gap (key - 1) := by
  induction count generalizing key with
  | zero => rfl
  | succ count ih =>
    rw [Leg.crossings, List.range'_succ, List.map_cons, ← Leg.crossings, List.flatMap_cons, ← ih,
      cloned, cloned, visits_cons, List.filterMap_append, Leg.visits, List.filterMap_append,
      filterMap_cloned_clone, filterMap_cloned_stopover, List.append_nil]

theorem cloned_flush (course : Course) : layout.cloned course.flush = [] := by
  rw [Course.flush]
  cases course.leaf <;> rfl

/-- What lies behind the leaves from one on up to another one. -/
def gaps (layout : Layout) (start stop : Nat) : List Path :=
  (List.range' (start + 1) (stop - start)).flatMap fun key => layout.gap (key - 1)

theorem gaps_append {start middle stop : Nat} (hStart : start ≤ middle) (hStop : middle ≤ stop) :
    layout.gaps start middle ++ layout.gaps middle stop = layout.gaps start stop := by
  rw [gaps, gaps, gaps, ← List.flatMap_append]
  congr 1
  have hRange := @List.range'_append_1 (start + 1) (middle - start) (stop - middle)
  rw [show start + 1 + (middle - start) = middle + 1 by omega,
    show middle - start + (stop - middle) = stop - start by omega] at hRange
  exact hRange

theorem gaps_self (layout : Layout) (index : Nat) : layout.gaps index index = [] := by
  simp [gaps]

/-- All that lies between leaves stands in document order. -/
theorem gaps_sorted {start stop : Nat} (hStop : stop ≤ layout.count + 1) :
    (layout.gaps start stop).Pairwise Path.Before := by
  rw [gaps, List.pairwise_flatMap]
  refine ⟨fun key _ => layout.gap_sorted _, ?_⟩
  have hBound : ∀ key ∈ List.range' (start + 1) (stop - start), 1 ≤ key ∧ key ≤ layout.count + 1 :=
    fun key hKey => by have := List.mem_range'_1.1 hKey; omega
  refine (List.pairwise_lt_range').imp_of_mem fun {i j} hi hj hij x hx y hy => ?_
  -- the leaf that the first of the two leads to stands between them
  obtain ⟨hx, hxRank⟩ := (mem_gap (by have := hBound i hi; omega)).1 hx
  obtain ⟨-, hyRank⟩ := (mem_gap (by have := hBound j hj; omega)).1 hy
  have hPos := (hBound i hi).1
  have hCount : i ≤ layout.count := by have := hBound j hj; omega
  exact ((hx.before_iff_rank_lt hPos hCount).2 (by omega)).trans
    ((before_iff_le_rank hPos hCount).2 (by omega))

/-- A line that never goes back crosses each boundary once. -/
theorem cloned_read {course : Course} {line : Line} (hValid : course.Valid layout.count)
    (hPlaces : ∀ entry ∈ line, 1 ≤ entry.1.index ∧ entry.1.index ≤ layout.count)
    (hRestart : course.restart = none)
    (hLast : ∀ last ∈ course.lastSeen, ∀ entry ∈ line, entry.1.position.before last = false)
    (hLine : Line.IsForward line) :
    course.standing ≤ (course.read line).1.standing ∧
      layout.cloned (course.read line).2 =
        layout.gaps course.standing (course.read line).1.standing := by
  induction line generalizing course with
  | nil => exact ⟨Nat.le_refl _, (layout.gaps_self _).symm⟩
  | cons entry line ih =>
    obtain ⟨pointer, text⟩ := entry
    obtain ⟨hFirst, hRest⟩ := List.pairwise_cons.1 hLine
    obtain ⟨hPos, hCount⟩ := hPlaces (pointer, text) List.mem_cons_self
    have hSeen : (course.see pointer.position).restart = none := by
      have hForward : course.lastSeen.any (pointer.position.before ·) = false := by
        cases hSome : course.lastSeen with
        | none => rfl
        | some last => simpa using hLast last hSome (pointer, text) List.mem_cons_self
      simp [Course.see, hForward, hRestart]
    have hSteady : course.standing ≤ pointer.index := hValid.isSteady.standing_le_of_see hSeen
    have hStep : (course.step pointer text).1.restart = none ∧
        (course.step pointer text).1.lastSeen = some pointer.position ∧
        course.standing ≤ (course.step pointer text).1.standing ∧
        layout.cloned (course.step pointer text).2 =
          layout.gaps course.standing (course.step pointer text).1.standing := by
      rw [Course.step]
      dsimp only
      split
      · exact ⟨hSeen, rfl, Nat.le_refl _, (layout.gaps_self _).symm⟩
      · rcases Nat.lt_or_ge course.standing pointer.index with hLess | hHere
        · rw [Course.move_forward (by rwa [Course.frontier_of_none hSeen])]
          refine ⟨rfl, rfl, hSteady, ?_⟩
          rw [cloned_append, cloned_flush, List.nil_append, Course.advance, cloned_crossings]
          rfl
        · rw [Course.move_stay (.inr ⟨hSeen, hHere⟩)]
          exact ⟨rfl, rfl, Nat.le_refl _, (layout.gaps_self _).symm⟩
    obtain ⟨hNext, hNextLast, hNextStanding, hCloned⟩ := hStep
    obtain ⟨hStanding, hMore⟩ := ih (hValid.step text hPos hCount)
      (fun other hOther => hPlaces other (List.mem_cons_of_mem _ hOther)) hNext
      (fun last hSome other hOther => by
        rw [hNextLast] at hSome
        obtain rfl := Option.some.inj hSome
        exact hFirst other hOther)
      hRest
    refine ⟨hNextStanding.trans hStanding, ?_⟩
    rw [Course.read]
    dsimp only
    rw [cloned_append, hCloned, hMore, gaps_append hNextStanding hStanding]

/-- What a line that never goes back clones is what lies between the leaves,
each part once and in document order. -/
theorem cloned_ofLine {line : Line}
    (hPlaces : ∀ entry ∈ line, 1 ≤ entry.1.index ∧ entry.1.index ≤ layout.count)
    (hLine : Line.IsForward line) :
    (layout.itinerary line).filterMap Visit.cloned? = layout.gaps 0 (layout.count + 1) := by
  have hLast := (Course.Valid.start layout.count).read hPlaces
  obtain ⟨hStanding, hCloned⟩ :=
    cloned_read (Course.Valid.start layout.count) hPlaces rfl (by simp) hLine
  show layout.cloned (Leg.ofLine layout.count line) = _
  rw [Leg.ofLine]
  dsimp only
  rw [cloned_append, cloned_append, hCloned, cloned_flush, List.append_nil, Course.advance,
    cloned_crossings]
  exact gaps_append hStanding ((hLast.standing_le_reach.trans hLast.reach_le).trans
    (Nat.le_succ layout.count))

/-- Between the leaves lie the subtrees off the paths and nothing else. -/
theorem mem_gaps {x : Path} : x ∈ layout.gaps 0 (layout.count + 1) ↔ layout.OffPath x := by
  rw [gaps, List.mem_flatMap]
  constructor
  · rintro ⟨key, hKey, hx⟩
    have := List.mem_range'_1.1 hKey
    exact ((mem_gap (by omega)).1 hx).1
  · intro hx
    have hRank := layout.rank_le x
    exact ⟨layout.rank x + 1, List.mem_range'_1.2 (by omega), by simpa using hx.mem_gap⟩

/-- A line that never goes back leaves every subtree off the paths that is
content in the document once, in document order. -/
theorem kept_clonesOf_forward {line : Line}
    (hPlaces : ∀ entry ∈ line, 1 ≤ entry.1.index ∧ entry.1.index ≤ layout.count)
    (hLine : Line.IsForward line) :
    layout.kept (Copy.clonesOf (layout.copied (layout.itinerary line))) =
      layout.kept (layout.gaps 0 (layout.count + 1)) := by
  rw [kept_clonesOf_copied, cloned_ofLine hPlaces hLine]

theorem count_kept {x : Path} (hKept : layout.isKept x = true) (places : List Path) :
    (layout.kept places).count x = places.count x :=
  List.count_filter hKept

/-- Whether a document that a tape leaves behind has all content off the paths to the
leaves. Each such subtree stands in it as it was; and if the tape never goes back,
it stands there once, and all of them stand in document order. -/
structure KeepsContent (layout : Layout) (tape : Line) (out : Element)
    (spots : List (Path × Path)) : Prop where
  clones : layout.Clones tape out spots
  stands : ∀ x, layout.OffPath x → layout.isKept x = true →
    ∃ spot ∈ spots, spot.2 = x ∧ out.descendant? spot.1 = some (layout.root.descendant x)
  once : Line.IsForward tape → ∀ x, layout.OffPath x → layout.isKept x = true →
    (spots.map Prod.snd).count x = 1
  sorted : Line.IsForward tape → (layout.kept (spots.map Prod.snd)).Pairwise Path.Before

end Layout

variable {format : Format} {root : Element} {content : Content} {line tape : Line}

/-- No content off the paths to the leaves is lost, whatever the entries of the
tape and their order; and a tape that never goes back leaves each such subtree
in the document once, all of them in document order. -/
theorem content_off_paths_kept (h : flatten format root = .ok (content, line))
    (hTape : Line.PointsInto tape line) :
    ∃ boundaries out spots, Boundaries.ofLine root line = .ok boundaries ∧
      enforce root tape boundaries format = .ok out ∧
      (Layout.ofLine h).KeepsContent tape out spots := by
  obtain ⟨boundaries, hBoundaries, hEnforce⟩ := Layout.enforce_ofLine h hTape
  have hPlaces := Layout.bounds_of_pointsInto h hTape
  have hClones := Layout.clones_assemble hPlaces
  have hSorted : ((Layout.ofLine h).kept
      ((Layout.ofLine h).gaps 0 ((Layout.ofLine h).count + 1))).Pairwise Path.Before :=
    (Layout.gaps_sorted (Nat.le_refl _)).filter _
  refine ⟨boundaries, _, _, hBoundaries, hEnforce, hClones, fun x hx hKept => ?_,
    fun hForward x hx hKept => ?_, fun hForward => ?_⟩
  · have hMem := hx.mem_clones hKept tape
    rw [← Copy.spotsOf_sources (Layout.ofLine h).root [] 0] at hMem
    obtain ⟨spot, hSpot, rfl⟩ := List.mem_map.1 hMem
    exact ⟨spot, hSpot, rfl, hClones.identical spot hSpot⟩
  · rw [Copy.spotsOf_sources, ← Layout.count_kept hKept,
      Layout.kept_clonesOf_forward hPlaces hForward]
    exact List.count_eq_one_of_mem (Path.nodup_of_sorted hSorted)
      (List.mem_filter.2 ⟨Layout.mem_gaps.2 hx, hKept⟩)
  · rw [Copy.spotsOf_sources, Layout.kept_clonesOf_forward hPlaces hForward]
    exact hSorted

/-- An element of a word processing document. -/
def Docx.element (localPart : String) (text : Option String) (children : List Element) : Element :=
  ⟨"w:" ++ localPart, word localPart, [], text, none, children⟩

/-- A letter with a greeting, a picture and what lies behind its text. -/
def Docx.letter : Element :=
  element "body" none
    [element "p" none
      [element "pPr" none [], element "r" none [element "t" (some "Dear \x7b\x7bname\x7d\x7d") []],
        element "drawing" none []],
      element "sectPr" none []]

/-- The line of the letter. -/
def Docx.letterLine : Line :=
  [(⟨[0, 1, 0], false, 13, 0, 5, 1⟩, "Dear "), (⟨[0, 1, 0], false, 13, 5, 8, 1⟩, "\x7b\x7bname\x7d\x7d")]

theorem Docx.flatten_letter : flatten .docx Docx.letter = .ok (.template, Docx.letterLine) := by
  decide +kernel

/-- The letter as an engine renders it. -/
def Docx.letterTape : Line :=
  [(⟨[0, 1, 0], false, 13, 0, 5, 1⟩, "Dear "), (⟨[0, 1, 0], false, 13, 5, 8, 1⟩, "Ada")]

theorem content_off_paths_kept_letter :
    ∃ h : flatten .docx Docx.letter = .ok (.template, Docx.letterLine),
      Line.PointsInto Docx.letterTape Docx.letterLine ∧
      ∃ boundaries out spots, Boundaries.ofLine Docx.letter Docx.letterLine = .ok boundaries ∧
        enforce Docx.letter Docx.letterTape boundaries .docx = .ok out ∧
        (Layout.ofLine h).KeepsContent Docx.letterTape out spots :=
  ⟨Docx.flatten_letter, by decide, content_off_paths_kept Docx.flatten_letter (by decide)⟩

end Infill
