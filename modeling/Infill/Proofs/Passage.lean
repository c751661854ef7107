import Infill.Proofs.Batches
import Infill.Proofs.Trail

/-!
A run over a line that never goes back passes through the document once. It
comes to every leaf and to every subtree off the paths in document order, and
what it does there depends on that place and on the entries of the leaf alone.
-/
namespace Infill

open Infill.Xml

namespace Line

/-- The entries of a leaf that are present. -/
def presentAt (line : Line) (index : Nat) : Line :=
  line.filter fun entry => IsPresent entry ∧ entry.1.index = index

/-- What a leaf is written with, if it has an entry that is present. -/
def textFor (line : Line) (index : Nat) : Option (Option (List String)) :=
  if line.presentAt index = [] then none
  else some (OpenLeaf.collect {} (line.presentAt index)).text?

variable {line : Line} {entry : Pointer × String} {index : Nat}

theorem presentAt_cons_of_ne (h : ¬ (IsPresent entry ∧ entry.1.index = index)) :
    presentAt (entry :: line) index = line.presentAt index :=
  List.filter_cons_of_neg (by simpa using h)

theorem presentAt_cons_self (h : IsPresent entry) :
    presentAt (entry :: line) entry.1.index = entry :: line.presentAt entry.1.index :=
  List.filter_cons_of_pos (by simpa using h)

theorem presentAt_eq_nil : line.presentAt index = [] ↔ ¬ line.Opens index := by
  rw [presentAt, List.filter_eq_nil_iff, Opens]
  simp

theorem isSome_textFor : (line.textFor index).isSome = true ↔ line.Opens index := by
  rw [textFor]
  by_cases h : line.presentAt index = []
  · simpa [h] using presentAt_eq_nil.1 h
  · rw [if_neg h]
    simpa using fun hNot => h (presentAt_eq_nil.2 hNot)

theorem textFor_congr {other : Line} (h : line.presentAt index = other.presentAt index) :
    line.textFor index = other.textFor index := by
  rw [textFor, textFor, h]

end Line

namespace Course

variable {course : Course} {entry : Pointer × String}

/-- A run that goes forward writes the leaf that is open and goes to the next. -/
theorem step_ahead (hPresent : Line.IsPresent entry)
    (hSeen : (course.see entry.1.position).restart = none)
    (hLess : course.standing < entry.1.index) :
    (course.step entry.1 entry.2).1.restart = none ∧
      (course.step entry.1 entry.2).1.standing = entry.1.index ∧
      (course.step entry.1 entry.2).1.leaf = some (OpenLeaf.collect {} [entry]) ∧
      (course.step entry.1 entry.2).2 = course.flush ++ course.advance entry.1.index := by
  have hMove : (course.see entry.1.position).move entry.1.index =
      ((course.see entry.1.position).openLeaf entry.1.index,
        course.flush ++ course.advance entry.1.index) :=
    move_forward (by rwa [frontier_of_none hSeen])
  rw [step_of_present hPresent, hMove]
  exact ⟨rfl, rfl, by simp [collect, openLeaf, OpenLeaf.collect], rfl⟩

/-- A run that goes forward stays on a leaf for the rest of its entries. -/
theorem step_here (hPresent : Line.IsPresent entry)
    (hSeen : (course.see entry.1.position).restart = none)
    (hHere : course.standing = entry.1.index) :
    (course.step entry.1 entry.2).1.restart = none ∧
      (course.step entry.1 entry.2).1.standing = entry.1.index ∧
      (course.step entry.1 entry.2).1.leaf = course.leaf.map (·.collect [entry]) ∧
      (course.step entry.1 entry.2).2 = [] := by
  rw [step_of_present hPresent, move_stay (.inr ⟨hSeen, hHere.ge⟩)]
  refine ⟨rfl, hHere, ?_, rfl⟩
  simp [collect, see, OpenLeaf.collect]

end Course

namespace Layout

variable {layout : Layout}

/-- What a run does at a leaf when it passes through the document once. -/
def stop (layout : Layout) (line : Line) (key : Nat) : Visit :=
  match line.textFor key with
  | some text => .fill (layout.floor key) (layout.path key) text
  | none => .pass (layout.floor key) ((layout.path key).take (layout.level key))

/-- What a run does between the leaf in front of `key` and behind the leaf `key`. -/
def stage (layout : Layout) (line : Line) (key : Nat) : List Visit :=
  (layout.gap (key - 1)).map (.clone (layout.floor key)) ++ [layout.stop line key]

/-- What a run does behind the leaf `start` up to the end. -/
def stagesFrom (layout : Layout) (line : Line) (start : Nat) : List Visit :=
  (List.range' (start + 1) (layout.count - start)).flatMap (layout.stage line) ++
    (layout.gap layout.count).map (.clone (layout.floor (layout.count + 1)))

theorem stage_congr {line other : Line} {key : Nat}
    (h : line.presentAt key = other.presentAt key) :
    layout.stage line key = layout.stage other key := by
  rw [stage, stage, stop, stop, Line.textFor_congr h]

theorem stage_eq_passing {line : Line} {key : Nat} (h : line.presentAt key = []) :
    layout.stage line key = layout.passing key := by
  rw [stage, stop, Line.textFor, if_pos h, passing]

theorem stagesFrom_congr {line other : Line} {start : Nat}
    (h : ∀ key, start < key → line.presentAt key = other.presentAt key) :
    layout.stagesFrom line start = layout.stagesFrom other start := by
  rw [stagesFrom, stagesFrom]
  congr 1
  apply List.flatMap_congr
  intro key hKey
  have := List.mem_range'_1.1 hKey
  exact stage_congr (h key (by omega))

/-- The leaves up to the next one with an entry that is present are passed by. -/
theorem stagesFrom_split {line : Line} {start key : Nat} (hLess : start < key)
    (hCount : key ≤ layout.count)
    (hNone : ∀ other, start < other → other < key → line.presentAt other = []) :
    layout.stagesFrom line start =
      layout.passingTo start key ++ layout.stage line key ++ layout.stagesFrom line key := by
  have hRange : List.range' (start + 1) (layout.count - start) =
      List.range' (start + 1) (key - (start + 1)) ++ key ::
        List.range' (key + 1) (layout.count - key) := by
    have hFirst := @List.range'_append_1 (start + 1) (key - (start + 1)) (layout.count - key + 1)
    rw [show start + 1 + (key - (start + 1)) = key by omega, List.range'_succ,
      show key - (start + 1) + (layout.count - key + 1) = layout.count - start by omega] at hFirst
    exact hFirst.symm
  have hPassing : (List.range' (start + 1) (key - (start + 1))).flatMap (layout.stage line) =
      layout.passingTo start key := by
    apply List.flatMap_congr
    intro other hOther
    have := List.mem_range'_1.1 hOther
    exact stage_eq_passing (hNone other (by omega) (by omega))
  rw [stagesFrom, hRange, List.flatMap_append, hPassing, List.flatMap_cons, stagesFrom]
  simp only [List.append_assoc]

/-- Without entries that are present all leaves are passed by. -/
theorem stagesFrom_of_absent {line : Line} {start : Nat} (hStart : start ≤ layout.count)
    (hNone : ∀ key, start < key → line.presentAt key = []) :
    layout.stagesFrom line start =
      layout.visits (Leg.crossings (layout.count + 1) (start + 1) (layout.count + 1 - start)) := by
  rw [visits_crossings (Nat.lt_add_one_of_le hStart) (Nat.le_refl _), stagesFrom, passingTo,
    show layout.count + 1 - (start + 1) = layout.count - start by omega, Nat.add_sub_cancel]
  congr 1
  apply List.flatMap_congr
  intro key hKey
  have := List.mem_range'_1.1 hKey
  exact stage_eq_passing (hNone key (by omega))

/-- What is still ahead of a run that goes forward: it writes the leaf that is open
with what is left of its entries, and passes through the rest of the document. -/
def ahead (layout : Layout) (course : Course) (line : Line) : List Visit :=
  layout.visits (course.leaf.map fun leaf => Leg.fill course.standing
      (leaf.collect (line.presentAt course.standing)).text?).toList ++
    layout.stagesFrom line course.standing

section

variable {course : Course} {entry : Pointer × String} {line : Line}

/-- At the end of a line the leaf that is open is written, and all others are
passed by. -/
theorem ahead_nil (hStanding : course.standing ≤ layout.count) :
    layout.ahead course [] =
      layout.visits (course.flush ++ course.advance (layout.count + 1)) := by
  rw [ahead, stagesFrom_of_absent hStanding fun _ _ => rfl, visits_append, Course.flush,
    Course.advance]
  cases course.leaf with
  | none => rfl
  | some leaf => rw [Option.map_some, Line.presentAt, List.filter_nil, OpenLeaf.collect_nil]; rfl

/-- An entry that is dropped changes nothing. -/
theorem ahead_of_absent (hAbsent : ¬ Line.IsPresent entry) :
    layout.ahead course (entry :: line) =
      layout.visits (course.step entry.1 entry.2).2 ++
        layout.ahead (course.step entry.1 entry.2).1 line := by
  have hSame : ∀ key, Line.presentAt (entry :: line) key = Line.presentAt line key :=
    fun key => Line.presentAt_cons_of_ne fun h => hAbsent h.1
  rw [Course.step_of_absent hAbsent, visits_nil, List.nil_append, ahead, ahead, hSame,
    stagesFrom_congr fun key _ => hSame key]
  rfl

theorem stagesFrom_cons_self :
    layout.stagesFrom (entry :: line) entry.1.index = layout.stagesFrom line entry.1.index := by
  apply stagesFrom_congr
  intro key hKey
  exact Line.presentAt_cons_of_ne fun h => by omega

/-- An entry of the leaf that is open is written with it. -/
theorem ahead_of_here (hPresent : Line.IsPresent entry)
    (hSeen : (course.see entry.1.position).restart = none)
    (hHere : course.standing = entry.1.index) :
    layout.ahead course (entry :: line) =
      layout.visits (course.step entry.1 entry.2).2 ++
        layout.ahead (course.step entry.1 entry.2).1 line := by
  obtain ⟨-, hStanding, hLeaf, hLegs⟩ := Course.step_here hPresent hSeen hHere
  rw [ahead, ahead, hStanding, hLeaf, hLegs, hHere, stagesFrom_cons_self,
    Line.presentAt_cons_self hPresent]
  cases course.leaf with
  | none => rfl
  | some leaf => simp [OpenLeaf.collect, Bool.or_assoc]

/-- An entry of a later leaf makes the run write the leaf that is open and pass by
what lies in between. -/
theorem ahead_of_lt (hPresent : Line.IsPresent entry)
    (hSeen : (course.see entry.1.position).restart = none)
    (hLess : course.standing < entry.1.index) (hCount : entry.1.index ≤ layout.count)
    (hLater : ∀ other ∈ line, entry.1.index ≤ other.1.index) :
    layout.ahead course (entry :: line) =
      layout.visits (course.step entry.1 entry.2).2 ++
        layout.ahead (course.step entry.1 entry.2).1 line := by
  obtain ⟨-, hStanding, hLeaf, hLegs⟩ := Course.step_ahead hPresent hSeen hLess
  -- the leaf that is open has no entry any more, nor have those that are passed by
  have hNone : ∀ key, key < entry.1.index → Line.presentAt (entry :: line) key = [] := by
    intro key hKey
    rw [Line.presentAt_eq_nil]
    rintro ⟨other, hMem, -, rfl⟩
    rcases List.mem_cons.1 hMem with rfl | hMem
    · exact Nat.lt_irrefl _ hKey
    · exact absurd (hLater other hMem) (Nat.not_le_of_lt hKey)
  have hStop : layout.stop (entry :: line) entry.1.index =
      .fill (layout.floor entry.1.index) (layout.path entry.1.index)
        ((OpenLeaf.collect {} [entry]).collect (Line.presentAt line entry.1.index)).text? := by
    rw [stop, Line.textFor, Line.presentAt_cons_self hPresent, if_neg (List.cons_ne_nil _ _)]
    simp [OpenLeaf.collect]
  rw [ahead, ahead, hStanding, hLeaf, hLegs, stagesFrom_split hLess hCount fun key _ => hNone key,
    stage, hStop, stagesFrom_cons_self, hNone course.standing hLess, visits_append, Course.advance,
    visits_crossings hLess (hCount.trans (Nat.le_succ _)), Course.flush]
  cases course.leaf with
  | none => simp [Leg.visits]
  | some leaf => simp [Leg.visits, OpenLeaf.text?]

end

/-- A run over a line that never goes back does what is ahead of it. -/
theorem visits_read {course : Course} {line : Line} (hValid : course.Valid layout.count)
    (hRestart : course.restart = none)
    (hPlaces : ∀ entry ∈ line, 1 ≤ entry.1.index ∧ entry.1.index ≤ layout.count)
    (hLast : ∀ last ∈ course.lastSeen, ∀ entry ∈ line, entry.1.position.before last = false)
    (hLine : Line.IsForward line) :
    layout.visits ((course.read line).2 ++ (course.read line).1.flush ++
        (course.read line).1.advance (layout.count + 1)) = layout.ahead course line := by
  induction line generalizing course with
  | nil =>
    rw [ahead_nil hValid.toBounded.grounded.standing_le]
    rfl
  | cons entry line ih =>
    obtain ⟨hFirst, hRest⟩ := List.pairwise_cons.1 hLine
    obtain ⟨hPos, hCount⟩ := hPlaces entry List.mem_cons_self
    have hLater := Line.IsForward.le_index hLine
    have hSeen : (course.see entry.1.position).restart = none := by
      rw [Course.see_of_forward fun last hSome => hLast last hSome entry List.mem_cons_self]
      exact hRestart
    have hSteady : course.standing ≤ entry.1.index := hValid.isSteady.standing_le_of_see hSeen
    have hStep : (course.step entry.1 entry.2).1.restart = none ∧
        layout.ahead course (entry :: line) = layout.visits (course.step entry.1 entry.2).2 ++
          layout.ahead (course.step entry.1 entry.2).1 line := by
      by_cases hPresent : Line.IsPresent entry
      · rcases Nat.lt_or_eq_of_le hSteady with hLess | hHere
        · exact ⟨(Course.step_ahead hPresent hSeen hLess).1,
            ahead_of_lt hPresent hSeen hLess hCount hLater⟩
        · exact ⟨(Course.step_here hPresent hSeen hHere).1, ahead_of_here hPresent hSeen hHere⟩
      · refine ⟨?_, ahead_of_absent hPresent⟩
        rw [Course.step_of_absent hPresent]
        exact hSeen
    have hNext := ih (hValid.step entry.2 hPos hCount) hStep.1
      (fun other hOther => hPlaces other (List.mem_cons_of_mem _ hOther))
      (fun last hSome other hOther => by
        rw [Course.lastSeen_step] at hSome
        obtain rfl := Option.some.inj hSome
        exact hFirst other hOther) hRest
    rw [Course.read, hStep.2, ← hNext, ← visits_append]
    dsimp only
    rw [List.append_assoc, List.append_assoc, List.append_assoc]

/-- A line that never goes back makes a run pass through the document once. -/
theorem itinerary_eq_stagesFrom {line : Line}
    (hPlaces : ∀ entry ∈ line, 1 ≤ entry.1.index ∧ entry.1.index ≤ layout.count)
    (hLine : Line.IsForward line) : layout.itinerary line = layout.stagesFrom line 0 := by
  have hRead := visits_read (Course.Valid.start layout.count) rfl hPlaces (by simp) hLine
  simpa [itinerary, Leg.ofLine, ahead] using hRead

/-! ### The places on the way -/

/-- The leaves and the subtrees off the paths, in document order. -/
def way (layout : Layout) : List Path :=
  (List.range' 1 layout.count).flatMap (fun key => layout.gap (key - 1) ++ [layout.path key]) ++
    layout.gap layout.count

/-- What a run that passes through the document does at a place on the way. -/
def visitAt (layout : Layout) (line : Line) (x : Path) : Visit :=
  if x ∈ layout.leaves then layout.stop line (layout.rank x + 1)
  else .clone (layout.floor (layout.rank x + 1)) x

theorem rank_path {key : Nat} (hPos : 1 ≤ key) (hCount : key ≤ layout.count) :
    layout.rank (layout.path key) + 1 = key := by
  rw [(EndsAt.leaf hPos hCount).rank_eq]
  omega

theorem visitAt_path (line : Line) {key : Nat} (hPos : 1 ≤ key) (hCount : key ≤ layout.count) :
    layout.visitAt line (layout.path key) = layout.stop line key := by
  rw [visitAt, if_pos (path_mem hPos hCount), rank_path hPos hCount]

theorem OffPath.not_mem_leaves {x : Path} (h : layout.OffPath x) : x ∉ layout.leaves :=
  fun hLeaf => h.free x hLeaf List.prefix_rfl

theorem OffPath.visitAt {x : Path} (h : layout.OffPath x) (line : Line) :
    layout.visitAt line x = .clone (layout.floor (layout.rank x + 1)) x := by
  rw [Layout.visitAt, if_neg h.not_mem_leaves]

theorem map_visitAt_gap (line : Line) {index : Nat} (hIndex : index ≤ layout.count) :
    (layout.gap index).map (layout.visitAt line) =
      (layout.gap index).map (.clone (layout.floor (index + 1))) := by
  apply List.map_congr_left
  intro x hx
  obtain ⟨hOff, hRank⟩ := (mem_gap hIndex).1 hx
  rw [hOff.visitAt line, hRank]

/-- A run over a line that never goes back comes to every place on the way once
and in order. -/
theorem itinerary_forward {line : Line}
    (hPlaces : ∀ entry ∈ line, 1 ≤ entry.1.index ∧ entry.1.index ≤ layout.count)
    (hLine : Line.IsForward line) :
    layout.itinerary line = layout.way.map (layout.visitAt line) := by
  rw [itinerary_eq_stagesFrom hPlaces hLine, stagesFrom, way, List.map_append, List.map_flatMap,
    map_visitAt_gap line (Nat.le_refl _), Nat.sub_zero]
  congr 1
  apply List.flatMap_congr
  intro key hKey
  have hKey := List.mem_range'_1.1 hKey
  rw [stage, List.map_append, List.map_singleton, visitAt_path line hKey.1 (by omega),
    map_visitAt_gap line (by omega), show key - 1 + 1 = key by omega]

theorem mem_way {x : Path} : x ∈ layout.way ↔ x ∈ layout.leaves ∨ layout.OffPath x := by
  rw [way, List.mem_append, List.mem_flatMap]
  constructor
  · rintro (⟨key, hKey, hx⟩ | hx)
    · have hKey := List.mem_range'_1.1 hKey
      rcases List.mem_append.1 hx with hx | hx
      · exact .inr ((mem_gap (by omega)).1 hx).1
      · rw [List.mem_singleton.1 hx]
        exact .inl (path_mem hKey.1 (by omega))
    · exact .inr ((mem_gap (Nat.le_refl _)).1 hx).1
  · rintro (hLeaf | hOff)
    · obtain ⟨key, hPos, hCount, rfl⟩ := exists_path_eq hLeaf
      exact .inl ⟨key, List.mem_range'_1.2 (by omega), by simp⟩
    · rcases Nat.lt_or_eq_of_le (layout.rank_le x) with hLess | hLast
      · refine .inl ⟨layout.rank x + 1, List.mem_range'_1.2 (by omega), ?_⟩
        exact List.mem_append_left _ hOff.mem_gap
      · exact .inr (hLast ▸ hOff.mem_gap)

/-- A leaf stands behind what lies between the leaves in front of it, and in
front of what lies behind it. -/
theorem way_sorted (layout : Layout) : layout.way.Pairwise Path.Before := by
  have hBefore : ∀ {x : Path} {index key : Nat}, x ∈ layout.gap index → index < key →
      1 ≤ key → key ≤ layout.count → Path.Before x (layout.path key) := by
    intro x index key hx hLess hPos hCount
    obtain ⟨hOff, hRank⟩ := (mem_gap (by omega)).1 hx
    exact (hOff.before_iff_rank_lt hPos hCount).2 (by omega)
  have hBehind : ∀ {x : Path} {index key : Nat}, x ∈ layout.gap index → index ≤ layout.count →
      1 ≤ key → key ≤ index → Path.Before (layout.path key) x := by
    intro x index key hx hIndex hPos hKey
    obtain ⟨-, hRank⟩ := (mem_gap hIndex).1 hx
    exact (before_iff_le_rank hPos (by omega)).2 (by omega)
  rw [way, List.pairwise_append, List.pairwise_flatMap]
  refine ⟨⟨fun key hKey => ?_, ?_⟩, layout.gap_sorted _, fun x hx y hy => ?_⟩
  · have hKey := List.mem_range'_1.1 hKey
    refine List.pairwise_append.2 ⟨layout.gap_sorted _, List.pairwise_singleton _ _, ?_⟩
    intro x hx y hy
    rw [List.mem_singleton.1 hy]
    exact hBefore hx (by omega) hKey.1 (by omega)
  · refine (List.pairwise_lt_range').imp_of_mem fun {i j} hi hj hij x hx y hy => ?_
    have hi := List.mem_range'_1.1 hi
    have hj := List.mem_range'_1.1 hj
    -- the leaf of the first of the two is not behind the first place, and in front of the second
    have hSecond : Path.Before (layout.path i) y := by
      rcases List.mem_append.1 hy with hy | hy
      · exact hBehind hy (by omega) hi.1 (by omega)
      · rw [List.mem_singleton.1 hy]
        exact path_before hi.1 hij (by omega)
    rcases List.mem_append.1 hx with hx | hx
    · exact (hBefore hx (by omega) hi.1 (by omega)).trans hSecond
    · rwa [List.mem_singleton.1 hx]
  · obtain ⟨key, hKey, hx⟩ := List.mem_flatMap.1 hx
    have hKey := List.mem_range'_1.1 hKey
    have hSecond : Path.Before (layout.path key) y := hBehind hy (Nat.le_refl _) hKey.1 (by omega)
    rcases List.mem_append.1 hx with hx | hx
    · exact (hBefore hx (by omega) hKey.1 (by omega)).trans hSecond
    · rwa [List.mem_singleton.1 hx]

end Layout

end Infill
