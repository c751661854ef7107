import Infill.Proofs.RunPosition
import Mathlib.Order.MinMax

/-!
The leaves that a run copies. An entry that is present opens a copy of its leaf
unless the run stands there with nothing behind it: what is dropped in front of
the leaf in between does not count. So the entries of a line fall into batches,
one for each copy, and a copy is written with its batch.
-/
namespace Infill

namespace Line

/-- The entries of a line that are present, behind entries of the leaf `index`
and of no leaf behind `reach`: those that go on with the copy of the leaf, and
batches for the copies that are opened. -/
def batchesFrom (index reach : Nat) : Line → Line × List Line
  | [] => ([], [])
  | entry :: line =>
    if IsPresent entry then
      let (rest, later) := batchesFrom entry.1.index entry.1.index line
      if entry.1.index = index ∧ reach = index then (entry :: rest, later)
      else ([], (entry :: rest) :: later)
    else batchesFrom index (max reach entry.1.index) line

/-- The entries that are present, one batch for each copy of a leaf. -/
def batches (line : Line) : List Line :=
  (batchesFrom 0 0 line).2

/-- The leaf of the first entry of a batch. -/
def lead (batch : Line) : Nat :=
  (batch.head?.map (·.1.index)).getD 0

variable {index reach : Nat} {entry : Pointer × String} {line : Line}

theorem batchesFrom_absent (h : ¬ IsPresent entry) :
    batchesFrom index reach (entry :: line) = batchesFrom index (max reach entry.1.index) line := by
  rw [batchesFrom, if_neg h]

theorem batchesFrom_joins (h : IsPresent entry) (hJoins : entry.1.index = index ∧ reach = index) :
    batchesFrom index reach (entry :: line) =
      (entry :: (batchesFrom entry.1.index entry.1.index line).1,
        (batchesFrom entry.1.index entry.1.index line).2) := by
  rw [batchesFrom, if_pos h]
  exact if_pos hJoins

theorem batchesFrom_opens (h : IsPresent entry) (hOpens : ¬ (entry.1.index = index ∧ reach = index)) :
    batchesFrom index reach (entry :: line) =
      ([], (entry :: (batchesFrom entry.1.index entry.1.index line).1) ::
        (batchesFrom entry.1.index entry.1.index line).2) := by
  rw [batchesFrom, if_pos h]
  exact if_neg hOpens

/-- No entry that is present is left out, and none is taken twice. -/
theorem batchesFrom_flatten (index reach : Nat) (line : Line) :
    (batchesFrom index reach line).1 ++ (batchesFrom index reach line).2.flatten =
      line.filter fun entry => IsPresent entry := by
  induction line generalizing index reach with
  | nil => rfl
  | cons entry line ih =>
    by_cases hPresent : IsPresent entry
    · rw [List.filter_cons_of_pos (by simpa using hPresent), ← ih entry.1.index entry.1.index]
      by_cases hJoins : entry.1.index = index ∧ reach = index
      · rw [batchesFrom_joins hPresent hJoins, List.cons_append]
      · rw [batchesFrom_opens hPresent hJoins, List.flatten_cons, List.nil_append, List.cons_append]
    · rw [batchesFrom_absent hPresent, ih, List.filter_cons_of_neg (by simpa using hPresent)]

/-- A batch begins with an entry, and holds entries of that one's leaf only. -/
theorem batchesFrom_uniform (index reach : Nat) (line : Line) :
    (∀ entry ∈ (batchesFrom index reach line).1, entry.1.index = index) ∧
      ∀ batch ∈ (batchesFrom index reach line).2, ∃ first rest, batch = first :: rest ∧
        ∀ entry ∈ rest, entry.1.index = first.1.index := by
  induction line generalizing index reach with
  | nil => exact ⟨by simp [batchesFrom], by simp [batchesFrom]⟩
  | cons entry line ih =>
    by_cases hPresent : IsPresent entry
    · obtain ⟨hRest, hLater⟩ := ih entry.1.index entry.1.index
      by_cases hJoins : entry.1.index = index ∧ reach = index
      · rw [batchesFrom_joins hPresent hJoins]
        refine ⟨?_, hLater⟩
        intro other hOther
        rcases List.mem_cons.1 hOther with rfl | hOther
        · exact hJoins.1
        · exact (hRest other hOther).trans hJoins.1
      · rw [batchesFrom_opens hPresent hJoins]
        refine ⟨by simp, ?_⟩
        intro batch hBatch
        rcases List.mem_cons.1 hBatch with rfl | hBatch
        · exact ⟨entry, _, rfl, hRest⟩
        · exact hLater batch hBatch
    · rw [batchesFrom_absent hPresent]
      exact ih index (max reach entry.1.index)

/-! ### Constants that are followed in their copy -/

/-- Whether the leaf of a constant entry is left for one behind it before the
next entry that is present comes back to it. -/
def Parts (line : Line) : Prop :=
  ∀ front constant middle entry back, line = front ++ constant :: (middle ++ entry :: back) →
    constant.1.isConstant = true → IsPresent entry → entry.1.index = constant.1.index →
      (∀ dropped ∈ middle, ¬ IsPresent dropped) →
        ∃ dropped ∈ middle, constant.1.index < dropped.1.index

/-- Whether something holds of the first entry of a line that is present and of
those in front of it, if there is such an entry. -/
def First (p : Line → Pointer × String → Prop) (line : Line) : Prop :=
  ∀ middle entry back, line = middle ++ entry :: back → IsPresent entry →
    (∀ dropped ∈ middle, ¬ IsPresent dropped) → p middle entry

variable {p : Line → Pointer × String → Prop}

theorem first_cons_of_present (h : IsPresent entry) : First p (entry :: line) ↔ p [] entry := by
  constructor
  · exact fun hFirst => hFirst [] entry line rfl h (by simp)
  · intro hEntry middle other back hLine _ hMiddle
    cases middle with
    | nil =>
      obtain ⟨rfl, -⟩ := List.cons.inj hLine
      exact hEntry
    | cons dropped middle =>
      obtain ⟨rfl, -⟩ := List.cons.inj hLine
      exact absurd h (hMiddle entry List.mem_cons_self)

theorem first_cons_of_absent (h : ¬ IsPresent entry) :
    First p (entry :: line) ↔ First (fun middle => p (entry :: middle)) line := by
  constructor
  · rintro hFirst middle other back rfl hOther hMiddle
    exact hFirst (entry :: middle) other back rfl hOther (List.forall_mem_cons.2 ⟨h, hMiddle⟩)
  · intro hFirst middle other back hLine hOther hMiddle
    cases middle with
    | nil =>
      obtain ⟨rfl, -⟩ := List.cons.inj hLine
      exact absurd hOther h
    | cons dropped middle =>
      obtain ⟨rfl, rfl⟩ := List.cons.inj hLine
      exact hFirst middle other back rfl hOther (List.forall_mem_cons.1 hMiddle).2

/-- A copy is gone on with by the next entry that is present, if it is one of the
same leaf and no leaf behind it was seen. -/
theorem batchesFrom_eq_nil (hReach : index ≤ reach) :
    (batchesFrom index reach line).1 = [] ↔
      First (fun middle entry => entry.1.index = index →
        index < reach ∨ ∃ dropped ∈ middle, index < dropped.1.index) line := by
  induction line generalizing reach with
  | nil => simp [batchesFrom, First]
  | cons first line ih =>
    by_cases hPresent : IsPresent first
    · rw [first_cons_of_present hPresent]
      by_cases hJoins : first.1.index = index ∧ reach = index
      · rw [batchesFrom_joins hPresent hJoins]
        simp [hJoins.1, hJoins.2]
      · rw [batchesFrom_opens hPresent hJoins]
        refine ⟨fun _ hIndex => .inl ?_, fun _ => rfl⟩
        omega
    · rw [batchesFrom_absent hPresent, ih (hReach.trans (Nat.le_max_left _ _)),
        first_cons_of_absent hPresent]
      simp only [lt_max_iff, List.exists_mem_cons_iff, or_assoc]

theorem parts_cons : Parts (entry :: line) ↔
    Parts line ∧ (entry.1.isConstant = true →
      (batchesFrom entry.1.index entry.1.index line).1 = []) := by
  rw [batchesFrom_eq_nil (Nat.le_refl _)]
  constructor
  · intro h
    refine ⟨?_, ?_⟩
    · rintro front constant middle other back rfl
      exact h (entry :: front) constant middle other back rfl
    · rintro hConstant middle other back rfl hOther hMiddle hIndex
      exact .inr (h [] entry middle other back rfl hConstant hOther hIndex hMiddle)
  · rintro ⟨hLine, hFirst⟩ front constant middle other back hSplit hConstant hOther hIndex hMiddle
    cases front with
    | nil =>
      obtain ⟨rfl, rfl⟩ := List.cons.inj hSplit
      exact (hFirst hConstant middle other back rfl hOther hMiddle hIndex).resolve_left
        (Nat.lt_irrefl _)
    | cons first front =>
      obtain ⟨rfl, rfl⟩ := List.cons.inj hSplit
      exact hLine front constant middle other back rfl hConstant hOther hIndex hMiddle

/-- Whether only the last entry may be constant. -/
def EndsConstant (batch : Line) : Prop :=
  ∀ entry ∈ batch.dropLast, entry.1.isConstant = false

theorem endsConstant_cons : EndsConstant (entry :: line) ↔
    EndsConstant line ∧ (entry.1.isConstant = true → line = []) := by
  cases line with
  | nil => simp [EndsConstant]
  | cons next line =>
    simp only [EndsConstant, List.dropLast_cons_cons, List.forall_mem_cons]
    simp [and_comm]

theorem parts_iff_batchesFrom (index reach : Nat) (line : Line) :
    Parts line ↔ EndsConstant (batchesFrom index reach line).1 ∧
      ∀ batch ∈ (batchesFrom index reach line).2, EndsConstant batch := by
  induction line generalizing index reach with
  | nil => simp [Parts, batchesFrom, EndsConstant]
  | cons entry line ih =>
    rw [parts_cons]
    by_cases hPresent : IsPresent entry
    · rw [ih entry.1.index entry.1.index]
      by_cases hJoins : entry.1.index = index ∧ reach = index
      · rw [batchesFrom_joins hPresent hJoins, endsConstant_cons, and_right_comm]
      · rw [batchesFrom_opens hPresent hJoins]
        simp only [List.forall_mem_cons, endsConstant_cons]
        rw [and_right_comm]
        simp [EndsConstant]
    · have hDynamic : ¬ entry.1.isConstant = true := fun h => hPresent (.inl h)
      rw [batchesFrom_absent hPresent, ← ih]
      simp [hDynamic]

section

variable (hLine : ∀ entry ∈ line, 1 ≤ entry.1.index)

include hLine

/-- In front of the first leaf there is no copy to go on with. -/
theorem batchesFrom_start : (batchesFrom 0 reach line).1 = [] := by
  apply List.eq_nil_iff_forall_not_mem.2
  intro entry hEntry
  have hMem : entry ∈ line.filter fun entry => IsPresent entry := by
    rw [← batchesFrom_flatten 0 reach]
    exact List.mem_append_left _ hEntry
  have hPos := hLine entry (List.mem_filter.1 hMem).1
  have hZero := (batchesFrom_uniform 0 reach line).1 entry hEntry
  omega

theorem batches_flatten : line.batches.flatten = line.filter fun entry => IsPresent entry := by
  rw [← batchesFrom_flatten 0 0, batchesFrom_start hLine, List.nil_append, batches]

/-- Constants are not followed in their copy if and only if the line leaves them
for a leaf behind before it comes back. -/
theorem parts_iff : Parts line ↔ ∀ batch ∈ line.batches, EndsConstant batch := by
  rw [parts_iff_batchesFrom 0 0, batchesFrom_start hLine, batches]
  simp [EndsConstant]

end

/-- A batch that leaves its leaf as it is has one entry if no constant is
followed in it. -/
theorem EndsConstant.length_eq_one {batch : Line} (h : EndsConstant batch) (hSome : batch ≠ [])
    (hPresent : ∀ entry ∈ batch, IsPresent entry) (hText : batch.text? = none) :
    batch.length = 1 := by
  have hConstant : ∀ entry ∈ batch, entry.1.isConstant = true := by
    intro entry hEntry
    by_contra hDynamic
    have hAny : batch.collected.isDynamic = true := by
      rw [collected, List.any_eq_true]
      refine ⟨entry, List.mem_filter.2 ⟨hEntry, by simpa using hPresent entry hEntry⟩, ?_⟩
      simpa using hDynamic
    rw [text?, if_pos hAny] at hText
    cases hText
  have hNone : batch.dropLast = [] := by
    apply List.eq_nil_iff_forall_not_mem.2
    intro entry hEntry
    have hBoth := (h entry hEntry).symm.trans (hConstant entry ((List.dropLast_subset batch) hEntry))
    cases hBoth
  have hLength := congrArg List.length hNone
  have hPos := List.length_pos_iff.2 hSome
  rw [List.length_dropLast, List.length_nil] at hLength
  omega

end Line

/-! ### A run opens a copy for each batch -/

namespace OpenLeaf

/-- Take the texts of entries. -/
def collect (leaf : OpenLeaf) (entries : Line) : OpenLeaf :=
  ⟨leaf.chunks ++ entries.map (·.2), leaf.isDynamic || entries.any fun entry => !entry.1.isConstant⟩

/-- The text of a leaf, if it is written anew. -/
def text? (leaf : OpenLeaf) : Option (List String) :=
  if leaf.isDynamic then some leaf.chunks else none

@[simp] theorem collect_nil (leaf : OpenLeaf) : leaf.collect [] = leaf := by
  simp [collect]

end OpenLeaf

theorem Line.text?_of_present {batch : Line} (h : ∀ entry ∈ batch, Line.IsPresent entry) :
    batch.text? = (OpenLeaf.collect {} batch).text? := by
  have hSame : (batch.filter fun entry => Line.IsPresent entry) = batch :=
    List.filter_eq_self.2 fun entry hEntry => by simpa using h entry hEntry
  rw [Line.text?, Line.collected, hSame]
  simp only [OpenLeaf.collect, OpenLeaf.text?, Bool.false_or, List.nil_append]

/-- The leaf that a leg copies, with a text if it is written anew. -/
def Leg.fill? : Leg → Option (Nat × Option (List String))
  | fill index text => some (index, text)
  | _ => none

/-- The leaves that legs copy, in order. -/
def Leg.fills (legs : List Leg) : List (Nat × Option (List String)) :=
  legs.filterMap Leg.fill?

@[simp] theorem Leg.fills_append (left right : List Leg) :
    Leg.fills (left ++ right) = Leg.fills left ++ Leg.fills right :=
  List.filterMap_append ..

@[simp] theorem Leg.fills_crossings (target key count : Nat) :
    Leg.fills (Leg.crossings target key count) = [] := by
  simp [Leg.fills, Leg.crossings, List.filterMap_map, Leg.fill?]

namespace Course

variable {count index : Nat} {course : Course} {entry : Pointer × String} {position : Position}

/-- Unless the line went back, a run reached no leaf behind the last entry. -/
def Level (course : Course) : Prop :=
  course.restart = none → course.reach ≤ (course.lastSeen.map (·.index)).getD 0

theorem Level.see (h : course.Level) (hRestart : (course.see position).restart = none) :
    course.reach ≤ position.index :=
  (h (lastSeen_le_of_see hRestart).1).trans (lastSeen_le_of_see hRestart).2

theorem fills_flush (course : Course) :
    Leg.fills course.flush =
      (course.leaf.map fun leaf => (course.standing, leaf.text?)).toList := by
  rw [flush]
  cases course.leaf with
  | none => rfl
  | some leaf => rfl

theorem fills_reenter (course : Course) (restart : Position) (index : Nat) :
    Leg.fills (course.reenter restart index) = Leg.fills course.flush := by
  have hBack (exit : Nat) (head : Option Nat) (legs : List Leg) :
      Leg.fills (.reenter exit head index :: legs) = Leg.fills legs := rfl
  rw [reenter, Leg.fills_append, Leg.fills_append, hBack, advance, Leg.fills_crossings,
    List.append_nil]
  cases course.head? restart index with
  | none => exact List.append_nil _
  | some head => rw [Leg.fills_crossings, List.append_nil]

/-- A run stays on the leaf of an entry if it reached no other one since. -/
theorem move_joins (hGrounded : course.Grounded count) (hPos : 1 ≤ index)
    (hStanding : course.standing = index) (hReach : course.reach = index) :
    course.move index = ({ course with restart := none }, []) :=
  move_stay (.inl ⟨hGrounded.leaf_iff.2 (hStanding ▸ hPos), hStanding, hReach⟩)

/-- Otherwise it writes the leaf that it stands on and opens the one of the
entry. -/
theorem move_opens (hSteady : course.restart = none → course.standing ≤ index)
    (hLevel : course.restart = none → course.reach ≤ index)
    (hReach : course.standing ≤ course.reach)
    (hOther : ¬ (course.standing = index ∧ course.reach = index)) :
    (course.move index).1 = course.openLeaf index ∧
      Leg.fills (course.move index).2 = Leg.fills course.flush := by
  rcases course.move_cases index with hForward | ⟨restart, hRestart, hReached, hNot⟩ | hStays
  · rw [move_forward hForward]
    exact ⟨rfl, by simp [advance]⟩
  · rw [move_back hRestart hReached hNot]
    exact ⟨rfl, fills_reenter course restart index⟩
  · refine absurd ?_ hOther
    rcases hStays with hHere | ⟨hRestart, hBehind⟩
    · exact ⟨hHere.standing, hHere.reach⟩
    · have := hSteady hRestart
      have := hLevel hRestart
      omega

/-- Where a run stands behind an entry that is present. -/
structure Stands (course : Course) (index : Nat) : Prop where
  standing : course.standing = index
  reach : course.reach = index
  level : course.Level

/-- An entry that is present is read into the copy that is open, or into a new
one. -/
theorem step_present (hValid : course.Valid count) (hLevel : course.Level)
    (hPresent : Line.IsPresent entry) (hPos : 1 ≤ entry.1.index) :
    (course.step entry.1 entry.2).1.Stands entry.1.index ∧
      if entry.1.index = course.standing ∧ course.reach = course.standing then
        (course.step entry.1 entry.2).1.leaf = course.leaf.map (·.collect [entry]) ∧
          (course.step entry.1 entry.2).2 = []
      else (course.step entry.1 entry.2).1.leaf = some (OpenLeaf.collect {} [entry]) ∧
        Leg.fills (course.step entry.1 entry.2).2 = Leg.fills course.flush := by
  have hLast : (course.step entry.1 entry.2).1.lastSeen = some entry.1.position :=
    lastSeen_step course entry
  have hStands : ∀ next : Course, next.lastSeen = some entry.1.position →
      next.standing = entry.1.index → next.reach = entry.1.index → next.Stands entry.1.index := by
    intro next hNext hStanding hReach
    refine ⟨hStanding, hReach, fun _ => ?_⟩
    rw [hReach, hNext]
    exact Nat.le_refl _
  rw [step_of_present hPresent] at hLast ⊢
  by_cases hJoins : entry.1.index = course.standing ∧ course.reach = course.standing
  · have hMove := move_joins (hValid.toBounded.see entry.1.position).grounded hPos hJoins.1.symm
      (hJoins.2.trans hJoins.1.symm)
    rw [if_pos hJoins]
    rw [hMove] at hLast ⊢
    refine ⟨hStands _ hLast hJoins.1.symm ?_, ?_, rfl⟩
    · show max course.reach entry.1.index = entry.1.index
      rw [hJoins.2, hJoins.1, Nat.max_self]
    · simp [collect, see, OpenLeaf.collect]
  · have hOther : ¬ (course.standing = entry.1.index ∧ course.reach = entry.1.index) := by
      rintro ⟨hStanding, hReach⟩
      exact hJoins ⟨hStanding.symm, hReach.trans hStanding.symm⟩
    obtain ⟨hMove, hFills⟩ := @move_opens entry.1.index (course.see entry.1.position)
      (fun hRestart => hValid.isSteady.standing_le_of_see hRestart)
      (fun hRestart => hLevel.see hRestart) hValid.standing_le_reach hOther
    rw [if_neg hJoins]
    rw [hMove] at hLast ⊢
    refine ⟨hStands _ hLast rfl (Nat.max_self _), ?_, hFills⟩
    simp [collect, openLeaf, OpenLeaf.collect]

/-- A run goes on with the copy that is open and then opens one for each batch. -/
theorem fills_read {line : Line} (hValid : course.Valid count) (hLevel : course.Level)
    (hLine : ∀ entry ∈ line, 1 ≤ entry.1.index ∧ entry.1.index ≤ count) :
    Leg.fills ((course.read line).2 ++ (course.read line).1.flush) =
      (course.leaf.map fun leaf => (course.standing,
        (leaf.collect (Line.batchesFrom course.standing course.reach line).1).text?)).toList ++
      (Line.batchesFrom course.standing course.reach line).2.map fun batch =>
        (batch.lead, (OpenLeaf.collect {} batch).text?) := by
  induction line generalizing course with
  | nil =>
    simp only [read, List.nil_append, fills_flush, Line.batchesFrom, OpenLeaf.collect_nil,
      List.map_nil, List.append_nil]
  | cons entry line ih =>
    obtain ⟨hPos, hCount⟩ := hLine entry List.mem_cons_self
    have hRest : ∀ other ∈ line, 1 ≤ other.1.index ∧ other.1.index ≤ count :=
      fun other hOther => hLine other (List.mem_cons_of_mem entry hOther)
    have hStepped := hValid.step entry.2 hPos hCount
    rw [read]
    dsimp only
    rw [List.append_assoc, Leg.fills_append]
    by_cases hPresent : Line.IsPresent entry
    · obtain ⟨hStands, hStep⟩ := step_present hValid hLevel hPresent hPos
      rw [ih hStepped hStands.level hRest, hStands.standing, hStands.reach]
      by_cases hJoins : entry.1.index = course.standing ∧ course.reach = course.standing
      · rw [if_pos hJoins] at hStep
        rw [hStep.1, hStep.2, Line.batchesFrom_joins hPresent hJoins]
        cases course.leaf with
        | none => rfl
        | some leaf => simp [OpenLeaf.collect, Leg.fills, hJoins.1, Bool.or_assoc]
      · rw [if_neg hJoins] at hStep
        rw [hStep.1, hStep.2, Line.batchesFrom_opens hPresent hJoins, fills_flush]
        simp [OpenLeaf.collect, Line.lead]
    · rw [step_of_absent hPresent] at hStepped ⊢
      have hDropped : ((course.see entry.1.position).drop entry.1.position).Level := by
        intro hRestart
        exact Nat.max_le.2 ⟨hLevel.see hRestart, Nat.le_refl _⟩
      rw [ih hStepped hDropped hRest, Line.batchesFrom_absent hPresent]
      rfl

end Course

/-- A run copies one leaf for each batch of its line, in order. -/
theorem Leg.fills_ofLine {count : Nat} {line : Line}
    (hLine : ∀ entry ∈ line, 1 ≤ entry.1.index ∧ entry.1.index ≤ count) :
    Leg.fills (Leg.ofLine count line) = line.batches.map fun batch => (batch.lead, batch.text?) := by
  have hRead := Course.fills_read (Course.Valid.start count)
    (show Course.Level {} from fun _ => Nat.le_refl _) hLine
  rw [Leg.ofLine]
  dsimp only
  rw [Leg.fills_append, hRead, Course.advance, Leg.fills_crossings, List.append_nil, Line.batches]
  apply List.map_congr_left
  intro batch hBatch
  rw [Line.text?_of_present]
  intro entry hEntry
  have hMem : entry ∈ line.filter fun entry => Line.IsPresent entry := by
    rw [← Line.batches_flatten fun entry hEntry => (hLine entry hEntry).1]
    exact List.mem_flatten_of_mem hBatch hEntry
  simpa using (List.mem_filter.1 hMem).2

end Infill
