import Infill.Rebuild
import Infill.Proofs.Copies

/-!
The course of a run. Where a run goes depends on the places of the entries
alone, not on the document: the course follows a run without its builder and
lists the legs that the builder goes. A run goes to a leaf by going forward, by
beginning another pass or by staying, and what it relies on wherever it stands is
kept in each of these cases. In a laid out document every leg is a list of visits.
-/
namespace Infill

open Infill.Xml

/-- A part of a run between two leaves. -/
inductive Leg
  /-- Copy a leaf, with a text if it is written anew. -/
  | fill (index : Nat) (text : Option (List String))
  /-- Apply the boundary in front of `key` on the way to the leaf `target`. -/
  | cross (key target : Nat)
  /-- Leave the leaf `exit` for another pass, which begins behind the tag `head`
  if there is one, on the way to the leaf `index`. -/
  | reenter (exit : Nat) (head : Option Nat) (index : Nat)
  deriving DecidableEq, Inhabited, Repr

namespace Leg

/-- Apply so many boundaries from `key` on, on the way to the leaf `target`. -/
def crossings (target key count : Nat) : List Leg :=
  (List.range' key count).map fun key => .cross key target

end Leg

/-- A rebuild without its builder. -/
structure Course where
  standing : Nat := 0
  reach : Nat := 0
  lastSeen : Option Position := none
  discarded : List Position := []
  restart : Option Position := none
  leaf : Option OpenLeaf := none
  deriving DecidableEq, Inhabited, Repr

namespace Course

/-- Note the place of an entry, and whether the line went back to it. -/
def see (position : Position) (course : Course) : Course :=
  { course with
    restart := if course.lastSeen.any (position.before ·) then some position else course.restart
    lastSeen := some position }

/-- Drop an entry. -/
def drop (position : Position) (course : Course) : Course :=
  { course with
    discarded := position :: course.discarded
    reach := max course.reach position.index }

/-- Write the leaf that is open. -/
def flush (course : Course) : List Leg :=
  match course.leaf with
  | some leaf => [.fill course.standing (if leaf.isDynamic then some leaf.chunks else none)]
  | none => []

/-- The leaf that is open, as the builder has it for now. -/
def pending (course : Course) : List Leg :=
  match course.leaf with
  | some _ => [.fill course.standing none]
  | none => []

/-- Go forward to a leaf or to the end. -/
def advance (course : Course) (target : Nat) : List Leg :=
  Leg.crossings target (course.standing + 1) (target - course.standing)

/-- The tag behind which a new pass begins. -/
def head? (course : Course) (restart : Position) (index : Nat) : Option Nat :=
  ((Position.latestBefore restart course.discarded).map (·.index)).filter (· < index)

/-- Leave for another pass. -/
def reenter (course : Course) (restart : Position) (index : Nat) : List Leg :=
  let exit := max course.reach course.standing
  let head := course.head? restart index
  course.flush ++ course.advance exit ++ Leg.reenter exit head index ::
    match head with
    | some head => Leg.crossings index (head + 2) (index - (head + 1))
    | none => []

/-- Stand on a leaf that was just copied. -/
def openLeaf (course : Course) (index : Nat) : Course :=
  { course with standing := index, reach := index, restart := none, leaf := some {} }

/-- Go to the leaf of an entry that is present, if the run does not stand there. -/
def move (course : Course) (index : Nat) : Course × List Leg :=
  match course.restart with
  | some restart =>
    if course.reach < index then
      (course.openLeaf index, course.flush ++ course.advance index)
    else if course.leaf.isSome && index == course.standing && course.reach == index then
      ({ course with restart := none }, [])
    else (course.openLeaf index, course.reenter restart index)
  | none =>
    if course.standing < index then
      (course.openLeaf index, course.flush ++ course.advance index)
    else (course, [])

/-- Take the text of an entry. -/
def collect (pointer : Pointer) (text : String) (course : Course) : Course :=
  { course with
    reach := max course.reach pointer.index
    leaf := course.leaf.map fun leaf =>
      { chunks := leaf.chunks ++ [text], isDynamic := leaf.isDynamic || !pointer.isConstant } }

/-- Read one entry of the line. -/
def step (course : Course) (pointer : Pointer) (text : String) : Course × List Leg :=
  let seen := course.see pointer.position
  if !pointer.isConstant && text.isEmpty then (seen.drop pointer.position, [])
  else
    let (moved, legs) := seen.move pointer.index
    (moved.collect pointer text, legs)

/-- Read the entries of a line. -/
def read (course : Course) : Line → Course × List Leg
  | [] => (course, [])
  | (pointer, text) :: line =>
    let (stepped, legs) := course.step pointer text
    let (last, more) := stepped.read line
    (last, legs ++ more)

/-- What a run goes forward from: the furthest leaf it reached if the line went
back, and else the leaf it stands on. -/
def frontier (course : Course) : Nat :=
  match course.restart with
  | some _ => course.reach
  | none => course.standing

/-- A run is in place for an entry if it stands on the leaf of the entry and
reached no other one since. -/
structure InPlace (course : Course) (index : Nat) : Prop where
  isOpen : course.leaf.isSome = true
  standing : course.standing = index
  reach : course.reach = index

section

variable {course : Course} {index : Nat} {restart : Position}

theorem frontier_of_none (h : course.restart = none) : course.frontier = course.standing := by
  rw [frontier, h]

theorem frontier_of_some (h : course.restart = some restart) : course.frontier = course.reach := by
  rw [frontier, h]

theorem inPlace_iff : course.InPlace index ↔
    (course.leaf.isSome && index == course.standing && course.reach == index) = true := by
  simp only [Bool.and_eq_true, beq_iff_eq]
  constructor
  · exact fun h => ⟨⟨h.isOpen, h.standing.symm⟩, h.reach⟩
  · exact fun h => ⟨h.1.1, h.1.2.symm, h.2⟩

theorem move_forward (h : course.frontier < index) :
    course.move index = (course.openLeaf index, course.flush ++ course.advance index) := by
  rw [move]
  cases hRestart : course.restart with
  | some restart => exact if_pos (frontier_of_some hRestart ▸ h)
  | none => exact if_pos (frontier_of_none hRestart ▸ h)

theorem move_back (hRestart : course.restart = some restart) (hReach : index ≤ course.reach)
    (hOther : ¬ course.InPlace index) :
    course.move index = (course.openLeaf index, course.reenter restart index) := by
  rw [move, hRestart]
  dsimp only
  rw [if_neg (Nat.not_lt_of_le hReach), if_neg (inPlace_iff.not.1 hOther)]

theorem move_stay (h : course.InPlace index ∨ course.restart = none ∧ index ≤ course.standing) :
    course.move index = ({ course with restart := none }, []) := by
  rw [move]
  cases hRestart : course.restart with
  | some restart =>
    have hHere : course.InPlace index := h.resolve_right (by simp [hRestart])
    dsimp only
    rw [if_neg (by rw [hHere.reach]; exact Nat.lt_irrefl index), if_pos (inPlace_iff.1 hHere)]
  | none =>
    have hStanding : index ≤ course.standing := h.elim (·.standing.ge) (·.2)
    dsimp only
    rw [if_neg (Nat.not_lt_of_le hStanding), ← hRestart]

end

/-- Going to a leaf is going forward to it, beginning another pass for it or
staying. -/
theorem move_cases (course : Course) (index : Nat) :
    course.frontier < index ∨
      (∃ restart, course.restart = some restart ∧ index ≤ course.reach ∧
        ¬ course.InPlace index) ∨
      (course.InPlace index ∨ course.restart = none ∧ index ≤ course.standing) := by
  rcases Nat.lt_or_ge course.frontier index with hForward | hBehind
  · exact .inl hForward
  · refine .inr ?_
    cases hRestart : course.restart with
    | none => exact .inr (.inr ⟨rfl, frontier_of_none hRestart ▸ hBehind⟩)
    | some restart =>
      by_cases hHere : course.InPlace index
      · exact .inr (.inl hHere)
      · exact .inl ⟨restart, rfl, frontier_of_some hRestart ▸ hBehind, hHere⟩

theorem mem_reenter {course : Course} {restart : Position} {index : Nat} {leg : Leg} :
    leg ∈ course.reenter restart index ↔
      leg ∈ course.flush ++ course.advance (max course.reach course.standing) ∨
      leg = .reenter (max course.reach course.standing) (course.head? restart index) index ∨
      ∃ head, course.head? restart index = some head ∧
        leg ∈ Leg.crossings index (head + 2) (index - (head + 1)) := by
  rw [reenter]
  cases hHead : course.head? restart index with
  | none => simp [or_assoc]
  | some head => simp [or_assoc]

theorem read_append (course : Course) (front back : Line) :
    course.read (front ++ back) =
      (((course.read front).1.read back).1,
        (course.read front).2 ++ ((course.read front).1.read back).2) := by
  induction front generalizing course with
  | nil => rfl
  | cons entry front ih =>
    obtain ⟨pointer, text⟩ := entry
    simp [read, ih]

end Course

/-- What a run relies on wherever it goes: it stands on a leaf, which is open, or
in front of the first. -/
structure Course.Grounded (count : Nat) (course : Course) : Prop where
  standing_le_reach : course.standing ≤ course.reach
  standing_le : course.standing ≤ count
  leaf_iff : course.leaf.isSome = true ↔ 1 ≤ course.standing

/-- Between two entries, unless the line went back, a run does not stand behind
the last entry. -/
structure Course.Steady (count : Nat) (course : Course) : Prop extends course.Grounded count where
  steady : course.restart = none → course.standing ≤ (course.lastSeen.map (·.index)).getD 0

/-- What holds of a course over a line with so many leaves, wherever it stands. -/
structure Course.Bounded (count : Nat) (course : Course) : Prop where
  standing_le_reach : course.standing ≤ course.reach
  reach_le : course.reach ≤ count
  leaf_iff : course.leaf.isSome = true ↔ 1 ≤ course.standing
  discarded : ∀ position ∈ course.discarded, 1 ≤ position.index ∧ position.index ≤ count

/-- What holds of a course between two entries: unless the line went back, a run
does not stand behind the last entry. -/
structure Course.Valid (count : Nat) (course : Course) : Prop extends course.Bounded count where
  steady : course.restart = none → course.standing ≤ (course.lastSeen.map (·.index)).getD 0

namespace Course

variable {count : Nat} {course : Course} {position : Position} {pointer : Pointer} {text : String}

theorem Bounded.grounded (h : course.Bounded count) : course.Grounded count :=
  ⟨h.standing_le_reach, h.standing_le_reach.trans h.reach_le, h.leaf_iff⟩

theorem Grounded.see (h : course.Grounded count) (position : Position) :
    (course.see position).Grounded count :=
  ⟨h.standing_le_reach, h.standing_le, h.leaf_iff⟩

theorem Bounded.see (h : course.Bounded count) (position : Position) :
    (course.see position).Bounded count :=
  ⟨h.standing_le_reach, h.reach_le, h.leaf_iff, h.discarded⟩

theorem Valid.isSteady (h : course.Valid count) : course.Steady count :=
  ⟨h.toBounded.grounded, h.steady⟩

/-- If the line did not go back, neither did it for an entry before. -/
theorem lastSeen_le_of_see (hRestart : (course.see position).restart = none) :
    course.restart = none ∧ (course.lastSeen.map (·.index)).getD 0 ≤ position.index := by
  rw [Course.see] at hRestart
  dsimp only at hRestart
  split at hRestart
  · cases hRestart
  · rename_i hForward
    refine ⟨hRestart, ?_⟩
    cases hSeen : course.lastSeen with
    | none => exact Nat.zero_le _
    | some last =>
      rw [hSeen, Option.any_some, Position.before_iff] at hForward
      simp only [Option.map_some, Option.getD_some]
      omega

/-- An entry behind which the line did not go back is not in front of the leaf
that a run stands on. -/
theorem Steady.standing_le_of_see (h : course.Steady count)
    (hRestart : (course.see position).restart = none) : course.standing ≤ position.index :=
  (h.steady (lastSeen_le_of_see hRestart).1).trans (lastSeen_le_of_see hRestart).2

theorem Grounded.standing_le_frontier (h : course.Grounded count) :
    course.standing ≤ course.frontier := by
  cases hRestart : course.restart with
  | none => rw [frontier_of_none hRestart]
  | some restart => exact frontier_of_some hRestart ▸ h.standing_le_reach

theorem Grounded.openLeaf {index : Nat} (course : Course) (hPos : 1 ≤ index)
    (hCount : index ≤ count) : (course.openLeaf index).Grounded count :=
  ⟨Nat.le_refl index, hCount, by simpa [Course.openLeaf] using hPos⟩

/-- Wherever an entry leads, a run stands on its leaf, or in front of it with
nothing that the line went back to. -/
theorem Grounded.move (h : course.Grounded count) {index : Nat} (hPos : 1 ≤ index)
    (hCount : index ≤ count) (hSteady : course.restart = none → course.standing ≤ index) :
    (course.move index).1.Grounded count ∧ (course.move index).1.standing = index ∧
      (course.move index).1.restart = none ∧ (course.move index).1.lastSeen = course.lastSeen := by
  rcases course.move_cases index with hForward | ⟨restart, hRestart, hReach, hOther⟩ | hStays
  · rw [move_forward hForward]
    exact ⟨Grounded.openLeaf course hPos hCount, rfl, rfl, rfl⟩
  · rw [move_back hRestart hReach hOther]
    exact ⟨Grounded.openLeaf course hPos hCount, rfl, rfl, rfl⟩
  · have hSame : course.standing = index :=
      hStays.elim (·.standing) fun hHere => Nat.le_antisymm (hSteady hHere.1) hHere.2
    rw [move_stay hStays]
    exact ⟨⟨h.standing_le_reach, h.standing_le, h.leaf_iff⟩, hSame, rfl, rfl⟩

/-- Going to a leaf forgets no entry, and reaches no other leaf. -/
theorem move_remembers (course : Course) (index : Nat) :
    (course.move index).1.lastSeen = course.lastSeen ∧
      (course.move index).1.discarded = course.discarded ∧
      ((course.move index).1.reach = course.reach ∨ (course.move index).1.reach = index) := by
  rcases course.move_cases index with hForward | ⟨restart, hRestart, hReach, hOther⟩ | hStays
  · rw [move_forward hForward]
    exact ⟨rfl, rfl, .inr rfl⟩
  · rw [move_back hRestart hReach hOther]
    exact ⟨rfl, rfl, .inr rfl⟩
  · rw [move_stay hStays]
    exact ⟨rfl, rfl, .inl rfl⟩

theorem Bounded.move (h : course.Bounded count) {index : Nat} (hPos : 1 ≤ index)
    (hCount : index ≤ count) (hSteady : course.restart = none → course.standing ≤ index) :
    (course.move index).1.Bounded count ∧ (course.move index).1.standing = index ∧
      (course.move index).1.restart = none ∧ (course.move index).1.lastSeen = course.lastSeen := by
  obtain ⟨hMoved, hStands⟩ := h.grounded.move hPos hCount hSteady
  obtain ⟨-, hDiscarded, hReach⟩ := move_remembers course index
  have hReachLe := h.reach_le
  exact ⟨⟨hMoved.standing_le_reach, by omega, hMoved.leaf_iff, hDiscarded ▸ h.discarded⟩, hStands⟩

theorem Steady.drop (h : course.Steady count) (position : Position) :
    ((course.see position).drop position).Steady count :=
  ⟨⟨h.standing_le_reach.trans (Nat.le_max_left _ _), h.standing_le, h.leaf_iff⟩,
    h.standing_le_of_see⟩

theorem Steady.collect (h : course.Steady count) (text : String) (hPos : 1 ≤ pointer.index)
    (hCount : pointer.index ≤ count) :
    (((course.see pointer.position).move pointer.index).1.collect pointer text).Steady count := by
  obtain ⟨hMoved, hStanding, -, hLast⟩ :=
    (h.see pointer.position).move hPos hCount h.standing_le_of_see
  refine ⟨⟨?_, hMoved.standing_le, ?_⟩, fun _ => ?_⟩
  · exact hMoved.standing_le_reach.trans (Nat.le_max_left _ _)
  · simpa [Course.collect] using hMoved.leaf_iff
  · show (((course.see pointer.position).move pointer.index).1).standing ≤
      ((((course.see pointer.position).move pointer.index).1).lastSeen.map (·.index)).getD 0
    rw [hStanding, hLast]
    exact Nat.le_refl _

@[simp] theorem pending_collect : (course.collect pointer text).pending = course.pending := by
  rw [pending, pending, collect]
  cases course.leaf <;> rfl

theorem Valid.step (h : course.Valid count) (text : String) (hPos : 1 ≤ pointer.index)
    (hCount : pointer.index ≤ count) : (course.step pointer text).1.Valid count := by
  have hReach := h.reach_le
  rw [Course.step]
  dsimp only
  split
  · have hDropped := h.isSteady.drop pointer.position
    refine ⟨⟨hDropped.standing_le_reach, Nat.max_le.2 ⟨hReach, hCount⟩, hDropped.leaf_iff, ?_⟩,
      hDropped.steady⟩
    intro position hPosition
    rcases List.mem_cons.1 hPosition with rfl | hPosition
    · exact ⟨hPos, hCount⟩
    · exact h.discarded position hPosition
  · have hCollected := h.isSteady.collect text hPos hCount
    obtain ⟨hMoved, -⟩ :=
      (h.toBounded.see pointer.position).move hPos hCount h.isSteady.standing_le_of_see
    exact ⟨⟨hCollected.standing_le_reach, Nat.max_le.2 ⟨hMoved.reach_le, hCount⟩,
      hCollected.leaf_iff, hMoved.discarded⟩, hCollected.steady⟩

theorem Valid.read {line : Line} (h : course.Valid count)
    (hLine : ∀ entry ∈ line, 1 ≤ entry.1.index ∧ entry.1.index ≤ count) :
    (course.read line).1.Valid count := by
  induction line generalizing course with
  | nil => exact h
  | cons entry line ih =>
    obtain ⟨hPos, hCount⟩ := hLine entry List.mem_cons_self
    exact ih (h.step entry.2 hPos hCount)
      fun other hOther => hLine other (List.mem_cons_of_mem entry hOther)

theorem Valid.start (count : Nat) : Course.Valid count {} :=
  ⟨⟨by simp, by simp, by simp, by simp⟩, by simp⟩

end Course

namespace Position

variable {limit place : Position} {places : List Position} {best : Option Position}

/-- The later one of the best place so far and another, if that is in front of a limit. -/
def later (limit : Position) (best : Option Position) (place : Position) : Option Position :=
  if place.before limit && best.all (·.before place) then some place else best

theorem latestBefore_eq (limit : Position) (places : List Position) :
    latestBefore limit places = places.foldl (later limit) none := rfl

theorem foldl_later_mem (h : places.foldl (later limit) best = some place) :
    best = some place ∨ place ∈ places := by
  induction places generalizing best with
  | nil => exact .inl h
  | cons first places ih =>
    rw [List.foldl_cons] at h
    rcases ih h with hNext | hMem
    · rw [later] at hNext
      split at hNext
      · exact .inr (by simp [Option.some.inj hNext])
      · exact .inl hNext
    · exact .inr (List.mem_cons_of_mem first hMem)

theorem latestBefore_mem (h : latestBefore limit places = some place) : place ∈ places := by
  rw [latestBefore_eq] at h
  exact (foldl_later_mem h).resolve_left (by simp)

end Position

namespace Course

variable {count head index : Nat} {course : Course} {restart : Position}

theorem head?_lt (h : course.head? restart index = some head) : head < index := by
  simpa using (Option.filter_eq_some_iff.1 h).2

theorem Bounded.head?_pos (hBounded : course.Bounded count)
    (h : course.head? restart index = some head) : 1 ≤ head := by
  obtain ⟨position, hPosition, rfl⟩ :=
    Option.map_eq_some_iff.1 (Option.filter_eq_some_iff.1 h).1
  exact (hBounded.discarded position (Position.latestBefore_mem hPosition)).1

/-- A new pass only begins where the furthest leaf that was reached exists, and
so does the leaf of the tag. -/
structure CanReenter (count : Nat) (course : Course) (restart : Position) (index : Nat) :
    Prop where
  reach_le : course.reach ≤ count
  head_pos : ∀ head, course.head? restart index = some head → 1 ≤ head

/-- A run only goes to a leaf that exists, and back to one where another pass can
begin. -/
structure CanMove (count : Nat) (course : Course) (index : Nat) : Prop where
  pos : 1 ≤ index
  le_count : index ≤ count
  reenter : ∀ restart, course.restart = some restart → index ≤ course.reach →
    ¬ course.InPlace index → course.CanReenter count restart index

theorem Bounded.canReenter (hBounded : course.Bounded count) (restart : Position) (index : Nat) :
    course.CanReenter count restart index :=
  ⟨hBounded.reach_le, fun _ => hBounded.head?_pos⟩

theorem Bounded.canMove (hBounded : course.Bounded count) (hPos : 1 ≤ index)
    (hCount : index ≤ count) : course.CanMove count index :=
  ⟨hPos, hCount, fun restart _ _ _ => hBounded.canReenter restart index⟩

end Course

/-- The legs of a run over a line that has so many leaves. -/
def Leg.ofLine (count : Nat) (line : Line) : List Leg :=
  let (course, legs) := Course.read {} line
  legs ++ course.flush ++ course.advance (count + 1)

namespace Layout

/-- The depth of the atom that holds a leaf. -/
def level (layout : Layout) (index : Nat) : Nat :=
  match layout.format.atomFloor layout.root (layout.path index) with
  | .ok depth => depth
  | .error _ => 0

/-- The floor on the way to a leaf. The closing boundary goes by the last leaf. -/
def floor (layout : Layout) (key : Nat) : Option Nat :=
  if min key layout.count = 0 then none else some (layout.level (min key layout.count))

/-- The atom that is opened when a leaf is passed by. -/
def stopover (layout : Layout) (key target : Nat) : List Visit :=
  if key < target ∧ key ≤ layout.count then
    [.pass (layout.floor key) ((layout.path key).take (layout.level key))]
  else []

end Layout

/-- The visits of a leg. -/
def Leg.visits (layout : Layout) : Leg → List Visit
  | fill index text => [.fill (layout.floor index) (layout.path index) text]
  | cross key target =>
    (layout.gap (key - 1)).map (.clone (layout.floor key)) ++ layout.stopover key target
  | reenter exit none index =>
    let common := Path.sharedLength (layout.path exit) (layout.path index)
    (Path.trailingFrom layout.root (layout.path exit) (common + 1)).map
        (.clone (layout.floor index))
      ++ [.back common]
      ++ (Path.leadingFrom (layout.path index) (common + 1)).map (.clone (layout.floor index))
  | reenter exit (some head) index =>
    let common := Path.sharedLength (layout.path exit) (layout.path head)
    (Path.trailingFrom layout.root (layout.path exit) (common + 1)).map
        (.clone (layout.floor index))
      ++ [.back common]
      ++ (layout.entering head).map (.clone (layout.floor (head + 1)))
      ++ layout.stopover (head + 1) index

namespace Layout

/-- The visits of legs, one after the other. -/
def visits (layout : Layout) (legs : List Leg) : List Visit :=
  legs.flatMap (Leg.visits layout)

@[simp] theorem visits_nil (layout : Layout) : layout.visits [] = [] := rfl

@[simp] theorem visits_cons (layout : Layout) (leg : Leg) (legs : List Leg) :
    layout.visits (leg :: legs) = leg.visits layout ++ layout.visits legs := rfl

@[simp] theorem visits_append (layout : Layout) (left right : List Leg) :
    layout.visits (left ++ right) = layout.visits left ++ layout.visits right :=
  List.flatMap_append

/-- The visits of a run over a line. -/
def itinerary (layout : Layout) (line : Line) : List Visit :=
  layout.visits (Leg.ofLine layout.count line)

end Layout

end Infill
