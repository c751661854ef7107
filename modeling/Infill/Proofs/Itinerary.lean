import Infill.Proofs.Course
import Infill.Proofs.Tracing

/-!
A run over a line goes its itinerary. In a laid out document, whatever entries
a line holds and in whatever order, no step of the run fails, and the document
that comes out is the one that the visits of the itinerary leave behind.
-/
namespace Infill

open Infill.Xml

namespace Xml.Element

/-- An atom is found for every place in the tree. -/
theorem Reaches.atomFloorFrom {e : Element} {path : Path} (h : e.Reaches path) (format : Format)
    (walked : Path) : ∃ depth, format.atomFloorFrom walked e path = .ok depth := by
  induction path generalizing e walked with
  | nil => exact ⟨_, rfl⟩
  | cons index path ih =>
    obtain ⟨hChild, -, hRest⟩ := h.cons_inv
    simp only [Format.atomFloorFrom, hChild]
    cases format.atomDepth? (e.descendant [index]).tag with
    | some depth => exact ⟨_, rfl⟩
    | none => exact ih hRest _

end Xml.Element

namespace Layout

variable {layout : Layout} {index : Nat}

theorem reaches_path (hPos : 1 ≤ index) (hCount : index ≤ layout.count) :
    layout.root.Reaches (layout.path index) :=
  leaf_reaches (path_mem hPos hCount)

theorem atomFloor_eq (hPos : 1 ≤ index) (hCount : index ≤ layout.count) :
    layout.format.atomFloor layout.root (layout.path index) = .ok (layout.level index) := by
  obtain ⟨depth, hDepth⟩ := (reaches_path hPos hCount).atomFloorFrom layout.format []
  rw [level, Format.atomFloor, hDepth]

end Layout

/-- What a laid out document is rebuilt from. -/
def Layout.plan (layout : Layout) (boundaries : Boundaries) : Plan :=
  ⟨layout.root, boundaries, layout.format⟩

@[simp] theorem Layout.plan_root (layout : Layout) (boundaries : Boundaries) :
    (layout.plan boundaries).root = layout.root := rfl

@[simp] theorem Layout.plan_boundaries (layout : Layout) (boundaries : Boundaries) :
    (layout.plan boundaries).boundaries = boundaries := rfl

/-- A rebuild with a builder. -/
def Course.rebuild (course : Course) (b : Builder) : Rebuild :=
  { builder := b
    standing := course.standing
    reach := course.reach
    lastSeen := course.lastSeen
    discarded := course.discarded
    restart := course.restart
    leaf := course.leaf }

/-- A rebuild without its builder. -/
def Rebuild.course (state : Rebuild) : Course :=
  { standing := state.standing
    reach := state.reach
    lastSeen := state.lastSeen
    discarded := state.discarded
    restart := state.restart
    leaf := state.leaf }

theorem Rebuild.rebuild_course (state : Rebuild) : state.course.rebuild state.builder = state :=
  rfl

namespace RebuildM

/-- A step that succeeds hands its answer and its state on. -/
theorem run_bind_ok {α β : Type} {action : RebuildM α} {next : α → RebuildM β}
    {state state' : Rebuild} {a : α} (h : action.run state = .ok (a, state')) :
    (action >>= next).run state = (next a).run state' := by
  rw [StateT.run_bind, h]
  rfl

theorem build_run {α : Type} {action : BuilderM α} {course : Course} {b b' : Builder} {a : α}
    (h : action.run b = .ok a b') :
    (build action).run (course.rebuild b) = .ok (a, course.rebuild b') := by
  refine (run_bind_ok rfl).trans ?_
  rw [show (course.rebuild b).builder = b from rfl, h]
  rfl

end RebuildM

namespace Plan

open RebuildM

variable {layout : Layout} {boundaries : Boundaries} {course : Course} {floor : Option Nat}
  {route : Option Route} {desk : Desk}

/-- Go to the leaf of an entry that is present, if the builder does not stand
there. -/
def move (plan : Plan) (index : Nat) (target : Path) : RebuildM Unit := do
  let state ← get
  match state.restart with
  | some restart =>
    modify ({ · with restart := none })
    if state.reach < index then
      plan.flush
      plan.advance index
      plan.openLeaf index
    else if !(state.leaf.isSome && index == state.standing && state.reach == index) then
      plan.reenter restart index
  | none =>
    if state.standing < index then
      plan.flush
      plan.advance index
      plan.openLeaf index
    else if index < state.standing ∨ state.leaf.isNone then
      throw (.unexpectedMove (← plan.boundaries.leaf state.standing) target)

private theorem move_bind (plan : Plan) (index : Nat) (target : Path) (rest : RebuildM Unit) :
    (do
      plan.move index target
      rest) = (do
      let state ← get
      match state.restart with
      | some restart =>
        modify ({ · with restart := none })
        if state.reach < index then
          plan.flush
          plan.advance index
          plan.openLeaf index
        else if !(state.leaf.isSome && index == state.standing && state.reach == index) then
          plan.reenter restart index
      | none =>
        if state.standing < index then
          plan.flush
          plan.advance index
          plan.openLeaf index
        else if index < state.standing ∨ state.leaf.isNone then
          throw (.unexpectedMove (← plan.boundaries.leaf state.standing) target)
      rest) := by
  rw [move]
  simp only [bind_assoc]
  congr 1
  funext state
  cases state.restart with
  | some restart =>
    simp only [bind_assoc]
    congr 1
    funext _
    split
    · simp only [bind_assoc]
    · split <;> rfl
  | none =>
    simp only
    split
    · simp only [bind_assoc]
    · split
      · simp only [bind_assoc]
      · rfl

/-- An entry is noted, and then dropped or collected on its leaf. -/
theorem step_eq (plan : Plan) (pointer : Pointer) (text : String) :
    plan.step pointer text = (do
      if (← get).lastSeen.any (pointer.position.before ·) then
        modify ({ · with restart := some pointer.position })
      modify ({ · with lastSeen := some pointer.position })
      if !pointer.isConstant && text.isEmpty then
        modify fun state =>
          { state with
            discarded := pointer.position :: state.discarded
            reach := max state.reach pointer.index }
      else
        plan.move pointer.index pointer.path
        modify fun state =>
          { state with
            reach := max state.reach pointer.index
            leaf := state.leaf.map fun leaf =>
              { chunks := leaf.chunks ++ [text]
                isDynamic := leaf.isDynamic || !pointer.isConstant } }) := by
  simp only [move_bind]
  rfl

section

variable {plan : Plan} {b : Builder} {index : Nat} {target : Path}

theorem run_move_forward (h : course.frontier < index) :
    (plan.move index target).run (course.rebuild b) = (do
      plan.flush
      plan.advance index
      plan.openLeaf index : RebuildM Unit).run ({ course with restart := none }.rebuild b) := by
  rw [move]
  unfold Course.rebuild
  refine (run_bind_ok rfl).trans ?_
  dsimp only
  cases hRestart : course.restart with
  | some restart =>
    rw [Course.frontier_of_some hRestart] at h
    refine (run_bind_ok rfl).trans ?_
    rw [if_pos h]
  | none =>
    rw [Course.frontier_of_none hRestart] at h
    dsimp only
    rw [if_pos h]

theorem run_move_back {restart : Position} (hRestart : course.restart = some restart)
    (hReach : index ≤ course.reach) (hOther : ¬ course.InPlace index) :
    (plan.move index target).run (course.rebuild b) =
      (plan.reenter restart index).run ({ course with restart := none }.rebuild b) := by
  rw [move]
  unfold Course.rebuild
  refine (run_bind_ok rfl).trans ?_
  dsimp only
  rw [hRestart]
  refine (run_bind_ok rfl).trans ?_
  rw [if_neg (Nat.not_lt_of_le hReach),
    if_pos (by
      simpa only [Bool.not_eq_true', Bool.not_eq_true] using Course.inPlace_iff.not.1 hOther)]

theorem run_move_stay (h : course.InPlace index ∨
    course.restart = none ∧ course.standing = index ∧ course.leaf.isSome = true) :
    (plan.move index target).run (course.rebuild b) =
      .ok ((), { course with restart := none }.rebuild b) := by
  rw [move]
  unfold Course.rebuild
  refine (run_bind_ok rfl).trans ?_
  dsimp only
  cases hRestart : course.restart with
  | some restart =>
    have hHere : course.InPlace index := h.resolve_right (by simp [hRestart])
    refine (run_bind_ok rfl).trans ?_
    rw [if_neg (by rw [hHere.reach]; exact Nat.lt_irrefl index),
      if_neg (by simp [Course.inPlace_iff.1 hHere])]
    rfl
  | none =>
    have hSame : course.standing = index := h.elim (·.standing) (·.2.1)
    have hOpen : course.leaf.isSome = true := h.elim (·.isOpen) (·.2.2)
    have hClosed : course.leaf.isNone = false := by rw [← Option.not_isSome, hOpen]; rfl
    dsimp only
    rw [if_neg (by omega), if_neg (by simp [hSame, hClosed])]
    rfl

/-- A run that stands behind the leaf of an entry, or on no leaf, and that the
line did not go back for is stuck. -/
theorem run_move_stuck (hRestart : course.restart = none) (hStanding : index ≤ course.standing)
    (hStuck : index < course.standing ∨ course.leaf.isNone = true) :
    (plan.move index target).run (course.rebuild b) = (do
      throw (.unexpectedMove (← plan.boundaries.leaf course.standing) target) :
        RebuildM Unit).run (course.rebuild b) := by
  rw [move]
  unfold Course.rebuild
  refine (run_bind_ok rfl).trans ?_
  dsimp only
  rw [hRestart]
  dsimp only
  rw [if_neg (Nat.not_lt_of_le hStanding), if_pos hStuck]

end

/-- Leave a leaf for another pass on the way to the leaf of an index: what
follows it in the ancestors that it does not share with the other path is copied,
and the builder goes back to the ones that they share. -/
def retreat (plan : Plan) (index : Nat) (exitPath otherPath : Path) : RebuildM Unit := do
  plan.setFloor index
  let ending ← Route.ending plan.root exitPath (Path.sharedLength exitPath otherPath + 1)
  build (BuilderM.copy ending)
  build (BuilderM.rewind (Path.sharedLength exitPath otherPath))

/-- Begin another pass on the way to a leaf, behind a tag if there is one. -/
def beginPass (plan : Plan) (exitPath path : Path) (index : Nat) : Option Nat → RebuildM Unit
  | none => do
    plan.retreat index exitPath path
    build (BuilderM.copy (Route.opening path (Path.sharedLength exitPath path + 1)))
  | some head => do
    let headPath ← plan.boundaries.leaf head
    plan.retreat index exitPath headPath
    plan.setFloor (head + 1)
    let boundary ← plan.boundaries.get (head + 1)
    build (BuilderM.copy (boundary.gap :: boundary.opening))
    plan.skip (head + 1) index
    plan.advanceFrom index (head + 2) (index - (head + 1))

private theorem beginPass_bind (plan : Plan) (exitPath path : Path) (index : Nat)
    (head : Option Nat) (rest : RebuildM Unit) :
    (do
      plan.beginPass exitPath path index head
      rest) = (do
      match head with
      | none =>
        let common := Path.sharedLength exitPath path
        plan.setFloor index
        let ending ← Route.ending plan.root exitPath (common + 1)
        build (BuilderM.copy ending)
        build (BuilderM.rewind common)
        build (BuilderM.copy (Route.opening path (common + 1)))
      | some head =>
        let headPath ← plan.boundaries.leaf head
        let common := Path.sharedLength exitPath headPath
        plan.setFloor index
        let ending ← Route.ending plan.root exitPath (common + 1)
        build (BuilderM.copy ending)
        build (BuilderM.rewind common)
        plan.setFloor (head + 1)
        let boundary ← plan.boundaries.get (head + 1)
        build (BuilderM.copy (boundary.gap :: boundary.opening))
        plan.skip (head + 1) index
        plan.advanceFrom index (head + 2) (index - (head + 1))
      rest) := by
  cases head with
  | none => simp only [beginPass, retreat, bind_assoc]
  | some head => simp only [beginPass, retreat, bind_assoc]

/-- A run goes to the furthest leaf it reached, and begins another pass there. -/
theorem reenter_eq (plan : Plan) (restart : Position) (index : Nat) :
    plan.reenter restart index = (do
      plan.flush
      let exit := max (← get).reach (← get).standing
      plan.advance exit
      let exitPath ← plan.boundaries.leaf exit
      let path ← plan.boundaries.leaf index
      let head :=
        ((Position.latestBefore restart (← get).discarded).map (·.index)).filter (· < index)
      plan.beginPass exitPath path index head
      plan.openLeaf index) := by
  simp only [beginPass_bind]
  rfl

private theorem run_fill (index : Nat) (text : Option (List String)) :
    Visit.run layout (layout.visits [Leg.fill index text]) desk =
      Visit.exec layout desk (.fill (layout.floor index) (layout.path index) text) := by
  simp [Leg.visits, Visit.run_cons]

theorem flush_run (hGrounded : course.Grounded layout.count) :
    ((layout.plan boundaries).flush).run
        (course.rebuild ((Visit.run layout (layout.visits course.pending) desk).builder
          layout floor route)) =
      .ok ((), { course with leaf := none }.rebuild
        ((Visit.run layout (layout.visits course.flush) desk).builder layout floor route)) := by
  rw [Course.pending, Course.flush]
  cases hLeaf : course.leaf with
  | none =>
    refine (run_bind_ok rfl).trans ?_
    dsimp only [Course.rebuild]
    rw [hLeaf]
    rfl
  | some leaf =>
    have hPos : 1 ≤ course.standing := hGrounded.leaf_iff.1 (by rw [hLeaf]; rfl)
    have hCount : course.standing ≤ layout.count := hGrounded.standing_le
    simp only [run_fill]
    have hWrite := @Desk.writeLeaf_builder layout floor route desk
      (layout.floor course.standing) (layout.path course.standing) leaf.chunks
      (layout.holdsText _ (Layout.path_mem hPos hCount))
    by_cases hDynamic : leaf.isDynamic = true
    · rw [if_pos hDynamic]
      refine (run_bind_ok rfl).trans ?_
      rw [show (course.rebuild _).leaf = some leaf from hLeaf]
      refine (run_bind_ok rfl).trans ?_
      rw [if_pos hDynamic]
      exact @build_run Unit _ { course with leaf := none } _ _ _ hWrite
    · rw [if_neg hDynamic]
      refine (run_bind_ok rfl).trans ?_
      rw [show (course.rebuild _).leaf = some leaf from hLeaf]
      refine (run_bind_ok rfl).trans ?_
      rw [if_neg hDynamic]
      rfl

/-- What follows a leaf in its ancestors is copied. -/
theorem copyEnding_run {exit : Nat} (hPos : 1 ≤ exit) (hCount : exit ≤ layout.count)
    (depth : Nat) :
    ∃ routes route', Route.ending layout.root (layout.path exit) depth = .ok routes ∧
      (build (BuilderM.copy routes)).run (course.rebuild (desk.builder layout floor route)) =
        .ok ((), course.rebuild ((Visit.run layout
          ((Path.trailingFrom layout.root (layout.path exit) depth).map (.clone floor))
            desk).builder layout floor route')) := by
  have hReaches := Layout.reaches_path hPos hCount
  obtain ⟨routes, hRoutes, hPaths⟩ := Route.exists_ending hReaches depth
  obtain ⟨route', hCopy⟩ := @Desk.copy_builder layout floor route desk routes
    fun path hPath => ((Path.mem_trailingFrom hReaches).1 (hPaths ▸ hPath)).1
  exact ⟨routes, route', hRoutes, hPaths ▸ build_run hCopy⟩

/-- What precedes a leaf in its ancestors is copied. -/
theorem copyOpening_run {index : Nat} (hPos : 1 ≤ index) (hCount : index ≤ layout.count)
    (depth : Nat) :
    ∃ route', (build (BuilderM.copy (Route.opening (layout.path index) depth))).run
        (course.rebuild (desk.builder layout floor route)) =
      .ok ((), course.rebuild ((Visit.run layout
        ((Path.leadingFrom (layout.path index) depth).map (.clone floor))
          desk).builder layout floor route')) := by
  have hReaches := Layout.reaches_path hPos hCount
  have hPaths := Route.flatMap_paths_opening (layout.path index) depth
  obtain ⟨route', hCopy⟩ := @Desk.copy_builder layout floor route desk
    (Route.opening (layout.path index) depth)
    fun path hPath => ((Path.mem_leadingFrom hReaches).1 (hPaths ▸ hPath)).1
  exact ⟨route', hPaths ▸ build_run hCopy⟩

theorem rewind_run (depth : Nat) :
    (build (BuilderM.rewind depth)).run (course.rebuild (desk.builder layout floor route)) =
      .ok ((), course.rebuild ((Visit.exec layout desk (.back depth)).builder
        layout floor route)) := by
  refine build_run ?_
  show EStateM.Result.ok () ((desk.builder layout floor route).rewind depth) = _
  rw [Desk.rewind_builder]
  rfl

section

variable (charted : layout.Charted boundaries)

include charted

theorem atomFloor_eq {index : Nat} (hPos : 1 ≤ index) (hCount : index ≤ layout.count) :
    (layout.plan boundaries).atomFloor index = .ok (layout.level index) := by
  rw [Plan.atomFloor, Layout.plan_boundaries, charted.leaf index hPos hCount]
  exact Layout.atomFloor_eq hPos hCount

theorem setFloor_run (key : Nat) :
    ((layout.plan boundaries).setFloor key).run
        (course.rebuild (desk.builder layout floor route)) =
      .ok ((), course.rebuild (desk.builder layout (layout.floor key) route)) := by
  have hIndex : min key (boundaries.last - 1) = min key layout.count := by
    rw [charted.last, Nat.add_sub_cancel]
  rw [Plan.setFloor]
  simp only [Layout.plan_boundaries, hIndex]
  by_cases hZero : min key layout.count = 0
  · rw [if_pos hZero, pure_bind, Layout.floor, if_pos hZero]
    exact build_run rfl
  · rw [if_neg hZero, atomFloor_eq charted (Nat.pos_of_ne_zero hZero) (Nat.min_le_right _ _),
      Layout.floor, if_neg hZero]
    exact build_run rfl

theorem skip_run (key target : Nat) (hPos : 1 ≤ key) :
    ((layout.plan boundaries).skip key target).run
        (course.rebuild (desk.builder layout (layout.floor key) route)) =
      .ok ((), course.rebuild ((Visit.run layout (layout.stopover key target) desk).builder
        layout (layout.floor key) route)) := by
  rw [Plan.skip, Layout.stopover]
  simp only [Layout.plan_boundaries, charted.last, Nat.lt_succ_iff]
  by_cases hPass : key < target ∧ key ≤ layout.count
  · rw [if_pos hPass, if_pos hPass, charted.leaf key hPos hPass.2]
    refine (run_bind_ok rfl).trans ?_
    rw [atomFloor_eq charted hPos hPass.2]
    refine (run_bind_ok rfl).trans ?_
    exact build_run (Desk.descend_builder
      ((Layout.reaches_path hPos hPass.2).above (List.take_prefix _ _)))
  · rw [if_neg hPass, if_neg hPass]
    rfl

/-- A boundary on the way to a leaf is applied. -/
theorem cross_run (key target : Nat) (hPos : 1 ≤ key) (hCount : key ≤ layout.count + 1) :
    ∃ route', (do
        (layout.plan boundaries).setFloor key
        let boundary ← boundaries.get key
        build (BuilderM.copy boundary.routes)
        (layout.plan boundaries).skip key target : RebuildM Unit).run
        (course.rebuild (desk.builder layout floor route)) =
      .ok ((), course.rebuild ((Visit.run layout ((Leg.cross key target).visits layout)
        desk).builder layout (layout.floor key) route')) := by
  obtain ⟨key, rfl⟩ := Nat.exists_eq_add_of_le' hPos
  have hKey : key ≤ layout.count := by omega
  obtain ⟨boundary, hBoundary, hSelects⟩ := charted.get key hKey
  have hPaths : boundary.routes.flatMap Route.paths = layout.gap key := by
    rw [Boundary.routes, List.flatMap_append, hSelects.ending, hSelects.entering]
    rfl
  obtain ⟨route', hCopy⟩ := @Desk.copy_builder layout (layout.floor (key + 1)) route desk
    boundary.routes (fun path hPath => ((Layout.mem_gap hKey).1 (hPaths ▸ hPath)).1.reaches)
  refine ⟨route', ?_⟩
  rw [Leg.visits, Nat.add_sub_cancel, Visit.run_append, ← hPaths]
  refine (run_bind_ok (setFloor_run charted (key + 1))).trans ?_
  rw [hBoundary]
  refine (run_bind_ok rfl).trans ?_
  refine (run_bind_ok (build_run hCopy)).trans ?_
  exact skip_run charted (key + 1) target (Nat.succ_pos key)

theorem advanceFrom_run (target count : Nat) {key : Nat} (hPos : 1 ≤ key)
    (hCount : key + count ≤ layout.count + 2) :
    ∃ floor' route', (count ≠ 0 → floor' = layout.floor (key + count - 1)) ∧
      (count = 0 → floor' = floor) ∧
      ((layout.plan boundaries).advanceFrom target key count).run
        (course.rebuild (desk.builder layout floor route)) =
      .ok ((), course.rebuild ((Visit.run layout (layout.visits (Leg.crossings target key count))
        desk).builder layout floor' route')) := by
  induction count generalizing key floor route desk with
  | zero => exact ⟨floor, route, by simp, by simp, rfl⟩
  | succ count ih =>
    obtain ⟨route₁, hCross⟩ := @cross_run layout boundaries course floor route desk charted key
      target hPos (by omega)
    obtain ⟨floor₂, route₂, hFloor, hZero, hRest⟩ := @ih (layout.floor key) route₁
      (Visit.run layout ((Leg.cross key target).visits layout) desk) (key + 1) (Nat.succ_pos key)
      (by omega)
    refine ⟨floor₂, route₂, fun _ => ?_, by simp, ?_⟩
    · rcases Nat.eq_zero_or_pos count with rfl | hCount
      · exact hZero rfl
      · rw [hFloor (Nat.pos_iff_ne_zero.1 hCount)]
        congr 1
        omega
    · rw [Leg.crossings, List.range'_succ, List.map_cons, ← Leg.crossings, Layout.visits_cons,
        Visit.run_append, ← hRest]
      refine Eq.trans ?_ (@run_bind_ok Unit Unit _
        (fun _ => (layout.plan boundaries).advanceFrom target (key + 1) count) _ _ _ hCross)
      simp only [Plan.advanceFrom, bind_assoc, Layout.plan_boundaries]

/-- Going forward ends with the floor of the leaf that is reached. -/
theorem advance_run (target : Nat) (hCount : target ≤ layout.count + 1) :
    ∃ floor' route', (course.standing < target → floor' = layout.floor target) ∧
      ((layout.plan boundaries).advance target).run
        (course.rebuild (desk.builder layout floor route)) =
      .ok ((), { course with standing := max course.standing target }.rebuild
        ((Visit.run layout (layout.visits (course.advance target)) desk).builder
          layout floor' route')) := by
  by_cases hLess : course.standing < target
  · obtain ⟨floor', route', hFloor, -, hRun⟩ := @advanceFrom_run layout boundaries course
      floor route desk charted target (target - course.standing) (course.standing + 1) (Nat.succ_pos _)
      (by omega)
    refine ⟨floor', route', fun _ => ?_, ?_⟩
    · rw [hFloor (by omega)]
      congr 1
      omega
    · refine (run_bind_ok rfl).trans ?_
      refine (run_bind_ok hRun).trans ?_
      rfl
  · refine ⟨floor, route, fun h => absurd h hLess, ?_⟩
    have hZero : target - course.standing = 0 := by omega
    rw [Course.advance, hZero]
    refine (run_bind_ok rfl).trans ?_
    dsimp only [Course.rebuild]
    rw [hZero]
    rfl

theorem openLeaf_run {index : Nat} (hPos : 1 ≤ index) (hCount : index ≤ layout.count) :
    ∃ route', ((layout.plan boundaries).openLeaf index).run
        (course.rebuild (desk.builder layout (layout.floor index) route)) =
      .ok ((), { course with standing := index, reach := index, leaf := some {} }.rebuild
        ((Visit.run layout (layout.visits [Leg.fill index none]) desk).builder
          layout (layout.floor index) route')) := by
  have hMem := Layout.path_mem hPos hCount
  obtain ⟨route', hCopy⟩ := @Desk.copyLeaf_builder layout (layout.floor index) route desk
    (layout.path index) (Layout.leaf_nonempty hMem) (Layout.leaf_reaches hMem)
    (Layout.leaf_isProperty hMem)
  refine ⟨route', ?_⟩
  rw [Plan.openLeaf, Layout.plan_boundaries, charted.leaf index hPos hCount]
  refine (run_bind_ok rfl).trans ?_
  refine (run_bind_ok (build_run hCopy)).trans ?_
  rfl

/-- Going forward to a leaf that a run did not reach. -/
theorem forward_run (hGrounded : course.Grounded layout.count) {index : Nat}
    (hLess : course.standing < index) (hCount : index ≤ layout.count) :
    ∃ floor' route', (do
        (layout.plan boundaries).flush
        (layout.plan boundaries).advance index
        (layout.plan boundaries).openLeaf index : RebuildM Unit).run
        (course.rebuild ((Visit.run layout (layout.visits course.pending) desk).builder
          layout floor route)) =
      .ok ((), { course with standing := index, reach := index, leaf := some {} }.rebuild
        ((Visit.run layout (layout.visits (course.flush ++ course.advance index ++
          [Leg.fill index none])) desk).builder layout floor' route')) := by
  obtain ⟨floor₁, route₁, hFloor, hAdvance⟩ := @advance_run layout boundaries
    { course with leaf := none } floor route
    (Visit.run layout (layout.visits course.flush) desk) charted index (by omega)
  obtain rfl := hFloor hLess
  obtain ⟨route₂, hOpen⟩ := @openLeaf_run layout boundaries
    { course with leaf := none, standing := max course.standing index } route₁
    (Visit.run layout (layout.visits (course.advance index))
      (Visit.run layout (layout.visits course.flush) desk)) charted index (by omega) hCount
  refine ⟨layout.floor index, route₂, ?_⟩
  rw [Layout.visits_append, Layout.visits_append, Visit.run_append, Visit.run_append]
  refine (run_bind_ok (flush_run hGrounded)).trans ?_
  exact (run_bind_ok hAdvance).trans hOpen

/-- What follows the leaf `exit` is copied, up to what it shares with another path. -/
theorem retreat_run {exit : Nat} (hExit : 1 ≤ exit) (hExitCount : exit ≤ layout.count)
    (index : Nat) (otherPath : Path) :
    ∃ route', ((layout.plan boundaries).retreat index (layout.path exit) otherPath).run
        (course.rebuild (desk.builder layout floor route)) =
      .ok ((), course.rebuild ((Visit.run layout
        ((Path.trailingFrom layout.root (layout.path exit)
            (Path.sharedLength (layout.path exit) otherPath + 1)).map (.clone (layout.floor index))
          ++ [.back (Path.sharedLength (layout.path exit) otherPath)])
        desk).builder layout (layout.floor index) route')) := by
  obtain ⟨routes, route', hRoutes, hEnding⟩ := @copyEnding_run layout course
    (layout.floor index) route desk exit hExit hExitCount
    (Path.sharedLength (layout.path exit) otherPath + 1)
  refine ⟨route', ?_⟩
  rw [Visit.run_append, Visit.run_cons, Visit.run_nil]
  refine (run_bind_ok (setFloor_run charted index)).trans ?_
  rw [Layout.plan_root, hRoutes]
  refine (run_bind_ok rfl).trans ?_
  exact (run_bind_ok hEnding).trans (rewind_run _)

/-- Everything between a leaf and the next one that is opened for the next one is copied. -/
theorem copyEntering_run {head : Nat} (hCount : head ≤ layout.count) :
    ∃ boundary route', boundaries.get (head + 1) = .ok boundary ∧
      (build (BuilderM.copy (boundary.gap :: boundary.opening))).run
          (course.rebuild (desk.builder layout floor route)) =
        .ok ((), course.rebuild ((Visit.run layout
          ((layout.entering head).map (.clone floor)) desk).builder layout floor route')) := by
  obtain ⟨boundary, hBoundary, hSelects⟩ := charted.get head hCount
  have hPaths : (boundary.gap :: boundary.opening).flatMap Route.paths = layout.entering head :=
    hSelects.entering
  obtain ⟨route', hCopy⟩ := @Desk.copy_builder layout floor route desk
    (boundary.gap :: boundary.opening)
    (fun path hPath => ((Layout.mem_gap hCount).1
      (List.mem_append_right (layout.ending head) (hPaths ▸ hPath))).1.reaches)
  exact ⟨boundary, route', hBoundary, hPaths ▸ build_run hCopy⟩

/-- Going on from behind a leaf ends with the floor of the leaf that is reached. -/
theorem advanceBehind_run {head index : Nat} (hLess : head < index)
    (hCount : index ≤ layout.count) :
    ∃ route', ((layout.plan boundaries).advanceFrom index (head + 2) (index - (head + 1))).run
        (course.rebuild (desk.builder layout (layout.floor (head + 1)) route)) =
      .ok ((), course.rebuild ((Visit.run layout
        (layout.visits (Leg.crossings index (head + 2) (index - (head + 1)))) desk).builder
          layout (layout.floor index) route')) := by
  obtain ⟨floor', route', hFloor, hZero, hAdvance⟩ := @advanceFrom_run layout boundaries course
    (layout.floor (head + 1)) route desk charted index (index - (head + 1)) (head + 2)
    (Nat.succ_pos _) (by omega)
  refine ⟨route', ?_⟩
  rw [hAdvance]
  congr 5
  rcases Nat.eq_or_lt_of_le (Nat.succ_le_of_lt hLess) with hNext | hFar
  · rw [hZero (by omega), ← hNext]
  · rw [hFloor (by omega)]
    congr 1
    omega

/-- Another pass begins: without a tag only the ancestors of the leaf that the
line went back to are opened again, and behind a tag everything up to that leaf. -/
theorem beginPass_run {exit index : Nat} (hExit : 1 ≤ exit) (hExitCount : exit ≤ layout.count)
    (hPos : 1 ≤ index) (hCount : index ≤ layout.count) (head : Option Nat)
    (hHead : ∀ key, head = some key → 1 ≤ key ∧ key < index) :
    ∃ route', ((layout.plan boundaries).beginPass (layout.path exit) (layout.path index)
        index head).run (course.rebuild (desk.builder layout floor route)) =
      .ok ((), course.rebuild ((Visit.run layout (layout.visits (.reenter exit head index ::
        match head with
        | some head => Leg.crossings index (head + 2) (index - (head + 1))
        | none => [])) desk).builder layout (layout.floor index) route')) := by
  cases head with
  | none =>
    obtain ⟨route₁, hRetreat⟩ := @retreat_run layout boundaries course floor route desk charted
      exit hExit hExitCount index (layout.path index)
    obtain ⟨route₂, hOpening⟩ := @copyOpening_run layout course (layout.floor index) route₁ _
      index hPos hCount (Path.sharedLength (layout.path exit) (layout.path index) + 1)
    refine ⟨route₂, ?_⟩
    simp only [Layout.visits_cons, Layout.visits_nil, List.append_nil, Leg.visits,
      Visit.run_append] at hRetreat hOpening ⊢
    exact (run_bind_ok hRetreat).trans hOpening
  | some head =>
    obtain ⟨hHeadPos, hLess⟩ := hHead head rfl
    obtain ⟨route₁, hRetreat⟩ := @retreat_run layout boundaries course floor route desk charted
      exit hExit hExitCount index (layout.path head)
    obtain ⟨boundary, route₂, hBoundary, hEntering⟩ := @copyEntering_run layout boundaries course
      (layout.floor (head + 1)) route₁ _ charted head (by omega)
    obtain ⟨route₃, hAdvance⟩ := @advanceBehind_run layout boundaries course route₂ _ charted
      head index hLess hCount
    refine ⟨route₃, ?_⟩
    simp only [Layout.visits_cons, Leg.visits, Visit.run_append] at hRetreat hEntering ⊢
    rw [beginPass, Layout.plan_boundaries, charted.leaf head hHeadPos (by omega)]
    refine (run_bind_ok rfl).trans ?_
    refine (run_bind_ok hRetreat).trans ?_
    refine (run_bind_ok (setFloor_run charted (head + 1))).trans ?_
    rw [hBoundary]
    refine (run_bind_ok rfl).trans ?_
    refine (run_bind_ok hEntering).trans ?_
    refine (run_bind_ok (skip_run charted (head + 1) index (Nat.succ_pos head))).trans ?_
    exact hAdvance

/-- A run leaves the furthest leaf it reached and begins another pass. -/
theorem reenter_run (hGrounded : course.Grounded layout.count) {restart : Position} {index : Nat}
    (hCan : course.CanReenter layout.count restart index) (hPos : 1 ≤ index)
    (hReach : index ≤ course.reach) :
    ∃ floor' route', ((layout.plan boundaries).reenter restart index).run
        (course.rebuild ((Visit.run layout (layout.visits course.pending) desk).builder
          layout floor route)) =
      .ok ((), { course with standing := index, reach := index, leaf := some {} }.rebuild
        ((Visit.run layout (layout.visits (course.reenter restart index ++
          [Leg.fill index none])) desk).builder layout floor' route')) := by
  have hExit : max course.reach course.standing = course.reach :=
    Nat.max_eq_left hGrounded.standing_le_reach
  have hReachCount := hCan.reach_le
  obtain ⟨floor₁, route₁, -, hAdvance⟩ := @advance_run layout boundaries
    { course with leaf := none } floor route
    (Visit.run layout (layout.visits course.flush) desk) charted course.reach (by omega)
  obtain ⟨route₂, hBegin⟩ := @beginPass_run layout boundaries
    { course with leaf := none, standing := max course.standing course.reach } floor₁ route₁
    (Visit.run layout (layout.visits (course.advance course.reach))
      (Visit.run layout (layout.visits course.flush) desk)) charted course.reach index
    (by omega) hReachCount hPos (by omega) (course.head? restart index)
    fun head hHead => ⟨hCan.head_pos head hHead, Course.head?_lt hHead⟩
  obtain ⟨route₃, hOpen⟩ := @openLeaf_run layout boundaries
    { course with leaf := none, standing := max course.standing course.reach } route₂ _
    charted index hPos (by omega)
  refine ⟨layout.floor index, route₃, ?_⟩
  rw [Course.reenter, hExit, reenter_eq]
  simp only [Layout.plan_boundaries, Layout.visits_append, Visit.run_append]
  refine (run_bind_ok (flush_run hGrounded)).trans ?_
  refine (run_bind_ok rfl).trans ?_
  refine (run_bind_ok rfl).trans ?_
  dsimp only [Course.rebuild]
  rw [hExit]
  refine (run_bind_ok hAdvance).trans ?_
  rw [charted.leaf course.reach (by omega) hReachCount]
  refine (run_bind_ok rfl).trans ?_
  rw [charted.leaf index hPos (by omega)]
  refine (run_bind_ok rfl).trans ?_
  refine (run_bind_ok rfl).trans ?_
  exact (run_bind_ok hBegin).trans hOpen

/-- A run goes to the leaf of an entry that is present. -/
theorem move_run (hGrounded : course.Grounded layout.count) {index : Nat}
    (hSteady : course.restart = none → course.standing ≤ index)
    (hCan : course.CanMove layout.count index) (target : Path) :
    ∃ floor' route', ((layout.plan boundaries).move index target).run
        (course.rebuild ((Visit.run layout (layout.visits course.pending) desk).builder
          layout floor route)) =
      .ok ((), (course.move index).1.rebuild ((Visit.run layout (layout.visits
        ((course.move index).2 ++ (course.move index).1.pending)) desk).builder
          layout floor' route')) := by
  have hUnmarked : Course.Grounded layout.count { course with restart := none } :=
    ⟨hGrounded.standing_le_reach, hGrounded.standing_le, hGrounded.leaf_iff⟩
  rcases course.move_cases index with hForward | ⟨restart, hRestart, hReach, hOther⟩ | hStays
  · obtain ⟨floor', route', hRun⟩ := @forward_run layout boundaries { course with restart := none }
      floor route desk charted hUnmarked index (hGrounded.standing_le_frontier.trans_lt hForward)
      hCan.le_count
    rw [Course.move_forward hForward, run_move_forward hForward]
    exact ⟨floor', route', hRun⟩
  · obtain ⟨hReachCount, hHead⟩ := hCan.reenter restart hRestart hReach hOther
    obtain ⟨floor', route', hRun⟩ := @reenter_run layout boundaries
      { course with restart := none } floor route desk charted hUnmarked restart index
      ⟨hReachCount, hHead⟩ hCan.pos hReach
    rw [Course.move_back hRestart hReach hOther, run_move_back hRestart hReach hOther]
    exact ⟨floor', route', hRun⟩
  · have hSame : course.restart = none ∧ index ≤ course.standing →
        course.restart = none ∧ course.standing = index ∧ course.leaf.isSome = true :=
      fun ⟨hRestart, hBehind⟩ => ⟨hRestart, Nat.le_antisymm (hSteady hRestart) hBehind,
        hGrounded.leaf_iff.2 (hCan.pos.trans hBehind)⟩
    rw [Course.move_stay hStays, run_move_stay (hStays.imp_right hSame)]
    exact ⟨floor, route, rfl⟩

omit charted in
/-- A run notes the place of an entry. -/
theorem see_run (position : Position) (rest : RebuildM Unit) (b : Builder) :
    (do
      if (← get).lastSeen.any (position.before ·) then
        modify ({ · with restart := some position })
      modify ({ · with lastSeen := some position })
      rest : RebuildM Unit).run (course.rebuild b) =
      rest.run ((course.see position).rebuild b) := by
  unfold Course.rebuild Course.see
  refine (run_bind_ok rfl).trans ?_
  dsimp only
  by_cases hBack : course.lastSeen.any (position.before ·) = true
  · simp only [if_pos hBack]
    refine (run_bind_ok rfl).trans ?_
    exact run_bind_ok rfl
  · simp only [if_neg hBack]
    exact run_bind_ok rfl

/-- A run reads an entry of the line. -/
theorem step_run (hValid : course.Valid layout.count) {pointer : Pointer} (text : String)
    (hPos : 1 ≤ pointer.index) (hCount : pointer.index ≤ layout.count) :
    ∃ floor' route', ((layout.plan boundaries).step pointer text).run
        (course.rebuild ((Visit.run layout (layout.visits course.pending) desk).builder
          layout floor route)) =
      .ok ((), (course.step pointer text).1.rebuild ((Visit.run layout (layout.visits
        ((course.step pointer text).2 ++ (course.step pointer text).1.pending)) desk).builder
          layout floor' route')) := by
  have hSeen := hValid.toBounded.see pointer.position
  rw [step_eq, Course.step]
  suffices hStep : ∃ floor' route', StateT.run _ _ = _ from
    hStep.imp fun floor' h => h.imp fun route' h => (see_run pointer.position _ _).trans h
  dsimp only
  by_cases hDropped : (!pointer.isConstant && text.isEmpty) = true
  · rw [if_pos hDropped, if_pos hDropped]
    exact ⟨floor, route, rfl⟩
  · rw [if_neg hDropped, if_neg hDropped]
    obtain ⟨floor', route', hMove⟩ := @move_run layout boundaries (course.see pointer.position) floor
      route desk charted hSeen.grounded pointer.index hValid.isSteady.standing_le_of_see
      (hSeen.canMove hPos hCount) pointer.path
    refine ⟨floor', route', (run_bind_ok hMove).trans ?_⟩
    rw [Course.pending_collect]
    rfl

/-- No entry of a line with known leaves makes a run fail. -/
theorem forM_run {line : Line} (hValid : course.Valid layout.count)
    (hLine : ∀ entry ∈ line, 1 ≤ entry.1.index ∧ entry.1.index ≤ layout.count) :
    ∃ floor' route', (line.forM fun (pointer, text) => (layout.plan boundaries).step pointer text).run
        (course.rebuild ((Visit.run layout (layout.visits course.pending) desk).builder
          layout floor route)) =
      .ok ((), (course.read line).1.rebuild ((Visit.run layout (layout.visits
        ((course.read line).2 ++ (course.read line).1.pending)) desk).builder
          layout floor' route')) := by
  induction line generalizing course floor route desk with
  | nil => exact ⟨floor, route, rfl⟩
  | cons entry line ih =>
    obtain ⟨pointer, text⟩ := entry
    obtain ⟨hPos, hCount⟩ := hLine (pointer, text) List.mem_cons_self
    obtain ⟨floor₁, route₁, hStep⟩ := @step_run layout boundaries course floor route desk charted
      hValid pointer text hPos hCount
    obtain ⟨floor₂, route₂, hRest⟩ := @ih (course.step pointer text).1 floor₁ route₁
      (Visit.run layout (layout.visits (course.step pointer text).2) desk)
      (hValid.step text hPos hCount)
      (fun other hOther => hLine other (List.mem_cons_of_mem _ hOther))
    refine ⟨floor₂, route₂, ?_⟩
    rw [Layout.visits_append, Visit.run_append] at hStep
    rw [List.forM_eq_forM, List.forM_cons, Course.read]
    simp only [Layout.visits_append, Visit.run_append] at hRest ⊢
    exact (run_bind_ok hStep).trans hRest

end

end Plan

/-- What a document is rebuilt to is what the visits of the itinerary leave
behind, for every line whose entries point to leaves of the document. -/
theorem enforce_eq_assemble {layout : Layout} {boundaries : Boundaries}
    (charted : layout.Charted boundaries) {line : Line}
    (hLine : ∀ entry ∈ line, 1 ≤ entry.1.index ∧ entry.1.index ≤ layout.count) :
    enforce layout.root line boundaries layout.format =
      .ok (layout.assemble (layout.itinerary line)) := by
  have hStart := Course.Valid.start layout.count
  have hValid := hStart.read hLine
  obtain ⟨floor₁, route₁, hRead⟩ := @Plan.forM_run layout boundaries {} (some 0) none {}
    charted line hStart hLine
  rw [Layout.visits_append, Visit.run_append] at hRead
  have hFlush := @Plan.flush_run layout boundaries (Course.read {} line).1 floor₁ route₁
    (Visit.run layout (layout.visits (Course.read {} line).2) {}) hValid.toBounded.grounded
  obtain ⟨floor₂, route₂, -, hAdvance⟩ := @Plan.advance_run layout boundaries
    { (Course.read {} line).1 with leaf := none } floor₁ route₁
    (Visit.run layout (layout.visits (Course.read {} line).1.flush)
      (Visit.run layout (layout.visits (Course.read {} line).2) {})) charted (layout.count + 1)
    (Nat.le_refl _)
  have hRun : ∃ course, (Plan.run (layout.plan boundaries) line).run
      (Course.rebuild {} (Desk.builder layout (some 0) none {})) = .ok ((), Course.rebuild course
        ((Visit.run layout (layout.itinerary line) {}).builder layout floor₂ route₂)) := by
    refine ⟨{ (Course.read {} line).1 with
      leaf := none, standing := max (Course.read {} line).1.standing (layout.count + 1) }, ?_⟩
    refine (RebuildM.run_bind_ok hRead).trans ((RebuildM.run_bind_ok hFlush).trans ?_)
    rw [Layout.plan_boundaries, charted.last, Layout.itinerary, Leg.ofLine]
    simp only [Layout.visits_append, Visit.run_append]
    exact hAdvance
  obtain ⟨course, hRun⟩ := hRun
  rw [enforce]
  show ((Plan.run (layout.plan boundaries) line).run
    (Course.rebuild {} (Desk.builder layout (some 0) none {})) >>= fun result =>
      pure result.2.builder.finish) = _
  rw [hRun, ok_bind]
  exact congrArg Except.ok Desk.finish_builder

end Infill
