import Infill.Proofs.Retention

/-!
When a run fails. The boundaries of a line know its leaves and nothing else, so
a run that asks for another leaf ends there. Nothing else can go wrong: every
other step of a run succeeds in every state that entries can bring it to, those
that were dropped included, wherever they point.
-/
namespace Infill

open Infill.Xml

/-- Whether an error says that a line with so many leaves does not have the one
that was asked for. -/
def Error.IsStray (count : Nat) (e : Error) : Prop :=
  ∃ index, ¬ (1 ≤ index ∧ index ≤ count) ∧ e = .malformedTape (.unknownLeaf index)

/-! ### What boundaries do not hold -/

/-- The boundaries that lead to leaves stand under the numbers of these. -/
theorem Boundaries.map_fst_leading {root : Element} {leaves : Ascending Path}
    {previous : Option Path} {entries : Ascending Boundary}
    (h : Boundaries.leading root previous leaves = .ok entries) :
    entries.map Prod.fst = leaves.map Prod.fst := by
  induction leaves generalizing previous entries with
  | nil =>
    cases h
    rfl
  | cons leaf leaves ih =>
    obtain ⟨index, path⟩ := leaf
    rw [Boundaries.leading] at h
    split at h
    · cases h
    · have hFirst : ∃ boundary, (do
          return (index, boundary) :: (← Boundaries.leading root (some path) leaves)) =
            Except.ok entries := by
        cases previous with
        | none => exact (bind_eq_ok.1 h).imp fun _ hNext => hNext.2
        | some previous => exact (bind_eq_ok.1 h).imp fun _ hNext => hNext.2
      obtain ⟨boundary, hRest⟩ := hFirst
      obtain ⟨rest, hLeading, hEntries⟩ := bind_eq_ok.1 hRest
      cases hEntries
      rw [List.map_cons, List.map_cons, ih hLeading]

/-- The boundaries of a line that numbers leaves stand under the numbers of these
and the next one. -/
theorem Boundaries.map_fst_ofLine {root : Element} {line : Line} {leaves : List Path}
    {boundaries : Boundaries} (hLine : Boundaries.leavesOf line = Ascending.numbered leaves)
    (h : Boundaries.ofLine root line = .ok boundaries) :
    boundaries.entries.map Prod.fst = List.range' 1 (leaves.length + 1) := by
  obtain ⟨entries, hEntries, hRest⟩ := bind_eq_ok.1 h
  obtain ⟨closing, -, hDone⟩ := bind_eq_ok.1 hRest
  cases hDone
  have hKeys := Boundaries.map_fst_leading hEntries
  rw [hLine, Ascending.map_fst_numbered] at hKeys
  have hLess : ∀ entry ∈ entries, entry.1 < leaves.length + 1 := by
    intro entry hEntry
    have hKey : entry.1 ∈ List.range' 1 leaves.length := hKeys ▸ List.mem_map_of_mem hEntry
    have := List.mem_range'_1.1 hKey
    omega
  rw [hLine, Ascending.length_numbered, Ascending.insert_of_lt hLess, List.map_append, hKeys,
    List.range'_concat]
  simp [Nat.add_comm]

namespace Layout

/-- What boundaries answer where a laid out document has nothing. -/
structure Sealed (layout : Layout) (boundaries : Boundaries) : Prop where
  leaf : ∀ index, ¬ (1 ≤ index ∧ index ≤ layout.count) →
    boundaries.leaf index = .error (.malformedTape (.unknownLeaf index))
  get : ∀ index, layout.count + 1 < index →
    boundaries.get index = .error (.malformedTape (.unknownLeaf index))

theorem sealed_ofLine {layout : Layout} {line : Line} {boundaries : Boundaries}
    (hLine : Boundaries.leavesOf line = layout.numbered)
    (h : Boundaries.ofLine layout.root line = .ok boundaries) : layout.Sealed boundaries := by
  have hKeys := Boundaries.map_fst_ofLine hLine h
  constructor
  · intro index hIndex
    obtain ⟨entries, -, hRest⟩ := bind_eq_ok.1 h
    obtain ⟨closing, -, hDone⟩ := bind_eq_ok.1 hRest
    cases hDone
    rw [Boundaries.leaf, hLine, numbered, Ascending.lookup_numbered_eq_none hIndex]
  · intro index hIndex
    have hNone : boundaries.entries.lookup index = none := by
      rw [List.lookup_eq_none_iff]
      intro entry hEntry
      have hKey : entry.1 ∈ List.range' 1 (layout.count + 1) := hKeys ▸ List.mem_map_of_mem hEntry
      have hRange := List.mem_range'_1.1 hKey
      rw [bne_iff_ne]
      omega
    rw [Boundaries.get, hNone]

end Layout

/-! ### Steps that fail -/

namespace RebuildM

/-- Whether a step fails for a leaf that the line does not have. -/
def Astray {α : Type} (count : Nat) (action : RebuildM α) (state : Rebuild) : Prop :=
  ∃ e, action.run state = .error e ∧ e.IsStray count

variable {α β : Type} {count : Nat} {action : RebuildM α} {next : α → RebuildM β}
  {state state' : Rebuild} {a : α}

theorem Astray.bind (h : Astray count action state) (next : α → RebuildM β) :
    Astray count (action >>= next) state := by
  obtain ⟨e, hRun, hStray⟩ := h
  refine ⟨e, ?_, hStray⟩
  rw [StateT.run_bind, hRun]
  rfl

theorem Astray.after (h : Astray count (next a) state')
    (hRun : action.run state = .ok (a, state')) : Astray count (action >>= next) state := by
  obtain ⟨e, hNext, hStray⟩ := h
  exact ⟨e, (run_bind_ok hRun).trans hNext, hStray⟩

end RebuildM

namespace Plan

open RebuildM

variable {layout : Layout} {boundaries : Boundaries} {course : Course} {floor : Option Nat}
  {route : Option Route} {desk : Desk}

section

variable (closed : layout.Sealed boundaries)

include closed

/-- The path of a leaf that the line does not have is not found. -/
theorem leaf_astray {α : Type} {index : Nat} (hIndex : ¬ (1 ≤ index ∧ index ≤ layout.count))
    (next : Path → RebuildM α) (state : Rebuild) :
    Astray layout.count (do next (← boundaries.leaf index)) state := by
  rw [closed.leaf index hIndex]
  exact ⟨_, rfl, index, hIndex, rfl⟩

theorem openLeaf_astray {index : Nat} (hIndex : ¬ (1 ≤ index ∧ index ≤ layout.count))
    (state : Rebuild) : Astray layout.count ((layout.plan boundaries).openLeaf index) state :=
  leaf_astray closed hIndex _ state

variable (charted : layout.Charted boundaries)

include charted

/-- No boundary leads behind the closing one. -/
theorem advanceFrom_astray (target count : Nat) {key : Nat} (hPos : 1 ≤ key)
    (hKey : key ≤ layout.count + 2) (hFar : layout.count + 2 < key + count) :
    Astray layout.count ((layout.plan boundaries).advanceFrom target key count)
      (course.rebuild (desk.builder layout floor route)) := by
  induction count generalizing key floor route desk with
  | zero => omega
  | succ count ih =>
    by_cases hCount : key ≤ layout.count + 1
    · obtain ⟨route₁, hCross⟩ := @cross_run layout boundaries course floor route desk charted key
        target hPos hCount
      have hRest := @ih (layout.floor key) route₁
        (Visit.run layout ((Leg.cross key target).visits layout) desk) (key + 1) (Nat.succ_pos key)
        (by omega) (by omega)
      have hAll := @Astray.after Unit Unit _ _
        (fun _ => (layout.plan boundaries).advanceFrom target (key + 1) count) _ _ _ hRest hCross
      simpa only [Plan.advanceFrom, bind_assoc, Layout.plan_boundaries] using hAll
    · obtain rfl : key = layout.count + 2 := by omega
      apply Astray.after _ (setFloor_run charted (layout.count + 2))
      rw [Layout.plan_boundaries, closed.get _ (by omega)]
      exact ⟨_, rfl, layout.count + 2, by omega, rfl⟩

theorem advance_astray {target : Nat} (hStanding : course.standing ≤ layout.count)
    (hTarget : layout.count + 1 < target) :
    Astray layout.count ((layout.plan boundaries).advance target)
      (course.rebuild (desk.builder layout floor route)) := by
  apply Astray.after _ rfl
  apply Astray.bind
  exact advanceFrom_astray closed charted target _ (Nat.succ_pos _)
    (by dsimp only [Course.rebuild]; omega) (by dsimp only [Course.rebuild]; omega)

/-- A leaf behind the last one is never reached. -/
theorem forward_astray (hGrounded : course.Grounded layout.count) {index : Nat}
    (hIndex : layout.count < index) :
    Astray layout.count (do
        (layout.plan boundaries).flush
        (layout.plan boundaries).advance index
        (layout.plan boundaries).openLeaf index : RebuildM Unit)
      (course.rebuild ((Visit.run layout (layout.visits course.pending) desk).builder
        layout floor route)) := by
  have hStanding := hGrounded.standing_le
  apply Astray.after _ (flush_run hGrounded)
  by_cases hNext : index = layout.count + 1
  · obtain ⟨floor₁, route₁, -, hAdvance⟩ := @advance_run layout boundaries
      { course with leaf := none } floor route
      (Visit.run layout (layout.visits course.flush) desk) charted index (by omega)
    apply Astray.after _ hAdvance
    exact openLeaf_astray closed (by omega) _
  · apply Astray.bind
    exact @advance_astray layout boundaries { course with leaf := none } floor route
      (Visit.run layout (layout.visits course.flush) desk) closed charted index hStanding
      (by omega)

/-- Another pass does not begin where a leaf that it starts from is missing. -/
theorem reenter_astray (hGrounded : course.Grounded layout.count) {restart : Position}
    {index : Nat} (hReach : index ≤ course.reach)
    (hMissing : ¬ (1 ≤ index ∧ course.CanReenter layout.count restart index)) :
    Astray layout.count ((layout.plan boundaries).reenter restart index)
      (course.rebuild ((Visit.run layout (layout.visits course.pending) desk).builder
        layout floor route)) := by
  have hStanding := hGrounded.standing_le
  have hExit : max course.reach course.standing = course.reach :=
    Nat.max_eq_left hGrounded.standing_le_reach
  rw [reenter_eq]
  apply Astray.after _ (flush_run hGrounded)
  apply Astray.after _ rfl
  apply Astray.after _ rfl
  dsimp only [Course.rebuild]
  rw [hExit]
  by_cases hFar : layout.count + 1 < course.reach
  · apply Astray.bind
    exact @advance_astray layout boundaries { course with leaf := none } floor route
      (Visit.run layout (layout.visits course.flush) desk) closed charted course.reach hStanding hFar
  · obtain ⟨floor₁, route₁, -, hAdvance⟩ := @advance_run layout boundaries
      { course with leaf := none } floor route
      (Visit.run layout (layout.visits course.flush) desk) charted course.reach (by omega)
    apply Astray.after _ hAdvance
    by_cases hKnown : 1 ≤ course.reach ∧ course.reach ≤ layout.count
    · rw [Layout.plan_boundaries, charted.leaf _ hKnown.1 hKnown.2]
      apply Astray.after _ rfl
      by_cases hPos : 1 ≤ index
      · rw [charted.leaf index hPos (hReach.trans hKnown.2)]
        apply Astray.after _ rfl
        apply Astray.after _ rfl
        dsimp only [Course.rebuild]
        rw [← Course.head?]
        cases hHead : course.head? restart index with
        | none => exact absurd ⟨hPos, hKnown.2, by simp [hHead]⟩ hMissing
        | some head =>
          have hZero : ¬ (1 ≤ head ∧ head ≤ layout.count) := by
            intro hPresent
            apply hMissing
            refine ⟨hPos, hKnown.2, ?_⟩
            rintro other hOther
            obtain rfl := Option.some.inj (hHead.symm.trans hOther)
            exact hPresent.1
          exact (leaf_astray closed hZero _ _).bind _
      · exact leaf_astray closed (by omega) _ _
    · exact leaf_astray closed hKnown _ _

/-- A run does not go to a leaf that the line does not have, nor back to one
where another pass cannot begin. -/
theorem move_astray (hGrounded : course.Grounded layout.count) {index : Nat}
    (hSteady : course.restart = none → course.standing ≤ index)
    (hMissing : ¬ course.CanMove layout.count index) (target : Path) :
    Astray layout.count ((layout.plan boundaries).move index target)
      (course.rebuild ((Visit.run layout (layout.visits course.pending) desk).builder
        layout floor route)) := by
  have hStanding := hGrounded.standing_le
  have hUnmarked : Course.Grounded layout.count { course with restart := none } :=
    ⟨hGrounded.standing_le_reach, hGrounded.standing_le, hGrounded.leaf_iff⟩
  unfold Astray
  rcases course.move_cases index with hForward | ⟨restart, hRestart, hReach, hOther⟩ | hStays
  · rw [run_move_forward hForward]
    have hBehind : layout.count < index := by
      apply Nat.lt_of_not_le
      intro hCount
      refine hMissing ⟨by omega, hCount, fun restart hRestart hReach => ?_⟩
      exact absurd (Course.frontier_of_some hRestart ▸ hForward) (Nat.not_lt_of_le hReach)
    exact @forward_astray layout boundaries { course with restart := none } floor route desk
      closed charted hUnmarked index hBehind
  · rw [run_move_back hRestart hReach hOther]
    apply @reenter_astray layout boundaries { course with restart := none } floor route desk
      closed charted hUnmarked restart index hReach
    rintro ⟨hPos, hCan⟩
    refine hMissing ⟨hPos, hReach.trans hCan.reach_le, fun other hOther _ _ => ?_⟩
    obtain rfl := Option.some.inj (hRestart.symm.trans hOther)
    exact ⟨hCan.reach_le, hCan.head_pos⟩
  · -- the leaf that a run stands on exists, so the run stands in front of the first leaf
    have hSame : course.standing = index :=
      hStays.elim (·.standing) fun hHere => Nat.le_antisymm (hSteady hHere.1) hHere.2
    have hZero : course.standing = 0 := by
      apply Nat.eq_zero_of_not_pos
      intro hPos
      refine hMissing ⟨by omega, by omega, fun restart hRestart _ hOther => ?_⟩
      exact absurd (hStays.resolve_right (by simp [hRestart])) hOther
    have hClosed : ¬ course.leaf.isSome = true := by
      rw [hGrounded.leaf_iff]
      omega
    have hRestart : course.restart = none :=
      (hStays.resolve_left fun hHere => hClosed hHere.isOpen).1
    rw [run_move_stuck hRestart hSame.ge (.inr (by simpa using hClosed))]
    exact leaf_astray closed (by omega) _ _

/-- Reading an entry goes as the course says, and then the entry points to a
leaf if it is present; or it fails for a leaf that is missing. -/
theorem step_outcome (hSteady : course.Steady layout.count) (pointer : Pointer) (text : String) :
    ((course.step pointer text).1.Steady layout.count ∧
      (Line.IsPresent (pointer, text) → 1 ≤ pointer.index ∧ pointer.index ≤ layout.count) ∧
      ∃ floor' route', ((layout.plan boundaries).step pointer text).run
          (course.rebuild ((Visit.run layout (layout.visits course.pending) desk).builder
            layout floor route)) =
        .ok ((), (course.step pointer text).1.rebuild ((Visit.run layout (layout.visits
          ((course.step pointer text).2 ++ (course.step pointer text).1.pending)) desk).builder
            layout floor' route'))) ∨
    Astray layout.count ((layout.plan boundaries).step pointer text)
      (course.rebuild ((Visit.run layout (layout.visits course.pending) desk).builder
        layout floor route)) := by
  have hSeen := hSteady.toGrounded.see pointer.position
  rw [step_eq, Course.step]
  unfold Astray
  rw [see_run]
  dsimp only
  by_cases hDropped : (!pointer.isConstant && text.isEmpty) = true
  · rw [if_pos hDropped, if_pos hDropped]
    left
    refine ⟨hSteady.drop pointer.position, ?_, floor, route, rfl⟩
    intro hPresent
    obtain hConstant | hText : pointer.isConstant = true ∨ text.isEmpty = false := hPresent
    · simp [hConstant] at hDropped
    · simp [hText] at hDropped
  · rw [if_neg hDropped, if_neg hDropped]
    by_cases hCan : (course.see pointer.position).CanMove layout.count pointer.index
    · obtain ⟨floor', route', hMove⟩ := @move_run layout boundaries (course.see pointer.position)
        floor route desk charted hSeen pointer.index hSteady.standing_le_of_see hCan pointer.path
      left
      refine ⟨hSteady.collect text hCan.pos hCan.le_count, fun _ => ⟨hCan.pos, hCan.le_count⟩,
        floor', route', ?_⟩
      rw [Course.pending_collect]
      exact run_bind_ok hMove
    · right
      exact (move_astray closed charted hSeen hSteady.standing_le_of_see hCan pointer.path).bind _

/-- A run over entries goes as the course says, and then those that are present
point to leaves; or it fails for a leaf that is missing. -/
theorem forM_outcome (hSteady : course.Steady layout.count) (tape : Line) :
    ((course.read tape).1.Steady layout.count ∧
      (∀ entry ∈ tape, Line.IsPresent entry →
        1 ≤ entry.1.index ∧ entry.1.index ≤ layout.count) ∧
      ∃ floor' route', (tape.forM fun (pointer, text) =>
          (layout.plan boundaries).step pointer text).run
          (course.rebuild ((Visit.run layout (layout.visits course.pending) desk).builder
            layout floor route)) =
        .ok ((), (course.read tape).1.rebuild ((Visit.run layout (layout.visits
          ((course.read tape).2 ++ (course.read tape).1.pending)) desk).builder
            layout floor' route'))) ∨
    Astray layout.count
      (tape.forM fun (pointer, text) => (layout.plan boundaries).step pointer text)
      (course.rebuild ((Visit.run layout (layout.visits course.pending) desk).builder
        layout floor route)) := by
  induction tape generalizing course floor route desk with
  | nil => exact .inl ⟨hSteady, by simp, floor, route, rfl⟩
  | cons entry tape ih =>
    obtain ⟨pointer, text⟩ := entry
    rw [List.forM_eq_forM, List.forM_cons, Course.read]
    rcases @step_outcome layout boundaries course floor route desk closed charted hSteady pointer
      text with ⟨hStepped, hPresent, floor₁, route₁, hStep⟩ | hFails
    · rw [Layout.visits_append, Visit.run_append] at hStep
      rcases @ih (course.step pointer text).1 floor₁ route₁
        (Visit.run layout (layout.visits (course.step pointer text).2) desk) hStepped with
        ⟨hRead, hRest, floor₂, route₂, hRun⟩ | hFails
      · left
        refine ⟨hRead, ?_, floor₂, route₂, ?_⟩
        · intro entry hEntry
          rcases List.mem_cons.1 hEntry with rfl | hEntry
          · exact hPresent
          · exact hRest entry hEntry
        · simp only [Layout.visits_append, Visit.run_append] at hRun ⊢
          exact (run_bind_ok hStep).trans hRun
      · right
        apply Astray.after _ hStep
        exact hFails
    · right
      exact hFails.bind _

/-- A run over a line ends with a document or fails for a leaf that is missing. -/
theorem run_outcome (tape : Line) :
    ((∀ entry ∈ tape, Line.IsPresent entry →
        1 ≤ entry.1.index ∧ entry.1.index ≤ layout.count) ∧
      ∃ state, (Plan.run (layout.plan boundaries) tape).run
        (Course.rebuild {} (Desk.builder layout (some 0) none {})) = .ok ((), state)) ∨
    Astray layout.count (Plan.run (layout.plan boundaries) tape)
      (Course.rebuild {} (Desk.builder layout (some 0) none {})) := by
  have hStart : Course.Steady layout.count {} := (Course.Valid.start layout.count).isSteady
  rcases @forM_outcome layout boundaries {} (some 0) none {} closed charted hStart tape with
    ⟨hRead, hPresent, floor₁, route₁, hRun⟩ | hFails
  · left
    rw [Layout.visits_append, Visit.run_append] at hRun
    have hFlush := @Plan.flush_run layout boundaries (Course.read {} tape).1 floor₁ route₁
      (Visit.run layout (layout.visits (Course.read {} tape).2) {}) hRead.toGrounded
    obtain ⟨floor₂, route₂, -, hAdvance⟩ := @Plan.advance_run layout boundaries
      { (Course.read {} tape).1 with leaf := none } floor₁ route₁
      (Visit.run layout (layout.visits (Course.read {} tape).1.flush)
        (Visit.run layout (layout.visits (Course.read {} tape).2) {})) charted (layout.count + 1)
      (Nat.le_refl _)
    rw [← charted.last] at hAdvance
    exact ⟨hPresent, _, (run_bind_ok hRun).trans ((run_bind_ok hFlush).trans hAdvance)⟩
  · right
    exact hFails.bind _

end

end Plan

/-- A document is rebuilt from a line, whose entries then point to leaves where
they are present; or a leaf is missing. -/
theorem enforce_outcome {layout : Layout} {boundaries : Boundaries}
    (closed : layout.Sealed boundaries) (charted : layout.Charted boundaries) (tape : Line) :
    ((∀ entry ∈ tape, Line.IsPresent entry →
        1 ≤ entry.1.index ∧ entry.1.index ≤ layout.count) ∧
      ∃ out, enforce layout.root tape boundaries layout.format = .ok out) ∨
    ∃ e, enforce layout.root tape boundaries layout.format = .error e ∧
      e.IsStray layout.count := by
  have hEnforce : enforce layout.root tape boundaries layout.format =
      ((Plan.run (layout.plan boundaries) tape).run
        (Course.rebuild {} (Desk.builder layout (some 0) none {})) >>= fun result =>
          pure result.2.builder.finish) := rfl
  rw [hEnforce]
  rcases Plan.run_outcome closed charted tape with ⟨hPresent, state, hRun⟩ | ⟨e, hRun, hStray⟩
  · left
    rw [hRun]
    exact ⟨hPresent, _, rfl⟩
  · right
    rw [hRun]
    exact ⟨e, rfl, hStray⟩

/-- How a rebuild of a document with so many leaves ends for a tape. It succeeds if all
entries have indices of leaves, it fails only for a leaf that there is not, and it
does fail if an entry that is present points to such a leaf. -/
structure Plan.Answers (plan : Plan) (count : Nat) (tape : Line) : Prop where
  ok : (∀ entry ∈ tape, 1 ≤ entry.1.index ∧ entry.1.index ≤ count) →
    ∃ out, enforce plan.root tape plan.boundaries plan.format = .ok out
  stray : ∀ e, enforce plan.root tape plan.boundaries plan.format = .error e → e.IsStray count
  error : (∃ entry ∈ tape, Line.IsPresent entry ∧
      ¬ (1 ≤ entry.1.index ∧ entry.1.index ≤ count)) →
    ∃ index, ¬ (1 ≤ index ∧ index ≤ count) ∧
      enforce plan.root tape plan.boundaries plan.format =
        .error (.malformedTape (.unknownLeaf index))

variable {format : Format} {root : Element} {content : Content} {line : Line}

/-- Rebuilding a document succeeds for every tape whose entries have the indices
of leaves. The only failure there is names a leaf that the line does not have,
and an entry that is present and has such an index always leads to it. -/
theorem enforce_total (h : flatten format root = .ok (content, line)) :
    ∃ boundaries, Boundaries.ofLine root line = .ok boundaries ∧ ∀ tape,
      Plan.Answers ⟨root, boundaries, format⟩ (Boundaries.leavesOf line).length tape := by
  have hLeaves := Layout.leavesOf_ofLine h
  obtain ⟨boundaries, hBoundaries, charted⟩ := Layout.exists_charted _ hLeaves
  have closed := Layout.sealed_ofLine hLeaves hBoundaries
  have hCount : (Boundaries.leavesOf line).length = (Layout.ofLine h).count := by
    rw [hLeaves, Layout.numbered, Ascending.length_numbered, Layout.count]
  rw [hCount]
  refine ⟨boundaries, hBoundaries, fun tape => ⟨fun hTape => ?_, fun e hError => ?_, ?_⟩⟩
  · exact ⟨_, enforce_eq_assemble charted hTape⟩
  · rcases enforce_outcome closed charted tape with ⟨-, out, hOut⟩ | ⟨e', hFails, hStray⟩
    · exact absurd (hOut.symm.trans hError) (by simp)
    · obtain rfl : e' = e := Except.error.inj (hFails.symm.trans hError)
      exact hStray
  · rintro ⟨entry, hEntry, hPresent, hIndex⟩
    rcases enforce_outcome closed charted tape with ⟨hAll, -⟩ | ⟨_, hFails, index, hStray, rfl⟩
    · exact absurd (hAll entry hEntry hPresent) hIndex
    · exact ⟨index, hStray, hFails⟩

/-- The line of the letter is answered backwards too, and an entry of a leaf that
there is not is refused. -/
theorem enforce_total_letter :
    flatten .docx Docx.letter = .ok (.template, Docx.letterLine) ∧
      ∃ boundaries, Boundaries.ofLine Docx.letter Docx.letterLine = .ok boundaries ∧
        (∃ out, enforce Docx.letter Docx.letterLine.reverse boundaries .docx = .ok out) ∧
        ∃ index, ¬ (1 ≤ index ∧ index ≤ 1) ∧
          enforce Docx.letter [(⟨[7], false, 0, 0, 0, 7⟩, "stray")] boundaries .docx =
            .error (.malformedTape (.unknownLeaf index)) := by
  obtain ⟨boundaries, hBoundaries, hAnswers⟩ := enforce_total Docx.flatten_letter
  exact ⟨Docx.flatten_letter, boundaries, hBoundaries, (hAnswers Docx.letterLine.reverse).ok (by decide),
    (hAnswers [(⟨[7], false, 0, 0, 0, 7⟩, "stray")]).error (by decide)⟩

end Infill
