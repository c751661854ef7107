import Infill.Proofs.RunPosition

/-!
The visits of a run up to a place of the document, by the entries it read. They
grow by a few known visits with every child that the entries go through: a
subtree off the paths, a leaf, or the tag of a loop.
-/
namespace Infill

open Infill.Xml

namespace Layout

variable {layout : Layout} {read : Line} {course : Course} {legs : List Leg}
  {base V : List Visit} {start rank limit key head exit : Nat} {steady : Bool} {z path : Path}
  {index : Nat} {entry : Pointer × String}

/-- Where a run stands in front of the leaf behind so many others. A steady one
has not gone back and will not, unless another pass ends first. -/
inductive Poised (layout : Layout) (course : Course) (legs : List Leg) (base : List Visit)
    (start rank limit : Nat) : (steady : Bool) → Prop
  | cruises (steady : Bool) (h : layout.Cruises course legs base start)
      (hLast : ∀ last ∈ course.lastSeen, last.index ≤ rank) :
    Poised layout course legs base start rank limit steady
  | returns {exit : Nat} (h : layout.Returns course legs base start exit) (hLimit : limit < exit)
      (hLast : ∀ last ∈ course.lastSeen, last.index ≤ rank) :
    Poised layout course legs base start rank limit false
  | turns {exit : Nat} (h : layout.Turns course legs base start exit) (hLimit : limit < exit)
      (hRank : rank = start) : Poised layout course legs base start rank limit false

private theorem forward_of_le (hLast : ∀ last ∈ course.lastSeen, last.index ≤ rank)
    (hIndex : entry.1.index = rank + 1) :
    ∀ last ∈ course.lastSeen, entry.1.position.before last = false := by
  intro last hSeen
  have hBound := hLast last hSeen
  have hPlace : entry.1.position.index = rank + 1 := hIndex
  rw [Bool.eq_false_iff, Ne, Position.before_iff]
  omega

/-- An entry of the next leaf leaves no doubt where the run goes. -/
theorem Poised.see {back : Line}
    (h : layout.Poised (Course.read {} read).1 legs base start rank limit steady)
    (hIndex : entry.1.index = rank + 1) (hLimit : rank + 1 ≤ limit)
    (hFresh : Line.FreshStarts (read ++ entry :: back)) :
    layout.Stance ((Course.read {} read).1.see entry.1.position) legs base start limit := by
  cases h with
  | cruises steady h hLast => exact .forward (h.see (forward_of_le hLast hIndex))
  | returns h hExit hLast => exact .backward (h.see (forward_of_le hLast hIndex)) hExit
  | @turns exit h hExit hRank =>
    obtain ⟨last, hLast, hLastIndex⟩ := h.last
    obtain ⟨tag, hTag, hTagIndex⟩ := h.dropped
    have hPlace : entry.1.position.index = rank + 1 := hIndex
    have hBack : entry.1.position.before last = true := by
      rw [Position.before_iff]
      omega
    have hSee : (Course.read {} read).1.see entry.1.position =
        { (Course.read {} read).1 with
          restart := some entry.1.position, lastSeen := some entry.1.position } := by
      rw [Course.see, hLast, Option.any_some, if_pos hBack]
    obtain ⟨best, hBest, hBestLimit, hBestTag⟩ := Position.latestBefore_spec hTag
      (show tag.before entry.1.position = true by rw [Position.before_iff]; omega)
    have hHead : best.index = start := by
      obtain ⟨dropped, hDropped, hAbsent, hSame⟩ :=
        Course.mem_discarded.1 (Position.latestBefore_mem hBest)
      have hOffset : dropped.1.index = entry.1.index → entry.1.offset ≤ dropped.1.offset := by
        refine hFresh read entry back rfl ?_ dropped hDropped hAbsent
        rw [Course.lastSeen_read] at hLast
        obtain ⟨previous, hPrevious, rfl⟩ := Option.map_eq_some_iff.1 hLast
        rw [hPrevious]
        exact hBack
      subst hSame
      rw [Bool.eq_false_iff, Ne, Position.before_iff] at hBestTag
      rw [Position.before_iff] at hBestLimit
      simp only [Pointer.position] at *
      omega
    rw [hSee]
    refine .backward ⟨⟨h.brackets, h.reach, h.standing, h.base⟩, entry.1.position, rfl,
      ⟨_, rfl, Position.before_irrefl _⟩, ?_⟩ hExit
    rw [hBest, Option.map_some, hHead]

/-- A dropped entry of the next leaf is passed by. -/
theorem Poised.drop {back : Line}
    (h : layout.Poised (Course.read {} read).1 (Course.read {} read).2 base start rank limit steady)
    (hAbsent : ¬ Line.IsPresent entry) (hIndex : entry.1.index = rank + 1)
    (hLimit : rank + 1 ≤ limit) (hFresh : Line.FreshStarts (read ++ entry :: back)) :
    layout.Poised (Course.read {} (read ++ [entry])).1 (Course.read {} (read ++ [entry])).2 base
      start (rank + 1) limit steady := by
  have hPlace : entry.1.position.index = rank + 1 := hIndex
  have hLast : ∀ last ∈ some entry.1.position, last.index ≤ rank + 1 := by
    rintro last ⟨⟩
    exact Nat.le_of_eq hPlace
  have hStance := h.see hIndex hLimit hFresh
  have hUnsteady : layout.Poised (Course.read {} (read ++ [entry])).1
      (Course.read {} (read ++ [entry])).2 base start (rank + 1) limit false := by
    rw [Course.read_concat, Course.step_of_absent hAbsent, List.append_nil]
    have hDropped := hStance.drop (show Option.some entry.1.position = some entry.1.position from rfl)
      (by omega)
    cases hDropped with
    | forward h => exact .cruises false h hLast
    | backward h hExit => exact .returns h hExit hLast
  cases h with
  | cruises steady h hSeen =>
    rw [Course.read_concat, Course.step_of_absent hAbsent, List.append_nil]
    exact .cruises steady ((h.see (forward_of_le hSeen hIndex)).drop rfl) hLast
  | returns h hExit hSeen => exact hUnsteady
  | turns h hExit hRank => exact hUnsteady

/-- Whether a run that read some entries stands in front of a place, with these
visits on its way there. -/
def At (layout : Layout) (read : Line) (limit : Nat) (steady : Bool) (z : Path) (V : List Visit) :
    Prop :=
  ∃ base start, start ≤ layout.rank z ∧
    layout.Poised (Course.read {} read).1 (Course.read {} read).2 base start (layout.rank z) limit
      steady ∧
    V = base ++ layout.trail start z

/-- Two tags in one element are brackets around what stands between them. -/
theorem IsTag.brackets {i j : Nat} (hOpening : layout.IsTag (path ++ [i]) head)
    (hClosing : layout.IsTag (path ++ [j]) exit) (hLess : i < j) :
    layout.Brackets head exit ∧
      Path.sharedLength (layout.path exit) (layout.path head) = path.length := by
  have hShared : Path.sharedLength (layout.path exit) (layout.path head) = path.length := by
    obtain ⟨rest, hRest⟩ := hOpening.inside
    obtain ⟨other, hOther⟩ := hClosing.inside
    rw [← hRest, ← hOther, List.append_assoc, List.append_assoc]
    exact Path.sharedLength_fork path (Nat.ne_of_gt hLess) other rest
  have hHead : head < exit := by
    refine (hClosing.before_iff hOpening.pos hOpening.le_count).1 ?_
    have hFork : Path.Before (path ++ [i]) (path ++ [j]) := by
      rw [Path.before_append_left]
      exact .inl hLess
    exact hFork.extend hOpening.inside List.prefix_rfl
  have hNext := hClosing.le_count
  refine ⟨⟨hOpening.pos, hHead, hNext, hClosing.trailingFrom_eq_nil ?_, ?_⟩, hShared⟩
  · rw [hShared, List.length_append, List.length_singleton]
  · rw [ending, leaf?_eq_path hOpening.pos hOpening.le_count,
      leaf?_eq_path (Nat.succ_pos head) (hHead.trans_le hNext), Path.ending]
    -- the leaf behind the tag lies in the element that holds both tags
    have hInside : path <+: layout.path (head + 1) := by
      have hLeft : path <+: layout.path head := (List.prefix_append _ _).trans hOpening.inside
      have hRight : path <+: layout.path exit := (List.prefix_append _ _).trans hClosing.inside
      rcases Nat.eq_or_lt_of_le (Nat.succ_le_of_lt hHead) with hSame | hLater
      · rwa [← hSame] at hRight
      · exact Path.prefix_of_between hLeft hRight
          (path_before hOpening.pos (Nat.lt_succ_self head) (by omega))
          (path_before (Nat.succ_pos head) hLater hNext)
    refine hOpening.trailingFrom_eq_nil ?_
    have := Path.le_sharedLength ((List.prefix_append _ _).trans hOpening.inside) hInside
    rw [List.length_append, List.length_singleton]
    exact Nat.succ_le_succ this

namespace At

variable {entries back : Line}

theorem begins (layout : Layout) (limit : Nat) : layout.At [] limit true [0] [] := by
  obtain ⟨hFirstRank, hFirst⟩ := layout.trail_first 0 []
  refine ⟨[], 0, Nat.zero_le _, .cruises true ⟨rfl, rfl, Nat.le_refl 0, rfl⟩ (by simp [Course.read]), ?_⟩
  rw [List.nil_append] at hFirst
  rw [hFirst, trail, layout.rank_nil, passingTo_self]
  simp

/-- A steady run does not care how far the others go back. -/
theorem relax (h : layout.At read limit true z V) (limit' : Nat) (steady : Bool) :
    layout.At read limit' steady z V := by
  obtain ⟨base, start, hStart, hPoised, hV⟩ := h
  cases hPoised with
  | cruises _ h hLast => exact ⟨base, start, hStart, .cruises steady h hLast, hV⟩

private theorem congr {z' : Path} (h : layout.At read limit steady z V)
    (hSame : ∀ start, layout.rank z = layout.rank z' ∧ layout.trail start z = layout.trail start z') :
    layout.At read limit steady z' V := by
  obtain ⟨base, start, hStart, hPoised, hV⟩ := h
  obtain ⟨hRank, hTrail⟩ := hSame start
  rw [hRank] at hStart hPoised
  exact ⟨base, start, hStart, hPoised, hTrail ▸ hV⟩

theorem enter (h : layout.At read limit steady path V) :
    layout.At read limit steady (path ++ [0]) V :=
  h.congr fun start => ⟨(layout.trail_first start path).1.symm, (layout.trail_first start path).2.symm⟩

theorem leave (h : layout.At read limit steady
      (path ++ [index] ++ [layout.root.degree (path ++ [index])]) V)
    (hInner : ∃ leaf ∈ layout.leaves, path ++ [index] <+: leaf ∧ path ++ [index] ≠ leaf) :
    layout.At read limit steady (path ++ [index + 1]) V :=
  h.congr fun start => trail_end hInner start

/-- A subtree off the paths is cloned. -/
theorem offPath (h : layout.At read limit steady (path ++ [index]) V)
    (hOff : layout.OffPath (path ++ [index])) :
    layout.At read limit steady (path ++ [index + 1])
      (V ++ [.clone (layout.floor (layout.rank (path ++ [index]) + 1)) (path ++ [index])]) := by
  obtain ⟨base, start, hStart, hPoised, rfl⟩ := h
  obtain ⟨hRank, hTrail⟩ := trail_offPath hOff start
  rw [← hRank] at hStart hPoised
  refine ⟨base, start, hStart, hPoised, ?_⟩
  rw [hTrail, List.append_assoc]

/-- A leaf is copied with what its present entries say. -/
theorem leaf (h : layout.At read limit steady (path ++ [index]) V) (hPos : 1 ≤ key)
    (hCount : key ≤ layout.count) (hLeaf : layout.path key = path ++ [index]) (hLimit : key ≤ limit)
    (hCovers : Line.Covers key entries) (hFresh : Line.FreshStarts (read ++ entries ++ back)) :
    layout.At (read ++ entries) limit true (path ++ [index + 1])
      (V ++ [.fill (layout.floor key) (path ++ [index]) entries.text?]) := by
  obtain ⟨base, start, hStart, hPoised, rfl⟩ := h
  have hEnds : layout.EndsAt (path ++ [index]) key := hLeaf ▸ EndsAt.leaf hPos hCount
  have hRank := hEnds.rank_eq
  have hTrail := hEnds.trail_lining start
  have hNone : layout.lining (path ++ [index]) key = [] := hLeaf ▸ lining_leaf hPos hCount
  rw [hNone, List.map_nil, List.append_nil] at hTrail
  cases entries with
  | nil =>
    obtain ⟨entry, hEntry, -⟩ := hCovers.present
    cases hEntry
  | cons entry entries =>
    have hIndex := hCovers.index entry List.mem_cons_self
    have hFresh : Line.FreshStarts (read ++ entry :: (entries ++ back)) := by simpa using hFresh
    have hStance := hPoised.see (by omega) (by omega) hFresh
    have hFills := hStance.read (show start < key by omega) hLimit hCovers
    have hCruises := hFills.cruises
    obtain ⟨last, hLast, hLastIndex⟩ := hFills.last
    refine ⟨base ++ layout.visits (Leg.crossings key (start + 1) (key - start)) ++
      [.fill (layout.floor key) (layout.path key) (Line.text? (entry :: entries))], key,
      Nat.le_of_eq hEnds.rank_next.symm, ?_, ?_⟩
    · rw [Course.read_append]
      refine .cruises true hCruises fun other hOther => ?_
      obtain rfl := Option.some.inj (hLast.symm.trans hOther)
      rw [hLastIndex, hEnds.rank_next]
    · rw [hEnds.trail_next, passingTo_self, List.append_nil, visits_crossings (by omega) (by omega),
        ← hTrail, hLeaf, List.append_assoc]

/-- The atom of a tag is passed by. -/
theorem tag (h : layout.At read limit steady (path ++ [index]) V)
    (hTag : layout.IsTag (path ++ [index]) key) (hAbsent : ¬ Line.IsPresent entry)
    (hIndex : entry.1.index = key) (hLimit : key ≤ limit)
    (hFresh : Line.FreshStarts (read ++ entry :: back)) :
    layout.At (read ++ [entry]) limit steady (path ++ [index + 1])
      (V ++ layout.bypass (path ++ [index]) key) := by
  obtain ⟨base, start, hStart, hPoised, rfl⟩ := h
  have hPos := hTag.pos
  have hRank := hTag.rank_eq
  have hTrail := hTag.trail_lining start
  have hSucc : layout.rank (path ++ [index]) + 1 = key := by omega
  have hDrop := hPoised.drop hAbsent (by omega) (by omega) hFresh
  rw [hSucc, ← hTag.rank_next] at hDrop
  refine ⟨base, start, by rw [hTag.rank_next]; omega, hDrop, ?_⟩
  rw [hTag.trail_next, passingTo_succ (by omega), passing, bypass, List.append_assoc base,
    ← List.append_assoc (layout.trail start _), hTrail]
  simp

/-- At the end of a pass a run may turn back to the tag in front of it. -/
theorem turn {i j : Nat} (h : layout.At read limit true (path ++ [j]) V)
    (hOpening : layout.IsTag (path ++ [i]) head) (hClosing : layout.IsTag (path ++ [j]) exit)
    (hLess : i < j) (hDropped : ∃ tag ∈ read, ¬ Line.IsPresent tag ∧ tag.1.index = head)
    (hAbsent : ¬ Line.IsPresent entry) (hIndex : entry.1.index = exit) :
    layout.At (read ++ [entry]) (exit - 1) false (path ++ [i + 1])
      (V ++ ((layout.lining (path ++ [j]) exit).map (.clone (layout.floor exit)) ++
        [.back path.length])) := by
  obtain ⟨base, start, hStart, hPoised, rfl⟩ := h
  obtain ⟨hBrackets, hShared⟩ := hOpening.brackets hClosing hLess
  obtain ⟨tag, hTag, hTagAbsent, hTagIndex⟩ := hDropped
  have hPos := hClosing.pos
  have hCount := hClosing.le_count
  have hRank := hClosing.rank_eq
  have hPlace : entry.1.position.index = exit := hIndex
  have hTrail := hClosing.trail_lining start
  cases hPoised with
  | cruises _ h hLast =>
    have hForward := forward_of_le hLast (show entry.1.index = _ + 1 by omega)
    have hTurns : layout.Turns (Course.read {} (read ++ [entry])).1
        (Course.read {} (read ++ [entry])).2
        (base ++ layout.passingTo start exit ++
          (layout.gap (exit - 1)).map (.clone (layout.floor exit)) ++ [.back path.length])
        head exit := by
      rw [Course.read_concat, Course.step_of_absent hAbsent, List.append_nil,
        Course.see_of_forward hForward]
      refine ⟨⟨hBrackets, ?_, ?_, ?_⟩, ⟨_, rfl, hIndex⟩, tag.1.position, ?_, hTagIndex⟩
      · show max (Course.read {} read).1.reach entry.1.position.index = exit
        rw [hPlace]
        refine Nat.max_eq_right (h.reach.trans ?_)
        cases hSeen : (Course.read {} read).1.lastSeen with
        | none => exact Nat.zero_le exit
        | some last =>
          have := hLast last hSeen
          simp only [Option.map_some, Option.getD_some]
          omega
      · show (Course.read {} read).1.standing ≤ exit
        rw [h.standing]
        omega
      · show layout.visits (_ ++ Course.flush (Course.read {} read).1 ++
          Course.advance (Course.read {} read).1 exit) ++ _ = _
        rw [visits_append, h.base, Course.advance, h.standing,
          visits_crossings (by omega) (by omega), hShared]
        simp
      · exact List.mem_cons_of_mem _ (Course.mem_discarded.2 ⟨tag, hTag, hTagAbsent, rfl⟩)
    refine ⟨_, head, Nat.le_of_eq hOpening.rank_next.symm,
      .turns hTurns (by omega) hOpening.rank_next, ?_⟩
    rw [hOpening.trail_next, passingTo_self, List.append_nil, ← List.append_assoc, List.append_assoc base, hTrail]
    simp

/-- At the end of the document all visits were paid. -/
theorem finish (h : layout.At read limit true ([] ++ [layout.root.degree []]) V) :
    layout.itinerary read = V := by
  obtain ⟨base, start, hStart, hPoised, rfl⟩ := h
  have hRank := layout.rank_end
  have hGap : (layout.gap layout.count).filter (Path.Before · ([] ++ [layout.root.degree []])) =
      layout.gap layout.count := by
    refine List.filter_eq_self.2 fun x hx => ?_
    obtain ⟨hOff, -⟩ := (mem_gap (Nat.le_refl _)).1 hx
    obtain ⟨u, i, rfl, -⟩ := hOff.attached
    rw [decide_eq_true_eq, Path.before_end hOff.reaches]
    exact .inr ⟨List.nil_prefix, by simp⟩
  rw [hRank] at hStart hPoised
  cases hPoised with
  | cruises _ h hLast =>
    show layout.visits (_ ++ _ ++ _) = _
    rw [visits_append, h.base, Course.advance, h.standing, visits_crossings (by omega) (Nat.le_refl _),
      trail, hRank, hGap]
    rfl

end At

end Layout

end Infill
