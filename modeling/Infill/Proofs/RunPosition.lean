import Infill.Proofs.Retention
import Infill.Proofs.Trail
import Mathlib.Data.List.Induction

/-!
Where a run stands between two entries. It goes forward, or it has come to the
end of a pass and goes back to a tag; either way the visits up to the next leaf
that it opens are known: those that it was bound to pay before, and the way from
the leaf it stands on, or from the tag it goes back to.
-/
namespace Infill

open Infill.Xml

namespace Position

variable {limit place : Position} {places : List Position} {best : Option Position}

/-- Whether the best place so far is in front of a limit, and not in front of a place. -/
def Covers (limit : Position) (best : Option Position) (place : Position) : Prop :=
  ∃ found, best = some found ∧ found.before limit = true ∧ found.before place = false

/-- A later place covers what the best one so far covers. -/
theorem Covers.later (h : Covers limit best place) (next : Position) :
    Covers limit (later limit best next) place := by
  obtain ⟨found, rfl, hLimit, hFound⟩ := h
  rw [Position.later]
  split
  · rename_i hTakes
    obtain ⟨hNext, hLater⟩ := Bool.and_eq_true_iff.1 hTakes
    refine ⟨next, rfl, hNext, ?_⟩
    rw [Bool.eq_false_iff, Ne, before_iff] at hFound ⊢
    rw [Option.all_some, before_iff] at hLater
    omega
  · exact ⟨found, rfl, hLimit, hFound⟩

theorem later_before (hBest : best.all (·.before limit) = true) (next : Position) :
    (later limit best next).all (·.before limit) = true := by
  rw [later]
  split
  · rename_i hTakes
    exact (Bool.and_eq_true_iff.1 hTakes).1
  · exact hBest

/-- A place in front of the limit is covered once it was looked at. -/
theorem covers_later (hBest : best.all (·.before limit) = true)
    (hPlace : place.before limit = true) : Covers limit (later limit best place) place := by
  rw [later]
  split
  · exact ⟨place, rfl, hPlace, before_irrefl place⟩
  · rename_i hStays
    cases best with
    | none => simp [hPlace] at hStays
    | some found => exact ⟨found, rfl, hBest, by simpa [hPlace] using hStays⟩

theorem Covers.foldl (h : Covers limit best place) (places : List Position) :
    Covers limit (places.foldl (Position.later limit) best) place := by
  induction places generalizing best with
  | nil => exact h
  | cons next places ih => exact ih (h.later next)

theorem covers_foldl (hBest : best.all (·.before limit) = true) (hPlace : place ∈ places)
    (hLimit : place.before limit = true) : Covers limit (places.foldl (later limit) best) place := by
  induction places generalizing best with
  | nil => cases hPlace
  | cons next places ih =>
    rcases List.mem_cons.1 hPlace with rfl | hPlace
    · exact (covers_later hBest hLimit).foldl places
    · exact ih (later_before hBest next) hPlace

/-- The latest place is not in front of any other one. -/
theorem latestBefore_spec (hPlace : place ∈ places) (hLimit : place.before limit = true) :
    ∃ best, latestBefore limit places = some best ∧ best.before limit = true ∧
      best.before place = false :=
  covers_foldl rfl hPlace hLimit

theorem latestBefore_cons (places : List Position)
    (h : place.before limit = false) :
    latestBefore limit (place :: places) = latestBefore limit places := by
  simp [latestBefore, h]

end Position

namespace Line

/-- What is collected of a leaf from its entries. -/
def collected (entries : Line) : OpenLeaf :=
  let present := entries.filter fun entry => IsPresent entry
  ⟨present.map (·.2), present.any fun entry => !entry.1.isConstant⟩

/-- The text of a leaf with these entries, if it is written anew. -/
def text? (entries : Line) : Option (List String) :=
  if entries.collected.isDynamic then some entries.collected.chunks else none

/-- Whether entries are those of one leaf, in order, and one is present. -/
structure Covers (index : Nat) (entries : Line) : Prop where
  index : ∀ entry ∈ entries, entry.1.index = index
  forward : IsForward entries
  present : ∃ entry ∈ entries, IsPresent entry

/-- Whether no entry that goes back is in the midst of a leaf: nothing in front
of it in the leaf was dropped before. -/
def FreshStarts (line : Line) : Prop :=
  ∀ front entry back, line = front ++ entry :: back →
    front.getLast?.any (fun last => entry.1.position.before last.1.position) = true →
      ∀ dropped ∈ front, ¬ IsPresent dropped → dropped.1.index = entry.1.index →
        entry.1.offset ≤ dropped.1.offset

theorem covers_iff {index : Nat} {entries : Line} :
    entries.Covers index ↔ (∀ entry ∈ entries, entry.1.index = index) ∧ IsForward entries ∧
      ∃ entry ∈ entries, IsPresent entry :=
  ⟨fun ⟨hIndex, hForward, hPresent⟩ => ⟨hIndex, hForward, hPresent⟩,
    fun ⟨hIndex, hForward, hPresent⟩ => ⟨hIndex, hForward, hPresent⟩⟩

instance (index : Nat) (entries : Line) : Decidable (entries.Covers index) :=
  decidable_of_iff _ covers_iff.symm

variable {entry : Pointer × String} {entries : Line}

theorem collected_cons_of_absent (h : ¬ IsPresent entry) :
    collected (entry :: entries) = collected entries := by
  simp [collected, h]

theorem collected_concat_of_absent (h : ¬ IsPresent entry) :
    collected (entries ++ [entry]) = collected entries := by
  simp [collected, h]

theorem collected_concat_of_present (h : IsPresent entry) :
    collected (entries ++ [entry]) =
      ⟨(collected entries).chunks ++ [entry.2],
        (collected entries).isDynamic || !entry.1.isConstant⟩ := by
  simp [collected, h]

end Line

namespace Course

variable {course : Course} {entry : Pointer × String} {front : Line}

theorem step_of_absent (h : ¬ Line.IsPresent entry) :
    course.step entry.1 entry.2 =
      ((course.see entry.1.position).drop entry.1.position, []) := by
  rw [Line.IsPresent, not_or] at h
  rw [step, if_pos (by simpa using h)]

theorem step_of_present (h : Line.IsPresent entry) :
    course.step entry.1 entry.2 =
      (((course.see entry.1.position).move entry.1.index).1.collect entry.1 entry.2,
        ((course.see entry.1.position).move entry.1.index).2) := by
  have hKept : ¬ (!entry.1.isConstant && entry.2.isEmpty) = true := by
    rcases h with h | h <;> simp [h]
  rw [step, if_neg hKept]

theorem read_concat (course : Course) (front : Line) (entry : Pointer × String) :
    course.read (front ++ [entry]) =
      (((course.read front).1.step entry.1 entry.2).1,
        (course.read front).2 ++ ((course.read front).1.step entry.1 entry.2).2) := by
  rw [read_append]
  simp [read]

theorem see_of_forward {position : Position}
    (h : ∀ last ∈ course.lastSeen, position.before last = false) :
    course.see position = { course with lastSeen := some position } := by
  rw [see, if_neg]
  cases hLast : course.lastSeen with
  | none => simp
  | some last => simpa using h last hLast

theorem lastSeen_step (course : Course) (entry : Pointer × String) :
    (course.step entry.1 entry.2).1.lastSeen = some entry.1.position := by
  by_cases hPresent : Line.IsPresent entry
  · rw [step_of_present hPresent]
    exact (move_remembers _ _).1
  · rw [step_of_absent hPresent]
    rfl

/-- A run remembers the place of the last entry. -/
theorem lastSeen_read (front : Line) :
    (read {} front).1.lastSeen = front.getLast?.map (·.1.position) := by
  induction front using List.reverseRecOn with
  | nil => rfl
  | append_singleton front entry ih =>
    rw [read_concat, List.getLast?_concat]
    exact lastSeen_step _ entry

/-- A run remembers which entries were dropped. -/
theorem mem_discarded {front : Line} {place : Position} :
    place ∈ (read {} front).1.discarded ↔
      ∃ entry ∈ front, ¬ Line.IsPresent entry ∧ entry.1.position = place := by
  induction front using List.reverseRecOn with
  | nil => simp [read]
  | append_singleton front entry ih =>
    rw [read_concat]
    by_cases hPresent : Line.IsPresent entry
    · have hSame : ((read {} front).1.step entry.1 entry.2).1.discarded =
          (read {} front).1.discarded := by
        rw [step_of_present hPresent]
        exact (move_remembers _ _).2.1
      rw [hSame, ih]
      simp [hPresent, or_and_right, exists_or]
    · have hMore : ((read {} front).1.step entry.1 entry.2).1.discarded =
          entry.1.position :: (read {} front).1.discarded := by
        rw [step_of_absent hPresent]
        rfl
      rw [hMore, List.mem_cons, ih]
      simp only [List.mem_append, List.mem_singleton]
      constructor
      · rintro (rfl | ⟨other, hOther, hAbsent, hPlace⟩)
        · exact ⟨entry, .inr rfl, hPresent, rfl⟩
        · exact ⟨other, .inl hOther, hAbsent, hPlace⟩
      · rintro ⟨other, hOther | rfl, hAbsent, hPlace⟩
        · exact .inr ⟨other, hOther, hAbsent, hPlace⟩
        · exact .inl hPlace.symm

end Course

namespace Layout

variable {layout : Layout}

/-- A leaf with a present entry leaves something behind. -/
theorem written_ne_nil {leaf : Path} (hLeaf : leaf ∈ layout.leaves) (front : List Element)
    (entries : Line) : layout.written front leaf entries.text? ≠ [] := by
  cases hText : entries.text? with
  | none => simp [written]
  | some chunks =>
    refine Format.written_ne_nil ((layout.holdsText leaf hLeaf).kind.imp_right fun h => h.1) ?_
    rw [Line.text?] at hText
    split at hText
    · rename_i hDynamic
      obtain rfl := Option.some.inj hText
      obtain ⟨entry, hEntry, hChanges⟩ := List.any_eq_true.1 hDynamic
      obtain ⟨hEntry, hPresent⟩ := List.mem_filter.1 hEntry
      refine ⟨entry.2, List.mem_map_of_mem (List.mem_filter.2 ⟨hEntry, hPresent⟩), ?_⟩
      have hPresent : Line.IsPresent entry := by simpa using hPresent
      exact hPresent.resolve_left (by simpa using hChanges)
    · cases hText

end Layout

namespace Layout

variable {layout : Layout} {course : Course} {legs : List Leg} {base : List Visit}
  {start limit key head exit : Nat} {position : Position}

/-- Whether a run goes forward from the leaf `start`, where it has paid some
visits or will pay them before it goes on. -/
structure Cruises (layout : Layout) (course : Course) (legs : List Leg) (base : List Visit)
    (start : Nat) : Prop where
  restart : course.restart = none
  standing : course.standing = start
  reach : course.reach ≤ (course.lastSeen.map (·.index)).getD 0
  base : layout.visits (legs ++ course.flush) = base

/-- Whether two leaves are tags around the body of a loop: nothing follows them
in their own branches of the element that holds both. -/
structure Brackets (layout : Layout) (head exit : Nat) : Prop where
  pos : 1 ≤ head
  less : head < exit
  le_count : exit ≤ layout.count
  trailing : Path.trailingFrom layout.root (layout.path exit)
    (Path.sharedLength (layout.path exit) (layout.path head) + 1) = []
  ending : layout.ending head = []

/-- Whether a run that goes back to a tag leaves the leaf `exit` for it. -/
structure Exits (layout : Layout) (course : Course) (legs : List Leg) (base : List Visit)
    (head exit : Nat) : Prop where
  brackets : layout.Brackets head exit
  reach : course.reach = exit
  standing : course.standing ≤ exit
  base : layout.visits (legs ++ course.flush ++ course.advance exit) ++
    [.back (Path.sharedLength (layout.path exit) (layout.path head))] = base

/-- Whether a run would go back to a tag with an entry behind the tag. -/
structure Turns (layout : Layout) (course : Course) (legs : List Leg) (base : List Visit)
    (head exit : Nat) : Prop extends layout.Exits course legs base head exit where
  last : ∃ last ∈ course.lastSeen, last.index = exit
  dropped : ∃ place ∈ course.discarded, place.index = head

/-- Whether a run has gone back to a tag. -/
structure Returns (layout : Layout) (course : Course) (legs : List Leg) (base : List Visit)
    (head exit : Nat) : Prop extends layout.Exits course legs base head exit where
  restart : ∃ mark, course.restart = some mark ∧
    (∃ last, course.lastSeen = some last ∧ last.before mark = false) ∧
    (Position.latestBefore mark course.discarded).map (·.index) = some head

namespace Cruises

theorem see (h : layout.Cruises course legs base start)
    (hForward : ∀ last ∈ course.lastSeen, position.before last = false) :
    layout.Cruises (course.see position) legs base start := by
  rw [Course.see_of_forward hForward]
  refine ⟨h.restart, h.standing, h.reach.trans ?_, h.base⟩
  cases hLast : course.lastSeen with
  | none => exact Nat.zero_le _
  | some last =>
    have hNot := hForward last hLast
    rw [Bool.eq_false_iff, Ne, Position.before_iff] at hNot
    simp only [Option.map_some, Option.getD_some]
    omega

theorem drop (h : layout.Cruises course legs base start) (hLast : course.lastSeen = some position) :
    layout.Cruises (course.drop position) legs base start := by
  have hReach := h.reach
  refine ⟨h.restart, h.standing, ?_, h.base⟩
  simp only [Course.drop, hLast, Option.map_some, Option.getD_some] at hReach ⊢
  exact Nat.max_le.2 ⟨hReach, Nat.le_refl _⟩

theorem move (h : layout.Cruises course legs base start) (hLess : start < key) :
    (course.move key).1 = course.openLeaf key ∧
      layout.visits (legs ++ (course.move key).2) =
        base ++ layout.visits (Leg.crossings key (start + 1) (key - start)) := by
  have hForward : course.frontier < key := by
    rwa [Course.frontier_of_none h.restart, h.standing]
  rw [Course.move_forward hForward, ← List.append_assoc, visits_append, h.base, Course.advance, h.standing]
  exact ⟨rfl, rfl⟩

end Cruises

namespace Returns

theorem see (h : layout.Returns course legs base head exit)
    (hForward : ∀ last ∈ course.lastSeen, position.before last = false) :
    layout.Returns (course.see position) legs base head exit := by
  obtain ⟨mark, hMark, ⟨last, hLast, hBehind⟩, hHead⟩ := h.restart
  rw [Course.see_of_forward hForward]
  refine ⟨⟨h.brackets, h.reach, h.standing, h.base⟩, mark, hMark, ⟨position, rfl, ?_⟩, hHead⟩
  have hNext := hForward last hLast
  rw [Bool.eq_false_iff, Ne, Position.before_iff] at hBehind hNext ⊢
  omega

theorem drop (h : layout.Returns course legs base head exit)
    (hLast : course.lastSeen = some position) (hExit : position.index ≤ exit) :
    layout.Returns (course.drop position) legs base head exit := by
  obtain ⟨mark, hMark, ⟨last, hSeen, hBehind⟩, hHead⟩ := h.restart
  obtain rfl := Option.some.inj (hLast.symm.trans hSeen)
  refine ⟨⟨h.brackets, ?_, h.standing, h.base⟩, mark, hMark, ⟨position, hSeen, hBehind⟩, ?_⟩
  · rw [Course.drop, h.reach]
    exact Nat.max_eq_left hExit
  · rw [Course.drop, Position.latestBefore_cons _ hBehind, hHead]

/-- A run that went back to a tag goes on from the tag. -/
theorem move (h : layout.Returns course legs base head exit) (hLess : head < key)
    (hExit : key < exit) :
    (course.move key).1 = course.openLeaf key ∧
      layout.visits (legs ++ (course.move key).2) =
        base ++ layout.visits (Leg.crossings key (head + 1) (key - head)) := by
  obtain ⟨mark, hMark, -, hHead⟩ := h.restart
  have hReach := h.reach
  have hMove : course.move key = (course.openLeaf key, course.reenter mark key) :=
    Course.move_back hMark (by omega) fun hHere => by
      have := hHere.reach
      omega
  have hExitHere : max course.reach course.standing = exit := by
    rw [hReach]
    exact Nat.max_eq_left h.standing
  have hTag : course.head? mark key = some head := by
    rw [Course.head?, hHead]
    simp [hLess]
  have hEntering : layout.entering head = layout.gap head := by
    rw [gap, h.brackets.ending, List.nil_append]
  have hCrossings : Leg.crossings key (head + 1) (key - head) =
      .cross (head + 1) key :: Leg.crossings key (head + 2) (key - (head + 1)) := by
    rw [show key - head = key - (head + 1) + 1 by omega, Leg.crossings, List.range'_succ]
    rfl
  refine ⟨by rw [hMove], ?_⟩
  rw [hMove]
  dsimp only
  rw [Course.reenter, hExitHere, hTag]
  dsimp only
  rw [← List.append_assoc, ← List.append_assoc, visits_append, ← h.base, visits_cons, hCrossings,
    visits_cons, Leg.visits, Leg.visits, h.brackets.trailing, hEntering]
  simp

end Returns

/-- Where a run stands that opens a leaf behind `start` with the next entry that
is present. If it goes back, the leaf is not behind `limit`. -/
inductive Stance (layout : Layout) (course : Course) (legs : List Leg) (base : List Visit)
    (start limit : Nat) : Prop
  | forward (h : layout.Cruises course legs base start)
  | backward {exit : Nat} (h : layout.Returns course legs base start exit) (hLimit : limit < exit)

/-- Where a run stands on a leaf of which it read some entries. -/
structure Fills (layout : Layout) (course : Course) (legs : List Leg) (base : List Visit)
    (key : Nat) (entries : Line) : Prop where
  restart : course.restart = none
  standing : course.standing = key
  reach : course.reach = key
  last : ∃ last ∈ course.lastSeen, last.index = key
  leaf : course.leaf = some entries.collected
  base : layout.visits legs = base

namespace Stance

theorem see (h : layout.Stance course legs base start limit)
    (hForward : ∀ last ∈ course.lastSeen, position.before last = false) :
    layout.Stance (course.see position) legs base start limit := by
  cases h with
  | forward h => exact .forward (h.see hForward)
  | backward h hLimit => exact .backward (h.see hForward) hLimit

theorem drop (h : layout.Stance course legs base start limit)
    (hLast : course.lastSeen = some position) (hLimit : position.index ≤ limit) :
    layout.Stance (course.drop position) legs base start limit := by
  cases h with
  | forward h => exact .forward (h.drop hLast)
  | backward h hExit => exact .backward (h.drop hLast (hLimit.trans (Nat.le_of_lt hExit))) hExit

theorem move (h : layout.Stance course legs base start limit) (hLess : start < key)
    (hLimit : key ≤ limit) :
    (course.move key).1 = course.openLeaf key ∧
      layout.visits (legs ++ (course.move key).2) =
        base ++ layout.visits (Leg.crossings key (start + 1) (key - start)) := by
  cases h with
  | forward h => exact h.move hLess
  | backward h hExit => exact h.move hLess (hLimit.trans_lt hExit)

end Stance

namespace Fills

variable {entries more : Line} {entry : Pointer × String}

/-- Another entry of the leaf only adds to its text. -/
theorem step (h : layout.Fills course legs base key entries) (hIndex : entry.1.index = key)
    (hForward : ∀ last ∈ course.lastSeen, entry.1.position.before last = false) :
    layout.Fills (course.step entry.1 entry.2).1 (legs ++ (course.step entry.1 entry.2).2) base key
      (entries ++ [entry]) := by
  have hLast : ∃ last ∈ some entry.1.position, last.index = key := ⟨_, rfl, hIndex⟩
  by_cases hPresent : Line.IsPresent entry
  · have hStays : ({ course with lastSeen := some entry.1.position } : Course).move entry.1.index =
        ({ course with lastSeen := some entry.1.position, restart := none }, []) :=
      Course.move_stay (.inr ⟨h.restart, (hIndex.trans h.standing.symm).le⟩)
    rw [Course.step_of_present hPresent, Course.see_of_forward hForward, hStays]
    refine ⟨rfl, h.standing, ?_, hLast, ?_, by simpa using h.base⟩
    · rw [Course.collect, h.reach, hIndex]
      exact Nat.max_self key
    · rw [Course.collect, h.leaf, Line.collected_concat_of_present hPresent]
      rfl
  · rw [Course.step_of_absent hPresent, Course.see_of_forward hForward]
    refine ⟨h.restart, h.standing, ?_, hLast, ?_, by simpa using h.base⟩
    · rw [Course.drop, h.reach]
      exact (congrArg (max key) hIndex).trans (Nat.max_self key)
    · rw [Course.drop, h.leaf, Line.collected_concat_of_absent hPresent]

theorem read (h : layout.Fills course legs base key entries)
    (hIndex : ∀ entry ∈ more, entry.1.index = key) (hMore : Line.IsForward more)
    (hForward : ∀ last ∈ course.lastSeen, ∀ entry ∈ more, entry.1.position.before last = false) :
    layout.Fills (course.read more).1 (legs ++ (course.read more).2) base key (entries ++ more) := by
  induction more generalizing course legs entries with
  | nil => simpa [Course.read] using h
  | cons entry more ih =>
    obtain ⟨hFirst, hRest⟩ := List.pairwise_cons.1 hMore
    have hStep := h.step (hIndex entry List.mem_cons_self)
      fun last hLast => hForward last hLast entry List.mem_cons_self
    have hSeen := Course.lastSeen_step course entry
    have hRead := ih hStep (fun other hOther => hIndex other (List.mem_cons_of_mem entry hOther))
      hRest (by rw [hSeen]; rintro last ⟨⟩ other hOther; exact hFirst other hOther)
    rw [Course.read]
    simpa using hRead

theorem cruises (h : layout.Fills course legs base key entries) :
    layout.Cruises course legs
      (base ++ [.fill (layout.floor key) (layout.path key) entries.text?]) key := by
  obtain ⟨last, hLast, hIndex⟩ := h.last
  refine ⟨h.restart, h.standing, ?_, ?_⟩
  · rw [h.reach, hLast]
    exact Nat.le_of_eq hIndex.symm
  · rw [visits_append, h.base, Course.flush, h.leaf]
    simp only [h.standing]
    rw [visits_cons, visits_nil, List.append_nil]
    rfl

end Fills

namespace Stance

variable {entry : Pointer × String} {entries : Line}

/-- A present entry opens its leaf. -/
theorem opens (h : layout.Stance (course.see entry.1.position) legs base start limit)
    (hLess : start < key) (hLimit : key ≤ limit) (hIndex : entry.1.index = key)
    (hPresent : Line.IsPresent entry) :
    layout.Fills (course.step entry.1 entry.2).1 (legs ++ (course.step entry.1 entry.2).2)
      (base ++ layout.visits (Leg.crossings key (start + 1) (key - start))) key [entry] := by
  obtain ⟨hMove, hVisits⟩ := h.move hLess hLimit
  rw [Course.step_of_present hPresent, hIndex, hMove]
  refine ⟨rfl, rfl, ?_, ⟨_, rfl, hIndex⟩, ?_, hVisits⟩
  · exact (congrArg (max key) hIndex).trans (Nat.max_self key)
  · simp [Course.collect, Course.openLeaf, Line.collected, hPresent]

/-- The entries of a leaf open it with the first of them that is present. -/
theorem read (h : layout.Stance (course.see entry.1.position) legs base start limit)
    (hLess : start < key) (hLimit : key ≤ limit) (hCovers : Line.Covers key (entry :: entries)) :
    layout.Fills (course.read (entry :: entries)).1 (legs ++ (course.read (entry :: entries)).2)
      (base ++ layout.visits (Leg.crossings key (start + 1) (key - start))) key
      (entry :: entries) := by
  obtain ⟨hIndex, hForward, hSome⟩ := hCovers
  induction entries generalizing course legs entry with
  | nil =>
    obtain ⟨other, hOther, hPresent⟩ := hSome
    obtain rfl := List.mem_singleton.1 hOther
    simpa [Course.read] using h.opens hLess hLimit (hIndex other hOther) hPresent
  | cons next entries ih =>
    have hEntry := hIndex entry List.mem_cons_self
    obtain ⟨hFirst, hRest⟩ := List.pairwise_cons.1 hForward
    have hSeen := Course.lastSeen_step course entry
    rw [Course.read]
    by_cases hPresent : Line.IsPresent entry
    · have hRead := (h.opens hLess hLimit hEntry hPresent).read
        (fun other hOther => hIndex other (List.mem_cons_of_mem entry hOther)) hRest
        (by rw [hSeen]; rintro last ⟨⟩ other hOther; exact hFirst other hOther)
      simpa using hRead
    · -- nothing is opened yet, the stance is kept for the next entry
      have hNext : layout.Stance ((course.step entry.1 entry.2).1.see next.1.position)
          (legs ++ (course.step entry.1 entry.2).2) base start limit := by
        rw [Course.step_of_absent hPresent, List.append_nil]
        refine (h.drop rfl ?_).see ?_
        · exact (Nat.le_of_eq hEntry).trans hLimit
        · rintro last ⟨⟩
          exact hFirst next List.mem_cons_self
      have hRead := ih hNext (fun other hOther => hIndex other (List.mem_cons_of_mem entry hOther))
        hRest (by simpa [hPresent] using hSome)
      obtain ⟨hRestart, hStanding, hReach, hLast, hLeaf, hBase⟩ := hRead
      refine ⟨hRestart, hStanding, hReach, hLast, ?_, by simpa using hBase⟩
      rw [Line.collected_cons_of_absent hPresent]
      exact hLeaf

end Stance

end Layout

end Infill
