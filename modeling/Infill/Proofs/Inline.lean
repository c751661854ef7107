import Infill.Proofs.LeafCopies

/-!
Loops inside a leaf. Two entries of a leaf that are present one after the other
come to stand in one copy of it as long as nothing behind the leaf was dropped
between them. What was dropped in front of the leaf does not count, although a
run has left the leaf for it.
-/
namespace Infill

open Infill.Xml (Element)

namespace Line

variable {index reach : Nat} {first second : Pointer × String} {front middle back line tape : Line}

/-! ### Where an entry comes to stand -/

/-- An entry that is present stands in its batch behind those in front of it,
and the batch goes on with what is read behind it. -/
theorem batchesFrom_reaches (hFirst : IsPresent first) (index reach : Nat) (front : Line) :
    (∃ opening, batchesFrom index reach (front ++ first :: line) =
        (opening ++ first :: (batchesFrom first.1.index first.1.index line).1,
          (batchesFrom first.1.index first.1.index line).2) ∧
        opening = front.filter fun entry => IsPresent entry) ∨
      ∃ joined before opening, batchesFrom index reach (front ++ first :: line) =
        (joined, before ++ (opening ++ first :: (batchesFrom first.1.index first.1.index line).1) ::
          (batchesFrom first.1.index first.1.index line).2) ∧
        joined ++ before.flatten ++ opening = front.filter fun entry => IsPresent entry := by
  induction front generalizing index reach with
  | nil =>
    by_cases hJoins : first.1.index = index ∧ reach = index
    · exact .inl ⟨[], batchesFrom_joins hFirst hJoins, rfl⟩
    · exact .inr ⟨[], [], [], batchesFrom_opens hFirst hJoins, rfl⟩
  | cons entry front ih =>
    rw [List.cons_append]
    by_cases hPresent : IsPresent entry
    · rw [List.filter_cons_of_pos (by simpa using hPresent)]
      by_cases hJoins : entry.1.index = index ∧ reach = index
      · rw [batchesFrom_joins hPresent hJoins]
        rcases ih entry.1.index entry.1.index with ⟨opening, hRest, hFront⟩ |
          ⟨joined, before, opening, hRest, hFront⟩
        · exact .inl ⟨entry :: opening, by rw [hRest]; rfl, by rw [hFront]⟩
        · exact .inr ⟨entry :: joined, before, opening, by rw [hRest], by rw [← hFront]; rfl⟩
      · rw [batchesFrom_opens hPresent hJoins]
        rcases ih entry.1.index entry.1.index with ⟨opening, hRest, hFront⟩ |
          ⟨joined, before, opening, hRest, hFront⟩
        · exact .inr ⟨[], [], entry :: opening, by rw [hRest]; rfl, by rw [← hFront]; rfl⟩
        · exact .inr ⟨[], (entry :: joined) :: before, opening, by rw [hRest]; rfl,
            by rw [← hFront]; simp⟩
    · rw [batchesFrom_absent hPresent, List.filter_cons_of_neg (by simpa using hPresent)]
      exact ih index (max reach entry.1.index)

/-- Of entries that are absent only the leaf that they reach is noted. -/
theorem batchesFrom_dropped (hMiddle : ∀ dropped ∈ middle, ¬ IsPresent dropped)
    (hReach : index ≤ reach) (line : Line) :
    ∃ reached, batchesFrom index reach (middle ++ line) = batchesFrom index reached line ∧
      (reached = index ↔ reach = index ∧ ∀ dropped ∈ middle, dropped.1.index ≤ index) := by
  induction middle generalizing reach with
  | nil => exact ⟨reach, rfl, by simp⟩
  | cons dropped middle ih =>
    obtain ⟨hDropped, hMiddle⟩ := List.forall_mem_cons.1 hMiddle
    obtain ⟨reached, hLine, hReached⟩ := ih hMiddle (hReach.trans (Nat.le_max_left _ _))
    refine ⟨reached, by rw [List.cons_append, batchesFrom_absent hDropped, hLine], ?_⟩
    rw [hReached, List.forall_mem_cons, ← and_assoc]
    refine and_congr_left fun _ => ?_
    omega

/-- Whether an entry behind those of `front` is followed in its batch by another
one. -/
def Together (tape front : Line) (first second : Pointer × String) : Prop :=
  ∃ before opening rest after,
    tape.batches = before ++ (opening ++ first :: second :: rest) :: after ∧
      before.flatten ++ opening = front.filter fun entry => IsPresent entry

/-- Whether an entry behind those of `front` ends its batch, and another one
begins the next batch. -/
def Apart (tape front : Line) (first second : Pointer × String) : Prop :=
  ∃ before opening rest after,
    tape.batches = before ++ (opening ++ [first]) :: (second :: rest) :: after ∧
      before.flatten ++ opening = front.filter fun entry => IsPresent entry

/-- A line with an entry behind it does not begin that line. -/
theorem append_cons_append_ne (line : Line) (entry : Pointer × String) (back more : Line) :
    (line ++ entry :: back) ++ more ≠ line := by
  intro hSame
  have hLength := congrArg List.length hSame
  simp only [List.length_append, List.length_cons] at hLength
  omega

/-- How many entries stand in front of an entry tells its place in the batches. -/
theorem eq_of_flatten {before others after later : List Line} {opening lead rest more : Line}
    (hSame : before ++ (opening ++ first :: rest) :: after =
      others ++ (lead ++ second :: more) :: later)
    (hFront : before.flatten ++ opening = others.flatten ++ lead) :
    opening = lead ∧ first :: rest = second :: more := by
  induction before generalizing others with
  | nil =>
    cases others with
    | nil =>
      obtain rfl : opening = lead := hFront
      exact ⟨rfl, List.append_cancel_left (List.cons.inj hSame).1⟩
    | cons other others =>
      obtain ⟨rfl, -⟩ := List.cons.inj hSame
      rw [List.flatten_nil, List.nil_append, List.flatten_cons, List.append_assoc] at hFront
      exact absurd hFront.symm (append_cons_append_ne _ _ _ _)
  | cons batch before ih =>
    cases others with
    | nil =>
      obtain ⟨rfl, -⟩ := List.cons.inj hSame
      rw [List.flatten_nil, List.nil_append, List.flatten_cons, List.append_assoc] at hFront
      exact absurd hFront (append_cons_append_ne _ _ _ _)
    | cons other others =>
      obtain ⟨rfl, hRest⟩ := List.cons.inj hSame
      rw [List.flatten_cons, List.flatten_cons, List.append_assoc, List.append_assoc] at hFront
      exact ih hRest (List.append_cancel_left hFront)

/-- Whether what is dropped between two entries of a leaf decides how they meet: in
one copy of the leaf, unless a leaf behind is among it. So they share a copy
exactly if no other leaf is among it, but for the case of leaves in front only. -/
structure MeetsAcross (tape front : Line) (first : Pointer × String) (middle : Line)
    (second : Pointer × String) : Prop where
  together_iff : Together tape front first second ↔
    ∀ dropped ∈ middle, dropped.1.index ≤ first.1.index
  apart_iff : Apart tape front first second ↔ ∃ dropped ∈ middle, first.1.index < dropped.1.index
  other_iff : (Together tape front first second ↔
      ∀ dropped ∈ middle, dropped.1.index = first.1.index) ↔
    ((∃ dropped ∈ middle, dropped.1.index < first.1.index) →
      ∃ dropped ∈ middle, first.1.index < dropped.1.index)

theorem not_apart_of_together (h : Together tape front first second) :
    ¬ Apart tape front first second := by
  rintro ⟨others, lead, more, later, hBatches, hFront⟩
  obtain ⟨before, opening, rest, after, hOther, hOpening⟩ := h
  obtain ⟨-, hSame⟩ := eq_of_flatten (hOther.symm.trans hBatches) (hOpening.trans hFront.symm)
  cases hSame

/-- An entry that is present joins the one in front of it on their leaf, unless a
leaf behind was dropped in between. -/
theorem together_iff (hLine : ∀ entry ∈ tape, 1 ≤ entry.1.index)
    (hTape : tape = front ++ first :: (middle ++ second :: back)) (hFirst : IsPresent first)
    (hSecond : IsPresent second) (hLeaf : second.1.index = first.1.index)
    (hMiddle : ∀ dropped ∈ middle, ¬ IsPresent dropped) :
    (Together tape front first second ↔ ∀ dropped ∈ middle, dropped.1.index ≤ first.1.index) ∧
      (Apart tape front first second ↔ ∃ dropped ∈ middle, first.1.index < dropped.1.index) := by
  obtain ⟨reached, hBack, hReached⟩ :=
    batchesFrom_dropped hMiddle (Nat.le_refl first.1.index) (second :: back)
  have hPlace : ∃ before opening, tape.batches = before ++
      (opening ++ first :: (batchesFrom first.1.index reached (second :: back)).1) ::
        (batchesFrom first.1.index reached (second :: back)).2 ∧
      before.flatten ++ opening = front.filter fun entry => IsPresent entry := by
    have hStart := @batchesFrom_start 0 tape hLine
    rw [batches, ← hBack]
    rw [hTape] at hStart ⊢
    rcases batchesFrom_reaches hFirst 0 0 front with ⟨opening, hAll, -⟩ |
      ⟨joined, before, opening, hAll, hFront⟩
    · rw [hAll] at hStart
      simp at hStart
    · rw [hAll] at hStart ⊢
      obtain rfl : joined = [] := hStart
      exact ⟨before, opening, rfl, hFront⟩
  obtain ⟨before, opening, hBatches, hFront⟩ := hPlace
  by_cases hAll : ∀ dropped ∈ middle, dropped.1.index ≤ first.1.index
  · have hJoins : second.1.index = first.1.index ∧ reached = first.1.index :=
      ⟨hLeaf, hReached.2 ⟨rfl, hAll⟩⟩
    rw [batchesFrom_joins hSecond hJoins] at hBatches
    have hTogether : Together tape front first second := ⟨before, opening, _, _, hBatches, hFront⟩
    refine ⟨iff_of_true hTogether hAll, iff_of_false (not_apart_of_together hTogether) ?_⟩
    rintro ⟨dropped, hDropped, hLess⟩
    exact Nat.not_le_of_lt hLess (hAll dropped hDropped)
  · have hOpens : ¬ (second.1.index = first.1.index ∧ reached = first.1.index) := fun h =>
      hAll (hReached.1 h.2).2
    rw [batchesFrom_opens hSecond hOpens] at hBatches
    have hApart : Apart tape front first second := ⟨before, opening, _, _, hBatches, hFront⟩
    refine ⟨iff_of_false (fun h => not_apart_of_together h hApart) hAll, iff_of_true hApart ?_⟩
    simpa using hAll

end Line

variable {format : Format} {root : Element} {content : Content} {line tape : Line}

/-- Two entries of a leaf that are present one after the other come to stand in
one copy of it if and only if no entry of a leaf behind lies between them, and
otherwise the second one begins the next copy. A leaf in front is not noticed:
that no other leaf lies between them decides, unless only leaves in front do. -/
theorem enforce_inline (h : flatten format root = .ok (content, line))
    (hTape : Line.PointsInto tape line) :
    ∃ boundaries out landings, Boundaries.ofLine root line = .ok boundaries ∧
      enforce root tape boundaries format = .ok out ∧
      (Layout.ofLine h).Landed tape out landings ∧
      List.Forall₂ (Layout.ofLine h).Holds tape.batches landings ∧
      ∀ front first middle second back, tape = front ++ first :: (middle ++ second :: back) →
        Line.IsPresent first → Line.IsPresent second → second.1.index = first.1.index →
        (∀ dropped ∈ middle, ¬ Line.IsPresent dropped) →
          tape.MeetsAcross front first middle second := by
  obtain ⟨boundaries, hBoundaries, hEnforce⟩ := Layout.enforce_ofLine h hTape
  have hPlaces := Layout.bounds_of_pointsInto h hTape
  refine ⟨boundaries, _, _, hBoundaries, hEnforce, Layout.landed_assemble hPlaces,
    Layout.holds_landings hPlaces, ?_⟩
  intro front first middle second back hSplit hFirst hSecond hLeaf hMiddle
  obtain ⟨hTogether, hApart⟩ := Line.together_iff (fun entry hEntry => (hPlaces entry hEntry).1)
    hSplit hFirst hSecond hLeaf hMiddle
  refine ⟨hTogether, hApart, ?_⟩
  rw [hTogether]
  constructor
  · intro hSame ⟨dropped, hDropped, hLess⟩
    by_contra hNone
    have hAll : ∀ other ∈ middle, other.1.index ≤ first.1.index := by simpa using hNone
    exact Nat.ne_of_lt hLess (hSame.1 hAll dropped hDropped)
  · intro hBehind
    refine ⟨fun hAll dropped hDropped => ?_, fun hAll dropped hDropped => (hAll _ hDropped).le⟩
    by_contra hOther
    obtain ⟨other, hMem, hLess⟩ :=
      hBehind ⟨dropped, hDropped, Nat.lt_of_le_of_ne (hAll dropped hDropped) hOther⟩
    exact Nat.not_le_of_lt hLess (hAll other hMem)

/-- A loop around a paragraph with two values, the second one behind a condition. -/
def Odt.people : Element :=
  element "section" none
    [element "p" (some "\x7b% for x in xs %\x7d") [],
      element "p"
        (some "\x7b\x7b x.name \x7d\x7d\x7b% if x.of %\x7d\x7b\x7b x.of \x7d\x7d\x7b% endif %\x7d") [],
      element "p" (some "\x7b% endfor %\x7d") []]

/-- The line of the loop around a paragraph with two values. -/
def Odt.peopleLine : Line :=
  [(⟨[0], false, 17, 0, 17, 1⟩, "\x7b% for x in xs %\x7d"),
    (⟨[1], false, 46, 0, 12, 2⟩, "\x7b\x7b x.name \x7d\x7d"),
    (⟨[1], false, 46, 12, 13, 2⟩, "\x7b% if x.of %\x7d"),
    (⟨[1], false, 46, 25, 10, 2⟩, "\x7b\x7b x.of \x7d\x7d"),
    (⟨[1], false, 46, 35, 11, 2⟩, "\x7b% endif %\x7d"),
    (⟨[2], false, 12, 0, 12, 3⟩, "\x7b% endfor %\x7d")]

/-- What is rendered of it for two people. -/
def Odt.peopleTape : Line :=
  [(⟨[0], false, 17, 0, 17, 1⟩, ""), (⟨[1], false, 46, 0, 12, 2⟩, "Ann"),
    (⟨[1], false, 46, 12, 13, 2⟩, ""), (⟨[1], false, 46, 25, 10, 2⟩, " of York"),
    (⟨[1], false, 46, 35, 11, 2⟩, ""), (⟨[2], false, 12, 0, 12, 3⟩, ""),
    (⟨[1], false, 46, 0, 12, 2⟩, "Bob"), (⟨[1], false, 46, 12, 13, 2⟩, ""),
    (⟨[1], false, 46, 25, 10, 2⟩, " of Hull"), (⟨[1], false, 46, 35, 11, 2⟩, ""),
    (⟨[2], false, 12, 0, 12, 3⟩, "")]

/-- The two values of one person share a paragraph, and the next person, behind
the closing tag, has another one. -/
theorem enforce_inline_people :
    ∃ h : flatten .odt Odt.people = .ok (.template, Odt.peopleLine),
      Line.PointsInto Odt.peopleTape Odt.peopleLine ∧
      ∃ boundaries out landings, Boundaries.ofLine Odt.people Odt.peopleLine = .ok boundaries ∧
        enforce Odt.people Odt.peopleTape boundaries .odt = .ok out ∧
        (Layout.ofLine h).Landed Odt.peopleTape out landings ∧
        List.Forall₂ (Layout.ofLine h).Holds Odt.peopleTape.batches landings ∧
        Odt.peopleTape.Together (Odt.peopleTape.take 1) Odt.peopleTape[1] Odt.peopleTape[3] ∧
        Odt.peopleTape.Apart (Odt.peopleTape.take 3) Odt.peopleTape[3] Odt.peopleTape[6] := by
  have hPeople : flatten .odt Odt.people = .ok (.template, Odt.peopleLine) := by decide +kernel
  have hTape : Line.PointsInto Odt.peopleTape Odt.peopleLine := by decide
  obtain ⟨boundaries, out, landings, hBoundaries, hEnforce, hLanded, hHolds, hMeets⟩ :=
    enforce_inline hPeople hTape
  have hValues := hMeets (Odt.peopleTape.take 1) Odt.peopleTape[1] [Odt.peopleTape[2]]
    Odt.peopleTape[3] (Odt.peopleTape.drop 4) rfl (by decide) (by decide) rfl (by decide)
  have hPasses := hMeets (Odt.peopleTape.take 3) Odt.peopleTape[3]
    [Odt.peopleTape[4], Odt.peopleTape[5]] Odt.peopleTape[6] (Odt.peopleTape.drop 7) rfl
    (by decide) (by decide) rfl (by decide)
  exact ⟨hPeople, hTape, boundaries, out, landings, hBoundaries, hEnforce, hLanded, hHolds,
    hValues.together_iff.2 (by decide), hPasses.apart_iff.2 (by decide)⟩

/-- A paragraph behind two tags in paragraphs of their own. -/
def Odt.choice : Element :=
  element "section" none
    [element "p" (some "\x7b% for x in xs %\x7d") [], element "p" (some "\x7b% if x %\x7d") [],
      element "p" (some "\x7b\x7b x \x7d\x7d\x7b% endif %\x7d\x7b% endfor %\x7d") []]

/-- The line of the paragraph behind two tags. -/
def Odt.choiceLine : Line :=
  [(⟨[0], false, 17, 0, 17, 1⟩, "\x7b% for x in xs %\x7d"),
    (⟨[1], false, 10, 0, 10, 2⟩, "\x7b% if x %\x7d"),
    (⟨[2], false, 30, 0, 7, 3⟩, "\x7b\x7b x \x7d\x7d"),
    (⟨[2], false, 30, 7, 11, 3⟩, "\x7b% endif %\x7d"),
    (⟨[2], false, 30, 18, 12, 3⟩, "\x7b% endfor %\x7d")]

/-- What is rendered of it for two items, with the tag of the condition in front
of each. -/
def Odt.choiceTape : Line :=
  [(⟨[0], false, 17, 0, 17, 1⟩, ""), (⟨[1], false, 10, 0, 10, 2⟩, ""),
    (⟨[2], false, 30, 0, 7, 3⟩, "1"), (⟨[2], false, 30, 7, 11, 3⟩, ""),
    (⟨[2], false, 30, 18, 12, 3⟩, ""), (⟨[1], false, 10, 0, 10, 2⟩, ""),
    (⟨[2], false, 30, 0, 7, 3⟩, "2"), (⟨[2], false, 30, 7, 11, 3⟩, ""),
    (⟨[2], false, 30, 18, 12, 3⟩, "")]

/-- The two items come to stand in one paragraph, although the tag in front of it
lies between them. -/
theorem enforce_choice :
    flatten .odt Odt.choice = .ok (.template, Odt.choiceLine) ∧
      Line.PointsInto Odt.choiceTape Odt.choiceLine ∧
      (do
        let boundaries ← Boundaries.ofLine Odt.choice Odt.choiceLine
        enforce Odt.choice Odt.choiceTape boundaries .odt) =
          .ok (Odt.element "section" none [Odt.element "p" (some "12") []]) ∧
      ∃ front first middle second back,
        Odt.choiceTape = front ++ first :: (middle ++ second :: back) ∧
        Line.IsPresent first ∧ Line.IsPresent second ∧ second.1.index = first.1.index ∧
        (∀ dropped ∈ middle, ¬ Line.IsPresent dropped) ∧
        (∃ dropped ∈ middle, dropped.1.index ≠ first.1.index) ∧
        Odt.choiceTape.Together front first second := by
  refine ⟨by decide +kernel, by decide, by decide +kernel, Odt.choiceTape.take 2, Odt.choiceTape[2],
    (Odt.choiceTape.drop 3).take 3, Odt.choiceTape[6], Odt.choiceTape.drop 7, rfl, by decide,
    by decide, rfl, by decide, by decide, [], [], [], [], by decide, by decide⟩

end Infill
