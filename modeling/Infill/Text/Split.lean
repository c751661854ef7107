/-!
Searching a text for a fixed mark. A split keeps what stands before the first
occurrence of the mark and what stands behind it.
-/
namespace Infill.Text

/-- What follows `lead` at the start of a text. -/
def after? : (lead text : List Char) → Option (List Char)
  | [], text => some text
  | _ :: _, [] => none
  | mark :: lead, c :: text => if mark = c then after? lead text else none

theorem eq_append_of_after? {lead text rest : List Char} (h : after? lead text = some rest) :
    text = lead ++ rest := by
  induction lead generalizing text with
  | nil => simp_all [after?]
  | cons mark lead ih =>
    cases text with
    | nil => simp [after?] at h
    | cons c text =>
      simp only [after?] at h
      split at h
      · rename_i same
        rw [ih h, same, List.cons_append]
      · simp at h

/-- The parts before and behind the first `mark`. -/
def splitAt? (mark : Char) : List Char → Option (List Char × List Char)
  | [] => none
  | c :: text =>
    if c = mark then some ([], text)
    else (splitAt? mark text).map fun (front, back) => (c :: front, back)

/-- The parts before and behind the first occurrence of a longer mark. -/
def splitOn? (mark : List Char) : List Char → Option (List Char × List Char)
  | [] => (after? mark []).map fun back => ([], back)
  | c :: text =>
    match after? mark (c :: text) with
    | some back => some ([], back)
    | none => (splitOn? mark text).map fun (front, back) => (c :: front, back)

theorem length_lt_of_splitAt? {mark : Char} {text front back : List Char}
    (h : splitAt? mark text = some (front, back)) : back.length < text.length := by
  induction text generalizing front with
  | nil => simp [splitAt?] at h
  | cons c text ih =>
    simp only [splitAt?] at h
    split at h
    · simp at h
      simp [h.2]
    · simp only [Option.map_eq_some_iff, Prod.exists, Prod.mk.injEq] at h
      obtain ⟨_, _, hRest, _, rfl⟩ := h
      have := ih hRest
      simp
      omega

theorem length_le_of_splitOn? {mark text front back : List Char}
    (h : splitOn? mark text = some (front, back)) : back.length ≤ text.length := by
  induction text generalizing front with
  | nil =>
    simp only [splitOn?, Option.map_eq_some_iff, Prod.mk.injEq] at h
    obtain ⟨_, hRest, _, rfl⟩ := h
    have := congrArg List.length (eq_append_of_after? hRest)
    rw [List.length_append] at this
    omega
  | cons c text ih =>
    simp only [splitOn?] at h
    split at h
    · rename_i rest hRest
      have := congrArg List.length (eq_append_of_after? hRest)
      simp_all
    · simp only [Option.map_eq_some_iff, Prod.exists, Prod.mk.injEq] at h
      obtain ⟨_, _, hRest, _, rfl⟩ := h
      have := ih hRest
      simp
      omega

theorem splitAt?_mark {mark : Char} {front back : List Char} (h : mark ∉ front) :
    splitAt? mark (front ++ mark :: back) = some (front, back) := by
  induction front with
  | nil => simp [splitAt?]
  | cons c front ih =>
    rw [List.mem_cons, not_or] at h
    rw [List.cons_append, splitAt?, if_neg (Ne.symm h.1), ih h.2]
    rfl

theorem splitAt?_eq_some_iff {mark : Char} {text front back : List Char} :
    splitAt? mark text = some (front, back) ↔ text = front ++ mark :: back ∧ mark ∉ front := by
  refine ⟨fun h => ?_, fun ⟨hText, hFront⟩ => hText ▸ splitAt?_mark hFront⟩
  induction text generalizing front with
  | nil => simp [splitAt?] at h
  | cons c text ih =>
    rw [splitAt?] at h
    split at h
    · rename_i hMark
      obtain ⟨rfl, rfl⟩ := Prod.mk.inj (Option.some.inj h)
      exact ⟨by rw [hMark, List.nil_append], List.not_mem_nil⟩
    · rename_i hMark
      obtain ⟨⟨rest, behind⟩, hRest, hFound⟩ := Option.map_eq_some_iff.1 h
      obtain ⟨rfl, rfl⟩ := Prod.mk.inj hFound
      obtain ⟨rfl, hOther⟩ := ih hRest
      exact ⟨rfl, List.not_mem_cons_of_ne_of_not_mem (Ne.symm hMark) hOther⟩

/-- The parts of a text between the marks, one more than there are marks. -/
def parts (mark : Char) : List Char → List (List Char)
  | [] => [[]]
  | c :: text =>
    if c = mark then [] :: parts mark text
    else match parts mark text with
      | [] => [[c]]
      | part :: rest => (c :: part) :: rest

end Infill.Text
