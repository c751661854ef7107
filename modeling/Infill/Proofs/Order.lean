import Infill.Path
import Mathlib.Data.List.Sort

/-!
Document order of paths. A path comes before another one if at the first step
where they differ it takes the smaller index. A path and its extensions are not
ordered: an element does not stand before what it contains.
-/
namespace Infill

namespace Path

/-- Whether an element stands in front of another one, neither in the other. -/
def Before : Path → Path → Prop
  | i :: left, j :: right => i < j ∨ i = j ∧ Before left right
  | _, _ => False

@[simp] theorem not_before_nil (path : Path) : ¬ Before path [] := by
  cases path <;> simp [Before]

@[simp] theorem nil_not_before (path : Path) : ¬ Before [] path := by
  simp [Before]

theorem before_cons (i j : Nat) (left right : Path) :
    Before (i :: left) (j :: right) ↔ i < j ∨ i = j ∧ Before left right :=
  Iff.rfl

instance decidableBefore : (left right : Path) → Decidable (Before left right)
  | i :: left, j :: right =>
    have := decidableBefore left right
    decidable_of_iff (i < j ∨ i = j ∧ Before left right) Iff.rfl
  | [], _ => isFalse (nil_not_before _)
  | _ :: _, [] => isFalse (not_before_nil _)

theorem before_irrefl (path : Path) : ¬ Before path path := by
  induction path with
  | nil => simp
  | cons i path ih => simpa [before_cons] using ih

theorem Before.trans {p q r : Path} (hpq : Before p q) (hqr : Before q r) : Before p r := by
  induction p generalizing q r with
  | nil => exact absurd hpq (nil_not_before q)
  | cons i p ih =>
    obtain _ | ⟨j, q⟩ := q
    · exact absurd hpq (not_before_nil _)
    obtain _ | ⟨k, r⟩ := r
    · exact absurd hqr (not_before_nil _)
    rw [before_cons] at hpq hqr ⊢
    rcases hpq with hij | ⟨rfl, hpq⟩
    · rcases hqr with hjk | ⟨rfl, _⟩
      · exact .inl (hij.trans hjk)
      · exact .inl hij
    · rcases hqr with hik | ⟨rfl, hqr⟩
      · exact .inl hik
      · exact .inr ⟨rfl, ih hpq hqr⟩

theorem Before.asymm {p q : Path} (h : Before p q) : ¬ Before q p :=
  fun h' => before_irrefl p (h.trans h')

instance : Std.Irrefl Before := ⟨before_irrefl⟩

instance : Std.Antisymm Before := ⟨fun _ _ h h' => absurd h' h.asymm⟩

@[simp] theorem before_append_left (w p q : Path) : Before (w ++ p) (w ++ q) ↔ Before p q := by
  induction w with
  | nil => rfl
  | cons i w ih => simpa [before_cons] using ih

/-- What lies in an element stands where the element does. -/
theorem Before.append {p q : Path} (h : Before p q) (r s : Path) : Before (p ++ r) (q ++ s) := by
  induction p generalizing q with
  | nil => exact absurd h (nil_not_before q)
  | cons i p ih =>
    obtain _ | ⟨j, q⟩ := q
    · exact absurd h (not_before_nil _)
    rw [before_cons] at h
    rw [List.cons_append, List.cons_append, before_cons]
    exact h.imp_right fun ⟨same, rest⟩ => ⟨same, ih rest⟩

theorem Before.extend {p q p' q' : Path} (h : Before p q) (hp : p <+: p') (hq : q <+: q') :
    Before p' q' := by
  obtain ⟨r, rfl⟩ := hp
  obtain ⟨s, rfl⟩ := hq
  exact h.append r s

theorem not_before_inside {p q : Path} (h : p <+: q) : ¬ Before p q := by
  obtain ⟨r, rfl⟩ := h
  intro hBefore
  have := (before_append_left p [] r).1 (by simpa using hBefore)
  exact nil_not_before r this

theorem not_inside_before {p q : Path} (h : p <+: q) : ¬ Before q p := by
  obtain ⟨r, rfl⟩ := h
  intro hBefore
  have := (before_append_left p r []).1 (by simpa using hBefore)
  exact not_before_nil r this

/-- Of two elements one contains the other or stands in front of it. -/
theorem trichotomy (p q : Path) : p <+: q ∨ q <+: p ∨ Before p q ∨ Before q p := by
  induction p generalizing q with
  | nil => exact .inl (List.nil_prefix)
  | cons i p ih =>
    obtain _ | ⟨j, q⟩ := q
    · exact .inr (.inl List.nil_prefix)
    rcases Nat.lt_trichotomy i j with h | rfl | h
    · exact .inr (.inr (.inl (.inl h)))
    · rcases ih q with h | h | h | h
      · exact .inl (List.cons_prefix_cons.2 ⟨rfl, h⟩)
      · exact .inr (.inl (List.cons_prefix_cons.2 ⟨rfl, h⟩))
      · exact .inr (.inr (.inl (.inr ⟨rfl, h⟩)))
      · exact .inr (.inr (.inr (.inr ⟨rfl, h⟩)))
    · exact .inr (.inr (.inr (.inl h)))

/-- What stands between two parts of an element is a part of it. -/
theorem prefix_of_between {w p m q : Path} (hp : w <+: p) (hq : w <+: q) (hpm : Before p m)
    (hmq : Before m q) : w <+: m := by
  rcases trichotomy w m with h | h | h | h
  · exact h
  · exact absurd hpm (not_inside_before (h.trans hp))
  · exact absurd (h.extend hq List.prefix_rfl) hmq.asymm
  · exact absurd (h.extend List.prefix_rfl hp) hpm.asymm

/-- What stands between two leaves that follow each other holds no leaf. -/
theorem free_of_between {leaves : List Path} (hOrdered : leaves.Pairwise Before) {i : Nat}
    (hi : i ≤ leaves.length) {x : Path}
    (hBehind : ∀ j, j + 1 = i → ∀ p ∈ leaves[j]?, Before p x)
    (hBefore : ∀ q ∈ leaves[i]?, Before x q) : ∀ leaf ∈ leaves, ¬ x <+: leaf := by
  intro leaf hLeaf hInside
  obtain ⟨j, hj, rfl⟩ := List.mem_iff_getElem.1 hLeaf
  have hSorted := List.pairwise_iff_getElem.1 hOrdered
  rcases Nat.lt_or_ge j i with hLess | hLess
  · obtain ⟨k, rfl⟩ : ∃ k, i = k + 1 := ⟨i - 1, by omega⟩
    have hPrevious : Before leaves[k] x := hBehind k rfl _ (List.getElem?_eq_getElem hi)
    have hLeft : Before leaves[j] x := by
      rcases Nat.eq_or_lt_of_le (Nat.le_of_lt_succ hLess) with rfl | hEarlier
      · exact hPrevious
      · exact (hSorted j k hj hi hEarlier).trans hPrevious
    exact not_inside_before hInside hLeft
  · have hNext : Before x leaves[i] :=
      hBefore _ (List.getElem?_eq_getElem (Nat.lt_of_le_of_lt hLess hj))
    have hRight : Before x leaves[j] := by
      rcases Nat.eq_or_lt_of_le hLess with rfl | hLater
      · exact hNext
      · exact hNext.trans (hSorted i j (Nat.lt_of_le_of_lt hLess hj) hj hLater)
    exact not_before_inside hInside hRight

/-- Two paths in order part ways at some element, the first one to an earlier
child. -/
theorem before_iff_fork (p q : Path) :
    Before p q ↔ ∃ w i j r s, i < j ∧ p = w ++ i :: r ∧ q = w ++ j :: s := by
  constructor
  · intro h
    induction p generalizing q with
    | nil => exact absurd h (nil_not_before q)
    | cons i p ih =>
      obtain _ | ⟨j, q⟩ := q
      · exact absurd h (not_before_nil _)
      rcases h with h | ⟨rfl, h⟩
      · exact ⟨[], i, j, p, q, h, rfl, rfl⟩
      · obtain ⟨w, a, b, r, s, hab, rfl, rfl⟩ := ih q h
        exact ⟨i :: w, a, b, r, s, hab, rfl, rfl⟩
  · rintro ⟨w, i, j, r, s, hij, rfl, rfl⟩
    rw [before_append_left]
    exact .inl hij

theorem sharedLength_fork (w : Path) {i j : Nat} (hij : i ≠ j) (r s : Path) :
    sharedLength (w ++ i :: r) (w ++ j :: s) = w.length := by
  induction w with
  | nil => simp [sharedLength, hij]
  | cons k w ih => simp [sharedLength, ih]

/-- An element on both paths is not deeper than what they share. -/
theorem le_sharedLength {w p q : Path} (hp : w <+: p) (hq : w <+: q) :
    w.length ≤ sharedLength p q := by
  induction w generalizing p q with
  | nil => simp
  | cons i w ih =>
    obtain _ | ⟨a, p⟩ := p
    · simp at hp
    obtain _ | ⟨b, q⟩ := q
    · simp at hq
    obtain ⟨rfl, hRest⟩ := List.cons_prefix_cons.1 hp
    obtain ⟨rfl, hRest'⟩ := List.cons_prefix_cons.1 hq
    simpa [sharedLength] using ih hRest hRest'

/-- Preorder, in which an element goes in front of what it contains, is the
lexicographic order. -/
theorem lt_iff (p q : Path) : p < q ↔ Before p q ∨ p <+: q ∧ p ≠ q := by
  induction p generalizing q with
  | nil => cases q <;> simp
  | cons i p ih =>
    cases q with
    | nil => simp
    | cons j q =>
      rw [List.cons_lt_cons_iff, ih, before_cons, List.cons_prefix_cons]
      simp only [ne_eq, List.cons.injEq]
      constructor
      · rintro (hLess | ⟨rfl, hBefore | ⟨hInside, hNe⟩⟩)
        · exact .inl (.inl hLess)
        · exact .inl (.inr ⟨rfl, hBefore⟩)
        · exact .inr ⟨⟨rfl, hInside⟩, fun h => hNe h.2⟩
      · rintro ((hLess | ⟨rfl, hBefore⟩) | ⟨⟨rfl, hInside⟩, hNe⟩)
        · exact .inl hLess
        · exact .inr ⟨rfl, .inl hBefore⟩
        · exact .inr ⟨rfl, .inr ⟨hInside, fun h => hNe ⟨rfl, h⟩⟩⟩

theorem before_iff_lt (p q : Path) : Before p q ↔ p < q ∧ ¬ p <+: q := by
  rw [lt_iff]
  constructor
  · exact fun h => ⟨.inl h, fun hInside => not_before_inside hInside h⟩
  · rintro ⟨hBefore | ⟨hInside, -⟩, hNot⟩
    · exact hBefore
    · exact absurd hInside hNot

/-- Two paths from an element share no more than the path to it if they do not
begin with the same step. -/
theorem sharedLength_apart (w : Path) {p q : Path} (h : ∀ i ∈ p.head?, q.head? ≠ some i) :
    sharedLength (w ++ p) (w ++ q) = w.length := by
  induction w with
  | cons i w ih => simp [sharedLength, ih]
  | nil =>
    obtain _ | ⟨i, p⟩ := p
    · exact sharedLength_nil_left _
    obtain _ | ⟨j, q⟩ := q
    · exact sharedLength_nil_right _
    have hij : i ≠ j := fun hSame => h i rfl (congrArg some hSame.symm)
    simp [sharedLength, hij]

theorem nodup_of_sorted {places : List Path} (h : places.Pairwise Before) : places.Nodup := by
  refine h.imp fun {p q} hBefore => ?_
  rintro rfl
  exact before_irrefl p hBefore

/-- Places in document order below the children of an element from `index` on. -/
structure Spread (path : Path) (index : Nat) (places : List Path) : Prop where
  sorted : places.Pairwise Before
  inside : ∀ x ∈ places, ∃ k, index ≤ k ∧ path ++ [k] <+: x

variable {path : Path} {index : Nat} {block rest places : List Path}

theorem Spread.nil (path : Path) (index : Nat) : Spread path index [] :=
  ⟨List.Pairwise.nil, by simp⟩

/-- What lies below one child goes in front of what lies below the next ones. -/
theorem Spread.append (hSorted : block.Pairwise Before) (hBlock : ∀ x ∈ block, path ++ [index] <+: x)
    (hRest : Spread path (index + 1) rest) : Spread path index (block ++ rest) := by
  constructor
  · refine List.pairwise_append.2 ⟨hSorted, hRest.sorted, fun x hx y hy => ?_⟩
    obtain ⟨k, hk, hInside⟩ := hRest.inside y hy
    have hFork : Before (path ++ [index]) (path ++ [k]) := by
      simpa [before_cons] using Nat.lt_of_succ_le hk
    exact hFork.extend (hBlock x hx) hInside
  · intro x hx
    rcases List.mem_append.1 hx with hx | hx
    · exact ⟨index, Nat.le_refl index, hBlock x hx⟩
    · obtain ⟨k, hk, hInside⟩ := hRest.inside x hx
      exact ⟨k, Nat.le_of_succ_le hk, hInside⟩

theorem Spread.mono {start : Nat} (h : Spread path index places) (hStart : start ≤ index) :
    Spread path start places :=
  ⟨h.sorted, fun x hx => (h.inside x hx).imp fun _ hk => hk.imp_left hStart.trans⟩

theorem Spread.below (h : Spread path index places) : ∀ x ∈ places, path <+: x := by
  intro x hx
  obtain ⟨k, -, hInside⟩ := h.inside x hx
  exact (List.prefix_append path [k]).trans hInside

end Path

end Infill
