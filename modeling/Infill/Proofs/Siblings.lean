import Infill.Boundary
import Infill.Proofs.Order
import Infill.Proofs.Tree

/-!
What a boundary selects, as lists of paths: the siblings before the steps of a
path, the siblings behind them, and what lies between two leaves. All of these
stand in document order, and what lies between two leaves is known by that
order alone.
-/
namespace Infill

open Infill.Xml

namespace Path

/-- The children of the element at `w` from `start` up to before `stop`. -/
def siblings (w : Path) (start stop : Nat) : List Path :=
  (List.range' start (stop - start)).map fun index => w ++ [index]

/-- The siblings before every step of a path below `w`, outermost first. -/
def leading (w : Path) : Path → List Path
  | [] => []
  | index :: path => siblings w 0 index ++ leading (w ++ [index]) path

/-- The siblings behind every step of a path below `w`, innermost first. -/
def trailing (root : Element) (w : Path) : Path → List Path
  | [] => []
  | index :: path =>
    trailing root (w ++ [index]) path ++ siblings w (index + 1) (root.degree w)

/-- The siblings before a path from level `depth` on. -/
def leadingFrom (path : Path) (depth : Nat) : List Path :=
  leading (path.take depth) (path.drop depth)

/-- The siblings behind a path from level `depth` on. -/
def trailingFrom (root : Element) (path : Path) (depth : Nat) : List Path :=
  trailing root (path.take depth) (path.drop depth)

theorem mem_siblings {w x : Path} {start stop : Nat} :
    x ∈ siblings w start stop ↔ ∃ index, start ≤ index ∧ index < stop ∧ x = w ++ [index] := by
  simp only [siblings, List.mem_map, List.mem_range'_1]
  constructor
  · rintro ⟨index, ⟨hStart, hStop⟩, rfl⟩
    exact ⟨index, hStart, by omega, rfl⟩
  · rintro ⟨index, hStart, hStop, rfl⟩
    exact ⟨index, ⟨hStart, by omega⟩, rfl⟩

theorem siblings_sorted (w : Path) (start stop : Nat) : (siblings w start stop).Pairwise Before := by
  rw [siblings, List.pairwise_map]
  refine (List.pairwise_lt_range').imp fun h => ?_
  rw [before_append_left]
  exact .inl h

theorem siblings_eq_nil {w : Path} {start stop : Nat} (h : stop ≤ start) :
    siblings w start stop = [] := by
  simp [siblings, Nat.sub_eq_zero_of_le h]

/-- A sibling before a step of a path leaves the path one step before. -/
theorem mem_leading {w p x : Path} :
    x ∈ leading w p ↔ ∃ u i a v, i < a ∧ p = u ++ a :: v ∧ x = w ++ u ++ [i] := by
  induction p generalizing w with
  | nil => simp [leading]
  | cons b p ih =>
    rw [leading, List.mem_append, ih, mem_siblings]
    constructor
    · rintro (⟨i, _, hi, rfl⟩ | ⟨u, i, a, v, hia, rfl, rfl⟩)
      · exact ⟨[], i, b, p, hi, rfl, by simp⟩
      · exact ⟨b :: u, i, a, v, hia, rfl, by simp⟩
    · rintro ⟨u, i, a, v, hia, hp, rfl⟩
      obtain _ | ⟨c, u⟩ := u
      · obtain ⟨rfl, rfl⟩ := List.cons.inj hp
        exact .inl ⟨i, Nat.zero_le i, hia, by simp⟩
      · obtain ⟨rfl, rfl⟩ := List.cons.inj hp
        exact .inr ⟨u, i, a, v, hia, rfl, by simp⟩

theorem mem_trailing {root : Element} {w p x : Path} :
    x ∈ trailing root w p ↔ ∃ u a i v, a < i ∧ i < root.degree (w ++ u) ∧
      p = u ++ a :: v ∧ x = w ++ u ++ [i] := by
  induction p generalizing w with
  | nil => simp [trailing]
  | cons b p ih =>
    rw [trailing, List.mem_append, ih, mem_siblings]
    constructor
    · rintro (⟨u, a, i, v, hai, hDegree, rfl, rfl⟩ | ⟨i, hi, hDegree, rfl⟩)
      · exact ⟨b :: u, a, i, v, hai, by simpa using hDegree, rfl, by simp⟩
      · exact ⟨[], b, i, p, hi, by simpa using hDegree, rfl, by simp⟩
    · rintro ⟨u, a, i, v, hai, hDegree, hp, rfl⟩
      obtain _ | ⟨c, u⟩ := u
      · obtain ⟨rfl, rfl⟩ := List.cons.inj hp
        exact .inr ⟨i, hai, by simpa using hDegree, by simp⟩
      · obtain ⟨rfl, rfl⟩ := List.cons.inj hp
        exact .inl ⟨u, a, i, v, hai, by simpa using hDegree, rfl, by simp⟩

theorem leading_sorted (w p : Path) : (leading w p).Pairwise Before := by
  induction p generalizing w with
  | nil => exact List.Pairwise.nil
  | cons b p ih =>
    rw [leading, List.pairwise_append]
    refine ⟨siblings_sorted w 0 b, ih (w ++ [b]), fun x hx y hy => ?_⟩
    obtain ⟨i, _, hi, rfl⟩ := mem_siblings.1 hx
    obtain ⟨u, j, a, v, _, _, rfl⟩ := mem_leading.1 hy
    simp [List.append_assoc, before_cons, hi]

theorem trailing_sorted (root : Element) (w p : Path) : (trailing root w p).Pairwise Before := by
  induction p generalizing w with
  | nil => exact List.Pairwise.nil
  | cons b p ih =>
    rw [trailing, List.pairwise_append]
    refine ⟨ih (w ++ [b]), siblings_sorted w (b + 1) _, fun x hx y hy => ?_⟩
    obtain ⟨u, a, i, v, _, _, _, rfl⟩ := mem_trailing.1 hx
    obtain ⟨j, hj, _, rfl⟩ := mem_siblings.1 hy
    simp only [List.append_assoc, before_append_left, List.cons_append, List.nil_append]
    exact .inl hj

theorem eq_of_drop {p u v : Path} {depth a : Nat} (h : p.drop depth = u ++ a :: v) :
    depth < p.length ∧ p = p.take depth ++ u ++ a :: v := by
  constructor
  · have := congrArg List.length h
    simp at this
    omega
  · rw [List.append_assoc, ← h, List.take_append_drop]

/-- The siblings before a path are known by document order. -/
theorem mem_leadingFrom {root : Element} {p x : Path} {depth : Nat} (hReach : root.Reaches p) :
    x ∈ leadingFrom p depth ↔ root.Reaches x ∧ Before x p ∧
      ∃ u i, x = u ++ [i] ∧ depth ≤ u.length ∧ u <+: p := by
  rw [leadingFrom, mem_leading]
  constructor
  · rintro ⟨u, i, a, v, hia, hDrop, rfl⟩
    obtain ⟨hDepth, hPath⟩ := eq_of_drop hDrop
    refine ⟨?_, ?_, p.take depth ++ u, i, rfl, by simp; omega, ⟨a :: v, hPath.symm⟩⟩
    · rw [hPath, ← List.singleton_append, ← List.append_assoc] at hReach
      obtain ⟨hParent, hDegree⟩ := Element.reaches_concat.1 hReach.of_append
      exact Element.reaches_concat.2 ⟨hParent, hia.trans hDegree⟩
    · refine (before_iff_fork _ _).2 ⟨p.take depth ++ u, i, a, [], v, hia, rfl, hPath⟩
  · rintro ⟨_, hBefore, u, i, rfl, hDepth, v, rfl⟩
    rw [before_append_left] at hBefore
    obtain _ | ⟨a, v⟩ := v
    · exact absurd hBefore (not_before_nil _)
    have hia : i < a := by simpa [before_cons] using hBefore
    refine ⟨u.drop depth, i, a, v, hia, by rw [List.drop_append_of_le_length hDepth], ?_⟩
    rw [List.take_append_of_le_length hDepth, List.take_append_drop]

/-- The siblings behind a path are known by document order. -/
theorem mem_trailingFrom {root : Element} {p x : Path} {depth : Nat} (hReach : root.Reaches p) :
    x ∈ trailingFrom root p depth ↔ root.Reaches x ∧ Before p x ∧
      ∃ u i, x = u ++ [i] ∧ depth ≤ u.length ∧ u <+: p := by
  rw [trailingFrom, mem_trailing]
  constructor
  · rintro ⟨u, a, i, v, hai, hDegree, hDrop, rfl⟩
    obtain ⟨hDepth, hPath⟩ := eq_of_drop hDrop
    refine ⟨?_, ?_, p.take depth ++ u, i, rfl, by simp; omega, ⟨a :: v, hPath.symm⟩⟩
    · rw [hPath] at hReach
      exact Element.reaches_concat.2 ⟨hReach.of_append, hDegree⟩
    · refine (before_iff_fork _ _).2 ⟨p.take depth ++ u, a, i, v, [], hai, hPath, rfl⟩
  · rintro ⟨hReaches, hBefore, u, i, rfl, hDepth, v, rfl⟩
    rw [before_append_left] at hBefore
    obtain _ | ⟨a, v⟩ := v
    · exact absurd hBefore (nil_not_before _)
    have hai : a < i := by simpa [before_cons] using hBefore
    have hDegree := (Element.reaches_concat.1 hReaches).2
    refine ⟨u.drop depth, a, i, v, hai, ?_, by rw [List.drop_append_of_le_length hDepth], ?_⟩
    · rwa [List.take_append_of_le_length hDepth, List.take_append_drop]
    · rw [List.take_append_of_le_length hDepth, List.take_append_drop]

/-- What follows the first of two leaves in its own ancestors, the leaf being
left for good where no other comes. -/
def ending (root : Element) : (previous next : Option Path) → List Path
  | some p, some q => trailingFrom root p (sharedLength p q + 1)
  | some p, none => trailingFrom root p 1
  | none, _ => []

/-- What lies below the common ancestor of two leaves and precedes the second
in its own ancestors. -/
def entering (root : Element) : (previous next : Option Path) → List Path
  | some p, some q =>
    let common := sharedLength p q
    siblings (p.take common) (p.getD common 0 + 1) (q.getD common 0) ++ leadingFrom q (common + 1)
  | some p, none => siblings [] (p.headD 0 + 1) (root.degree [])
  | none, some q => siblings [] 0 (q.headD 0) ++ leadingFrom q 1
  | none, none => siblings [] 0 (root.degree [])

/-- What lies between two leaves, or in front of the first or behind the last. -/
def between (root : Element) (previous next : Option Path) : List Path :=
  ending root previous next ++ entering root previous next

/-- Whether an element stands between two leaves, right below an ancestor of one
of them or below the root. -/
structure StandsBetween (root : Element) (previous next : Option Path) (x : Path) : Prop where
  reaches : root.Reaches x
  behind : ∀ p ∈ previous, Before p x
  before : ∀ q ∈ next, Before x q
  attached : ∃ u i, x = u ++ [i] ∧
    (u = [] ∨ (∃ p ∈ previous, u <+: p) ∨ ∃ q ∈ next, u <+: q)

variable {root : Element} {p q x : Path}

/-- Where a path in order with another one is left, the two are known. -/
theorem fork_sharedLength (h : Before p q) :
    ∃ i j r s, i < j ∧ p = p.take (sharedLength p q) ++ i :: r ∧
      q = p.take (sharedLength p q) ++ j :: s ∧ (p.take (sharedLength p q)).length =
        sharedLength p q := by
  obtain ⟨w, i, j, r, s, hij, rfl, rfl⟩ := (before_iff_fork p q).1 h
  rw [sharedLength_fork w (Nat.ne_of_lt hij), List.take_left]
  exact ⟨i, j, r, s, hij, rfl, rfl, rfl⟩

/-- What stands between two leaves right below a common ancestor of theirs is
one of the siblings between the branches. -/
private theorem mem_siblings_of_between {w u r s : Path} {i j k : Nat}
    (hPrefix : u <+: w) (hBehind : Before (w ++ i :: r) (u ++ [k]))
    (hBefore : Before (u ++ [k]) (w ++ j :: s)) :
    u ++ [k] ∈ siblings w (i + 1) j := by
  obtain ⟨v, rfl⟩ := hPrefix
  rw [List.append_assoc, before_append_left] at hBehind hBefore
  obtain _ | ⟨a, v⟩ := v
  · have hik : i < k := by simpa [before_cons] using hBehind
    have hkj : k < j := by simpa [before_cons] using hBefore
    exact mem_siblings.2 ⟨k, hik, hkj, by simp⟩
  · have hak : a < k := by simpa [before_cons] using hBehind
    have hka : k < a := by simpa [before_cons] using hBefore
    omega

private theorem mem_between_some_some (hBoth : Before p q) (hp : root.Reaches p)
    (hq : root.Reaches q) :
    x ∈ between root (some p) (some q) ↔ StandsBetween root (some p) (some q) x := by
  obtain ⟨i, j, r, s, hij, hpFork, hqFork, hLength⟩ := fork_sharedLength hBoth
  simp only [between, ending, entering, List.mem_append, mem_trailingFrom hp, mem_leadingFrom hq]
  generalize hCommon : sharedLength p q = common at *
  generalize hw : p.take common = w at *
  subst hpFork hqFork
  have hi : (w ++ i :: r).getD common 0 = i := by simp [← hLength]
  have hj : (w ++ j :: s).getD common 0 = j := by simp [← hLength]
  rw [hi, hj]
  have hDegree : j < root.degree w := by
    rw [← List.singleton_append, ← List.append_assoc] at hq
    exact (Element.reaches_concat.1 hq.of_append).2
  constructor
  · rintro (⟨hReaches, hBehind, u, k, rfl, hDepth, hu⟩ | hx | ⟨hReaches, hBefore, u, k, rfl, hDepth, hu⟩)
    · refine ⟨hReaches, by simpa using hBehind, ?_, u, k, rfl, .inr (.inl (by simpa using hu))⟩
      have hBranch : w ++ [i] <+: u := by
        refine List.prefix_of_prefix_length_le ⟨r, by simp⟩ hu (by simp; omega)
      have : Before (w ++ [i]) (w ++ j :: s) := by simpa [before_cons] using hij
      simpa using this.extend (hBranch.trans (List.prefix_append u [k])) List.prefix_rfl
    · obtain ⟨k, hik, hkj, rfl⟩ := mem_siblings.1 hx
      refine ⟨Element.reaches_concat.2 ⟨hp.of_append, by omega⟩, ?_, ?_, w, k, rfl,
        .inr (.inl ⟨_, rfl, List.prefix_append w _⟩)⟩
      · simp [before_cons, Nat.lt_of_succ_le hik]
      · simp [before_cons, hkj]
    · refine ⟨hReaches, ?_, by simpa using hBefore, u, k, rfl, .inr (.inr (by simpa using hu))⟩
      have hBranch : w ++ [j] <+: u := by
        refine List.prefix_of_prefix_length_le ⟨s, by simp⟩ hu (by simp; omega)
      have : Before (w ++ i :: r) (w ++ [j]) := by simpa [before_cons] using hij
      simpa using this.extend List.prefix_rfl (hBranch.trans (List.prefix_append u [k]))
  · rintro ⟨hReaches, hBehind, hBefore, u, k, rfl, hu⟩
    have hBehind : Before (w ++ i :: r) (u ++ [k]) := hBehind _ rfl
    have hBefore : Before (u ++ [k]) (w ++ j :: s) := hBefore _ rfl
    have hu : u <+: w ++ i :: r ∨ u <+: w ++ j :: s := by
      rcases hu with rfl | ⟨p', hp', hu⟩ | ⟨q', hq', hu⟩
      · exact .inl List.nil_prefix
      · obtain rfl := Option.some.inj hp'
        exact .inl hu
      · obtain rfl := Option.some.inj hq'
        exact .inr hu
    by_cases hDepth : common + 1 ≤ u.length
    · rcases hu with hu | hu
      · exact .inl ⟨hReaches, hBehind, u, k, rfl, hDepth, hu⟩
      · exact .inr (.inr ⟨hReaches, hBefore, u, k, rfl, hDepth, hu⟩)
    · have huw : u <+: w := by
        rcases hu with hu | hu
        · exact List.prefix_of_prefix_length_le hu ⟨_, rfl⟩ (by omega)
        · exact List.prefix_of_prefix_length_le hu ⟨_, rfl⟩ (by omega)
      exact .inr (.inl (mem_siblings_of_between huw hBehind hBefore))

private theorem mem_between_some_none (hNonempty : p ≠ []) (hp : root.Reaches p) :
    x ∈ between root (some p) none ↔ StandsBetween root (some p) none x := by
  obtain ⟨i, r, rfl⟩ := List.exists_cons_of_ne_nil hNonempty
  simp only [between, ending, entering, List.mem_append, mem_trailingFrom hp, List.headD_cons]
  constructor
  · rintro (⟨hReaches, hBehind, u, k, rfl, -, hu⟩ | hx)
    · exact ⟨hReaches, by simpa using hBehind, by simp, u, k, rfl, .inr (.inl (by simpa using hu))⟩
    · obtain ⟨k, hik, hDegree, rfl⟩ := mem_siblings.1 hx
      refine ⟨Element.reaches_concat.2 ⟨Element.reaches_nil root, hDegree⟩, ?_, by simp,
        [], k, rfl, .inl rfl⟩
      simp [before_cons, Nat.lt_of_succ_le hik]
  · rintro ⟨hReaches, hBehind, -, u, k, rfl, hu⟩
    have hBehind : Before (i :: r) (u ++ [k]) := hBehind _ rfl
    have hu : u <+: i :: r := by
      rcases hu with rfl | ⟨p', hp', hu⟩ | ⟨q', hq', -⟩
      · exact List.nil_prefix
      · obtain rfl := Option.some.inj hp'
        exact hu
      · cases hq'
    obtain _ | ⟨a, u⟩ := u
    · have hik : i < k := by simpa [before_cons] using hBehind
      exact .inr (mem_siblings.2 ⟨k, hik, (Element.reaches_concat.1 hReaches).2, rfl⟩)
    · exact .inl ⟨hReaches, hBehind, a :: u, k, rfl, by simp, hu⟩

private theorem mem_between_none_some (hNonempty : q ≠ []) (hq : root.Reaches q) :
    x ∈ between root none (some q) ↔ StandsBetween root none (some q) x := by
  obtain ⟨j, s, rfl⟩ := List.exists_cons_of_ne_nil hNonempty
  simp only [between, ending, entering, List.nil_append, List.mem_append, mem_leadingFrom hq,
    List.headD_cons]
  constructor
  · rintro (hx | ⟨hReaches, hBefore, u, k, rfl, -, hu⟩)
    · obtain ⟨k, -, hkj, rfl⟩ := mem_siblings.1 hx
      have hDegree : j < root.degree [] :=
        (Element.reaches_concat.1 (hq.above ⟨s, rfl⟩ : root.Reaches ([] ++ [j]))).2
      refine ⟨Element.reaches_concat.2 ⟨Element.reaches_nil root, by omega⟩, by simp, ?_,
        [], k, rfl, .inl rfl⟩
      simp [before_cons, hkj]
    · exact ⟨hReaches, by simp, by simpa using hBefore, u, k, rfl, .inr (.inr (by simpa using hu))⟩
  · rintro ⟨hReaches, -, hBefore, u, k, rfl, hu⟩
    have hBefore : Before (u ++ [k]) (j :: s) := hBefore _ rfl
    have hu : u <+: j :: s := by
      rcases hu with rfl | ⟨p', hp', -⟩ | ⟨q', hq', hu⟩
      · exact List.nil_prefix
      · cases hp'
      · obtain rfl := Option.some.inj hq'
        exact hu
    obtain _ | ⟨a, u⟩ := u
    · have hkj : k < j := by simpa [before_cons] using hBefore
      exact .inl (mem_siblings.2 ⟨k, Nat.zero_le k, hkj, rfl⟩)
    · exact .inr ⟨hReaches, hBefore, a :: u, k, rfl, by simp, hu⟩

private theorem mem_between_none_none :
    x ∈ between root none none ↔ StandsBetween root none none x := by
  simp only [between, ending, entering, List.nil_append]
  constructor
  · intro hx
    obtain ⟨k, -, hDegree, rfl⟩ := mem_siblings.1 hx
    exact ⟨Element.reaches_concat.2 ⟨Element.reaches_nil root, hDegree⟩, by simp, by simp,
      [], k, rfl, .inl rfl⟩
  · rintro ⟨hReaches, -, -, u, k, rfl, hu⟩
    obtain rfl : u = [] := by simpa using hu
    exact mem_siblings.2 ⟨k, Nat.zero_le k, (Element.reaches_concat.1 hReaches).2, rfl⟩

/-- The routes of a boundary select exactly what stands between its leaves. -/
theorem mem_between {previous next : Option Path}
    (hPrevious : ∀ p ∈ previous, p ≠ [] ∧ root.Reaches p)
    (hNext : ∀ q ∈ next, q ≠ [] ∧ root.Reaches q)
    (hBoth : ∀ p ∈ previous, ∀ q ∈ next, Before p q) :
    x ∈ between root previous next ↔ StandsBetween root previous next x := by
  cases previous with
  | none =>
    cases next with
    | none => exact mem_between_none_none
    | some q => exact mem_between_none_some (hNext q rfl).1 (hNext q rfl).2
  | some p =>
    cases next with
    | none => exact mem_between_some_none (hPrevious p rfl).1 (hPrevious p rfl).2
    | some q =>
      exact mem_between_some_some (hBoth p rfl q rfl) (hPrevious p rfl).2 (hNext q rfl).2

/-- What is below a branch, then siblings behind the branch, in order. -/
private theorem sorted_append_siblings {branch : List Path} {w : Path} {i start stop : Nat}
    (hSorted : branch.Pairwise Before) (hBranch : ∀ x ∈ branch, w ++ [i] <+: x) (hi : i < start) :
    (branch ++ siblings w start stop).Pairwise Before := by
  refine List.pairwise_append.2 ⟨hSorted, siblings_sorted w start stop, fun x hx y hy => ?_⟩
  obtain ⟨k, hk, -, rfl⟩ := mem_siblings.1 hy
  have : Before (w ++ [i]) (w ++ [k]) := by
    simpa [before_cons] using Nat.lt_of_lt_of_le hi hk
  exact this.extend (hBranch x hx) List.prefix_rfl

private theorem sorted_siblings_append {branch : List Path} {w : Path} {j start stop : Nat}
    (hSorted : branch.Pairwise Before) (hBranch : ∀ x ∈ branch, w ++ [j] <+: x) (hj : stop ≤ j) :
    (siblings w start stop ++ branch).Pairwise Before := by
  refine List.pairwise_append.2 ⟨siblings_sorted w start stop, hSorted, fun x hx y hy => ?_⟩
  obtain ⟨k, -, hk, rfl⟩ := mem_siblings.1 hx
  have : Before (w ++ [k]) (w ++ [j]) := by
    simpa [before_cons] using Nat.lt_of_lt_of_le hk hj
  exact this.extend List.prefix_rfl (hBranch y hy)

private theorem branch_prefix_of_mem_trailing {w r x : Path} (hx : x ∈ trailing root w r) :
    w <+: x := by
  obtain ⟨u, a, k, v, -, -, -, rfl⟩ := mem_trailing.1 hx
  exact ⟨u ++ [k], by simp⟩

private theorem branch_prefix_of_mem_leading {w r x : Path} (hx : x ∈ leading w r) : w <+: x := by
  obtain ⟨u, k, a, v, -, -, rfl⟩ := mem_leading.1 hx
  exact ⟨u ++ [k], by simp⟩

/-- What a boundary selects stands in document order. -/
theorem between_sorted {previous next : Option Path} (hPrevious : ∀ p ∈ previous, p ≠ [])
    (hNext : ∀ q ∈ next, q ≠ []) (hBoth : ∀ p ∈ previous, ∀ q ∈ next, Before p q) :
    (between root previous next).Pairwise Before := by
  cases previous with
  | none =>
    cases next with
    | none => exact siblings_sorted _ _ _
    | some q =>
      obtain ⟨j, s, rfl⟩ := List.exists_cons_of_ne_nil (hNext q rfl)
      exact sorted_siblings_append (leading_sorted _ _)
        (fun x hx => branch_prefix_of_mem_leading hx) (Nat.le_refl j)
  | some p =>
    cases next with
    | none =>
      obtain ⟨i, r, rfl⟩ := List.exists_cons_of_ne_nil (hPrevious p rfl)
      exact sorted_append_siblings (trailing_sorted _ _ _)
        (fun x hx => branch_prefix_of_mem_trailing hx) (Nat.lt_succ_self i)
    | some q =>
      obtain ⟨w, i, j, r, s, hij, rfl, rfl⟩ := (before_iff_fork p q).1 (hBoth p rfl q rfl)
      have hEnding : trailingFrom root (w ++ i :: r) (w.length + 1) =
          trailing root (w ++ [i]) r := by
        rw [trailingFrom, List.take_length_add_append, List.drop_length_add_append]
        rfl
      have hLeading : leadingFrom (w ++ j :: s) (w.length + 1) = leading (w ++ [j]) s := by
        rw [leadingFrom, List.take_length_add_append, List.drop_length_add_append]
        rfl
      have hi : (w ++ i :: r).getD w.length 0 = i := by simp
      have hj : (w ++ j :: s).getD w.length 0 = j := by simp
      simp only [between, ending, entering, sharedLength_fork w (Nat.ne_of_lt hij), hEnding,
        hLeading, hi, hj, List.take_left]
      rw [← List.append_assoc, List.pairwise_append]
      refine ⟨sorted_append_siblings (trailing_sorted _ _ _)
        (fun x hx => branch_prefix_of_mem_trailing hx) (Nat.lt_succ_self i),
        leading_sorted _ _, fun x hx y hy => ?_⟩
      have hy := branch_prefix_of_mem_leading hy
      rcases List.mem_append.1 hx with hx | hx
      · have hx := branch_prefix_of_mem_trailing hx
        have : Before (w ++ [i]) (w ++ [j]) := by simpa [before_cons] using hij
        exact this.extend hx hy
      · obtain ⟨k, -, hkj, rfl⟩ := mem_siblings.1 hx
        have : Before (w ++ [k]) (w ++ [j]) := by simpa [before_cons] using hkj
        exact this.extend List.prefix_rfl hy

end Path

end Infill
