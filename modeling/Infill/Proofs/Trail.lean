import Infill.Proofs.Atoms

/-!
The visits on the way from a leaf to a place in the document. A run pays them
only once it knows where it goes; told for every place, they grow by what the
way leads past, one child after the other.
-/
namespace Infill

open Infill.Xml

namespace Path

/-- What stands in front of the first child stands in front of the element. -/
theorem before_first (path x : Path) : Before x (path ++ [0]) ↔ Before x path := by
  induction path generalizing x with
  | nil => cases x <;> simp [before_cons]
  | cons i path ih =>
    cases x with
    | nil => simp
    | cons a x => simp [before_cons, ih]

/-- What stands in front of the next child stands in front of this one or in
it. -/
theorem before_next (path x : Path) (index : Nat) :
    Before x (path ++ [index + 1]) ↔ Before x (path ++ [index]) ∨ path ++ [index] <+: x := by
  induction path generalizing x with
  | nil =>
    cases x with
    | nil => simp
    | cons a x => simp [before_cons]; omega
  | cons i path ih =>
    cases x with
    | nil => simp
    | cons a x =>
      simp only [List.cons_append, before_cons, ih, List.cons_prefix_cons]
      constructor
      · rintro (hLess | ⟨rfl, hBefore | hInside⟩)
        · exact .inl (.inl hLess)
        · exact .inl (.inr ⟨rfl, hBefore⟩)
        · exact .inr ⟨rfl, hInside⟩
      · rintro ((hLess | ⟨rfl, hBefore⟩) | ⟨rfl, hInside⟩)
        · exact .inl hLess
        · exact .inr ⟨rfl, .inl hBefore⟩
        · exact .inr ⟨rfl, .inr hInside⟩

/-- What stands in front of the end of an element stands in front of the element
or in it, or behind the end of its children. -/
theorem before_end {root : Element} {path x : Path} (hReaches : root.Reaches x) :
    Before x (path ++ [root.degree path]) ↔ Before x path ∨ path <+: x ∧ x ≠ path := by
  constructor
  · intro h
    rcases trichotomy path x with hPrefix | hPrefix | hBefore | hBefore
    · refine .inr ⟨hPrefix, ?_⟩
      rintro rfl
      exact not_before_inside (List.prefix_append x _) h
    · exact absurd h (not_before_inside (hPrefix.trans (List.prefix_append _ _)))
    · exact absurd h (hBefore.extend (List.prefix_append _ _) List.prefix_rfl).asymm
    · exact .inl hBefore
  · rintro (hBefore | ⟨⟨rest, rfl⟩, hNe⟩)
    · exact hBefore.extend List.prefix_rfl (List.prefix_append _ _)
    · obtain _ | ⟨index, rest⟩ := rest
      · simp at hNe
      · have hChild : root.Reaches (path ++ [index]) := hReaches.above ⟨rest, by simp⟩
        rw [before_append_left]
        exact .inl (Element.reaches_concat.1 hChild).2

/-- Between two places in order, what stands in front of the second one but not
of the first comes last. -/
theorem filter_before_append {z z' : Path} {places rest : List Path}
    (hPlaces : places.Pairwise Before) (hRest : rest.Pairwise Before)
    (hMono : ∀ x ∈ places, Before x z → Before x z')
    (h : ∀ x, x ∈ rest ↔ x ∈ places ∧ Before x z' ∧ ¬ Before x z) :
    places.filter (Before · z') = places.filter (Before · z) ++ rest := by
  have hOrder : ∀ ⦃x⦄, x ∈ places → ∀ ⦃y⦄, y ∈ places → x = y ∨ Before x y ∨ Before y x :=
    List.Pairwise.forall_of_forall_of_flip (fun x _ => .inl rfl)
      (hPlaces.imp fun hBefore => .inr (.inl hBefore))
      (hPlaces.imp fun hBefore => .inr (.inr hBefore))
  refine (hPlaces.filter _).eq_of_mem_iff (List.pairwise_append.2 ⟨hPlaces.filter _, hRest, ?_⟩) ?_
  · intro x hx y hy
    obtain ⟨hx, hxBefore⟩ := List.mem_filter.1 hx
    obtain ⟨hy, -, hyNot⟩ := (h y).1 hy
    have hxBefore : Before x z := by simpa using hxBefore
    rcases hOrder hx hy with rfl | hBefore | hBefore
    · exact absurd hxBefore hyNot
    · exact hBefore
    · exact absurd (hBefore.trans hxBefore) hyNot
  · intro x
    simp only [List.mem_filter, List.mem_append, decide_eq_true_eq, h]
    constructor
    · rintro ⟨hx, hBefore⟩
      by_cases hFirst : Before x z
      · exact .inl ⟨hx, hFirst⟩
      · exact .inr ⟨hx, hBefore, hFirst⟩
    · rintro (⟨hx, hBefore⟩ | ⟨hx, hBefore, -⟩)
      · exact ⟨hx, hMono x hx hBefore⟩
      · exact ⟨hx, hBefore⟩

end Path

namespace Layout

variable {layout : Layout} {path z z' : Path} {start index key : Nat}

/-- The visits past a leaf that has no entry. -/
def passing (layout : Layout) (key : Nat) : List Visit :=
  (layout.gap (key - 1)).map (.clone (layout.floor key)) ++
    [.pass (layout.floor key) ((layout.path key).take (layout.level key))]

/-- The visits past the leaves behind `start` that stand in front of `key`. -/
def passingTo (layout : Layout) (start key : Nat) : List Visit :=
  (List.range' (start + 1) (key - (start + 1))).flatMap layout.passing

/-- The visits on the way from the leaf `start` to a place. -/
def trail (layout : Layout) (start : Nat) (z : Path) : List Visit :=
  layout.passingTo start (layout.rank z + 1) ++
    ((layout.gap (layout.rank z)).filter (Path.Before · z)).map
      (.clone (layout.floor (layout.rank z + 1)))

theorem passingTo_self (layout : Layout) (start : Nat) : layout.passingTo start (start + 1) = [] := by
  simp [passingTo]

theorem passingTo_succ (h : start < key) :
    layout.passingTo start (key + 1) = layout.passingTo start key ++ layout.passing key := by
  obtain ⟨more, rfl⟩ := Nat.exists_eq_add_of_le (Nat.succ_le_of_lt h)
  rw [passingTo, passingTo, show start + 1 + more + 1 - (start + 1) = more + 1 by omega,
    Nat.add_sub_cancel_left, List.range'_1_concat, List.flatMap_append, List.flatMap_singleton]

theorem visits_cross_of_lt {target : Nat} (hLess : key < target) (hCount : key ≤ layout.count) :
    (Leg.cross key target).visits layout = layout.passing key := by
  rw [Leg.visits, stopover, if_pos ⟨hLess, hCount⟩, passing]

theorem visits_cross_self (layout : Layout) (key : Nat) :
    (Leg.cross key key).visits layout = (layout.gap (key - 1)).map (.clone (layout.floor key)) := by
  rw [Leg.visits, stopover, if_neg (by omega), List.append_nil]

/-- On the way to a leaf all leaves in front of it are passed by, and what lies
between it and the last of them is cloned. -/
theorem visits_crossings {target : Nat} (hLess : start < target)
    (hCount : target ≤ layout.count + 1) :
    layout.visits (Leg.crossings target (start + 1) (target - start)) =
      layout.passingTo start target ++
        (layout.gap (target - 1)).map (.clone (layout.floor target)) := by
  obtain ⟨more, rfl⟩ := Nat.exists_eq_add_of_le (Nat.succ_le_of_lt hLess)
  have hPassing : (List.range' (start + 1) more).flatMap
      (fun key => (Leg.cross key (start + 1 + more)).visits layout) =
      (List.range' (start + 1) more).flatMap layout.passing := by
    refine List.flatMap_congr fun key hKey => ?_
    have := List.mem_range'_1.1 hKey
    exact visits_cross_of_lt (by omega) (by omega)
  rw [Leg.crossings, visits, List.flatMap_map, show start + 1 + more - start = more + 1 by omega,
    List.range'_1_concat, List.flatMap_append, hPassing, List.flatMap_singleton,
    visits_cross_self, passingTo, Nat.add_sub_cancel_left]

/-! ### How the way to a place grows -/

/-- The way to a place depends on what stands in front of it. -/
theorem trail_congr (hLeaves : ∀ leaf ∈ layout.leaves, Path.Before leaf z ↔ Path.Before leaf z')
    (hOff : ∀ x, layout.OffPath x → (Path.Before x z ↔ Path.Before x z')) (start : Nat) :
    layout.rank z = layout.rank z' ∧ layout.trail start z = layout.trail start z' := by
  have hRank : layout.rank z = layout.rank z' := by
    refine List.countP_congr fun leaf hLeaf => ?_
    simpa using hLeaves leaf hLeaf
  refine ⟨hRank, ?_⟩
  have hFilter : (layout.gap (layout.rank z')).filter (Path.Before · z) =
      (layout.gap (layout.rank z')).filter (Path.Before · z') := by
    refine List.filter_congr fun x hx => ?_
    simpa using hOff x ((mem_gap (rank_le _ _)).1 hx).1
  rw [trail, trail, hRank, hFilter]

theorem trail_first (layout : Layout) (start : Nat) (path : Path) :
    layout.rank (path ++ [0]) = layout.rank path ∧
      layout.trail start (path ++ [0]) = layout.trail start path :=
  trail_congr (fun leaf _ => Path.before_first path leaf) (fun x _ => Path.before_first path x) start

theorem rank_nil (layout : Layout) : layout.rank [] = 0 := by
  rw [rank, List.countP_eq_zero]
  simp

/-- All leaves stand in front of the end of the document. -/
theorem rank_end (layout : Layout) :
    layout.rank ([] ++ [layout.root.degree []]) = layout.count := by
  rw [rank, count, List.countP_eq_length]
  intro leaf hLeaf
  rw [decide_eq_true_eq, Path.before_end (leaf_reaches hLeaf)]
  exact .inr ⟨List.nil_prefix, leaf_nonempty hLeaf⟩

/-- The end of an element is where the next one begins. -/
theorem trail_end (h : ∃ leaf ∈ layout.leaves, path ++ [index] <+: leaf ∧ path ++ [index] ≠ leaf)
    (start : Nat) :
    layout.rank (path ++ [index] ++ [layout.root.degree (path ++ [index])]) =
        layout.rank (path ++ [index + 1]) ∧
      layout.trail start (path ++ [index] ++ [layout.root.degree (path ++ [index])]) =
        layout.trail start (path ++ [index + 1]) := by
  obtain ⟨leaf, hLeaf, hPrefix, hNe⟩ := h
  have hSame : ∀ x, layout.root.Reaches x → x ≠ path ++ [index] →
      (Path.Before x (path ++ [index] ++ [layout.root.degree (path ++ [index])]) ↔
        Path.Before x (path ++ [index + 1])) := by
    intro x hReaches hDiffers
    rw [Path.before_end hReaches, Path.before_next]
    simp [hDiffers]
  refine trail_congr (fun other hOther => hSame other (leaf_reaches hOther) ?_)
    (fun x hx => hSame x hx.reaches ?_) start
  · rintro rfl
    exact hNe (eq_of_inside hOther hLeaf hPrefix)
  · rintro rfl
    exact hx.free leaf hLeaf hPrefix

/-- A subtree off the paths is cloned on the way past it. -/
theorem trail_offPath (h : layout.OffPath (path ++ [index])) (start : Nat) :
    layout.rank (path ++ [index + 1]) = layout.rank (path ++ [index]) ∧
      layout.trail start (path ++ [index + 1]) = layout.trail start (path ++ [index]) ++
        [.clone (layout.floor (layout.rank (path ++ [index]) + 1)) (path ++ [index])] := by
  have hRank : layout.rank (path ++ [index + 1]) = layout.rank (path ++ [index]) := by
    refine List.countP_congr fun leaf hLeaf => ?_
    simp [Path.before_next, h.free leaf hLeaf]
  refine ⟨hRank, ?_⟩
  have hFilter := @Path.filter_before_append (path ++ [index]) (path ++ [index + 1])
    (layout.gap (layout.rank (path ++ [index]))) [path ++ [index]] (layout.gap_sorted _)
    (List.pairwise_singleton _ _) (fun x _ hx => (Path.before_next path x index).2 (.inl hx))
    (fun x => ?_)
  · rw [trail, trail, hRank, hFilter, List.map_append, List.append_assoc]
    rfl
  · rw [List.mem_singleton, Path.before_next]
    constructor
    · rintro rfl
      exact ⟨h.mem_gap, .inr List.prefix_rfl, Path.before_irrefl _⟩
    · rintro ⟨hx, hBefore | hInside, hNot⟩
      · exact absurd hBefore hNot
      · -- what is inside of a subtree off the paths has no leaf to be attached to
        obtain ⟨u, k, rfl, hAttached⟩ := ((mem_gap (rank_le _ _)).1 hx).1.attached
        rcases List.prefix_concat_iff.1 hInside with hSame | hInside
        · exact hSame.symm
        · rcases hAttached with rfl | ⟨leaf, hLeaf, hu, -⟩
          · simp at hInside
          · exact absurd (hInside.trans hu) (h.free leaf hLeaf)

/-! ### Elements with one leaf -/

/-- Whether a leaf is the only one in an element, with nothing behind it
there. -/
structure EndsAt (layout : Layout) (z : Path) (key : Nat) : Prop where
  pos : 1 ≤ key
  le_count : key ≤ layout.count
  inside : z <+: layout.path key
  sole : ∀ leaf ∈ layout.leaves, z <+: leaf → leaf = layout.path key
  before : ∀ x, layout.OffPath x → z <+: x → Path.Before x (layout.path key)

/-- What stands in front of the only leaf of an element and in it. -/
def lining (layout : Layout) (z : Path) (key : Nat) : List Path :=
  (layout.gap (key - 1)).filter fun x => z <+: x

/-- The visits past an element with one leaf that has no entry. -/
def bypass (layout : Layout) (z : Path) (key : Nat) : List Visit :=
  (layout.lining z key).map (.clone (layout.floor key)) ++
    [.pass (layout.floor key) ((layout.path key).take (layout.level key))]

/-- There is nothing off the paths in a leaf. -/
theorem not_prefix_of_offPath {leaf x : Path} (hLeaf : leaf ∈ layout.leaves)
    (h : layout.OffPath x) : ¬ leaf <+: x := by
  intro hInside
  obtain ⟨u, k, rfl, hAttached⟩ := h.attached
  rcases List.prefix_concat_iff.1 hInside with rfl | hInside
  · exact h.free _ hLeaf List.prefix_rfl
  · rcases hAttached with rfl | ⟨other, hOther, hu, hNe⟩
    · exact leaf_nonempty hLeaf (List.prefix_nil.1 hInside)
    · obtain rfl := eq_of_inside hLeaf hOther (hInside.trans hu)
      exact hNe (List.IsPrefix.eq_of_length_le hu hInside.length_le)

theorem EndsAt.leaf (hPos : 1 ≤ key) (hCount : key ≤ layout.count) :
    layout.EndsAt (layout.path key) key :=
  ⟨hPos, hCount, List.prefix_rfl,
    fun _ hOther hInside => (eq_of_inside (path_mem hPos hCount) hOther hInside).symm,
    fun _ hx hInside => absurd hInside (not_prefix_of_offPath (path_mem hPos hCount) hx)⟩

theorem lining_leaf (hPos : 1 ≤ key) (hCount : key ≤ layout.count) :
    layout.lining (layout.path key) key = [] := by
  refine List.filter_eq_nil_iff.2 fun x hx => ?_
  simpa using not_prefix_of_offPath (path_mem hPos hCount) ((mem_gap (by omega)).1 hx).1

namespace EndsAt

theorem before_iff (h : layout.EndsAt z key) {other : Nat} (hPos : 1 ≤ other)
    (hCount : other ≤ layout.count) : Path.Before (layout.path other) z ↔ other < key := by
  constructor
  · intro hBefore
    by_contra hNot
    have hBefore : Path.Before (layout.path other) (layout.path key) :=
      hBefore.extend List.prefix_rfl h.inside
    rcases Nat.eq_or_lt_of_le (Nat.le_of_not_lt hNot) with rfl | hLess
    · exact Path.before_irrefl _ hBefore
    · exact hBefore.asymm (path_before h.pos hLess hCount)
  · intro hLess
    have hBefore := path_before hPos hLess h.le_count
    rcases Path.trichotomy z (layout.path other) with hInside | hInside | hBehind | hFront
    · rw [h.sole _ (path_mem hPos hCount) hInside] at hBefore
      exact absurd hBefore (Path.before_irrefl _)
    · exact absurd hBefore (Path.not_before_inside (hInside.trans h.inside))
    · exact absurd (hBehind.extend h.inside List.prefix_rfl) hBefore.asymm
    · exact hFront

theorem rank_eq (h : layout.EndsAt z key) : layout.rank z = key - 1 := by
  have hPos := h.pos
  have hCount := h.le_count
  have hRank := layout.rank_le z
  refine Nat.le_antisymm ?_ ?_
  · by_contra hNot
    have := (h.before_iff (by omega) hRank).1 ((before_iff_le_rank (by omega) hRank).2 (Nat.le_refl _))
    omega
  · rcases Nat.eq_or_lt_of_le hPos with hFirst | hLater
    · omega
    · exact (before_iff_le_rank (by omega) (by omega)).1
        ((h.before_iff (by omega) (by omega)).2 (by omega))

theorem rank_next (h : layout.EndsAt (path ++ [index]) key) :
    layout.rank (path ++ [index + 1]) = key := by
  have hPos := h.pos
  have hCount := h.le_count
  have hRank := layout.rank_le (path ++ [index + 1])
  refine Nat.le_antisymm ?_ ?_
  · by_contra hNot
    have hBefore := (before_iff_le_rank (by omega) hRank).2 (Nat.le_refl _)
    rcases (Path.before_next _ _ _).1 hBefore with hBefore | hInside
    · have := (h.before_iff (by omega) hRank).1 hBefore
      omega
    · have hLater := @path_before layout key _ hPos (Nat.lt_of_not_le hNot) hRank
      rw [h.sole _ (path_mem (by omega) hRank) hInside] at hLater
      exact Path.before_irrefl _ hLater
  · exact (before_iff_le_rank hPos hCount).1 ((Path.before_next _ _ _).2 (.inr h.inside))

theorem gap_eq (h : layout.EndsAt z key) :
    layout.gap (key - 1) =
      (layout.gap (key - 1)).filter (Path.Before · z) ++ layout.lining z key := by
  have hCount := h.le_count
  have hGap : ∀ x, x ∈ layout.gap (key - 1) → layout.OffPath x ∧ Path.Before x (layout.path key) := by
    intro x hx
    obtain ⟨hOff, hRank⟩ := (mem_gap (by omega)).1 hx
    exact ⟨hOff, (hOff.before_iff_rank_lt h.pos hCount).2 (by have := h.pos; omega)⟩
  have hAll : (layout.gap (key - 1)).filter (Path.Before · (layout.path key)) =
      layout.gap (key - 1) :=
    List.filter_eq_self.2 fun x hx => by simpa using (hGap x hx).2
  refine hAll.symm.trans (Path.filter_before_append (layout.gap_sorted _)
    ((layout.gap_sorted _).filter _) (fun x hx _ => (hGap x hx).2) fun x => ?_)
  rw [lining, List.mem_filter, decide_eq_true_eq]
  constructor
  · rintro ⟨hx, hInside⟩
    exact ⟨hx, (hGap x hx).2, Path.not_inside_before hInside⟩
  · rintro ⟨hx, hBefore, hNot⟩
    refine ⟨hx, ?_⟩
    rcases Path.trichotomy z x with hInside | hInside | hBehind | hFront
    · exact hInside
    · exact absurd (hInside.trans h.inside) ((hGap x hx).1.free _ (path_mem h.pos hCount))
    · exact absurd (hBehind.extend h.inside List.prefix_rfl) hBefore.asymm
    · exact absurd hFront hNot

/-- The way to the only leaf of an element leads to the element and through what
stands in front of the leaf there. -/
theorem trail_lining (h : layout.EndsAt z key) (start : Nat) :
    layout.trail start z ++ (layout.lining z key).map (.clone (layout.floor key)) =
      layout.passingTo start key ++ (layout.gap (key - 1)).map (.clone (layout.floor key)) := by
  have hSucc : layout.rank z + 1 = key := by
    have := h.rank_eq
    have := h.pos
    omega
  rw [trail, hSucc, h.rank_eq, List.append_assoc, ← List.map_append, ← h.gap_eq]

/-- Behind the only leaf of an element the way goes by the leaf. -/
theorem trail_next (h : layout.EndsAt (path ++ [index]) key) (start : Nat) :
    layout.trail start (path ++ [index + 1]) = layout.passingTo start (key + 1) := by
  have hCount := h.le_count
  have hNone : (layout.gap key).filter (Path.Before · (path ++ [index + 1])) = [] := by
    refine List.filter_eq_nil_iff.2 fun x hx => ?_
    obtain ⟨hOff, hRank⟩ := (mem_gap hCount).1 hx
    have hBehind : Path.Before (layout.path key) x :=
      (before_iff_le_rank h.pos hCount).2 (Nat.le_of_eq hRank.symm)
    rw [decide_eq_true_eq, Path.before_next]
    rintro (hBefore | hInside)
    · exact hBehind.asymm (hBefore.extend List.prefix_rfl h.inside)
    · exact hBehind.asymm (h.before x hOff hInside)
  rw [trail, h.rank_next, hNone, List.map_nil, List.append_nil]

end EndsAt

/-! ### Tags -/

/-- Whether an element is the atom of a leaf and holds nothing else but
formatting properties in front of the leaf. -/
structure IsTag (layout : Layout) (atom : Path) (key : Nat) : Prop
    extends layout.EndsAt atom key where
  level : layout.level key = atom.length
  property : ∀ x, layout.OffPath x → atom <+: x →
    layout.format.isProperty (layout.root.descendant x).tag = true

/-- What is off the paths lies in one of the gaps. -/
theorem isTag_iff {atom : Path} :
    layout.IsTag atom key ↔
      (1 ≤ key ∧ key ≤ layout.count ∧ atom <+: layout.path key ∧
        ∀ leaf ∈ layout.leaves, atom <+: leaf → leaf = layout.path key) ∧
      layout.level key = atom.length ∧
      ∀ other ≤ layout.count, ∀ x ∈ layout.gap other, atom <+: x →
        Path.Before x (layout.path key) ∧
          layout.format.isProperty (layout.root.descendant x).tag = true := by
  constructor
  · intro h
    refine ⟨⟨h.pos, h.le_count, h.inside, h.sole⟩, h.level, fun other hOther x hx hInside => ?_⟩
    have hOff := ((mem_gap hOther).1 hx).1
    exact ⟨h.before x hOff hInside, h.property x hOff hInside⟩
  · rintro ⟨⟨hPos, hCount, hInside, hSole⟩, hLevel, hGaps⟩
    exact ⟨⟨hPos, hCount, hInside, hSole,
      fun x hx hBelow => (hGaps _ (rank_le _ x) x hx.mem_gap hBelow).1⟩, hLevel,
      fun x hx hBelow => (hGaps _ (rank_le _ x) x hx.mem_gap hBelow).2⟩

instance (layout : Layout) (atom : Path) (key : Nat) : Decidable (layout.IsTag atom key) :=
  decidable_of_iff _ isTag_iff.symm

namespace IsTag

variable {atom : Path}

theorem floor (h : layout.IsTag atom key) : layout.floor key = some atom.length := by
  rw [floor_eq h.pos h.le_count, h.level]

/-- An element around the atom of a leaf does not carry text. -/
theorem not_carries (h : layout.IsTag (path ++ [index]) key) : ¬ layout.Carries path := by
  intro hCarries
  have := level_le_of_carries h.pos h.le_count ((List.prefix_append _ _).trans h.inside) hCarries
  rw [h.level, List.length_append, List.length_singleton] at this
  omega

theorem bare_lining (h : layout.IsTag atom key) :
    ∀ visit ∈ (layout.lining atom key).map (Visit.clone (layout.floor key)),
      visit.IsBare layout atom := by
  intro visit hVisit
  obtain ⟨x, hx, rfl⟩ := List.mem_map.1 hVisit
  obtain ⟨hGap, hInside⟩ := List.mem_filter.1 hx
  have hInside : atom <+: x := by simpa using hInside
  have hOff := ((mem_gap (by have := h.le_count; omega)).1 hGap).1
  refine ⟨by simp [h.floor], ?_, h.property x hOff hInside⟩
  obtain ⟨rest, rfl⟩ := hInside
  refine ⟨rest, ?_, rfl⟩
  rintro rfl
  exact hOff.free _ (path_mem h.pos h.le_count) (by simpa using h.inside)

theorem bare_bypass (h : layout.IsTag atom key) :
    ∀ visit ∈ layout.bypass atom key, visit.IsBare layout atom := by
  intro visit hVisit
  rcases List.mem_append.1 hVisit with hVisit | hVisit
  · exact h.bare_lining visit hVisit
  · rw [List.mem_singleton.1 hVisit]
    refine ⟨by simp [h.floor], ?_⟩
    rw [h.level, List.prefix_take_iff]
    exact ⟨h.inside, Nat.le_refl _⟩

/-- Nothing follows a tag in its atom. -/
theorem trailingFrom_eq_nil (h : layout.IsTag atom key) {depth : Nat} (hDepth : atom.length ≤ depth) :
    Path.trailingFrom layout.root (layout.path key) depth = [] := by
  have hMem := path_mem h.pos h.le_count
  refine List.eq_nil_iff_forall_not_mem.2 fun x hx => ?_
  obtain ⟨hReaches, hBehind, u, i, rfl, hLength, hPrefix⟩ :=
    (Path.mem_trailingFrom (leaf_reaches hMem)).1 hx
  have hInside : atom <+: u := List.prefix_of_prefix_length_le h.inside hPrefix (hDepth.trans hLength)
  have hOff : layout.OffPath (u ++ [i]) := by
    refine ⟨hReaches, fun leaf hLeaf hAbove => ?_, u, i, rfl, .inr ⟨_, hMem, hPrefix, ?_⟩⟩
    · rw [h.sole leaf hLeaf ((hInside.trans (List.prefix_append _ _)).trans hAbove)] at hAbove
      exact Path.not_inside_before hAbove hBehind
    · rintro rfl
      exact Path.not_before_inside (List.prefix_append _ _) hBehind
  exact hBehind.asymm (h.before _ hOff (hInside.trans (List.prefix_append _ _)))

end IsTag

end Layout

end Infill
