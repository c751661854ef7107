import Infill.Proofs.Layout

/-!
The boundaries of a laid out document exist, and their routes select what
stands between the leaves.
-/
namespace Infill

open Infill.Xml

namespace Route

open Infill.Path

/-- The paths of the children that a route selects. -/
def paths (route : Route) : List Path :=
  siblings route.branch route.start route.stop

/-- The routes behind every step of a path below `w`, where they are known to
exist. -/
def behindAll (root : Element) (w : Path) : Path → List Route
  | [] => []
  | index :: path => behindAll root (w ++ [index]) path ++ [⟨w, index + 1, root.degree w⟩]

/-- Whether a tree has all the children that a route selects. -/
structure Fits (root : Element) (route : Route) : Prop where
  reaches : root.Reaches route.branch
  start_le : route.start ≤ route.stop
  stop_le : route.stop ≤ root.degree route.branch

theorem paths_of_isEmpty {route : Route} (h : route.isEmpty = true) : route.paths = [] :=
  siblings_eq_nil (by simpa [isEmpty] using h)

/-- Routes that select nothing may be left out. -/
theorem flatMap_paths_filter (routes : List Route) :
    (routes.filter (!·.isEmpty)).flatMap paths = routes.flatMap paths := by
  induction routes with
  | nil => rfl
  | cons route routes ih =>
    by_cases hEmpty : route.isEmpty = true
    · rw [List.filter_cons_of_neg (by simp [hEmpty]), ih, List.flatMap_cons,
        paths_of_isEmpty hEmpty, List.nil_append]
    · rw [List.filter_cons_of_pos (by simp [hEmpty]), List.flatMap_cons, List.flatMap_cons, ih]

theorem flatMap_paths_before (w p : Path) : (before w p).flatMap paths = leading w p := by
  induction p generalizing w with
  | nil => rfl
  | cons index p ih => rw [before, List.flatMap_cons, ih, leading, paths]

theorem flatMap_paths_behindAll (root : Element) (w p : Path) :
    (behindAll root w p).flatMap paths = trailing root w p := by
  induction p generalizing w with
  | nil => rfl
  | cons index p ih =>
    rw [behindAll, List.flatMap_append, ih, trailing, List.flatMap_cons, List.flatMap_nil,
      List.append_nil, paths]

theorem drop_before (w p : Path) (depth : Nat) :
    (before w p).drop depth = before (w ++ p.take depth) (p.drop depth) := by
  induction depth generalizing w p with
  | zero => simp
  | succ depth ih =>
    cases p with
    | nil => simp [before]
    | cons index p => simpa [before] using ih (w ++ [index]) p

theorem opening_eq (p : Path) (depth : Nat) :
    opening p depth = (before (p.take depth) (p.drop depth)).filter (!·.isEmpty) := by
  rw [opening, drop_before, List.nil_append]

/-- The siblings before a path, as its routes select them. -/
theorem flatMap_paths_opening (p : Path) (depth : Nat) :
    (opening p depth).flatMap paths = leadingFrom p depth := by
  rw [opening_eq, flatMap_paths_filter, flatMap_paths_before, leadingFrom]

theorem length_behindAll (root : Element) (w p : Path) : (behindAll root w p).length = p.length := by
  induction p generalizing w with
  | nil => rfl
  | cons index p ih => simp [behindAll, ih]

theorem take_behindAll (root : Element) (w p : Path) {depth : Nat} (h : depth ≤ p.length) :
    (behindAll root w p).take (p.length - depth) =
      behindAll root (w ++ p.take depth) (p.drop depth) := by
  induction depth generalizing w p with
  | zero => simp [← length_behindAll root w p]
  | succ depth ih =>
    cases p with
    | nil => simp at h
    | cons index p =>
      have hDepth : depth ≤ p.length := by simpa using h
      have hTake : (index :: p).length - (depth + 1) = p.length - depth := by simp
      rw [behindAll, hTake, List.take_append_of_le_length
        (by rw [length_behindAll]; exact Nat.sub_le _ _), ih (w ++ [index]) p hDepth]
      simp

theorem fits_of_mem_behindAll {root : Element} {w p : Path} (h : root.Reaches (w ++ p))
    {route : Route} (hRoute : route ∈ behindAll root w p) : route.Fits root := by
  induction p generalizing w with
  | nil => cases hRoute
  | cons index p ih =>
    have hChild : root.Reaches (w ++ [index] ++ p) := by simpa using h
    rcases List.mem_append.1 hRoute with hInner | hHere
    · exact ih hChild hInner
    · obtain rfl := List.mem_singleton.1 hHere
      obtain ⟨hBranch, hDegree⟩ := Element.reaches_concat.1 hChild.of_append
      exact ⟨hBranch, hDegree, Nat.le_refl _⟩

theorem fits_of_mem_before {root : Element} {w p : Path} (h : root.Reaches (w ++ p))
    {route : Route} (hRoute : route ∈ before w p) : route.Fits root := by
  induction p generalizing w with
  | nil => cases hRoute
  | cons index p ih =>
    have hChild : root.Reaches (w ++ [index] ++ p) := by simpa using h
    rcases List.mem_cons.1 hRoute with rfl | hInner
    · obtain ⟨hBranch, hDegree⟩ := Element.reaches_concat.1 hChild.of_append
      exact ⟨hBranch, Nat.zero_le _, Nat.le_of_lt hDegree⟩
    · exact ih hChild hInner

/-- The siblings behind a path that stays in the tree are found. -/
theorem behind_eq {root : Element} {w p : Path} (h : root.Reaches (w ++ p)) :
    behind (root.descendant w) w p = .ok (behindAll root w p) := by
  induction p generalizing w with
  | nil => rfl
  | cons index p ih =>
    cases p with
    | nil => rfl
    | cons next p =>
      have hBranch : root.Reaches (w ++ [index] ++ next :: p) := by simpa using h
      rw [behind, hBranch.of_append.child]
      show (do return (← behind _ (w ++ [index]) (next :: p)) ++ _) = _
      rw [ih hBranch]
      rfl
      intro hNil
      simp at hNil

/-- The routes behind a path that stays in the tree are those of its levels. -/
theorem ending_eq {root : Element} {p : Path} (h : root.Reaches p) (depth : Nat) :
    ending root p depth =
      .ok ((behindAll root (p.take depth) (p.drop depth)).filter (!·.isEmpty)) := by
  rw [ending]
  split
  · rename_i hDepth
    have hBehind : behind root [] p = .ok (behindAll root [] p) := @behind_eq root [] p h
    rw [hBehind, ok_bind, take_behindAll root [] p (Nat.le_of_lt hDepth), List.nil_append]
    rfl
  · rename_i hDepth
    rw [List.drop_eq_nil_of_le (by omega)]
    rfl

/-- The siblings behind a path, as its routes select them. -/
theorem exists_ending {root : Element} {p : Path} (h : root.Reaches p) (depth : Nat) :
    ∃ routes, ending root p depth = .ok routes ∧
      routes.flatMap paths = trailingFrom root p depth := by
  refine ⟨_, ending_eq h depth, ?_⟩
  rw [flatMap_paths_filter, flatMap_paths_behindAll, trailingFrom]

end Route

namespace Boundary

/-- Whether the routes of a boundary select what lies between two leaves. -/
structure Selects (root : Element) (previous next : Option Path) (boundary : Boundary) : Prop where
  ending : boundary.ending.flatMap Route.paths = Path.ending root previous next
  entering :
    (boundary.gap :: boundary.opening).flatMap Route.paths = Path.entering root previous next

variable {root : Element} {p q : Path}

theorem selects_first (hNonempty : q ≠ []) : Selects root none (some q) (first q) := by
  obtain ⟨index, rest, rfl⟩ := List.exists_cons_of_ne_nil hNonempty
  refine ⟨rfl, ?_⟩
  rw [first, List.flatMap_cons, Route.flatMap_paths_opening]
  rfl

theorem between_selects (hBoth : Path.Before p q) (hReaches : root.Reaches p) :
    ∃ boundary, between root p q = .ok boundary ∧ Selects root (some p) (some q) boundary := by
  obtain ⟨w, i, j, r, s, hij, rfl, rfl⟩ := (Path.before_iff_fork p q).1 hBoth
  have hShared := Path.sharedLength_fork w (Nat.ne_of_lt hij) r s
  obtain ⟨routes, hRoutes, hPaths⟩ := Route.exists_ending hReaches (w.length + 1)
  refine ⟨⟨routes, ⟨w, i + 1, j⟩, Route.opening (w ++ j :: s) (w.length + 1)⟩, ?_, ?_, ?_⟩
  · simp only [between, hShared, List.getElem?_append_right (Nat.le_refl _), Nat.sub_self,
      List.getElem?_cons_zero, hRoutes, List.take_left]
    rfl
  · rw [hPaths, Path.ending, hShared]
  · rw [List.flatMap_cons, Route.flatMap_paths_opening, Path.entering, hShared]
    simp [Route.paths]

theorem last_selects {previous : Option Path} (hNonempty : ∀ p ∈ previous, p ≠ [])
    (hReaches : ∀ p ∈ previous, root.Reaches p) :
    ∃ boundary, last root previous = .ok boundary ∧ Selects root previous none boundary := by
  cases previous with
  | none => exact ⟨_, rfl, rfl, by simp [Route.paths, Path.entering, Element.degree]⟩
  | some p =>
    obtain ⟨routes, hRoutes, hPaths⟩ := Route.exists_ending (hReaches p rfl) 1
    refine ⟨⟨routes, ⟨[], p.headD 0 + 1, root.children.length⟩, []⟩, ?_, ?_, ?_⟩
    · rw [last, hRoutes]
      rfl
    · rw [hPaths, Path.ending]
    · simp [Route.paths, Path.entering, Element.degree]

/-- The boundary between two leaves that follow each other, in front of the first
or behind the last. -/
def linking (root : Element) : (previous next : Option Path) → Except Error Boundary
  | some p, some q => between root p q
  | none, some q => .ok (.first q)
  | previous, none => last root previous

@[simp] theorem linking_none (root : Element) (previous : Option Path) :
    linking root previous none = last root previous := by
  cases previous <;> rfl

/-- The boundary between two leaves exists and selects what lies between them. -/
theorem linking_selects {previous next : Option Path}
    (hPrevious : ∀ p ∈ previous, p ≠ [] ∧ root.Reaches p) (hNext : ∀ q ∈ next, q ≠ [])
    (hBoth : ∀ p ∈ previous, ∀ q ∈ next, Path.Before p q) :
    ∃ boundary, linking root previous next = .ok boundary ∧ Selects root previous next boundary := by
  cases next with
  | none =>
    rw [linking_none]
    exact last_selects (fun p hp => (hPrevious p hp).1) fun p hp => (hPrevious p hp).2
  | some q =>
    cases previous with
    | none => exact ⟨_, rfl, selects_first (hNext q rfl)⟩
    | some p => exact between_selects (hBoth p rfl q rfl) (hPrevious p rfl).2

/-- Whether a boundary begins behind a leaf below the branch of its gap, or in front
of the document. -/
def Departs (root : Element) (boundary : Boundary) : (previous : Option Path) → Prop
  | none => boundary.gap.branch = [] ∧ boundary.gap.start = 0 ∧ boundary.ending = []
  | some p => ∃ i r, p = boundary.gap.branch ++ i :: r ∧ boundary.gap.start = i + 1 ∧
      boundary.ending =
        (Route.behindAll root (boundary.gap.branch ++ [i]) r).filter (!·.isEmpty)

/-- Whether a boundary ends in front of a leaf below the branch of its gap, or
behind the document. -/
def Arrives (root : Element) (boundary : Boundary) : (next : Option Path) → Prop
  | none => boundary.gap.branch = [] ∧ boundary.gap.stop = root.degree [] ∧ boundary.opening = []
  | some q => ∃ j s, q = boundary.gap.branch ++ j :: s ∧ boundary.gap.stop = j ∧
      boundary.opening = (Route.before (boundary.gap.branch ++ [j]) s).filter (!·.isEmpty)

/-- What a boundary holds, by the element where its leaves part and the children
of it between them. -/
structure Spans (root : Element) (previous next : Option Path) (boundary : Boundary) : Prop where
  fits : boundary.gap.Fits root
  departs : boundary.Departs root previous
  arrives : boundary.Arrives root next

/-- Every route of a boundary fits the tree. -/
theorem Spans.fits_of_mem {previous next : Option Path} {boundary : Boundary}
    (h : Spans root previous next boundary) (hPrevious : ∀ p ∈ previous, root.Reaches p)
    (hNext : ∀ q ∈ next, root.Reaches q) {route : Route} (hRoute : route ∈ boundary.routes) :
    route.Fits root := by
  obtain ⟨hFits, hDeparts, hArrives⟩ := h
  rcases List.mem_append.1 hRoute with hEnding | hRest
  · cases previous with
    | none =>
      rw [hDeparts.2.2] at hEnding
      cases hEnding
    | some p =>
      obtain ⟨i, r, rfl, -, hRoutes⟩ := hDeparts
      have hPlace : root.Reaches (boundary.gap.branch ++ [i] ++ r) := by
        simpa using hPrevious _ rfl
      rw [hRoutes] at hEnding
      exact Route.fits_of_mem_behindAll hPlace (List.mem_of_mem_filter hEnding)
  rcases List.mem_cons.1 hRest with rfl | hOpening
  · exact hFits
  · cases next with
    | none =>
      rw [hArrives.2.2] at hOpening
      cases hOpening
    | some q =>
      obtain ⟨j, s, rfl, -, hRoutes⟩ := hArrives
      have hPlace : root.Reaches (boundary.gap.branch ++ [j] ++ s) := by
        simpa using hNext _ rfl
      rw [hRoutes] at hOpening
      exact Route.fits_of_mem_before hPlace (List.mem_of_mem_filter hOpening)

private theorem between_spans (hBoth : Path.Before p q) (hp : root.Reaches p) (hq : root.Reaches q) :
    ∃ boundary, between root p q = .ok boundary ∧ Spans root (some p) (some q) boundary := by
  obtain ⟨w, i, j, r, s, hij, rfl, rfl⟩ := (Path.before_iff_fork p q).1 hBoth
  have hShared := Path.sharedLength_fork w (Nat.ne_of_lt hij) r s
  have hEntering : root.Reaches (w ++ [j]) := hq.above ⟨s, by simp⟩
  obtain ⟨hBranch, hDegree⟩ := Element.reaches_concat.1 hEntering
  refine ⟨⟨(Route.behindAll root (w ++ [i]) r).filter (!·.isEmpty), ⟨w, i + 1, j⟩,
    (Route.before (w ++ [j]) s).filter (!·.isEmpty)⟩, ?_, ⟨hBranch, hij, Nat.le_of_lt hDegree⟩,
    ⟨i, r, rfl, rfl, rfl⟩, j, s, rfl, rfl, rfl⟩
  simp only [between, hShared, List.getElem?_append_right (Nat.le_refl _), Nat.sub_self,
    List.getElem?_cons_zero, Route.ending_eq hp, Route.opening_eq, List.take_left,
    List.take_length_add_append, List.drop_length_add_append]
  rfl

private theorem first_spans (hNonempty : q ≠ []) (hq : root.Reaches q) :
    Spans root none (some q) (first q) := by
  obtain ⟨j, s, rfl⟩ := List.exists_cons_of_ne_nil hNonempty
  obtain ⟨hBranch, hDegree⟩ := @Element.reaches_concat root [] j |>.1 (hq.above ⟨s, rfl⟩)
  rw [first, Route.opening_eq]
  exact ⟨⟨hBranch, Nat.zero_le j, Nat.le_of_lt hDegree⟩, ⟨rfl, rfl, rfl⟩, j, s, rfl, rfl, rfl⟩

private theorem last_spans (hNonempty : p ≠ []) (hp : root.Reaches p) :
    ∃ boundary, last root (some p) = .ok boundary ∧ Spans root (some p) none boundary := by
  obtain ⟨i, r, rfl⟩ := List.exists_cons_of_ne_nil hNonempty
  obtain ⟨hBranch, hDegree⟩ := @Element.reaches_concat root [] i |>.1 (hp.above ⟨r, rfl⟩)
  refine ⟨⟨(Route.behindAll root [i] r).filter (!·.isEmpty), ⟨[], i + 1, root.degree []⟩, []⟩, ?_,
    ⟨hBranch, hDegree, Nat.le_refl _⟩, ⟨i, r, rfl, rfl, rfl⟩, rfl, rfl, rfl⟩
  rw [last, Route.ending_eq hp]
  rfl

theorem linking_spans {previous next : Option Path}
    (hPrevious : ∀ p ∈ previous, p ≠ [] ∧ root.Reaches p)
    (hNext : ∀ q ∈ next, q ≠ [] ∧ root.Reaches q)
    (hBoth : ∀ p ∈ previous, ∀ q ∈ next, Path.Before p q) :
    ∃ boundary, linking root previous next = .ok boundary ∧ Spans root previous next boundary := by
  cases previous with
  | none =>
    cases next with
    | none => exact ⟨_, rfl, ⟨rfl, Nat.zero_le _, Nat.le_refl _⟩, ⟨rfl, rfl, rfl⟩, rfl, rfl, rfl⟩
    | some q => exact ⟨_, rfl, first_spans (hNext q rfl).1 (hNext q rfl).2⟩
  | some p =>
    cases next with
    | none => exact last_spans (hPrevious p rfl).1 (hPrevious p rfl).2
    | some q => exact between_spans (hBoth p rfl q rfl) (hPrevious p rfl).2 (hNext q rfl).2

end Boundary

namespace Ascending

variable {α : Type}

/-- Values under the numbers from one on. -/
def numbered (values : List α) : Ascending α :=
  (List.range' 1 values.length).zip values

theorem lookup_zip_range' (values : List α) (start i : Nat) :
    ((List.range' start values.length).zip values).lookup (start + i) = values[i]? := by
  induction values generalizing start i with
  | nil => simp
  | cons value values ih =>
    rw [List.length_cons, List.range'_succ, List.zip_cons_cons, lookup_cons]
    cases i with
    | zero => simp
    | succ i =>
      rw [if_neg (by omega)]
      simpa [Nat.add_assoc, Nat.add_comm 1 i] using ih (start + 1) i

@[simp] theorem length_numbered (values : List α) : (numbered values).length = values.length := by
  simp [numbered]

@[simp] theorem map_snd_numbered (values : List α) : (numbered values).map Prod.snd = values :=
  List.map_snd_zip (by simp)

theorem lookup_numbered (values : List α) (i : Nat) :
    (numbered values).lookup (i + 1) = values[i]? := by
  rw [numbered, Nat.add_comm, lookup_zip_range']

end Ascending

namespace Boundaries

variable {root : Element} {leaves : List Path}

/-- The leaf in front of the one at an index of `leaves`, which `previous`
precedes. -/
def precursor (previous : Option Path) (leaves : List Path) : Nat → Option Path
  | 0 => previous
  | i + 1 => leaves[i]?

theorem mem_precursor {p : Path} {i : Nat} (h : p ∈ precursor none leaves i) : p ∈ leaves := by
  cases i with
  | zero => cases h
  | succ i => exact List.mem_of_getElem? h

/-- A leaf stands behind the one in front of it. -/
theorem before_of_mem_precursor (hOrdered : leaves.Pairwise Path.Before) {p q : Path} {i : Nat}
    (hp : p ∈ precursor none leaves i) (hq : q ∈ leaves[i]?) : Path.Before p q := by
  cases i with
  | zero => cases hp
  | succ i =>
    obtain ⟨hi, rfl⟩ := List.getElem?_eq_some_iff.1 hp
    obtain ⟨hNext, rfl⟩ := List.getElem?_eq_some_iff.1 hq
    exact List.pairwise_iff_getElem.1 hOrdered i (i + 1) hi hNext (Nat.lt_succ_self i)

/-- Every boundary that leads to a leaf is found under its number. -/
private theorem exists_leading (leaves : List Path) (previous : Option Path)
    (start : Nat) (hOrdered : leaves.Pairwise Path.Before)
    (hPlaces : ∀ leaf ∈ leaves, leaf ≠ [] ∧ root.Reaches leaf)
    (hPrevious : ∀ p ∈ previous, p ≠ [] ∧ root.Reaches p)
    (hBoth : ∀ p ∈ previous, ∀ leaf ∈ leaves, Path.Before p leaf) :
    ∃ entries, leading root previous ((List.range' start leaves.length).zip leaves) = .ok entries ∧
      ∀ i leaf, leaves[i]? = some leaf → ∃ boundary, entries.lookup (start + i) = some boundary ∧
        Boundary.linking root (precursor previous leaves i) (some leaf) = .ok boundary := by
  induction leaves generalizing previous start with
  | nil => exact ⟨[], rfl, by simp⟩
  | cons leaf leaves ih =>
    obtain ⟨hFirst, hRest⟩ := List.pairwise_cons.1 hOrdered
    have hPlace := hPlaces leaf List.mem_cons_self
    obtain ⟨entries, hEntries, hLookup⟩ := ih (some leaf) (start + 1) hRest
      (fun other hOther => hPlaces other (List.mem_cons_of_mem leaf hOther))
      (by rintro _ ⟨⟩; exact hPlace) (by rintro _ ⟨⟩; exact hFirst)
    obtain ⟨boundary, hBoundary, -⟩ := @Boundary.linking_selects root previous (some leaf) hPrevious
      (by rintro _ ⟨⟩; exact hPlace.1)
      (by rintro p hp _ ⟨⟩; exact hBoth p hp leaf List.mem_cons_self)
    refine ⟨(start, boundary) :: entries, ?_, fun i found hFound => ?_⟩
    · rw [List.length_cons, List.range'_succ, List.zip_cons_cons, leading, if_neg hPlace.1, hEntries]
      cases previous with
      | none =>
        obtain rfl := Except.ok.inj hBoundary
        rfl
      | some p =>
        rw [Boundary.linking] at hBoundary
        simp only [hBoundary]
        rfl
    · rw [Ascending.lookup_cons]
      cases i with
      | zero =>
        obtain rfl : leaf = found := by simpa using hFound
        exact ⟨boundary, by simp, hBoundary⟩
      | succ i =>
        rw [if_neg (by omega)]
        obtain ⟨boundary, hBoundary, hLinking⟩ := hLookup i found (by simpa using hFound)
        refine ⟨boundary, by rwa [← Nat.add_assoc, Nat.add_right_comm], ?_⟩
        cases i with
        | zero => exact hLinking
        | succ i => exact hLinking

/-- Whether boundaries are those of leaves. -/
structure Links (root : Element) (leaves : List Path) (boundaries : Boundaries) : Prop where
  leaves_eq : boundaries.leaves = Ascending.numbered leaves
  get : ∀ i ≤ leaves.length, ∃ boundary, boundaries.get (i + 1) = .ok boundary ∧
    Boundary.linking root (precursor none leaves i) leaves[i]? = .ok boundary

section

variable {boundaries : Boundaries} (hLinks : Links root leaves boundaries)
  (hOrdered : leaves.Pairwise Path.Before)
  (hPlaces : ∀ leaf ∈ leaves, leaf ≠ [] ∧ root.Reaches leaf)
include hLinks hOrdered hPlaces

/-- Every boundary spans what is between the leaves around it and selects it. -/
theorem Links.get_spans {i : Nat} (hi : i ≤ leaves.length) :
    ∃ boundary, boundaries.get (i + 1) = .ok boundary ∧
      boundary.Spans root (precursor none leaves i) leaves[i]? ∧
      boundary.Selects root (precursor none leaves i) leaves[i]? := by
  obtain ⟨boundary, hGet, hLinking⟩ := hLinks.get i hi
  have hPrevious : ∀ p ∈ precursor none leaves i, p ≠ [] ∧ root.Reaches p :=
    fun p hp => hPlaces p (mem_precursor hp)
  have hNext : ∀ q ∈ leaves[i]?, q ≠ [] ∧ root.Reaches q :=
    fun q hq => hPlaces q (List.mem_of_getElem? hq)
  have hBoth : ∀ p ∈ precursor none leaves i, ∀ q ∈ leaves[i]?, Path.Before p q :=
    fun p hp q hq => before_of_mem_precursor hOrdered hp hq
  obtain ⟨_, hSame, hSpans⟩ := Boundary.linking_spans hPrevious hNext hBoth
  obtain rfl := Except.ok.inj (hSame.symm.trans hLinking)
  obtain ⟨_, hSame, hSelects⟩ :=
    Boundary.linking_selects hPrevious (fun q hq => (hNext q hq).1) hBoth
  obtain rfl := Except.ok.inj (hSame.symm.trans hLinking)
  exact ⟨_, hGet, hSpans, hSelects⟩

end

/-- The boundaries of leaves in document order are found. -/
theorem exists_links {line : Line} (hOrdered : leaves.Pairwise Path.Before)
    (hPlaces : ∀ leaf ∈ leaves, leaf ≠ [] ∧ root.Reaches leaf)
    (hLine : leavesOf line = Ascending.numbered leaves) :
    ∃ boundaries, ofLine root line = .ok boundaries ∧ Links root leaves boundaries := by
  obtain ⟨entries, hEntries, hLookup⟩ := exists_leading leaves none 1 hOrdered hPlaces
    (by simp) (by simp)
  have hLast : (Ascending.numbered leaves).getLast?.map Prod.snd =
      precursor none leaves leaves.length := by
    rw [← List.getLast?_map, Ascending.map_snd_numbered]
    cases hCount : leaves.length with
    | zero => simpa [precursor] using hCount
    | succ n => rw [List.getLast?_eq_getElem?, hCount]; rfl
  obtain ⟨closing, hClosing, -⟩ := @Boundary.linking_selects root
    (precursor none leaves leaves.length) none (fun p hp => hPlaces p (mem_precursor hp))
    (by simp) (by simp)
  refine ⟨⟨entries.insert (leaves.length + 1) closing, Ascending.numbered leaves⟩, ?_, rfl, ?_⟩
  · have hLead : leading root none (Ascending.numbered leaves) = .ok entries := hEntries
    rw [Boundary.linking_none] at hClosing
    rw [ofLine, hLine, hLast, Ascending.length_numbered, hLead, ok_bind, hClosing]
    rfl
  · intro i hi
    simp only [get, Ascending.lookup_insert]
    rcases Nat.eq_or_lt_of_le hi with rfl | hLess
    · refine ⟨closing, by rw [if_pos rfl], ?_⟩
      rwa [List.getElem?_eq_none (Nat.le_refl _)]
    · have hLeaf := List.getElem?_eq_getElem hLess
      obtain ⟨boundary, hBoundary, hLinking⟩ := hLookup i _ hLeaf
      refine ⟨boundary, ?_, by rwa [hLeaf]⟩
      rw [if_neg (by omega), Nat.add_comm i 1, hBoundary]

end Boundaries

namespace Layout

/-- The leaves under their numbers. -/
def numbered (layout : Layout) : Ascending Path :=
  Ascending.numbered layout.leaves

/-- What the boundaries of a laid out document answer. -/
structure Charted (layout : Layout) (boundaries : Boundaries) : Prop where
  last : boundaries.last = layout.count + 1
  leaf : ∀ index, 1 ≤ index → index ≤ layout.count →
    boundaries.leaf index = .ok (layout.path index)
  get : ∀ index ≤ layout.count, ∃ boundary, boundaries.get (index + 1) = .ok boundary ∧
    boundary.Selects layout.root (layout.leaf? index) (layout.leaf? (index + 1))

/-- The boundaries of a laid out document are found. -/
theorem exists_charted (layout : Layout) {line : Line}
    (hLine : Boundaries.leavesOf line = layout.numbered) :
    ∃ boundaries, Boundaries.ofLine layout.root line = .ok boundaries ∧
      layout.Charted boundaries := by
  have hPlaces : ∀ leaf ∈ layout.leaves, leaf ≠ [] ∧ layout.root.Reaches leaf :=
    fun leaf hLeaf => ⟨leaf_nonempty hLeaf, leaf_reaches hLeaf⟩
  obtain ⟨boundaries, hOk, hLinks⟩ := Boundaries.exists_links layout.ordered hPlaces hLine
  refine ⟨boundaries, hOk, ?_, fun index hPos hCount => ?_, fun index hIndex => ?_⟩
  · rw [Boundaries.last, hLinks.leaves_eq, Ascending.length_numbered, count]
  · obtain ⟨index, rfl⟩ := Nat.exists_eq_add_of_le' hPos
    simp only [Boundaries.leaf, hLinks.leaves_eq]
    rw [Ascending.lookup_numbered, show layout.leaves[index]? = some (layout.path (index + 1)) from
      leaf?_eq_path hPos hCount]
  · obtain ⟨boundary, hGet, -, hSelects⟩ := hLinks.get_spans layout.ordered hPlaces hIndex
    have hPrevious : Boundaries.precursor none layout.leaves index = layout.leaf? index := by
      cases index <;> rfl
    rw [hPrevious] at hSelects
    exact ⟨boundary, hGet, hSelects⟩

end Layout

end Infill
