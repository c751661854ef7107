import Infill.Proofs.KeptPieces

/-!
Visits by the elements that they go to. Visits that never go back to begin
another pass open an element for those of them that follow each other below it,
and close it behind the last one. So what they leave behind can be told without
a desk, element by element.
-/
namespace Infill

open Infill.Xml

/-- A part of the visits below an element. -/
inductive Nest
  /-- A visit that lays its piece down right there. -/
  | here (visit : Visit)
  /-- Visits below the child at `index`. -/
  | child (index : Nat) (nests : List Nest)
  deriving Inhabited

namespace Nest

mutual

/-- The visits of a part, in order. -/
def visits : Nest → List Visit
  | here visit => [visit]
  | child _ nests => visitsOf nests

/-- The visits of parts that follow each other. -/
def visitsOf : List Nest → List Visit
  | [] => []
  | nest :: nests => visits nest ++ visitsOf nests

end

/-- The child that a part goes to. -/
def step? : Nest → Option Nat
  | here _ => none
  | child index _ => some index

mutual

/-- Whether a part stands for visits below the element at a path. -/
def IsAt (path : Path) : Nest → Prop
  | here visit => visit.branch? = some path
  | child index nests => nests ≠ [] ∧ AreAt (path ++ [index]) nests

/-- Whether parts stand for visits below the element at a path, no two of them
that follow each other for visits to the same child. -/
def AreAt (path : Path) : List Nest → Prop
  | [] => True
  | nest :: nests =>
    IsAt path nest ∧ (∀ index ∈ nest.step?, nests.head?.bind step? ≠ some index) ∧
      AreAt path nests

end

/-- Add a visit in front of others. It goes on below by `rest`. -/
def insert (visit : Visit) : (rest : Path) → List Nest → List Nest
  | [], nests => here visit :: nests
  | index :: rest, child key kids :: nests =>
    if key = index then child key (insert visit rest kids) :: nests
    else child index (insert visit rest []) :: child key kids :: nests
  | index :: rest, nests => child index (insert visit rest []) :: nests

/-- The parts of visits below an element of some depth. -/
def group (depth : Nat) (visits : List Visit) : List Nest :=
  visits.foldr (fun visit nests => insert visit ((visit.branch?.getD []).drop depth) nests) []

theorem group_cons (depth : Nat) (visit : Visit) (visits : List Visit) :
    group depth (visit :: visits) =
      insert visit ((visit.branch?.getD []).drop depth) (group depth visits) := rfl

variable {path rest : Path} {visit : Visit} {nests more : List Nest} {index key : Nat}

theorem insert_same {kids : List Nest} :
    insert visit (index :: rest) (child index kids :: nests) =
      child index (insert visit rest kids) :: nests := by
  rw [insert, if_pos rfl]

theorem insert_other (h : nests.head?.bind step? ≠ some index) :
    insert visit (index :: rest) nests = child index (insert visit rest []) :: nests := by
  cases nests with
  | nil => rfl
  | cons nest nests =>
    cases nest with
    | here other => rfl
    | child key kids =>
      rw [insert, if_neg]
      rintro rfl
      exact h rfl

/-- A visit goes to the child that the first part goes to, or in front. -/
theorem insert_cases (visit : Visit) (index : Nat) (rest : Path) (nests : List Nest) :
    (∃ kids others, nests = child index kids :: others ∧
      insert visit (index :: rest) nests = child index (insert visit rest kids) :: others) ∨
    (nests.head?.bind step? ≠ some index ∧
      insert visit (index :: rest) nests = child index (insert visit rest []) :: nests) := by
  by_cases h : nests.head?.bind step? = some index
  · left
    cases nests with
    | nil => cases h
    | cons nest nests =>
      cases nest with
      | here other => cases h
      | child key kids =>
        obtain rfl : key = index := Option.some.inj h
        exact ⟨kids, nests, rfl, insert_same⟩
  · exact .inr ⟨h, insert_other h⟩

theorem visitsOf_insert (visit : Visit) (rest : Path) (nests : List Nest) :
    visitsOf (insert visit rest nests) = visit :: visitsOf nests := by
  induction rest generalizing nests with
  | nil => rfl
  | cons index rest ih =>
    rcases insert_cases visit index rest nests with ⟨kids, others, rfl, hInsert⟩ | ⟨-, hInsert⟩
    · rw [hInsert, visitsOf, visits, ih]
      rfl
    · rw [hInsert, visitsOf, visits, ih]
      rfl

theorem step_insert (visit : Visit) (rest : Path) (nests : List Nest) :
    (insert visit rest nests).head?.bind step? = rest.head? := by
  cases rest with
  | nil => rfl
  | cons index rest =>
    rcases insert_cases visit index rest nests with ⟨kids, others, rfl, hInsert⟩ | ⟨-, hInsert⟩
    · rw [hInsert]
      rfl
    · rw [hInsert]
      rfl

theorem insert_ne_nil (visit : Visit) (rest : Path) (nests : List Nest) :
    insert visit rest nests ≠ [] := by
  intro hNil
  have hVisits := visitsOf_insert visit rest nests
  rw [hNil] at hVisits
  cases hVisits

theorem insert_append (visit : Visit) (rest : Path) (hSome : nests ≠ []) :
    insert visit rest (nests ++ more) = insert visit rest nests ++ more := by
  cases rest with
  | nil => rfl
  | cons index rest =>
    cases nests with
    | nil => exact absurd rfl hSome
    | cons nest nests =>
      cases nest with
      | here other => rfl
      | child key kids =>
        rw [List.cons_append, insert, insert]
        split
        · rfl
        · rfl

theorem areAt_insert (hVisit : visit.branch? = some (path ++ rest)) (h : AreAt path nests) :
    AreAt path (insert visit rest nests) := by
  induction rest generalizing path nests with
  | nil =>
    rw [List.append_nil] at hVisit
    exact ⟨hVisit, by simp [step?], h⟩
  | cons index rest ih =>
    have hBranch : visit.branch? = some (path ++ [index] ++ rest) := by
      rw [hVisit, List.append_assoc, List.singleton_append]
    rcases insert_cases visit index rest nests with ⟨kids, others, rfl, hInsert⟩ | ⟨hOther, hInsert⟩
    · obtain ⟨⟨-, hKids⟩, hApart, hOthers⟩ := h
      rw [hInsert]
      exact ⟨⟨insert_ne_nil _ _ _, ih hBranch hKids⟩, hApart, hOthers⟩
    · rw [hInsert]
      refine ⟨⟨insert_ne_nil _ _ _, ih hBranch trivial⟩, ?_, h⟩
      rintro _ ⟨⟩
      exact hOther

theorem visitsOf_group (depth : Nat) (visits : List Visit) : visitsOf (group depth visits) = visits := by
  induction visits with
  | nil => rfl
  | cons visit visits ih => rw [group_cons, visitsOf_insert, ih]

end Nest

namespace Visit

/-- Whether a visit goes to an element or below it. -/
def Opens (path : Path) (visit : Visit) : Prop :=
  ∃ branch, visit.branch? = some branch ∧ path <+: branch

instance (path : Path) (visit : Visit) : Decidable (visit.Opens path) :=
  match h : visit.branch? with
  | some branch => decidable_of_iff (path <+: branch) ⟨fun hPath => ⟨branch, h, hPath⟩,
      fun ⟨other, hOther, hPath⟩ => Option.some.inj (h.symm.trans hOther) ▸ hPath⟩
  | none => .isFalse fun ⟨_, hBranch, _⟩ => by rw [h] at hBranch; cases hBranch

theorem Opens.upward {path front : Path} {visit : Visit} (h : visit.Opens path)
    (hFront : front <+: path) : visit.Opens front := by
  obtain ⟨branch, hBranch, hPath⟩ := h
  exact ⟨branch, hBranch, hFront.trans hPath⟩

/-- The child of the element at a depth that a visit goes to. -/
def step (depth : Nat) (visit : Visit) : Option Nat :=
  ((visit.branch?.getD []).drop depth).head?

/-- A visit below an element goes to the child that it opens. -/
theorem step_eq_some {path : Path} {visit : Visit} {index : Nat} (h : visit.Opens path) :
    visit.step path.length = some index ↔ visit.Opens (path ++ [index]) := by
  obtain ⟨branch, hBranch, rest, rfl⟩ := h
  rw [step, hBranch, Option.getD_some, List.drop_left]
  constructor
  · intro hHead
    obtain ⟨more, rfl⟩ := List.head?_eq_some_iff.1 hHead
    exact ⟨_, hBranch, more, by simp⟩
  · rintro ⟨other, hOther, more, rfl⟩
    obtain rfl : rest = index :: more := by
      simpa using Option.some.inj (hBranch.symm.trans hOther)
    rfl

/-- Visits below an element leave a desk below it. -/
theorem chain_run_opens (layout : Layout) {path : Path} {visits : List Visit} (desk : Desk)
    (hVisits : ∀ visit ∈ visits, visit.Opens path) (hSome : visits ≠ []) :
    path <+: (run layout visits desk).chain := by
  induction visits generalizing desk with
  | nil => exact absurd rfl hSome
  | cons visit visits ih =>
    obtain ⟨branch, hBranch, hPath⟩ := hVisits visit List.mem_cons_self
    cases visits with
    | nil =>
      rw [run_cons, run_nil, chain_exec hBranch]
      exact hPath
    | cons next visits =>
      exact ih _ (fun other hOther => hVisits other (List.mem_cons_of_mem _ hOther))
        (List.cons_ne_nil _ _)

end Visit

namespace Nest

variable {path : Path} {index : Nat}

theorem group_ne_nil (depth : Nat) {visits : List Visit} (h : visits ≠ []) :
    group depth visits ≠ [] := by
  intro hNil
  apply h
  rw [← visitsOf_group depth visits, hNil]
  rfl

theorem areAt_group {visits : List Visit} (h : ∀ visit ∈ visits, visit.Opens path) :
    AreAt path (group path.length visits) := by
  induction visits with
  | nil => trivial
  | cons visit visits ih =>
    obtain ⟨branch, hBranch, rest, rfl⟩ := h visit List.mem_cons_self
    rw [group_cons, hBranch, Option.getD_some, List.drop_left]
    exact areAt_insert hBranch (ih fun other hOther => h other (List.mem_cons_of_mem _ hOther))

theorem step_group (depth : Nat) (visits : List Visit) :
    (group depth visits).head?.bind step? = visits.head?.bind (Visit.step depth) := by
  cases visits with
  | nil => rfl
  | cons visit visits =>
    rw [group_cons, step_insert]
    rfl

/-- Visits to other children are grouped apart. -/
theorem group_append {depth : Nat} {left right : List Visit}
    (h : ∀ last ∈ left.getLast?, ∀ index, last.step depth = some index →
      right.head?.bind (Visit.step depth) ≠ some index) :
    group depth (left ++ right) = group depth left ++ group depth right := by
  induction left with
  | nil => rfl
  | cons visit left ih =>
    rw [List.cons_append, group_cons, group_cons]
    cases left with
    | nil =>
      have hLast := h visit rfl
      rw [Visit.step] at hLast
      cases hRest : (visit.branch?.getD []).drop depth with
      | nil => rfl
      | cons index rest =>
        have hOther : (group depth right).head?.bind step? ≠ some index := by
          rw [step_group]
          exact hLast index (by rw [hRest]; rfl)
        rw [List.nil_append, insert_other hOther]
        rfl
    | cons next left =>
      rw [ih (by simpa using h), insert_append visit _ (group_ne_nil depth (List.cons_ne_nil _ _))]

/-- Visits to one child make up one part. -/
theorem group_child {visits : List Visit} (h : ∀ visit ∈ visits, visit.Opens (path ++ [index]))
    (hSome : visits ≠ []) :
    group path.length visits = [child index (group (path ++ [index]).length visits)] := by
  induction visits with
  | nil => exact absurd rfl hSome
  | cons visit visits ih =>
    obtain ⟨branch, hBranch, rest, rfl⟩ := h visit List.mem_cons_self
    rw [group_cons, group_cons, hBranch, Option.getD_some, List.drop_left, List.append_assoc,
      List.drop_left, List.singleton_append]
    cases visits with
    | nil => rfl
    | cons next visits =>
      rw [ih (fun other hOther => h other (List.mem_cons_of_mem _ hOther)) (List.cons_ne_nil _ _),
        insert_same]

mutual

/-- Visits grouped below an element go below it. -/
theorem opens_of_isAt : (nest : Nest) → {path : Path} → IsAt path nest →
    ∀ visit ∈ nest.visits, visit.Opens path
  | here _, _, h, visit, hVisit => by
    obtain rfl := List.mem_singleton.1 hVisit
    exact ⟨_, h, List.prefix_rfl⟩
  | child _ nests, _, h, visit, hVisit =>
    (opens_of_areAt nests h.2 visit hVisit).upward (List.prefix_append _ _)

theorem opens_of_areAt : (nests : List Nest) → {path : Path} → AreAt path nests →
    ∀ visit ∈ visitsOf nests, visit.Opens path
  | [], _, _, _, hVisit => by cases hVisit
  | nest :: nests, _, h, visit, hVisit => by
    rcases List.mem_append.1 hVisit with hVisit | hVisit
    · exact opens_of_isAt nest h.1 visit hVisit
    · exact opens_of_areAt nests h.2.2 visit hVisit

end

mutual

/-- A part begins with a visit to its child. -/
theorem head_of_isAt : (nest : Nest) → {path : Path} → IsAt path nest →
    ∃ visit visits rest, nest.visits = visit :: visits ∧
      visit.branch? = some (path ++ rest) ∧ rest.head? = nest.step?
  | here visit, path, h => ⟨visit, [], [], rfl, by rw [List.append_nil]; exact h, rfl⟩
  | child index nests, path, h => by
    obtain ⟨visit, visits, rest, hVisits, hBranch⟩ := head_of_areAt nests h.2 h.1
    refine ⟨visit, visits, index :: rest, hVisits, ?_, rfl⟩
    rw [hBranch, List.append_assoc, List.singleton_append]

theorem head_of_areAt : (nests : List Nest) → {path : Path} → AreAt path nests → nests ≠ [] →
    ∃ visit visits rest, visitsOf nests = visit :: visits ∧
      visit.branch? = some (path ++ rest)
  | [], _, _, hSome => absurd rfl hSome
  | nest :: nests, _, h, _ => by
    obtain ⟨visit, visits, rest, hVisits, hBranch, -⟩ := head_of_isAt nest h.1
    refine ⟨visit, visits ++ visitsOf nests, rest, ?_, hBranch⟩
    rw [visitsOf, hVisits, List.cons_append]

end

end Nest

/-! ### What visits leave behind -/

/-- The piece that a visit lays down behind others. -/
def Visit.pieces (layout : Layout) (front : List Copy) : Visit → List Copy
  | clone _ source => [.clone source]
  | fill _ source text =>
    [.leaf source (layout.written (Copy.elementsOf layout.root front) source text)]
  | _ => []

/-- Whether the copy of an element may be taken out, which some visits open and
lay pieces down in. -/
def Layout.isBare (layout : Layout) (path : Path) (visits : List Visit) (copies : List Copy) : Bool :=
  (visits.head?.bind Visit.floor).any (· ≤ path.length) && !Visit.hasFill visits &&
    !copies.any (·.isContent layout)

namespace Nest

variable (layout : Layout)

mutual

/-- The pieces that a part lays down behind others in the element at a path. -/
def lay (path : Path) (front : List Copy) : Nest → List Copy
  | here visit => visit.pieces layout front
  | child index nests =>
    let copies := layOf (path ++ [index]) [] nests
    [.shell (path ++ [index]) (layout.isBare (path ++ [index]) (visitsOf nests) copies)
      (Copy.prune layout.root copies)]

/-- The pieces that parts lay down one behind the other. -/
def layOf (path : Path) (front : List Copy) : List Nest → List Copy
  | [] => []
  | nest :: nests => lay path front nest ++ layOf path (front ++ lay path front nest) nests

end

variable {layout}

theorem run_here {path : Path} {visit : Visit} {desk : Desk} (hVisit : visit.branch? = some path)
    (hChain : desk.chain = path) :
    (Visit.exec layout desk visit).rewind layout path.length =
      (desk.puts layout (visit.pieces layout desk.copies)).settleIf (Visit.hasFill [visit]) := by
  have hHere : ∀ floor, desk.descend layout floor path = desk := by
    intro floor
    rw [← hChain]
    exact Desk.descend_self
  have hEnd : (Visit.exec layout desk visit).chain = path := Visit.chain_exec hVisit
  rw [Desk.rewind_chain hEnd]
  cases visit with
  | clone floor source =>
    obtain rfl := Option.some.inj hVisit
    rw [Visit.exec, hHere]
    rfl
  | fill floor source text =>
    obtain rfl := Option.some.inj hVisit
    rw [Visit.exec, hHere]
    rfl
  | pass floor source =>
    obtain rfl := Option.some.inj hVisit
    rw [Visit.exec, hHere]
    rfl
  | back depth => cases hVisit

mutual

/-- A part of the visits lays its pieces down. -/
theorem run_visits : (nest : Nest) → {path : Path} → {desk : Desk} → IsAt path nest →
    desk.chain = path → (Visit.run layout nest.visits desk).rewind layout path.length =
      (desk.puts layout (lay layout path desk.copies nest)).settleIf (Visit.hasFill nest.visits)
  | here visit, path, desk, h, hChain => run_here h hChain
  | child index nests, path, desk, h, hChain => by
    obtain ⟨visit, visits, rest, hVisits, hBranch⟩ := head_of_areAt nests h.2 h.1
    rw [List.append_assoc, List.singleton_append] at hBranch
    have hOpen : (desk.openChild visit.floor index).chain = path ++ [index] := by
      rw [← hChain]
      simp [Desk.openChild, Desk.chain]
    have hEnter : Visit.run layout (visitsOf nests) desk =
        Visit.run layout (visitsOf nests) (desk.openChild visit.floor index) := by
      rw [hVisits, Visit.run_cons, Visit.run_cons,
        Visit.exec_congr hBranch (Desk.descend_openChild hChain)]
    have hRun := run_visitsOf nests h.2 hOpen
    have hEmpty : (desk.openChild visit.floor index).copies = [] := rfl
    have hEnd : (((desk.openChild visit.floor index).puts layout
        (layOf layout (path ++ [index]) [] nests)).settleIf
          (Visit.hasFill (visitsOf nests))).chain = path ++ [index] := by
      rw [Desk.chain_settleIf, Desk.chain_puts, hOpen]
    rw [hEmpty, List.length_append, List.length_singleton] at hRun
    rw [Nest.visits, hEnter, ← Desk.rewind_rewind (Nat.le_succ path.length), hRun,
      Desk.rewind_succ hEnd, Desk.close_openChild, hChain, lay]
    simp [Desk.puts, hVisits, ← Desk.length_chain, hChain, Layout.isBare]

theorem run_visitsOf : (nests : List Nest) → {path : Path} → {desk : Desk} → AreAt path nests →
    desk.chain = path → (Visit.run layout (visitsOf nests) desk).rewind layout path.length =
      (desk.puts layout (layOf layout path desk.copies nests)).settleIf
        (Visit.hasFill (visitsOf nests))
  | [], path, desk, _, hChain => Desk.rewind_chain hChain
  | nest :: nests, path, desk, h, hChain => by
    have hFirst := run_visits nest h.1 hChain
    have hNext := @run_visitsOf nests path ((desk.puts layout
      (lay layout path desk.copies nest)).settleIf (Visit.hasFill nest.visits)) h.2.2
        (by simpa using hChain)
    -- the next part opens another child, so it may begin back at the element
    have hRewind : (Visit.run layout (visitsOf nests) (Visit.run layout nest.visits desk)).rewind
        layout path.length =
        (Visit.run layout (visitsOf nests)
          ((Visit.run layout nest.visits desk).rewind layout path.length)).rewind
            layout path.length := by
      cases nests with
      | nil => exact (Desk.rewind_rewind (Nat.le_refl _)).symm
      | cons next nests =>
        obtain ⟨visit, visits, rest, hVisits, hBranch, hHead⟩ := head_of_isAt next h.2.2.1
        have hWalked : ∃ walked, (Visit.run layout nest.visits desk).chain = path ++ walked ∧
            walked.head? = nest.step? := by
          cases nest with
          | here other => exact ⟨[], by rw [List.append_nil]; exact Visit.chain_exec h.1, rfl⟩
          | child index kids =>
            obtain ⟨walked, hWalked⟩ := Visit.chain_run_opens layout desk
              (opens_of_areAt kids h.1.2) (by
                obtain ⟨first, others, -, hKids, -⟩ := head_of_areAt kids h.1.2 h.1.1
                rw [hKids]
                exact List.cons_ne_nil _ _)
            rw [List.append_assoc, List.singleton_append] at hWalked
            exact ⟨index :: walked, hWalked.symm, rfl⟩
        obtain ⟨walked, hWalked, hStep⟩ := hWalked
        rw [visitsOf, hVisits, List.cons_append, Visit.run_cons, Visit.run_cons,
          Visit.exec_rewind hWalked hBranch]
        intro index hIndex
        rw [hHead]
        exact h.2.1 index (hStep ▸ hIndex)
    rw [visitsOf, Visit.run_append, hRewind, hFirst, hNext, Visit.hasFill_append, layOf,
      Desk.puts_append, Desk.puts_settleIf, Desk.settleIf_settleIf, Desk.copies_settleIf,
      Desk.copies_puts]

end

end Nest

namespace Layout

variable {layout : Layout}

/-- Visits that do not go back leave the pieces of their parts behind. -/
theorem copied_eq_layOf {visits : List Visit} (h : ∀ visit ∈ visits, visit.Opens []) :
    layout.copied visits =
      Copy.prune layout.root (Nest.layOf layout [] [] (Nest.group 0 visits)) := by
  have hAt := Nest.areAt_group h
  have hRun := @Nest.run_visitsOf layout (Nest.group 0 visits) [] {} hAt rfl
  rw [Nest.visitsOf_group] at hRun
  rw [copied]
  exact congrArg (Copy.prune layout.root) (Desk.base_of_eq_puts hRun)

end Layout

end Infill
