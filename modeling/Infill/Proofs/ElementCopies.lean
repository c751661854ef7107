import Infill.Proofs.VisitTrees
import Mathlib.Data.List.DropRight

/-!
The copies of an element. A document may hold several of them, or none, for an
element is copied anew whenever visits come back to it. Where the visits below
an element follow each other, it has one copy with all that they lay down,
unless that is bare and taken out.
-/
namespace Infill

open Infill.Xml

namespace Copy

variable {x : Path}

/-- Where a piece comes from. -/
def source : Copy → Path
  | clone source => source
  | leaf source _ => source
  | shell source _ _ => source

mutual

/-- What stands in the copies of an element that are in a piece. Only ancestors
that were opened count. -/
def rooms (x : Path) : Copy → List (List Copy)
  | shell source _ copies => (if source = x then [copies] else []) ++ roomsOf x copies
  | _ => []

/-- The same for pieces that follow each other. -/
def roomsOf (x : Path) : List Copy → List (List Copy)
  | [] => []
  | copy :: rest => rooms x copy ++ roomsOf x rest

end

theorem rooms_shell_of_ne {source : Path} (h : source ≠ x) (isBare : Bool) (copies : List Copy) :
    rooms x (shell source isBare copies) = roomsOf x copies := by
  rw [rooms, if_neg h, List.nil_append]

theorem roomsOf_append (left right : List Copy) :
    roomsOf x (left ++ right) = roomsOf x left ++ roomsOf x right := by
  induction left with
  | nil => rfl
  | cons copy left ih => rw [List.cons_append, roomsOf, roomsOf, ih, List.append_assoc]

theorem roomsOf_eq_nil {copies : List Copy} :
    roomsOf x copies = [] ↔ ∀ copy ∈ copies, copy.rooms x = [] := by
  induction copies with
  | nil => simp [roomsOf]
  | cons copy copies ih => simp [roomsOf, ih]

/-- A piece among others is either left in, or it was bare. -/
theorem dropBare_split (count : Nat) (left right : List Copy) (copy : Copy) :
    ∃ left' right', left'.Sublist left ∧ right'.Sublist right ∧
      (dropBare count (left ++ copy :: right) = left' ++ copy :: right' ∨
        copy.isBare = true ∧ dropBare count (left ++ copy :: right) = left' ++ right') := by
  induction left generalizing count with
  | nil =>
    cases hBare : copy.isBare with
    | false =>
      exact ⟨[], _, List.Sublist.refl _, Layout.dropBare_sublist count right,
        .inl (by simp [dropBare, hBare])⟩
    | true =>
      cases count with
      | zero =>
        exact ⟨[], _, List.Sublist.refl _, Layout.dropBare_sublist 0 right,
          .inr ⟨rfl, by simp [dropBare, hBare]⟩⟩
      | succ count =>
        exact ⟨[], _, List.Sublist.refl _, Layout.dropBare_sublist count right,
          .inl (by simp [dropBare, hBare])⟩
  | cons first left ih =>
    have hKeep : ∀ next, dropBare count (first :: left ++ copy :: right) =
        first :: dropBare next (left ++ copy :: right) →
        ∃ left' right', left'.Sublist (first :: left) ∧ right'.Sublist right ∧
          (dropBare count (first :: left ++ copy :: right) = left' ++ copy :: right' ∨
            copy.isBare = true ∧ dropBare count (first :: left ++ copy :: right) = left' ++ right') := by
      intro next hNext
      obtain ⟨left', right', hLeft, hRight, hDrop⟩ := ih next
      refine ⟨first :: left', right', hLeft.cons_cons first, hRight, ?_⟩
      rw [hNext]
      exact hDrop.imp (congrArg (first :: ·)) (And.imp_right (congrArg (first :: ·)))
    cases hFirst : first.isBare with
    | false => exact hKeep count (by simp [dropBare, hFirst])
    | true =>
      cases count with
      | succ count => exact hKeep count (by simp [dropBare, hFirst])
      | zero =>
        obtain ⟨left', right', hLeft, hRight, hDrop⟩ := ih 0
        refine ⟨left', right', hLeft.cons first, hRight, ?_⟩
        rwa [List.cons_append, dropBare, if_pos hFirst]

theorem roomsOf_sublist {left right : List Copy} (h : left.Sublist right) :
    (roomsOf x left).Sublist (roomsOf x right) := by
  induction h with
  | slnil => exact List.Sublist.refl []
  | cons copy _ ih => exact ih.trans (List.sublist_append_right _ _)
  | cons_cons copy _ ih => exact (List.Sublist.refl _).append ih

theorem roomsOf_prune_sublist (root : Element) (copies : List Copy) :
    (roomsOf x (prune root copies)).Sublist (roomsOf x copies) :=
  roomsOf_sublist (Layout.dropBare_sublist _ _)

/-- What is taken out of an element does not touch pieces that are not bare. -/
theorem lasting_sublist_dropBare (count : Nat) (copies : List Copy) :
    (lasting copies).Sublist (dropBare count copies) := by
  induction copies generalizing count with
  | nil => exact List.Sublist.refl []
  | cons copy copies ih =>
    cases hBare : copy.isBare with
    | false => simpa [lasting, dropBare, hBare] using ih count
    | true =>
      cases count with
      | zero => simpa [lasting, dropBare, hBare] using ih 0
      | succ count => simpa [lasting, dropBare, hBare] using (ih count).cons copy

theorem lasting_sublist_prune (root : Element) (copies : List Copy) :
    (lasting copies).Sublist (prune root copies) :=
  lasting_sublist_dropBare _ copies

theorem mem_prune_of_not_isBare {root : Element} {copy : Copy} {copies : List Copy}
    (hCopy : copy ∈ copies) (hBare : copy.isBare = false) : copy ∈ prune root copies :=
  (lasting_sublist_prune root copies).subset (List.mem_filter.2 ⟨hCopy, by simp [hBare]⟩)

/-- Pieces with no copy of an element do not matter for what becomes of a piece
among them. -/
theorem roomsOf_prune_around (root : Element) {left right : List Copy} (copy : Copy)
    {among : Path → Prop}
    (hLeft : ∀ x, among x → roomsOf x left = []) (hRight : ∀ x, among x → roomsOf x right = []) :
    (∀ x, among x → roomsOf x (prune root (left ++ copy :: right)) = copy.rooms x) ∨
      copy.isBare = true ∧ ∀ x, among x → roomsOf x (prune root (left ++ copy :: right)) = [] := by
  obtain ⟨left', right', hLeft', hRight', hDrop⟩ := dropBare_split
    (if (left ++ copy :: right).countP isBare = (elementsOf root (left ++ copy :: right)).length
      then 1 else 0) left right copy
  rw [← prune] at hDrop
  have hNone : ∀ x, among x → roomsOf x left' = [] ∧ roomsOf x right' = [] := fun x hx =>
    ⟨List.eq_nil_of_sublist_nil (hLeft x hx ▸ roomsOf_sublist hLeft'),
      List.eq_nil_of_sublist_nil (hRight x hx ▸ roomsOf_sublist hRight')⟩
  rcases hDrop with hDrop | ⟨hBare, hDrop⟩
  · left
    intro x hx
    rw [hDrop, roomsOf_append, roomsOf, (hNone x hx).1, (hNone x hx).2, List.append_nil,
      List.nil_append]
  · right
    refine ⟨hBare, fun x hx => ?_⟩
    rw [hDrop, roomsOf_append, (hNone x hx).1, (hNone x hx).2, List.nil_append]

end Copy

namespace Nest

variable {layout : Layout} {x path : Path} {room front : List Copy}

theorem layOf_append (path : Path) (front : List Copy) (left right : List Nest) :
    layOf layout path front (left ++ right) = layOf layout path front left ++
      layOf layout path (front ++ layOf layout path front left) right := by
  induction left generalizing front with
  | nil => rw [layOf, List.append_nil]; rfl
  | cons nest left ih => rw [List.cons_append, layOf, layOf, ih]; simp

mutual

/-- Every copy of an element holds what visits below it laid down. -/
theorem of_mem_rooms_lay : (nest : Nest) → {path : Path} → {front : List Copy} → IsAt path nest →
    room ∈ Copy.roomsOf x (lay layout path front nest) →
    path.length < x.length ∧ ∃ visit ∈ nest.visits, visit.Opens x
  | here visit, path, front, h, hRoom => by
    have hNone : Copy.roomsOf x (visit.pieces layout front) = [] := by
      cases visit <;> rfl
    rw [lay, hNone] at hRoom
    cases hRoom
  | child index nests, path, front, h, hRoom => by
    rw [lay, Copy.roomsOf, Copy.roomsOf, List.append_nil, Copy.rooms] at hRoom
    rcases List.mem_append.1 hRoom with hRoom | hRoom
    · split at hRoom
      · rename_i hSource
        obtain ⟨visit, visits, rest, hVisits, hBranch⟩ := head_of_areAt nests h.2 h.1
        refine ⟨by rw [← hSource]; simp, visit, ?_, _, hBranch, hSource ▸ List.prefix_append _ _⟩
        rw [Nest.visits, hVisits]
        exact List.mem_cons_self
      · cases hRoom
    · obtain ⟨hLength, hVisit⟩ := of_mem_roomsOf_layOf nests h.2
        ((Copy.roomsOf_prune_sublist layout.root _).subset hRoom)
      rw [List.length_append, List.length_singleton] at hLength
      exact ⟨by omega, hVisit⟩

theorem of_mem_roomsOf_layOf : (nests : List Nest) → {path : Path} → {front : List Copy} →
    AreAt path nests → room ∈ Copy.roomsOf x (layOf layout path front nests) →
    path.length < x.length ∧ ∃ visit ∈ visitsOf nests, visit.Opens x
  | [], _, _, _, hRoom => by cases hRoom
  | nest :: nests, path, front, h, hRoom => by
    rw [layOf, Copy.roomsOf_append] at hRoom
    rcases List.mem_append.1 hRoom with hRoom | hRoom
    · obtain ⟨hLength, visit, hVisit, hOpens⟩ := of_mem_rooms_lay nest h.1 hRoom
      exact ⟨hLength, visit, List.mem_append_left _ hVisit, hOpens⟩
    · obtain ⟨hLength, visit, hVisit, hOpens⟩ := of_mem_roomsOf_layOf nests h.2.2 hRoom
      exact ⟨hLength, visit, List.mem_append_right _ hVisit, hOpens⟩

end

/-- Visits to other places leave no copy of an element behind. -/
theorem roomsOf_layOf_eq_nil {nests : List Nest} (h : AreAt path nests) (front : List Copy)
    (hNone : ∀ visit ∈ visitsOf nests, ¬ visit.Opens x) :
    Copy.roomsOf x (layOf layout path front nests) = [] := by
  apply List.eq_nil_iff_forall_not_mem.2
  intro room hRoom
  obtain ⟨-, visit, hVisit, hOpens⟩ := of_mem_roomsOf_layOf nests h hRoom
  exact hNone visit hVisit hOpens

variable (layout) in
/-- No copy of an element stands in the element itself. -/
theorem roomsOf_layOf_self {nests : List Nest} (h : AreAt path nests) (front : List Copy) :
    Copy.roomsOf path (layOf layout path front nests) = [] := by
  apply List.eq_nil_iff_forall_not_mem.2
  intro room hRoom
  exact Nat.lt_irrefl _ (of_mem_roomsOf_layOf nests h hRoom).1

end Nest

namespace Layout

variable {layout : Layout} {x path rest : Path} {index : Nat} {left mid right visits : List Visit}

/-- What visits below an element leave in its copy. -/
def room (layout : Layout) (path : Path) (visits : List Visit) : List Copy :=
  Copy.prune layout.root (Nest.layOf layout path [] (Nest.group path.length visits))

/-- Whether the copy of an element that visits open may be taken out. -/
def isBareRoom (layout : Layout) (path : Path) (visits : List Visit) : Bool :=
  layout.isBare path visits (Nest.layOf layout path [] (Nest.group path.length visits))

/-- The copy of an element that visits open. -/
def shell (layout : Layout) (path : Path) (visits : List Visit) : Copy :=
  .shell path (layout.isBareRoom path visits) (layout.room path visits)

theorem isBareRoom_of_hasFill (h : Visit.hasFill visits = true) :
    layout.isBareRoom path visits = false := by
  simp [isBareRoom, isBare, h]

/-- An element with content in it is not taken out. -/
theorem isBareRoom_of_mem {copy : Copy}
    (hCopy : copy ∈ Nest.layOf layout path [] (Nest.group path.length visits))
    (hContent : copy.isContent layout = true) : layout.isBareRoom path visits = false := by
  have hAny := List.any_eq_true.2 ⟨copy, hCopy, hContent⟩
  simp [isBareRoom, isBare, hAny]

variable (layout) in
/-- Visits to a child that follow each other make up one piece. -/
theorem layOf_child (front : List Copy)
    (hLeft : ∀ last ∈ left.getLast?, ¬ last.Opens (path ++ [index]))
    (hMid : ∀ visit ∈ mid, visit.Opens (path ++ [index])) (hSome : mid ≠ [])
    (hRight : ∀ first ∈ right.head?, ¬ first.Opens (path ++ [index]))
    (hAll : ∀ visit ∈ left ++ mid ++ right, visit.Opens path) :
    ∃ front', Nest.layOf layout path front (Nest.group path.length (left ++ mid ++ right)) =
      Nest.layOf layout path front (Nest.group path.length left) ++
        layout.shell (path ++ [index]) mid ::
          Nest.layOf layout path front' (Nest.group path.length right) := by
  have hStep : ∀ visit : Visit, visit.Opens path → ¬ visit.Opens (path ++ [index]) →
      visit.step path.length ≠ some index :=
    fun visit hVisit hNot hSame => hNot ((Visit.step_eq_some hVisit).1 hSame)
  have hMidStep : ∀ visit ∈ mid, visit.step path.length = some index := fun visit hVisit =>
    (Visit.step_eq_some ((hMid visit hVisit).upward (List.prefix_append _ _))).2 (hMid visit hVisit)
  have hFirst : Nest.group path.length (left ++ mid) =
      Nest.group path.length left ++ Nest.group path.length mid := by
    apply Nest.group_append
    intro last hLast key hKey
    obtain ⟨visit, mid, rfl⟩ := List.exists_cons_of_ne_nil hSome
    rw [List.head?_cons, Option.bind_some, hMidStep visit List.mem_cons_self]
    rintro ⟨⟩
    have hMem : last ∈ left := List.mem_of_getLast? hLast
    exact hStep last (hAll last (by simp [hMem])) (hLeft last hLast) hKey
  have hSecond : Nest.group path.length (left ++ mid ++ right) =
      Nest.group path.length (left ++ mid) ++ Nest.group path.length right := by
    apply Nest.group_append
    intro last hLast key hKey
    rw [List.getLast?_append_of_ne_nil _ hSome] at hLast
    obtain rfl : index = key := by
      rw [hMidStep last (List.mem_of_getLast? hLast)] at hKey
      exact Option.some.inj hKey
    cases right with
    | nil => simp
    | cons first right =>
      exact hStep first (hAll first (by simp)) (hRight first rfl)
  rw [hSecond, hFirst, Nest.group_child hMid hSome, Nest.layOf_append, Nest.layOf_append,
    Nest.layOf, Nest.layOf, List.append_nil, Nest.lay, Nest.visitsOf_group]
  exact ⟨_, by rw [List.append_assoc]; rfl⟩

/-- Around visits below an element there may be more of them. -/
private theorem exists_block (path : Path) (left right : List Visit) :
    ∃ left₁ left₂ right₁ right₂, left = left₁ ++ left₂ ∧ right = right₁ ++ right₂ ∧
      (∀ visit ∈ left₂, visit.Opens path) ∧ (∀ visit ∈ right₁, visit.Opens path) ∧
      (∀ last ∈ left₁.getLast?, ¬ last.Opens path) ∧
      (∀ first ∈ right₂.head?, ¬ first.Opens path) := by
  refine ⟨left.rdropWhile (·.Opens path), left.rtakeWhile (·.Opens path),
    right.takeWhile (·.Opens path), right.dropWhile (·.Opens path),
    List.rdropWhile_append_rtakeWhile.symm, List.takeWhile_append_dropWhile.symm, ?_, ?_, ?_, ?_⟩
  · intro visit hVisit
    simpa using List.mem_rtakeWhile_imp hVisit
  · intro visit hVisit
    simpa using List.mem_takeWhile_imp hVisit
  · intro last hLast
    obtain ⟨hNonempty, rfl⟩ := List.mem_getLast?_eq_getLast hLast
    simpa using List.rdropWhile_last_not (fun visit => decide (visit.Opens path)) left hNonempty
  · intro first hFirst
    have hHead := List.head?_dropWhile_not (fun visit => decide (visit.Opens path)) right
    rw [Option.mem_def.1 hFirst] at hHead
    simpa using hHead

/-- What lies below an element in the document lies in the one child that is
opened for it, unless the copy of that child is taken out. -/
private theorem rooms_step {inner : Path} (hInner : path ++ [index] <+: inner)
    (hLeft : ∀ visit ∈ left, visit.Opens path ∧ ¬ visit.Opens inner)
    (hRight : ∀ visit ∈ right, visit.Opens path ∧ ¬ visit.Opens inner) {front : List Copy}
    (hPieces : Nest.layOf layout path [] (Nest.group path.length visits) =
      Nest.layOf layout path [] (Nest.group path.length left) ++
        layout.shell (path ++ [index]) mid ::
          Nest.layOf layout path front (Nest.group path.length right)) :
    (∀ x, inner <+: x →
      (layout.shell path visits).rooms x = (layout.shell (path ++ [index]) mid).rooms x) ∨
    layout.isBareRoom (path ++ [index]) mid = true ∧
      ∀ x, inner <+: x → (layout.shell path visits).rooms x = [] := by
  have hOther : ∀ {visits : List Visit} (front : List Copy),
      (∀ visit ∈ visits, visit.Opens path ∧ ¬ visit.Opens inner) → ∀ x, inner <+: x →
      Copy.roomsOf x (Nest.layOf layout path front (Nest.group path.length visits)) = [] := by
    intro visits front hVisits x hx
    apply Nest.roomsOf_layOf_eq_nil (Nest.areAt_group fun visit hVisit => (hVisits visit hVisit).1)
    rw [Nest.visitsOf_group]
    exact fun visit hVisit hOpens => (hVisits visit hVisit).2 (hOpens.upward hx)
  have hRooms : ∀ x, inner <+: x →
      (layout.shell path visits).rooms x = Copy.roomsOf x (layout.room path visits) := by
    intro x hx
    apply Copy.rooms_shell_of_ne
    rintro rfl
    have := (hInner.trans hx).length_le
    rw [List.length_append, List.length_singleton] at this
    omega
  have hAround := Copy.roomsOf_prune_around layout.root
    (layout.shell (path ++ [index]) mid) (hOther [] hLeft) (hOther front hRight)
  rw [← hPieces, ← room] at hAround
  rcases hAround with hStays | ⟨hBare, hGone⟩
  · exact .inl fun x hx => (hRooms x hx).trans (hStays x hx)
  · exact .inr ⟨hBare, fun x hx => (hRooms x hx).trans (hGone x hx)⟩

variable (layout) in
/-- The visits to the next child on the way to an element follow each other around
those to the element, and make up one piece. -/
private theorem exists_piece
    (hLeft : ∀ visit ∈ left, visit.Opens path ∧ ¬ visit.Opens (path ++ [index] ++ rest))
    (hMid : ∀ visit ∈ mid, visit.Opens (path ++ [index] ++ rest)) (hSome : mid ≠ [])
    (hRight : ∀ visit ∈ right, visit.Opens path ∧ ¬ visit.Opens (path ++ [index] ++ rest)) :
    ∃ left₁ left₂ right₁ right₂ front, left = left₁ ++ left₂ ∧ right = right₁ ++ right₂ ∧
      (∀ visit ∈ left₂, visit.Opens (path ++ [index])) ∧
      (∀ visit ∈ right₁, visit.Opens (path ++ [index])) ∧
      Nest.layOf layout path []
          (Nest.group path.length (left₁ ++ (left₂ ++ mid ++ right₁) ++ right₂)) =
        Nest.layOf layout path [] (Nest.group path.length left₁) ++
          layout.shell (path ++ [index]) (left₂ ++ mid ++ right₁) ::
            Nest.layOf layout path front (Nest.group path.length right₂) := by
  obtain ⟨left₁, left₂, right₁, right₂, rfl, rfl, hLeft₂, hRight₁, hLast, hFirst⟩ :=
    exists_block (path ++ [index]) left right
  have hChild : ∀ visit ∈ left₂ ++ mid ++ right₁, visit.Opens (path ++ [index]) := by
    intro visit hVisit
    rcases List.mem_append.1 hVisit with hVisit | hVisit
    · rcases List.mem_append.1 hVisit with hVisit | hVisit
      · exact hLeft₂ visit hVisit
      · exact (hMid visit hVisit).upward (List.prefix_append _ _)
    · exact hRight₁ visit hVisit
  have hAll : ∀ visit ∈ left₁ ++ (left₂ ++ mid ++ right₁) ++ right₂, visit.Opens path := by
    intro visit hVisit
    rcases List.mem_append.1 hVisit with hVisit | hVisit
    · rcases List.mem_append.1 hVisit with hVisit | hVisit
      · exact (hLeft visit (List.mem_append_left _ hVisit)).1
      · exact (hChild visit hVisit).upward (List.prefix_append _ _)
    · exact (hRight visit (List.mem_append_right _ hVisit)).1
  obtain ⟨front, hPieces⟩ := layOf_child layout [] hLast hChild (by simp [hSome]) hFirst hAll
  exact ⟨left₁, left₂, right₁, right₂, front, rfl, rfl, hLeft₂, hRight₁, hPieces⟩

/-- Where the visits below an element follow each other, what lies below it in
the document lies in one copy of it, unless this is bare and taken out. -/
theorem rooms_block (hLeft : ∀ visit ∈ left, visit.Opens path ∧ ¬ visit.Opens (path ++ rest))
    (hMid : ∀ visit ∈ mid, visit.Opens (path ++ rest)) (hSome : mid ≠ [])
    (hRight : ∀ visit ∈ right, visit.Opens path ∧ ¬ visit.Opens (path ++ rest)) :
    ((∀ x, path ++ rest <+: x → (layout.shell path (left ++ mid ++ right)).rooms x =
        (layout.shell (path ++ rest) mid).rooms x) ∨
      layout.isBareRoom (path ++ rest) mid = true ∧
        ∀ x, path ++ rest <+: x → (layout.shell path (left ++ mid ++ right)).rooms x = []) ∧
    (layout.isBareRoom (path ++ rest) mid = false →
      layout.isBareRoom path (left ++ mid ++ right) = false) := by
  induction rest generalizing path left right with
  | nil =>
    rw [List.append_nil] at hLeft hMid hRight ⊢
    obtain rfl : left = [] := List.eq_nil_iff_forall_not_mem.2 fun visit hVisit =>
      (hLeft visit hVisit).2 (hLeft visit hVisit).1
    obtain rfl : right = [] := List.eq_nil_iff_forall_not_mem.2 fun visit hVisit =>
      (hRight visit hVisit).2 (hRight visit hVisit).1
    rw [List.nil_append, List.append_nil]
    exact ⟨.inl fun x hx => rfl, id⟩
  | cons index rest ih =>
    rw [List.append_cons] at hLeft hMid hRight ⊢
    have hBelow : path ++ [index] <+: path ++ [index] ++ rest := List.prefix_append _ _
    obtain ⟨left₁, left₂, right₁, right₂, front, rfl, rfl, hLeft₂, hRight₁, hPieces⟩ :=
      exists_piece layout hLeft hMid hSome hRight
    have hSplit : left₁ ++ left₂ ++ mid ++ (right₁ ++ right₂) =
        left₁ ++ (left₂ ++ mid ++ right₁) ++ right₂ := by simp
    obtain ⟨hRooms, hBare⟩ := @ih (path ++ [index]) left₂ right₁
      (fun visit hVisit => ⟨hLeft₂ visit hVisit, (hLeft visit (List.mem_append_right _ hVisit)).2⟩)
      hMid (fun visit hVisit =>
        ⟨hRight₁ visit hVisit, (hRight visit (List.mem_append_left _ hVisit)).2⟩)
    have hStep := rooms_step hBelow (fun visit hVisit => hLeft visit (List.mem_append_left _ hVisit))
      (fun visit hVisit => hRight visit (List.mem_append_right _ hVisit)) hPieces
    rw [hSplit]
    constructor
    · rcases hStep with hStays | ⟨hGoneBare, hGone⟩
      · rcases hRooms with hSame | ⟨hInnerBare, hNone⟩
        · exact .inl fun x hx => (hStays x hx).trans (hSame x hx)
        · exact .inr ⟨hInnerBare, fun x hx => (hStays x hx).trans (hNone x hx)⟩
      · refine .inr ⟨?_, hGone⟩
        by_contra hNot
        rw [hBare (Bool.eq_false_of_not_eq_true hNot)] at hGoneBare
        cases hGoneBare
    · intro hContent
      have hMem : layout.shell (path ++ [index]) (left₂ ++ mid ++ right₁) ∈ Nest.layOf layout path []
          (Nest.group path.length (left₁ ++ (left₂ ++ mid ++ right₁) ++ right₂)) := by
        rw [hPieces]
        exact List.mem_append_right _ List.mem_cons_self
      apply isBareRoom_of_mem hMem
      rw [shell, Copy.isContent, hBare hContent]
      rfl

end Layout

/-! ### What stands in a copy -/

/-- The place that a visit goes to. -/
def Visit.goal : Visit → Path
  | clone _ source => source
  | fill _ source _ => source
  | pass _ source => source
  | back _ => []

theorem Visit.Opens.prefix_goal {path : Path} {visit : Visit} (h : visit.Opens path) :
    path <+: visit.goal := by
  obtain ⟨branch, hBranch, hPath⟩ := h
  cases visit with
  | clone floor source =>
    obtain rfl := Option.some.inj hBranch
    exact hPath.trans (List.dropLast_prefix source)
  | fill floor source text =>
    obtain rfl := Option.some.inj hBranch
    exact hPath.trans (List.dropLast_prefix source)
  | pass floor source =>
    obtain rfl := Option.some.inj hBranch
    exact hPath
  | back depth => cases hBranch

namespace Nest

variable {layout : Layout} {path : Path} {nests : List Nest}

/-- The pieces in an element, the elements that were opened in it apart, are
those that the visits to it lay down. -/
theorem filterMap_layOf {β : Type} {f : Copy → Option β} {g : Visit → Option β}
    (hShell : ∀ source isBare copies, f (.shell source isBare copies) = none)
    (hPiece : ∀ visit front, (visit.pieces layout front).filterMap f = (g visit).toList)
    (h : AreAt path nests) (front : List Copy) :
    (layOf layout path front nests).filterMap f =
      (visitsOf nests).filterMap fun visit => if visit.branch? = some path then g visit else none := by
  induction nests generalizing front with
  | nil => rfl
  | cons nest nests ih =>
    rw [layOf, List.filterMap_append, ih h.2.2, visitsOf, List.filterMap_append]
    congr 1
    cases nest with
    | here visit =>
      have hHere : visit.branch? = some path := h.1
      rw [lay, hPiece, visits, List.filterMap_cons, if_pos hHere]
      cases g visit <;> rfl
    | child index kids =>
      have hBelow : ∀ visit ∈ visitsOf kids, visit.branch? ≠ some path := by
        intro visit hVisit hBranch
        obtain ⟨branch, hSame, hPath⟩ := opens_of_areAt kids h.1.2 visit hVisit
        obtain rfl := Option.some.inj (hBranch.symm.trans hSame)
        have := hPath.length_le
        rw [List.length_append, List.length_singleton] at this
        omega
      rw [lay, List.filterMap_cons, hShell, visits]
      refine (List.filterMap_eq_nil_iff.2 fun visit hVisit => ?_).symm
      rw [if_neg (hBelow visit hVisit)]

/-- A piece in an element is laid down by a visit to it, or it is the copy of a
child that visits go to. -/
theorem mem_layOf_cases (h : AreAt path nests) {front : List Copy} {copy : Copy}
    (hCopy : copy ∈ layOf layout path front nests) :
    (∃ visit ∈ visitsOf nests, ∃ front, copy ∈ visit.pieces layout front) ∨
      ∃ index isBare copies, copy = .shell (path ++ [index]) isBare copies ∧
        ∃ visit ∈ visitsOf nests, visit.Opens (path ++ [index]) := by
  induction nests generalizing front with
  | nil => cases hCopy
  | cons nest nests ih =>
    rcases List.mem_append.1 hCopy with hCopy | hCopy
    · cases nest with
      | here visit => exact .inl ⟨visit, List.mem_append_left _ List.mem_cons_self, _, hCopy⟩
      | child index kids =>
        obtain ⟨visit, visits, rest, hVisits, hBranch⟩ := head_of_areAt kids h.1.2 h.1.1
        refine .inr ⟨index, _, _, List.mem_singleton.1 hCopy, visit, List.mem_append_left _ ?_,
          _, hBranch, List.prefix_append _ _⟩
        rw [Nest.visits, hVisits]
        exact List.mem_cons_self
    · rcases ih h.2.2 hCopy with
        ⟨visit, hVisit, hPiece⟩ | ⟨index, isBare, copies, hShell, visit, hVisit, hOpens⟩
      · exact .inl ⟨visit, List.mem_append_right _ hVisit, hPiece⟩
      · exact .inr ⟨index, isBare, copies, hShell, visit, List.mem_append_right _ hVisit, hOpens⟩

/-- Every piece comes from where one of the visits goes, or from above. -/
theorem source_of_mem_layOf (h : AreAt path nests) {front : List Copy} {copy : Copy}
    (hCopy : copy ∈ layOf layout path front nests) :
    ∃ visit ∈ visitsOf nests, copy.source <+: visit.goal := by
  rcases mem_layOf_cases h hCopy with
    ⟨visit, hVisit, behind, hPiece⟩ | ⟨index, isBare, copies, rfl, visit, hVisit, hOpens⟩
  · refine ⟨visit, hVisit, ?_⟩
    cases visit with
    | clone floor source =>
      obtain rfl := List.mem_singleton.1 hPiece
      exact List.prefix_rfl
    | fill floor source text =>
      obtain rfl := List.mem_singleton.1 hPiece
      exact List.prefix_rfl
    | pass floor source => cases hPiece
    | back depth => cases hPiece
  · exact ⟨visit, hVisit, hOpens.prefix_goal⟩

variable (layout) in
/-- Visits that never go back in the document leave their pieces in its order. -/
theorem sorted_layOf (h : AreAt path nests)
    (hSorted : (visitsOf nests).Pairwise fun visit next => ¬ Path.Before next.goal visit.goal)
    (front : List Copy) :
    (layOf layout path front nests).Pairwise fun copy next =>
      ¬ Path.Before next.source copy.source := by
  induction nests generalizing front with
  | nil => exact List.Pairwise.nil
  | cons nest nests ih =>
    obtain ⟨-, hRest, hApart⟩ := List.pairwise_append.1 hSorted
    refine List.pairwise_append.2 ⟨?_, ih h.2.2 hRest _, fun copy hCopy next hNext hBefore => ?_⟩
    · cases nest with
      | here visit => cases visit <;> simp [lay, Visit.pieces]
      | child index kids => exact List.pairwise_singleton _ _
    · have hAlone : AreAt path [nest] := ⟨h.1, by simp, trivial⟩
      have hMem : copy ∈ layOf layout path front [nest] := by simpa [layOf] using hCopy
      obtain ⟨visit, hVisit, hGoal⟩ := source_of_mem_layOf hAlone hMem
      rw [visitsOf, visitsOf, List.append_nil] at hVisit
      obtain ⟨later, hLater, hLaterGoal⟩ := source_of_mem_layOf h.2.2 hNext
      exact hApart visit hVisit later hLater (hBefore.extend hLaterGoal hGoal)

variable (layout) in
/-- A child in which a leaf was copied has a piece, which is not bare. -/
theorem shell_mem_layOf (h : AreAt path nests) {visit : Visit} {index : Nat}
    (hVisit : visit ∈ visitsOf nests) (hFill : visit.isFill = true)
    (hOpens : visit.Opens (path ++ [index])) (front : List Copy) :
    ∃ kids, AreAt (path ++ [index]) kids ∧ visit ∈ visitsOf kids ∧
      Copy.shell (path ++ [index]) false
        (Copy.prune layout.root (layOf layout (path ++ [index]) [] kids)) ∈
          layOf layout path front nests := by
  induction nests generalizing front with
  | nil => cases hVisit
  | cons nest nests ih =>
    rcases List.mem_append.1 hVisit with hVisit | hVisit
    · cases nest with
      | here other =>
        obtain rfl := List.mem_singleton.1 hVisit
        obtain ⟨branch, hBranch, hPath⟩ := hOpens
        obtain rfl := Option.some.inj (hBranch.symm.trans h.1)
        have := hPath.length_le
        rw [List.length_append, List.length_singleton] at this
        omega
      | child key kids =>
        obtain rfl : key = index := by
          have hBelow := opens_of_areAt kids h.1.2 visit hVisit
          have hUp := hOpens.upward (List.prefix_append path [index])
          rw [← Visit.step_eq_some hUp] at hBelow hOpens
          exact Option.some.inj (hBelow.symm.trans hOpens)
        have hSome : Visit.hasFill (visitsOf kids) = true := List.any_eq_true.2 ⟨visit, hVisit, hFill⟩
        have hBare : layout.isBare (path ++ [key]) (visitsOf kids)
            (layOf layout (path ++ [key]) [] kids) = false := by
          simp [Layout.isBare, hSome]
        refine ⟨kids, h.1.2, hVisit, List.mem_append_left _ ?_⟩
        rw [lay, hBare]
        exact List.mem_singleton_self _
    · obtain ⟨kids, hKids, hMem, hShell⟩ := ih h.2.2 hVisit (front ++ lay layout path front nest)
      exact ⟨kids, hKids, hMem, List.mem_append_right _ hShell⟩

variable (layout) in
/-- An element in which a leaf was copied has a copy, in a piece that is not bare. -/
theorem rooms_ne_nil_of_fill {rest : Path} {index : Nat} (h : AreAt path nests) {visit : Visit}
    (hVisit : visit ∈ visitsOf nests) (hFill : visit.isFill = true)
    (hOpens : visit.Opens (path ++ index :: rest)) (front : List Copy) :
    Copy.roomsOf (path ++ index :: rest) (Copy.lasting (layOf layout path front nests)) ≠ [] := by
  induction rest generalizing path nests index front with
  | nil =>
    obtain ⟨kids, -, -, hShell⟩ := shell_mem_layOf layout h hVisit hFill hOpens front
    intro hNone
    have hRooms := Copy.roomsOf_eq_nil.1 hNone _ (List.mem_filter.2 ⟨hShell, rfl⟩)
    simp [Copy.rooms] at hRooms
  | cons next rest ih =>
    have hBelow : path ++ index :: next :: rest = path ++ [index] ++ next :: rest := by simp
    rw [hBelow] at hOpens ⊢
    obtain ⟨kids, hKids, hMem, hShell⟩ := shell_mem_layOf layout h hVisit hFill
      (hOpens.upward (List.prefix_append _ _)) front
    intro hNone
    have hRooms := Copy.roomsOf_eq_nil.1 hNone _ (List.mem_filter.2 ⟨hShell, rfl⟩)
    rw [Copy.rooms_shell_of_ne (by simp)] at hRooms
    apply ih hKids hMem hOpens []
    exact List.eq_nil_of_sublist_nil
      (hRooms ▸ Copy.roomsOf_sublist (Copy.lasting_sublist_prune layout.root _))

end Nest

namespace Layout

variable {layout : Layout} {path : Path} {visits : List Visit}

theorem filterMap_prune {β : Type} {f : Copy → Option β}
    (hShell : ∀ source isBare copies, f (.shell source isBare copies) = none) (root : Element)
    (copies : List Copy) : (Copy.prune root copies).filterMap f = copies.filterMap f := by
  rw [Copy.prune]
  generalize (if copies.countP Copy.isBare = (Copy.elementsOf root copies).length then 1 else 0) =
    count
  induction copies generalizing count with
  | nil => rfl
  | cons copy copies ih =>
    cases copy with
    | clone source => simp [Copy.dropBare, Copy.isBare, List.filterMap_cons, ih]
    | leaf source elements => simp [Copy.dropBare, Copy.isBare, List.filterMap_cons, ih]
    | shell source isBare inner =>
      cases isBare with
      | false => simp [Copy.dropBare, Copy.isBare, List.filterMap_cons, ih]
      | true =>
        cases count with
        | zero => simp [Copy.dropBare, Copy.isBare, hShell, ih]
        | succ count => simp [Copy.dropBare, Copy.isBare, hShell, ih]

/-- The pieces in the copy of an element, the elements that were opened in it
apart, are those that the visits to it lay down. -/
theorem filterMap_room {β : Type} {f : Copy → Option β} {g : Visit → Option β}
    (hShell : ∀ source isBare copies, f (.shell source isBare copies) = none)
    (hPiece : ∀ visit front, (visit.pieces layout front).filterMap f = (g visit).toList)
    (h : ∀ visit ∈ visits, visit.Opens path) :
    (layout.room path visits).filterMap f =
      visits.filterMap fun visit => if visit.branch? = some path then g visit else none := by
  rw [room, filterMap_prune hShell, Nest.filterMap_layOf hShell hPiece (Nest.areAt_group h),
    Nest.visitsOf_group]

/-- The copy of an element holds no other copy of it. -/
theorem rooms_shell_self (h : ∀ visit ∈ visits, visit.Opens path) :
    (layout.shell path visits).rooms path = [layout.room path visits] := by
  have hNone : Copy.roomsOf path (layout.room path visits) = [] :=
    List.eq_nil_of_sublist_nil (Nest.roomsOf_layOf_self layout (Nest.areAt_group h) [] ▸
      Copy.roomsOf_prune_sublist layout.root _)
  rw [shell, Copy.rooms, if_pos rfl, hNone, List.append_nil]

theorem sorted_room (h : ∀ visit ∈ visits, visit.Opens path)
    (hSorted : visits.Pairwise fun visit next => ¬ Path.Before next.goal visit.goal) :
    (layout.room path visits).Pairwise fun copy next => ¬ Path.Before next.source copy.source := by
  apply (Nest.sorted_layOf layout (Nest.areAt_group h) _ []).sublist (Layout.dropBare_sublist _ _)
  rwa [Nest.visitsOf_group]

theorem shell_mem_room (h : ∀ visit ∈ visits, visit.Opens path) {visit : Visit} {index : Nat}
    (hVisit : visit ∈ visits) (hFill : visit.isFill = true)
    (hOpens : visit.Opens (path ++ [index])) :
    ∃ copies, Copy.shell (path ++ [index]) false copies ∈ layout.room path visits := by
  obtain ⟨kids, -, -, hShell⟩ := Nest.shell_mem_layOf layout (Nest.areAt_group h)
    (by rwa [Nest.visitsOf_group]) hFill hOpens []
  exact ⟨_, Copy.mem_prune_of_not_isBare hShell rfl⟩

/-- A visit to an element itself parts its children: between copied leaves, an
element inside is opened anew. -/
theorem two_rooms_room {rest : Path} {index : Nat} {left right : List Visit}
    {first middle last : Visit} (hLeft : ∀ visit ∈ left, visit.Opens path)
    (hRight : ∀ visit ∈ right, visit.Opens path) (hMiddle : middle.branch? = some path)
    (hFirst : first ∈ left) (hFirstFill : first.isFill = true)
    (hFirstOpens : first.Opens (path ++ index :: rest))
    (hLast : last ∈ right) (hLastFill : last.isFill = true)
    (hLastOpens : last.Opens (path ++ index :: rest)) :
    2 ≤ (Copy.roomsOf (path ++ index :: rest)
      (layout.room path (left ++ middle :: right))).length := by
  obtain ⟨here, front, hPieces⟩ : ∃ here front,
      Nest.layOf layout path [] (Nest.group path.length (left ++ middle :: right)) =
        Nest.layOf layout path [] (Nest.group path.length left) ++
          (here ++ Nest.layOf layout path front (Nest.group path.length right)) := by
    have hHere : Nest.group path.length (middle :: right) =
        Nest.here middle :: Nest.group path.length right := by
      rw [Nest.group_cons, hMiddle, Option.getD_some, List.drop_length, Nest.insert]
    rw [Nest.group_append, hHere, Nest.layOf_append, Nest.layOf]
    · exact ⟨_, _, rfl⟩
    · intro visit _ key _
      simp [Visit.step, hMiddle]
  have hSome : ∀ {visits : List Visit} {visit : Visit} (front : List Copy),
      (∀ visit ∈ visits, visit.Opens path) → visit ∈ visits → visit.isFill = true →
      visit.Opens (path ++ index :: rest) → 1 ≤ (Copy.roomsOf (path ++ index :: rest)
        (Copy.lasting (Nest.layOf layout path front (Nest.group path.length visits)))).length := by
    intro visits visit front hVisits hVisit hFill hOpens
    apply List.length_pos_iff.2
    exact Nest.rooms_ne_nil_of_fill layout (Nest.areAt_group hVisits)
      (by rwa [Nest.visitsOf_group]) hFill hOpens front
  have hFront := hSome [] hLeft hFirst hFirstFill hFirstOpens
  have hBack := hSome front hRight hLast hLastFill hLastOpens
  have hKept := @Copy.roomsOf_sublist (path ++ index :: rest) _ _
    (Copy.lasting_sublist_prune layout.root
      (Nest.layOf layout path [] (Nest.group path.length (left ++ middle :: right))))
  apply Nat.le_trans _ hKept.length_le
  rw [hPieces, Copy.lasting_append, Copy.lasting_append, Copy.roomsOf_append, Copy.roomsOf_append,
    List.length_append, List.length_append]
  omega

end Layout

end Infill
