import Infill.Proofs.Integrity

/-!
Where the copies of an element stand. An ancestor that was opened has its copies
where it was opened; what is in a subtree that was cloned has them in the clone.
Ancestors are opened one inside the other as they lie in the source, so a copy
stands as deep as what it was made of, in a copy of each of its ancestors.
-/
namespace Infill

open Infill.Xml
open Infill.Path (Before)

namespace Copy

variable (root : Element) (x : Path)

mutual

/-- The places of the copies of an element in a piece that stands at `place`. The
copy of a leaf counts for everything in the leaf. -/
def places (place : Path) : Copy → List Path
  | clone source => if source <+: x then [place ++ x.drop source.length] else []
  | leaf source _ => if source <+: x then [place] else []
  | shell source _ copies => (if source = x then [place] else []) ++ placesOf place 0 copies

/-- The same for pieces that are children at `place` from `index` on. -/
def placesOf (place : Path) (index : Nat) : List Copy → List Path
  | [] => []
  | copy :: rest =>
    places (place ++ [index]) copy ++ placesOf place (index + (copy.elements root).length) rest

end

mutual

/-- The ancestors that were opened in a piece, each in front of what is in it. -/
def shells : Copy → List Path
  | shell source _ copies => source :: shellsOf copies
  | _ => []

/-- The same for pieces that follow each other. -/
def shellsOf : List Copy → List Path
  | [] => []
  | copy :: rest => shells copy ++ shellsOf rest

end

mutual

/-- The ancestors that were opened in a piece which stands at `place`, each with
the place where its copy stands. -/
def openings (place : Path) : Copy → List (Path × Path)
  | shell source _ copies => (place, source) :: openingsOf place 0 copies
  | _ => []

/-- The same for pieces that are children at `place` from `index` on. -/
def openingsOf (place : Path) (index : Nat) : List Copy → List (Path × Path)
  | [] => []
  | copy :: rest =>
    openings (place ++ [index]) copy ++ openingsOf place (index + (copy.elements root).length) rest

end

variable {x}

mutual

theorem map_snd_openings (place : Path) : (copy : Copy) →
    (openings root place copy).map Prod.snd = copy.shells
  | clone _ => rfl
  | leaf .. => rfl
  | shell source isBare copies => by
    rw [openings, List.map_cons, map_snd_openingsOf place 0 copies, shells]

theorem map_snd_openingsOf (place : Path) (index : Nat) : (copies : List Copy) →
    (openingsOf root place index copies).map Prod.snd = shellsOf copies
  | [] => rfl
  | copy :: rest => by
    rw [openingsOf, List.map_append, map_snd_openings, map_snd_openingsOf, shellsOf]

end

mutual

theorem length_rooms : (copy : Copy) → (copy.rooms x).length = copy.shells.count x
  | clone _ => rfl
  | leaf .. => rfl
  | shell source isBare copies => by
    rw [rooms, List.length_append, length_roomsOf copies, shells]
    by_cases hSource : source = x
    · simp [hSource, Nat.add_comm]
    · simp [hSource]

theorem length_roomsOf : (copies : List Copy) → (roomsOf x copies).length = (shellsOf copies).count x
  | [] => rfl
  | copy :: rest => by
    rw [roomsOf, List.length_append, length_rooms, length_roomsOf, shellsOf, List.count_append]

end

theorem shellsOf_sublist {left right : List Copy} (h : left.Sublist right) :
    (shellsOf left).Sublist (shellsOf right) := by
  induction h with
  | slnil => exact List.Sublist.refl []
  | cons copy _ ih => exact ih.trans (List.sublist_append_right _ _)
  | cons_cons copy _ ih => exact (List.Sublist.refl _).append ih

theorem shellsOf_prune_sublist (root : Element) (copies : List Copy) :
    (shellsOf (prune root copies)).Sublist (shellsOf copies) :=
  shellsOf_sublist (Layout.dropBare_sublist _ _)

theorem shellsOf_append (left right : List Copy) :
    shellsOf (left ++ right) = shellsOf left ++ shellsOf right := by
  induction left with
  | nil => rfl
  | cons copy left ih => rw [List.cons_append, shellsOf, shellsOf, ih, List.append_assoc]

mutual

/-- Copies stand in the document in the order of their openings. -/
theorem openings_sorted (place : Path) : (copy : Copy) →
    ((openings root place copy).map Prod.fst).Pairwise (· < ·) ∧
      ∀ p ∈ (openings root place copy).map Prod.fst, place <+: p
  | clone _ => by simp [openings]
  | leaf .. => by simp [openings]
  | shell source isBare copies => by
    obtain ⟨hSorted, hInside⟩ := openingsOf_sorted place 0 copies
    have hBelow : ∀ p ∈ (openingsOf root place 0 copies).map Prod.fst, place <+: p ∧ place ≠ p := by
      intro p hp
      obtain ⟨k, -, rest, rfl⟩ := hInside p hp
      exact ⟨⟨[k] ++ rest, by simp⟩, by simp⟩
    rw [openings, List.map_cons]
    refine ⟨List.pairwise_cons.2 ⟨fun p hp => ?_, hSorted⟩, fun p hp => ?_⟩
    · exact (Path.lt_iff place p).2 (.inr (hBelow p hp))
    · rcases List.mem_cons.1 hp with rfl | hp
      · exact List.prefix_rfl
      · exact (hBelow p hp).1

theorem openingsOf_sorted (place : Path) (index : Nat) : (copies : List Copy) →
    ((openingsOf root place index copies).map Prod.fst).Pairwise (· < ·) ∧
      ∀ p ∈ (openingsOf root place index copies).map Prod.fst, ∃ k, index ≤ k ∧ place ++ [k] <+: p
  | [] => by simp [openingsOf]
  | copy :: rest => by
    obtain ⟨hFirst, hHere⟩ := openings_sorted (place ++ [index]) copy
    obtain ⟨hRest, hLater⟩ := openingsOf_sorted place (index + (copy.elements root).length) rest
    have hOne : (openings root (place ++ [index]) copy).map Prod.fst ≠ [] →
        (copy.elements root).length = 1 := by
      cases copy <;> simp [openings, elements]
    rw [openingsOf, List.map_append]
    refine ⟨List.pairwise_append.2 ⟨hFirst, hRest, fun p hp q hq => ?_⟩, fun p hp => ?_⟩
    · obtain ⟨k, hk, hInside⟩ := hLater q hq
      rw [hOne (List.ne_nil_of_mem hp)] at hk
      have hFork : Before (place ++ [index]) (place ++ [k]) := by
        simpa [Path.before_cons] using Nat.lt_of_succ_le hk
      exact (Path.lt_iff p q).2 (.inl (hFork.extend (hHere p hp) hInside))
    · rcases List.mem_append.1 hp with hp | hp
      · exact ⟨index, Nat.le_refl index, hHere p hp⟩
      · obtain ⟨k, hk, hInside⟩ := hLater p hp
        exact ⟨k, (Nat.le_add_right _ _).trans hk, hInside⟩

end

/-! ### Ancestors are opened one inside the other -/

/-- Whether the ancestors that were opened in a piece are children of what they
were opened in, where the piece stands in a copy of the element at a path. -/
inductive Aligned : Path → Copy → Prop where
  | clone {path source : Path} : Aligned path (.clone source)
  | leaf {path source : Path} {written : List Element} : Aligned path (.leaf source written)
  | shell {path : Path} {index : Nat} {isBare : Bool} {copies : List Copy} :
      (∀ copy ∈ copies, Aligned (path ++ [index]) copy) →
        Aligned path (.shell (path ++ [index]) isBare copies)

variable {root} {p : Path}

mutual

/-- A copy stands as deep as what it was made of, in a copy of each ancestor that
was opened on the way. -/
theorem take_mem_openings : (copy : Copy) → {path place : Path} → Aligned path copy →
    place.length = path.length + 1 → (p, x) ∈ openings root place copy →
    path <+: x ∧ p.length = x.length ∧
      ∀ n, path.length < n → (p.take n, x.take n) ∈ openings root place copy
  | clone _, _, _, _, _, h => by simp [openings] at h
  | leaf .., _, _, _, _, h => by simp [openings] at h
  | shell source isBare copies, path, place, hAligned, hPlace, h => by
    obtain ⟨index, rfl, hCopies⟩ : ∃ index, source = path ++ [index] ∧
        ∀ copy ∈ copies, Aligned source copy := by
      cases hAligned with
      | shell hCopies => exact ⟨_, rfl, hCopies⟩
    have hLength : place.length = (path ++ [index]).length := by simp [hPlace]
    rw [openings] at h ⊢
    rcases List.mem_cons.1 h with hHere | hBelow
    · obtain ⟨rfl, rfl⟩ := Prod.mk.inj hHere
      refine ⟨List.prefix_append path [index], hLength, fun n hn => ?_⟩
      rw [List.take_of_length_le (by omega), List.take_of_length_le (by simp; omega)]
      exact List.mem_cons_self
    · obtain ⟨hInside, hSame, hTake⟩ := take_mem_openingsOf copies hCopies hLength hBelow
      refine ⟨(List.prefix_append path [index]).trans hInside, hSame, fun n hn => ?_⟩
      rcases Nat.lt_or_ge (path ++ [index]).length n with hDeep | hShort
      · exact List.mem_cons_of_mem _ (hTake n hDeep)
      · -- the ancestor is the one that the piece itself is a copy of
        obtain ⟨k, -, rest, rfl⟩ := (openingsOf_sorted root place 0 copies).2 p
          (List.mem_map_of_mem hBelow)
        obtain ⟨more, rfl⟩ := hInside
        have hn : n = (path ++ [index]).length := by simp at hn hShort ⊢; omega
        rw [List.append_assoc, List.take_left' (by omega), List.take_left' hn.symm]
        exact List.mem_cons_self

theorem take_mem_openingsOf : (copies : List Copy) → {path place : Path} → {index : Nat} →
    (∀ copy ∈ copies, Aligned path copy) → place.length = path.length →
    (p, x) ∈ openingsOf root place index copies → path <+: x ∧ p.length = x.length ∧
      ∀ n, path.length < n → (p.take n, x.take n) ∈ openingsOf root place index copies
  | [], _, _, _, _, _, h => by simp [openingsOf] at h
  | copy :: rest, path, place, index, hAligned, hPlace, h => by
    rw [openingsOf] at h ⊢
    rcases List.mem_append.1 h with h | h
    · obtain ⟨hInside, hSame, hTake⟩ := take_mem_openings copy (hAligned copy List.mem_cons_self)
        (by simp [hPlace]) h
      exact ⟨hInside, hSame, fun n hn => List.mem_append_left _ (hTake n hn)⟩
    · obtain ⟨hInside, hSame, hTake⟩ := take_mem_openingsOf rest
        (fun other hOther => hAligned other (List.mem_cons_of_mem copy hOther)) hPlace h
      exact ⟨hInside, hSame, fun n hn => List.mem_append_right _ (hTake n hn)⟩

end

end Copy

namespace Nest

variable {layout : Layout} {path : Path}

mutual

theorem aligned_lay : (nest : Nest) → {path : Path} → {front : List Copy} →
    ∀ copy ∈ lay layout path front nest, Copy.Aligned path copy
  | here visit, path, front, copy, hCopy => by
    rw [lay] at hCopy
    cases visit with
    | clone floor source =>
      obtain rfl := List.mem_singleton.1 hCopy
      exact .clone
    | fill floor source text =>
      obtain rfl := List.mem_singleton.1 hCopy
      exact .leaf
    | pass floor source => cases hCopy
    | back depth => cases hCopy
  | child index nests, path, front, copy, hCopy => by
    obtain rfl := List.mem_singleton.1 hCopy
    exact .shell fun inner hInner => aligned_layOf nests inner (Layout.mem_of_mem_prune hInner)

theorem aligned_layOf : (nests : List Nest) → {path : Path} → {front : List Copy} →
    ∀ copy ∈ layOf layout path front nests, Copy.Aligned path copy
  | [], _, _, _, hCopy => by cases hCopy
  | nest :: nests, path, front, copy, hCopy => by
    rcases List.mem_append.1 hCopy with hCopy | hCopy
    · exact aligned_lay nest copy hCopy
    · exact aligned_layOf nests copy hCopy

end

/-- An ancestor that was opened was opened for a visit to it or below. -/
theorem opens_of_mem_shellsOf {nests : List Nest} {x : Path} {front : List Copy}
    (h : AreAt path nests) (hx : x ∈ Copy.shellsOf (layOf layout path front nests)) :
    path <+: x ∧ ∃ visit ∈ visitsOf nests, visit.Opens x := by
  obtain ⟨room, hRoom⟩ : ∃ room, room ∈ Copy.roomsOf x (layOf layout path front nests) := by
    apply List.exists_mem_of_length_pos
    rw [Copy.length_roomsOf]
    exact List.count_pos_iff.2 hx
  obtain ⟨hLength, visit, hVisit, branch, hBranch, hInside⟩ := of_mem_roomsOf_layOf nests h hRoom
  obtain ⟨other, hOther, hPath⟩ := opens_of_areAt nests h visit hVisit
  obtain rfl := Option.some.inj (hBranch.symm.trans hOther)
  exact ⟨List.prefix_of_prefix_length_le hPath hInside (Nat.le_of_lt hLength), visit, hVisit,
    branch, hBranch, hInside⟩

mutual

/-- Visits that never go back in the document open ancestors in its order. -/
theorem sorted_shellsOf_lay : (nest : Nest) → {path : Path} → {front : List Copy} →
    IsAt path nest → (nest.visits.Pairwise fun visit next => ¬ Before next.goal visit.goal) →
    (Copy.shellsOf (lay layout path front nest)).Pairwise fun x y => ¬ Before y x
  | here visit, path, front, _, _ => by
    cases visit <;> simp [lay, Visit.pieces, Copy.shellsOf, Copy.shells]
  | child index nests, path, front, h, hSorted => by
    have hPrune := Copy.shellsOf_prune_sublist layout.root
      (layOf layout (path ++ [index]) [] nests)
    rw [lay, Copy.shellsOf, Copy.shellsOf, List.append_nil, Copy.shells]
    refine List.pairwise_cons.2 ⟨fun x hx => ?_, (sorted_shellsOf_layOf nests h.2 hSorted).sublist hPrune⟩
    exact Path.not_inside_before (opens_of_mem_shellsOf h.2 (hPrune.subset hx)).1

theorem sorted_shellsOf_layOf : (nests : List Nest) → {path : Path} → {front : List Copy} →
    AreAt path nests →
    ((visitsOf nests).Pairwise fun visit next => ¬ Before next.goal visit.goal) →
    (Copy.shellsOf (layOf layout path front nests)).Pairwise fun x y => ¬ Before y x
  | [], _, _, _, _ => List.Pairwise.nil
  | nest :: nests, path, front, h, hSorted => by
    obtain ⟨hFirst, hRest, hApart⟩ := List.pairwise_append.1 hSorted
    rw [layOf, Copy.shellsOf_append]
    refine List.pairwise_append.2 ⟨sorted_shellsOf_lay nest h.1 hFirst,
      sorted_shellsOf_layOf nests h.2.2 hRest, fun x hx y hy hBefore => ?_⟩
    have hAlone : AreAt path [nest] := ⟨h.1, by simp, trivial⟩
    have hMem : x ∈ Copy.shellsOf (layOf layout path front [nest]) := by simpa [layOf] using hx
    obtain ⟨-, visit, hVisit, hOpens⟩ := opens_of_mem_shellsOf hAlone hMem
    rw [visitsOf, visitsOf, List.append_nil] at hVisit
    obtain ⟨-, later, hLater, hLaterOpens⟩ := opens_of_mem_shellsOf h.2.2 hy
    exact hApart visit hVisit later hLater
      (hBefore.extend hLaterOpens.prefix_goal hOpens.prefix_goal)

end

end Nest

namespace Layout

variable {layout : Layout} {cloned opened : Path → Prop} {line : Line} {out : Element}
  {copies : List Copy} {x p : Path}

mutual

/-- Where nothing around an element was cloned or copied as a leaf, its copies are
those that were opened for it. -/
theorem places_eq (hCloned : ∀ source, cloned source → ¬ source <+: x)
    (hLeaves : ∀ leaf ∈ layout.leaves, ¬ leaf <+: x) : (copy : Copy) → {place : Path} →
    layout.Faithful cloned opened copy → copy.places layout.root x place =
      ((copy.openings layout.root place).filter (·.2 = x)).map Prod.fst
  | .clone source, place, h => by
    cases h with
    | clone _ hSource => rw [Copy.places, if_neg (hCloned source hSource)]; rfl
  | .leaf source written, place, h => by
    cases h with
    | leaf _ _ hLeaf => rw [Copy.places, if_neg (hLeaves source hLeaf)]; rfl
  | .shell source isBare copies, place, h => by
    cases h with
    | shell _ _ hCopies =>
      rw [Copy.places, placesOf_eq hCloned hLeaves copies hCopies, Copy.openings]
      by_cases hSource : source = x
      · simp [hSource]
      · simp [hSource]

theorem placesOf_eq (hCloned : ∀ source, cloned source → ¬ source <+: x)
    (hLeaves : ∀ leaf ∈ layout.leaves, ¬ leaf <+: x) :
    (copies : List Copy) → {place : Path} → {index : Nat} →
    (∀ copy ∈ copies, layout.Faithful cloned opened copy) →
    Copy.placesOf layout.root x place index copies =
      ((Copy.openingsOf layout.root place index copies).filter (·.2 = x)).map Prod.fst
  | [], _, _, _ => rfl
  | copy :: rest, place, index, h => by
    rw [Copy.placesOf, Copy.openingsOf, List.filter_append, List.map_append,
      places_eq hCloned hLeaves copy (h copy List.mem_cons_self),
      placesOf_eq hCloned hLeaves rest fun other hOther =>
        h other (List.mem_cons_of_mem copy hOther)]

end

mutual

/-- Every copy of an element outside of the leaves is the element itself, where
something around it was cloned, or it holds what was laid down in it. -/
theorem descendant?_of_mem_places (hLeaves : ∀ leaf ∈ layout.leaves, ¬ leaf <+: x)
    (hReaches : layout.root.Reaches x) : (copy : Copy) → {place : Path} →
    layout.Faithful cloned opened copy →
    (∀ e, copy.elements layout.root = [e] → out.descendant? place = some e) →
    p ∈ copy.places layout.root x place →
    (∃ source, cloned source ∧ source <+: x) ∧
        out.descendant? p = some (layout.root.descendant x) ∨
      ∃ room ∈ copy.rooms x, out.descendant? p =
        some { layout.root.descendant x with children := Copy.elementsOf layout.root room }
  | .clone source, place, h, hPlace, hp => by
    rw [Copy.places] at hp
    split at hp
    · rename_i hInside
      have hSource : cloned source := by
        cases h with
        | clone _ hSource => exact hSource
      obtain rfl := List.mem_singleton.1 hp
      refine .inl ⟨⟨source, hSource, hInside⟩, ?_⟩
      obtain ⟨rest, rfl⟩ := hInside
      rw [List.drop_left, Element.descendant?_append, hPlace _ rfl, Option.bind_some]
      rw [← hReaches.descendant?_eq, Element.descendant?_append,
        hReaches.of_append.descendant?_eq, Option.bind_some]
    · cases hp
  | .leaf source written, place, h, _, hp => by
    cases h with
    | leaf _ _ hLeaf =>
      rw [Copy.places, if_neg (hLeaves source hLeaf)] at hp
      cases hp
  | .shell source isBare copies, place, h, hPlace, hp => by
    cases h with
    | shell _ _ hCopies =>
      rw [Copy.places] at hp
      rcases List.mem_append.1 hp with hHere | hBelow
      · split at hHere
        · rename_i hSource
          obtain rfl := List.mem_singleton.1 hHere
          subst hSource
          exact .inr ⟨copies, by simp [Copy.rooms], hPlace _ rfl⟩
        · cases hHere
      · have hInner := descendant?_of_mem_placesOf hLeaves hReaches copies hCopies (fun k e hChild => by
          rw [Element.descendant?_append, hPlace _ rfl]
          simpa [Element.descendant?] using hChild) hBelow
        apply hInner.imp_right
        rintro ⟨room, hRoom, hSome⟩
        exact ⟨room, List.mem_append_right _ hRoom, hSome⟩

theorem descendant?_of_mem_placesOf (hLeaves : ∀ leaf ∈ layout.leaves, ¬ leaf <+: x)
    (hReaches : layout.root.Reaches x) : (copies : List Copy) → {place : Path} → {index : Nat} →
    (∀ copy ∈ copies, layout.Faithful cloned opened copy) →
    (∀ k e, (Copy.elementsOf layout.root copies)[k]? = some e →
      out.descendant? (place ++ [index + k]) = some e) →
    p ∈ Copy.placesOf layout.root x place index copies →
    (∃ source, cloned source ∧ source <+: x) ∧
        out.descendant? p = some (layout.root.descendant x) ∨
      ∃ room ∈ Copy.roomsOf x copies, out.descendant? p =
        some { layout.root.descendant x with children := Copy.elementsOf layout.root room }
  | [], _, _, _, _, hp => by simp [Copy.placesOf] at hp
  | copy :: rest, place, index, h, hPlace, hp => by
    rw [Copy.placesOf] at hp
    rcases List.mem_append.1 hp with hHere | hLater
    · have hFirst := descendant?_of_mem_places hLeaves hReaches copy (h copy List.mem_cons_self)
        (fun e hOne => hPlace 0 e (by rw [Copy.elementsOf_cons, hOne]; rfl)) hHere
      apply hFirst.imp_right
      rintro ⟨room, hRoom, hSome⟩
      exact ⟨room, List.mem_append_left _ hRoom, hSome⟩
    · have hRest := descendant?_of_mem_placesOf hLeaves hReaches rest
        (fun other hOther => h other (List.mem_cons_of_mem copy hOther)) (fun k e hChild => by
          rw [Nat.add_assoc]
          apply hPlace ((copy.elements layout.root).length + k) e
          rw [Copy.elementsOf_cons, List.getElem?_append_right (Nat.le_add_right _ _),
            Nat.add_sub_cancel_left, hChild]) hLater
      apply hRest.imp_right
      rintro ⟨room, hRoom, hSome⟩
      exact ⟨room, List.mem_append_right _ hRoom, hSome⟩

end

/-- What stands at the place of a copy in a finished document. -/
theorem MadeOf.descendant?_of_mem_places (h : layout.MadeOf line out copies)
    (hLeaves : ∀ leaf ∈ layout.leaves, ¬ leaf <+: x) (hReaches : layout.root.Reaches x)
    (hp : p ∈ (Copy.shell [] false copies).places layout.root x []) :
    (∃ source, layout.OffPath source ∧ source <+: x) ∧
        out.descendant? p = some (layout.root.descendant x) ∨
      ∃ room ∈ (Copy.shell [] false copies).rooms x, out.descendant? p =
        some { layout.root.descendant x with children := Copy.elementsOf layout.root room } := by
  rw [Copy.places] at hp
  rcases List.mem_append.1 hp with hRoot | hBelow
  · split at hRoot
    · rename_i hSource
      obtain rfl := List.mem_singleton.1 hRoot
      subst hSource
      exact .inr ⟨copies, by simp [Copy.rooms], by rw [h.elements]; rfl⟩
    · cases hRoot
  · have hPlace : ∀ k e, (Copy.elementsOf layout.root copies)[k]? = some e →
        out.descendant? ([] ++ [0 + k]) = some e := by
      intro k e hChild
      rw [h.elements]
      simpa [Element.descendant?] using hChild
    have hInner := descendant?_of_mem_placesOf hLeaves hReaches copies h.faithful hPlace hBelow
    apply hInner.imp_right
    rintro ⟨room, hRoom, hSome⟩
    exact ⟨room, List.mem_append_right _ hRoom, hSome⟩

/-! ### The openings of a finished document -/

theorem inside_nil (layout : Layout) (line : Line) :
    layout.inside line [] = layout.way.map (layout.visitAt line) := by
  rw [inside, List.filter_eq_self.2 fun y hy => decide_eq_true (opens_nil hy)]

section

variable (hPlaces : ∀ entry ∈ line, 1 ≤ entry.1.index ∧ entry.1.index ≤ layout.count)
  (hLine : Line.IsForward line)
include hPlaces hLine

theorem copied_forward : layout.copied (layout.itinerary line) =
    layout.room [] (layout.inside line []) := by
  rw [itinerary_forward hPlaces hLine, copied_eq_layOf fun _ => opens_nil_of_mem, inside_nil]
  rfl

/-- A run that passes through the document once opens ancestors in its order. -/
theorem sorted_shells_finished :
    (layout.finished line).shells.Pairwise fun x y => ¬ Before y x := by
  have hPieces : (Copy.shellsOf (Nest.layOf layout [] []
      (Nest.group 0 (layout.inside line [])))).Pairwise fun x y => ¬ Before y x := by
    apply Nest.sorted_shellsOf_layOf _ (areAt_inside line [])
    rw [Nest.visitsOf_group]
    exact sorted_inside line []
  rw [finished, copied_forward hPlaces hLine, Copy.shells]
  apply List.pairwise_cons.2
  constructor
  · intro x _
    exact Path.not_before_nil x
  · exact hPieces.sublist (Copy.shellsOf_prune_sublist layout.root _)

/-- What stands further down in a finished document does not come from in front. -/
theorem not_before_of_mem_openings {a b : Path × Path}
    (ha : a ∈ (layout.finished line).openings layout.root [])
    (hb : b ∈ (layout.finished line).openings layout.root []) (hLess : a.1 < b.1) :
    ¬ Before b.2 a.2 := by
  have hPlaced := List.pairwise_map.1 ((layout.finished line).openings_sorted layout.root []).1
  have hSources := sorted_shells_finished hPlaces hLine
  rw [← Copy.map_snd_openings layout.root [], List.pairwise_map] at hSources
  obtain ⟨i, hi, rfl⟩ := List.mem_iff_getElem.1 ha
  obtain ⟨j, hj, rfl⟩ := List.mem_iff_getElem.1 hb
  rcases Nat.lt_trichotomy i j with hij | rfl | hji
  · exact List.pairwise_iff_getElem.1 hSources i j hi hj hij
  · exact absurd hLess (lt_irrefl _)
  · exact absurd hLess (lt_asymm (List.pairwise_iff_getElem.1 hPlaced j i hj hi hji))

/-- The copies of the ancestors of a copy stand around it. -/
theorem take_mem_openings_finished (h : (p, x) ∈ (layout.finished line).openings layout.root []) :
    p.length = x.length ∧
      ∀ n, (p.take n, x.take n) ∈ (layout.finished line).openings layout.root [] := by
  have hAligned : ∀ copy ∈ layout.copied (layout.itinerary line), Copy.Aligned [] copy := by
    rw [copied_forward hPlaces hLine]
    exact fun copy hCopy => Nest.aligned_layOf _ copy (mem_of_mem_prune hCopy)
  rw [finished, Copy.openings] at h ⊢
  rcases List.mem_cons.1 h with hRoot | hBelow
  · obtain ⟨rfl, rfl⟩ := Prod.mk.inj hRoot
    simp
  · obtain ⟨-, hLength, hTake⟩ := Copy.take_mem_openingsOf _ hAligned rfl hBelow
    refine ⟨hLength, fun n => ?_⟩
    cases n with
    | zero => exact List.mem_cons_self
    | succ n => exact List.mem_cons_of_mem _ (hTake _ (Nat.succ_pos n))

end

end Layout

end Infill
