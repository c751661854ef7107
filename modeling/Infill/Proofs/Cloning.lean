import Infill.Proofs.Flattening
import Infill.Proofs.Zipper

/-!
What a builder clones stays. An open copy that content was cloned into is noted as
such, and so are the copies around it once it is closed, so none of them is taken out;
what is taken out are closed copies that nothing was cloned into. The finished tree
holds all content in the order in which it was cloned.
-/
namespace Infill

open Infill.Xml

/-! ### Forests -/

/-- Whether elements stand in a forest in order, none of them in another one. -/
inductive Houses : (forest items : List Element) → Prop
  | nil : Houses [] []
  | skip {e : Element} {forest items : List Element} (h : Houses forest items) :
      Houses (e :: forest) items
  | here {e : Element} {forest items : List Element} (h : Houses forest items) :
      Houses (e :: forest) (e :: items)
  | inside {e : Element} {forest inner items : List Element} (hInner : Houses e.children inner)
      (h : Houses forest items) : Houses (e :: forest) (inner ++ items)

namespace Houses

variable {forest more items others : List Element} {e : Element}

theorem none (forest : List Element) : Houses forest [] := by
  induction forest with
  | nil => exact .nil
  | cons e forest ih => exact .skip ih

theorem filter (p : Element → Bool) (forest : List Element) : Houses forest (forest.filter p) := by
  induction forest with
  | nil => exact .nil
  | cons e forest ih =>
    rw [List.filter_cons]
    split
    · exact .here ih
    · exact .skip ih

theorem append (h : Houses forest items) (hMore : Houses more others) :
    Houses (forest ++ more) (items ++ others) := by
  induction h with
  | nil => exact hMore
  | skip h ih => exact .skip ih
  | here h ih => exact .here ih
  | inside hInner h ihInner ih =>
    rw [List.append_assoc]
    exact .inside hInner ih

/-- More trees house no less. -/
theorem mono (h : Houses forest items) (hMore : forest.Sublist more) : Houses more items := by
  induction hMore generalizing items with
  | slnil => exact h
  | cons e hMore ih => exact .skip (ih h)
  | cons_cons e hMore ih =>
    cases h with
    | skip h => exact .skip (ih h)
    | here h => exact .here (ih h)
    | inside hInner h => exact .inside hInner (ih h)

end Houses

/-- The element at a place of a forest. -/
def standsAt? (forest : List Element) : Path → Option Element
  | [] => none
  | index :: path => forest[index]?.bind fun e => e.descendant? path

/-- The place of the same element when another tree goes in front. -/
def shift : Path → Path
  | [] => []
  | index :: path => (index + 1) :: path

/-- Whether elements stand at places of a forest that follow each other. -/
structure Stand (forest : List Element) (places : List Path) (items : List Element) : Prop where
  ordered : places.Pairwise Path.Before
  stands : List.Forall₂ (fun place e => standsAt? forest place = some e) places items

namespace Stand

variable {forest items inner : List Element} {places below : List Path} {e : Element}

theorem nil (forest : List Element) : Stand forest [] [] :=
  ⟨.nil, .nil⟩

theorem standsAt?_of_mem (h : Stand forest places items) {place : Path} (hPlace : place ∈ places) :
    ∃ found, standsAt? forest place = some found := by
  obtain ⟨found, -, hFound⟩ := exists_of_forall₂ h.stands hPlace
  exact ⟨found, hFound⟩

theorem shift (h : Stand forest places items) (e : Element) :
    Stand (e :: forest) (places.map shift) items where
  ordered := by
    refine List.pairwise_map.2 (h.ordered.imp fun {left right} hBefore => ?_)
    obtain _ | ⟨i, left⟩ := left
    · exact absurd hBefore (Path.nil_not_before _)
    obtain _ | ⟨j, right⟩ := right
    · exact absurd hBefore (Path.not_before_nil _)
    exact hBefore.imp Nat.succ_lt_succ fun hSame => ⟨congrArg Nat.succ hSame.1, hSame.2⟩
  stands := by
    refine List.forall₂_map_left_iff.2 (h.stands.imp fun place found hFound => ?_)
    obtain _ | ⟨index, path⟩ := place
    · cases hFound
    · exact hFound

/-- What stands in other trees stands behind everything in the first one. -/
theorem behind (h : Stand forest places items) (path : Path) :
    ∀ right ∈ places.map Infill.shift, Path.Before (0 :: path) right := by
  intro right hRight
  obtain ⟨second, hSecond, rfl⟩ := List.mem_map.1 hRight
  obtain ⟨found, hFound⟩ := h.standsAt?_of_mem hSecond
  obtain _ | ⟨index, path⟩ := second
  · cases hFound
  · exact .inl (Nat.succ_pos index)

/-- What stands in the first tree goes in front of what stands in the others. -/
theorem inside (hInner : Stand e.children below inner) (h : Stand forest places items) :
    Stand (e :: forest) (below.map (0 :: ·) ++ places.map Infill.shift) (inner ++ items) where
  ordered := by
    refine List.pairwise_append.2 ⟨?_, (h.shift e).ordered, fun left hLeft right hRight => ?_⟩
    · refine List.pairwise_map.2 (hInner.ordered.imp fun {left right} hBefore => ?_)
      exact .inr ⟨rfl, hBefore⟩
    · obtain ⟨first, -, rfl⟩ := List.mem_map.1 hLeft
      exact h.behind first right hRight
  stands := by
    refine List.rel_append ?_ (h.shift e).stands
    refine List.forall₂_map_left_iff.2 (hInner.stands.imp fun place found hFound => ?_)
    obtain _ | ⟨index, path⟩ := place
    · cases hFound
    · exact hFound

theorem here (e : Element) (h : Stand forest places items) :
    Stand (e :: forest) ([0] :: places.map Infill.shift) (e :: items) where
  ordered := List.pairwise_cons.2 ⟨h.behind [], (h.shift e).ordered⟩
  stands := .cons rfl (h.shift e).stands

end Stand

/-- What a forest houses stands at places that follow each other. -/
theorem Houses.exists_places {forest items : List Element} (h : Houses forest items) :
    ∃ places, Stand forest places items := by
  induction h with
  | nil => exact ⟨[], .nil []⟩
  | skip h ih =>
    obtain ⟨places, hPlaces⟩ := ih
    exact ⟨_, hPlaces.shift _⟩
  | here h ih =>
    obtain ⟨places, hPlaces⟩ := ih
    exact ⟨_, hPlaces.here _⟩
  | inside hInner h ihInner ih =>
    obtain ⟨below, hBelow⟩ := ihInner
    obtain ⟨places, hPlaces⟩ := ih
    exact ⟨_, hBelow.inside hPlaces⟩

/-! ### What steps preserve -/

/-- Whether a property of builders stays when copies are opened and closed and children
are added, in the way steps do. -/
structure Builder.Stable (P : Builder → Prop) : Prop where
  openChild : ∀ (b : Builder) (step : Nat) (e : Element), P b →
    b.source.descendant? (b.chain ++ [step]) = some e → P (b.openChild step e)
  addChild : ∀ (b : Builder) (parent child : Element), P b →
    b.source.descendant? b.chain = some parent → child ∈ parent.children → P (b.addChild child)
  close : ∀ b : Builder, P b → P b.close
  furnish : ∀ b : Builder, P b → P b.furnish
  settle : ∀ b : Builder, P b → P b.settle
  setFloor : ∀ (b : Builder) (floor : Option Nat), P b → P (b.setFloor floor)
  noteRoute : ∀ (b : Builder) (route : Option Route), P b → P { b with route := route }

theorem Builder.Stable.rewind {P : Builder → Prop} (hP : Stable P) {b : Builder} (h : P b)
    (depth : Nat) : P (b.rewind depth) := by
  rw [Builder.rewind]
  induction b.depth - depth with
  | zero => exact h
  | succ count ih => exact hP.close _ ih

theorem Builder.source_addChild (b : Builder) (e : Element) : (b.addChild e).source = b.source := by
  obtain ⟨source, format, root, rootBare, _ | ⟨frame, rest⟩, floor, route⟩ := b <;> rfl

theorem Builder.stable_source (source : Element) : Stable fun b => b.source = source where
  openChild _ _ _ h _ := h
  addChild b _ e h _ _ := (source_addChild b e).trans h
  close b h := by
    obtain ⟨source, format, root, rootBare, _ | ⟨frame, rest⟩, floor, route⟩ := b
    · exact h
    · rw [close]
      dsimp only
      split
      · obtain _ | ⟨outer, rest⟩ := rest <;> exact h
      · obtain _ | ⟨outer, rest⟩ := rest <;> exact h
  furnish b h := by
    obtain ⟨source, format, root, rootBare, _ | ⟨frame, rest⟩, floor, route⟩ := b <;> exact h
  settle _ h := h
  setFloor _ _ h := h
  noteRoute _ _ h := h

theorem Xml.Element.descendant?_of_find {e found : Element} {path : Path}
    (h : e.find path = .ok found) : e.descendant? path = some found := by
  rw [find] at h
  generalize ([] : Path) = walked at h
  induction path generalizing e walked with
  | nil => rw [descendant?_nil, Except.ok.inj h]
  | cons index path ih =>
    rw [findFrom] at h
    cases hChild : e.children[index]? with
    | none =>
      rw [hChild] at h
      cases h
    | some child =>
      rw [hChild] at h
      rw [descendant?, hChild, Option.bind_some]
      exact ih _ h

theorem Xml.Element.getElem?_of_child {e found : Element} {index : Nat}
    (h : e.child index = .ok found) : e.children[index]? = some found := by
  rw [child] at h
  cases hGet : e.children[index]? with
  | none =>
    rw [hGet] at h
    cases h
  | some other =>
    rw [hGet] at h
    rw [Except.ok.inj h]

namespace BuilderM

open Builder (Stable)

variable {α β : Type} {P : Builder → Prop} {b b' : Builder}

/-- What holds of the builders that the steps leave behind. -/
theorem after_bind {action : BuilderM α} {next : α → BuilderM β} (h : P (after (action.run b)))
    (hNext : ∀ a b', action.run b = .ok a b' → P b' → P (after ((next a).run b'))) :
    P (after ((action >>= next).run b)) := by
  cases hRun : action.run b with
  | ok a b' =>
    rw [hRun] at h
    rw [Desk.run_bind_ok hRun]
    exact hNext a b' hRun h
  | error error b' =>
    rw [hRun] at h
    rwa [run_bind_error hRun]

theorem of_after {action : BuilderM α} {a : α} (h : P (after (action.run b)))
    (hRun : action.run b = .ok a b') : P b' := by
  rwa [hRun] at h

/-- If steps succeed together, each of them does. -/
theorem bind_eq_ok {action : BuilderM α} {next : α → BuilderM β} {c : β}
    (h : (action >>= next).run b = .ok c b') :
    ∃ a between, action.run b = .ok a between ∧ (next a).run between = .ok c b' := by
  cases hRun : action.run b with
  | ok a between => exact ⟨a, between, rfl, by rwa [Desk.run_bind_ok hRun] at h⟩
  | error error between =>
    rw [run_bind_error hRun] at h
    cases h

theorem run_get_bind (next : Builder → BuilderM α) (b : Builder) :
    (get >>= next).run b = (next b).run b := rfl

theorem run_modify_bind (f : Builder → Builder) (next : PUnit → BuilderM α) (b : Builder) :
    (modify f >>= next).run b = (next ⟨⟩).run (f b) := rfl

theorem after_check (result : Except Error α) (b : Builder) :
    after ((check result).run b) = b := by
  cases result <;> rfl

theorem openAlong_stable (hP : Stable P) (path : Path) {walked : Path} (h : P b)
    (hChain : b.chain = walked) : P (after ((openAlong walked path).run b)) := by
  induction path generalizing b walked with
  | nil => exact h
  | cons step path ih =>
    subst hChain
    rw [openAlong, run_get_bind]
    refine after_bind (by rwa [after_check]) fun e b' hCheck _ => ?_
    obtain ⟨rfl, hFind⟩ := check_eq_ok hCheck
    rw [run_modify_bind]
    exact ih (hP.openChild b' step e h (Element.descendant?_of_find hFind))
      (Builder.chain_openChild b' step e)

theorem chain_openAlong {path walked : Path} (hChain : b.chain = walked)
    (h : (openAlong walked path).run b = .ok () b') : b'.chain = walked ++ path := by
  induction path generalizing b walked with
  | nil =>
    cases h
    rw [hChain, List.append_nil]
  | cons step path ih =>
    subst hChain
    rw [openAlong, run_get_bind] at h
    obtain ⟨e, between, hCheck, hRest⟩ := bind_eq_ok h
    obtain ⟨rfl, -⟩ := check_eq_ok hCheck
    rw [run_modify_bind] at hRest
    rw [ih (Builder.chain_openChild between step e) hRest, List.append_assoc]
    rfl

theorem descend_stable (hP : Stable P) (branch : Path) (h : P b) :
    P (after ((descend branch).run b)) := by
  rw [descend, run_get_bind]
  dsimp only
  rw [run_modify_bind]
  exact openAlong_stable hP _ (hP.rewind h _)
    ((Builder.chain_rewind b _).trans (Path.take_sharedLength b.chain branch))

/-- A builder that got to a place stands there. -/
theorem chain_descend {branch : Path} (h : (descend branch).run b = .ok () b') :
    b'.chain = branch := by
  rw [descend, run_get_bind] at h
  dsimp only at h
  rw [run_modify_bind] at h
  rw [chain_openAlong ((Builder.chain_rewind b _).trans (Path.take_sharedLength b.chain branch)) h,
    List.take_append_drop]

theorem source_descend {branch : Path} (h : (descend branch).run b = .ok () b') :
    b'.source = b.source := by
  have hSource := descend_stable (Builder.stable_source b.source) branch rfl
  rwa [h] at hSource

theorem copyChildren_stable (hP : Stable P) {parent : Element} (index count : Nat) (h : P b)
    (hParent : b.source.descendant? b.chain = some parent) :
    P (after ((copyChildren parent index count).run b)) := by
  induction count generalizing index b with
  | zero => exact h
  | succ count ih =>
    rw [copyChildren]
    refine after_bind (by rwa [after_check]) fun child b' hCheck _ => ?_
    obtain ⟨rfl, hChild⟩ := check_eq_ok hCheck
    rw [run_modify_bind, run_get_bind]
    have hMem := List.mem_of_getElem? (Element.getElem?_of_child hChild)
    refine after_bind (ih (index + 1) (hP.addChild b' parent child h hParent hMem) ?_)
      fun _ _ _ hDone => hDone
    rwa [Builder.source_addChild, Builder.chain_addChild]

theorem copyRoute_stable (hP : Stable P) (route : Route) (h : P b) :
    P (after ((copyRoute route).run b)) := by
  rw [copyRoute]
  cases route.isEmpty with
  | true => exact h
  | false =>
    refine after_bind (descend_stable hP _ h) fun _ opened hDescend hOpened => ?_
    rw [run_get_bind]
    refine after_bind (by rwa [after_check]) fun parent between hCheck _ => ?_
    obtain ⟨rfl, hFind⟩ := check_eq_ok hCheck
    have hParent : between.source.descendant? between.chain = some parent := by
      rw [chain_descend hDescend]
      exact Element.descendant?_of_find hFind
    refine after_bind (copyChildren_stable hP _ _ hOpened hParent) fun isContent last _ hLast => ?_
    cases isContent with
    | true => exact hP.noteRoute _ _ (hP.furnish _ hLast)
    | false => exact hP.noteRoute _ _ hLast

theorem copy_stable (hP : Stable P) (routes : List Route) (h : P b) :
    P (after ((copy routes).run b)) := by
  rw [copy]
  induction routes generalizing b with
  | nil => exact h
  | cons route routes ih =>
    exact after_bind (copyRoute_stable hP route h) fun _ b' _ hNext => ih hNext

theorem copyLeaf_stable (hP : Stable P) (path : Path) (h : P b) :
    P (after ((copyLeaf path).run b)) := by
  rw [copyLeaf]
  cases path.getLast? with
  | none => exact h
  | some last =>
    exact after_bind (copyRoute_stable hP _ h) fun _ b' _ hNext => hP.settle b' hNext

/-- Every call of a builder goes in such steps, also one that fails. -/
theorem exec_stable (hP : Stable P) (call : Builder.Call) (h : P b) :
    P (after (call.exec.run b)) := by
  cases call with
  | copy routes => exact copy_stable hP routes h
  | copyLeaf path => exact copyLeaf_stable hP path h
  | descend branch => exact descend_stable hP branch h
  | rewind depth => exact hP.rewind h depth
  | setFloor floor => exact hP.setFloor b floor h

end BuilderM

/-! ### Open copies -/

namespace Builder

/-- The children that stay when those at some indices are taken out. -/
def spared (children : List Element) (bare : List Nat) : List Element :=
  bare.foldr (fun index children => children.eraseIdx index) children

theorem spared_sublist (children : List Element) (bare : List Nat) :
    (spared children bare).Sublist children := by
  induction bare with
  | nil => exact .refl children
  | cons index bare ih => exact (List.eraseIdx_sublist _ _).trans ih

theorem prune_sublist (e : Element) (bare : List Nat) :
    (e.prune bare).children.Sublist e.children :=
  spared_sublist e.children _

/-- Pruning spares at least these children. -/
theorem spared_sublist_prune (e : Element) (bare : List Nat) :
    (spared e.children bare).Sublist (e.prune bare).children := by
  rw [Element.prune]
  dsimp only
  split
  · obtain _ | ⟨index, bare⟩ := bare
    · exact .refl e.children
    · exact List.eraseIdx_sublist _ _
  · exact .refl _

/-- Taking out children behind an index leaves that many. -/
theorem lt_length_spared {children : List Element} {bare : List Nat} {index : Nat}
    (hIndex : index < children.length) (hBehind : ∀ other ∈ bare, index < other) :
    index < (spared children bare).length := by
  induction bare with
  | nil => exact hIndex
  | cons other bare ih =>
    have hRest := ih fun later hLater => hBehind later (List.mem_cons_of_mem other hLater)
    have hOther := hBehind other List.mem_cons_self
    change index < ((spared children bare).eraseIdx other).length
    rw [List.length_eraseIdx]
    split
    · omega
    · exact hRest

/-- Children that are added behind those that were there are spared. -/
theorem spared_append {children : List Element} {bare : List Nat}
    (hAscending : bare.Pairwise (· < ·)) (hBelow : ∀ index ∈ bare, index < children.length)
    (more : List Element) : spared (children ++ more) bare = spared children bare ++ more := by
  induction bare with
  | nil => rfl
  | cons index bare ih =>
    obtain ⟨hFirst, hRest⟩ := List.pairwise_cons.1 hAscending
    have hLess := lt_length_spared (hBelow index List.mem_cons_self) hFirst
    change (spared (children ++ more) bare).eraseIdx index =
      (spared children bare).eraseIdx index ++ more
    rw [ih hRest fun other hOther => hBelow other (List.mem_cons_of_mem index hOther),
      List.eraseIdx_append_of_lt_length hLess]

/-- A child behind those that were there may be taken out again. -/
theorem spared_concat (children : List Element) (bare : List Nat) (child : Element) :
    spared (children ++ [child]) (bare ++ [children.length]) = spared children bare := by
  rw [spared, List.foldr_append, List.foldr_cons, List.foldr_nil,
    List.eraseIdx_append_of_length_le (Nat.le_refl _), Nat.sub_self]
  simp [spared]

/-- An open copy with elements that are spared in it. -/
structure Holds (e : Element) (bare : List Nat) (items : List Element) : Prop where
  ascending : bare.Pairwise (· < ·)
  below : ∀ index ∈ bare, index < e.children.length
  houses : Houses (spared e.children bare) items

namespace Holds

variable {e : Element} {bare : List Nat} {items added children : List Element}

theorem open_shell (e : Element) : Holds e.shell [] [] :=
  ⟨.nil, by simp, .nil⟩

theorem add (h : Holds e bare items) (hAdded : Houses children added) :
    Holds { e with children := e.children ++ children } bare (items ++ added) where
  ascending := h.ascending
  below index hIndex := by
    rw [List.length_append]
    exact Nat.lt_add_right _ (h.below index hIndex)
  houses := by
    dsimp only
    rw [spared_append h.ascending h.below]
    exact h.houses.append hAdded

/-- A child that was added last may be noted as bare. -/
theorem addBare (h : Holds e bare items) (child : Element) :
    Holds { e with children := e.children ++ [child] } (bare ++ [e.children.length]) items where
  ascending := List.pairwise_append.2 ⟨h.ascending, List.pairwise_singleton _ _,
    fun index hIndex last hLast => List.mem_singleton.1 hLast ▸ h.below index hIndex⟩
  below index hIndex := by
    rw [List.length_append, List.length_singleton]
    rcases List.mem_append.1 hIndex with hIndex | hIndex
    · exact Nat.lt_succ_of_lt (h.below index hIndex)
    · rw [List.mem_singleton.1 hIndex]
      exact Nat.lt_succ_self _
  houses := by
    dsimp only
    rw [spared_concat]
    exact h.houses

theorem prune (h : Holds e bare items) : Houses (e.prune bare).children items :=
  h.houses.mono (spared_sublist_prune e bare)

end Holds

/-- Whether open copies, innermost first, are copies of the elements on a way into the
source, and hold elements that will not be taken out: those of an inner copy come
behind those of the copies around it, and a copy that holds some is noted. -/
def KeepsIn (source root : Element) (rootBare : List Nat) : List Frame → List Element → Prop
  | [], items => root.shell = source.shell ∧ Holds root rootBare items
  | frame :: rest, items =>
    (∃ e, source.descendant? ((frame :: rest).map (·.step)).reverse = some e ∧
      frame.copy.shell = e.shell) ∧
    ∃ outer own, items = outer ++ own ∧ Holds frame.copy frame.bare own ∧
      (own ≠ [] → frame.isSettled = true ∨ frame.isFurnished = true) ∧
      KeepsIn source root rootBare rest outer

/-- A builder that copies a source and keeps elements. -/
structure Keeps (source : Element) (format : Option Format) (items : List Element) (b : Builder) :
    Prop where
  source_eq : b.source = source
  format_eq : b.format = format
  frames : KeepsIn source b.root b.rootBare b.frames items

/-- Whether the innermost open copy is noted to hold something. -/
def Secure (b : Builder) : Prop :=
  ∀ frame ∈ b.frames.head?, frame.isSettled = true ∨ frame.isFurnished = true

/-- Add children to the innermost open copy. -/
def extend (b : Builder) (children : List Element) : Builder :=
  b.setCurrent { b.current with children := b.current.children ++ children }

theorem extend_nil (b : Builder) : b.extend [] = b := by
  have hSelf : b.setCurrent b.current = b := by
    obtain ⟨source, format, root, rootBare, _ | ⟨frame, rest⟩, floor, route⟩ := b <;> rfl
  rw [extend, List.append_nil]
  generalize hCurrent : b.current = e at hSelf
  obtain ⟨name, tag, attributes, text, tail, children⟩ := e
  exact hSelf

theorem extend_extend (b : Builder) (left right : List Element) :
    (b.extend left).extend right = b.extend (left ++ right) := by
  simp [extend, List.append_assoc]

@[simp] theorem chain_extend (b : Builder) (children : List Element) :
    (b.extend children).chain = b.chain := by
  rw [chain, extend, frames_map_step_setCurrent, chain]

@[simp] theorem current_extend (b : Builder) (children : List Element) :
    (b.extend children).current =
      { b.current with children := b.current.children ++ children } :=
  current_setCurrent b _

@[simp] theorem current_furnish (b : Builder) : b.furnish.current = b.current := by
  obtain ⟨source, format, root, rootBare, _ | ⟨frame, rest⟩, floor, route⟩ := b <;> rfl

@[simp] theorem current_settle (b : Builder) : b.settle.current = b.current := by
  obtain ⟨source, format, root, rootBare, _ | ⟨frame, rest⟩, floor, route⟩ := b <;> rfl

@[simp] theorem chain_settle (b : Builder) : b.settle.chain = b.chain := by
  simp [chain, settle, Function.comp_def]

theorem isProperty_extend (b : Builder) (children : List Element) :
    (b.extend children).isProperty = b.isProperty := by
  obtain ⟨source, format, root, rootBare, _ | ⟨frame, rest⟩, floor, route⟩ := b <;> rfl

theorem furnish_extend (b : Builder) (children : List Element) :
    (b.extend children).furnish = b.furnish.extend children := by
  obtain ⟨source, format, root, rootBare, _ | ⟨frame, rest⟩, floor, route⟩ := b <;> rfl

theorem settle_extend (b : Builder) (children : List Element) :
    (b.extend children).settle = b.settle.extend children := by
  obtain ⟨source, format, root, rootBare, _ | ⟨frame, rest⟩, floor, route⟩ := b <;> rfl

theorem secure_furnish (b : Builder) : b.furnish.Secure := by
  obtain ⟨source, format, root, rootBare, _ | ⟨frame, rest⟩, floor, route⟩ := b
  · rintro frame ⟨⟩
  · rintro frame ⟨⟩
    exact .inr rfl

theorem secure_settle (b : Builder) : b.settle.Secure := by
  obtain ⟨source, format, root, rootBare, _ | ⟨frame, rest⟩, floor, route⟩ := b
  · rintro frame ⟨⟩
  · rintro frame ⟨⟩
    exact .inl rfl

theorem KeepsIn.settle {source root : Element} {rootBare : List Nat} {frames : List Frame}
    {items : List Element} (h : KeepsIn source root rootBare frames items) :
    KeepsIn source root rootBare (frames.map fun frame => { frame with isSettled := true })
      items := by
  induction frames generalizing items with
  | nil => exact h
  | cons frame rest ih =>
    obtain ⟨⟨e, he, hShell⟩, outer, own, rfl, hHolds, -, hRest⟩ := h
    refine ⟨⟨e, ?_, hShell⟩, outer, own, rfl, hHolds, fun _ => .inl rfl, ih hRest⟩
    simpa [Function.comp_def] using he

namespace Keeps

variable {source e child : Element} {format : Option Format} {items added children : List Element}
  {b : Builder} {step : Nat}

theorem start (source : Element) (format : Option Format) :
    Keeps source format [] (.start source format) :=
  ⟨rfl, rfl, rfl, .open_shell source⟩

/-- Elements that are added to the innermost open copy are kept if it is noted. -/
theorem add (h : Keeps source format items b) (hAdded : Houses children added)
    (hSecure : added ≠ [] → b.Secure) :
    Keeps source format (items ++ added) (b.extend children) := by
  obtain ⟨source, format, root, rootBare, _ | ⟨frame, rest⟩, floor, route⟩ := b
  · obtain ⟨hSource, hFormat, hShell, hHolds⟩ := h
    exact ⟨hSource, hFormat, hShell, hHolds.add hAdded⟩
  · obtain ⟨hSource, hFormat, ⟨e, he, hShell⟩, outer, own, rfl, hHolds, hNoted, hRest⟩ := h
    refine ⟨hSource, hFormat, ⟨e, he, hShell⟩, outer, own ++ added, List.append_assoc _ _ _,
      hHolds.add hAdded, fun hSome => ?_, hRest⟩
    by_cases hOwn : own = []
    · exact hSecure (by simpa [hOwn] using hSome) frame rfl
    · exact hNoted hOwn

/-- A child that holds nothing may be noted as bare. -/
theorem addBare (h : Keeps source format items b) (child : Element) :
    Keeps source format items ((b.addChild child).noteBare b.current.children.length) := by
  obtain ⟨source, format, root, rootBare, _ | ⟨frame, rest⟩, floor, route⟩ := b
  · obtain ⟨hSource, hFormat, hShell, hHolds⟩ := h
    exact ⟨hSource, hFormat, hShell, hHolds.addBare child⟩
  · obtain ⟨hSource, hFormat, hCopy, outer, own, rfl, hHolds, hNoted, hRest⟩ := h
    exact ⟨hSource, hFormat, hCopy, outer, own, rfl, hHolds.addBare child, hNoted, hRest⟩

theorem furnish (h : Keeps source format items b) : Keeps source format items b.furnish := by
  obtain ⟨source, format, root, rootBare, _ | ⟨frame, rest⟩, floor, route⟩ := b
  · exact h
  · obtain ⟨hSource, hFormat, hCopy, outer, own, rfl, hHolds, -, hRest⟩ := h
    exact ⟨hSource, hFormat, hCopy, outer, own, rfl, hHolds, fun _ => .inr rfl, hRest⟩

theorem settle (h : Keeps source format items b) : Keeps source format items b.settle :=
  ⟨h.source_eq, h.format_eq, h.frames.settle⟩

theorem openChild (h : Keeps source format items b)
    (hChild : source.descendant? (b.chain ++ [step]) = some e) :
    Keeps source format items (b.openChild step e) := by
  obtain ⟨hSource, hFormat, hFrames⟩ := h
  refine ⟨hSource, hFormat, ⟨e, ?_, rfl⟩, items, [], (List.append_nil items).symm, .open_shell e,
    fun hSome => absurd rfl hSome, hFrames⟩
  rw [List.map_cons, List.reverse_cons]
  exact hChild

/-- A copy that is closed either holds nothing or is noted to hold something, and then
the copy around it is noted as well. -/
theorem close (h : Keeps source format items b) : Keeps source format items b.close := by
  obtain ⟨source, format, root, rootBare, _ | ⟨frame, rest⟩, floor, route⟩ := b
  · exact h
  obtain ⟨hSource, hFormat, -, outer, own, rfl, hHolds, hNoted, hRest⟩ := h
  let around : Builder := ⟨source, format, root, rootBare, rest, floor, route⟩
  have hAround : Keeps _ _ outer around := ⟨hSource, hFormat, hRest⟩
  rw [Builder.close]
  dsimp only
  split
  · rename_i hBare
    have hOwn : own = [] := by
      by_contra hSome
      rcases hNoted hSome with hFlag | hFlag <;> simp [hFlag] at hBare
    rw [hOwn, List.append_nil]
    exact hAround.addBare _
  · have hChild : Houses [frame.copy.prune frame.bare] own := by
      have hInside := Houses.inside hHolds.prune .nil
      rwa [List.append_nil] at hInside
    have hAdd := hAround.furnish.add hChild fun _ => secure_furnish around
    rwa [← furnish_extend] at hAdd

/-- What is kept stays while copies are opened and closed and children are added. -/
theorem stable (source : Element) (format : Option Format) (items : List Element) :
    Stable (Keeps source format items) where
  openChild _ step e h hChild := h.openChild (h.source_eq ▸ hChild)
  addChild b _ child h _ _ := by
    have hAdd := h.add (.none [child]) fun hSome => absurd rfl hSome
    rwa [List.append_nil] at hAdd
  close _ h := h.close
  furnish _ h := h.furnish
  settle _ h := h.settle
  setFloor _ _ h := ⟨h.source_eq, h.format_eq, h.frames⟩
  noteRoute _ _ h := ⟨h.source_eq, h.format_eq, h.frames⟩

/-- The finished tree holds the elements. -/
theorem finish (h : Keeps source format items b) : Houses b.finish.children items := by
  have hClosed := ((stable source format items).rewind h 0).frames
  rw [frames_rewind_zero] at hClosed
  exact hClosed.2.prune

end Keeps

end Builder

/-- The children that a route selects. -/
def Route.selected (route : Route) (source : Element) : List Element :=
  ((source.descendant route.branch).children.drop route.start).take (route.stop - route.start)

theorem Route.selected_of_isEmpty (route : Route) (source : Element) (h : route.isEmpty = true) :
    route.selected source = [] := by
  have hStop : route.stop ≤ route.start := of_decide_eq_true h
  rw [selected, Nat.sub_eq_zero_of_le hStop, List.take_zero]

/-! ### Steps -/

namespace BuilderM

open Builder (Keeps)

variable {source : Element} {format : Option Format} {items : List Element} {b b' : Builder}

/-- Copying children that are all there adds them. -/
theorem copyChildren_eq_ok {parent : Element} {index count : Nat} {isContent : Bool}
    (h : (copyChildren parent index count).run b = .ok isContent b') :
    let children := (parent.children.drop index).take count
    children.length = count ∧ b' = b.extend children ∧
      isContent = children.any fun e => !b.isProperty e := by
  induction count generalizing index b isContent with
  | zero =>
    cases h
    exact ⟨rfl, (Builder.extend_nil _).symm, rfl⟩
  | succ count ih =>
    rw [copyChildren] at h
    obtain ⟨child, between, hCheck, hRest⟩ := bind_eq_ok h
    obtain ⟨rfl, hChild⟩ := check_eq_ok hCheck
    rw [run_modify_bind, run_get_bind] at hRest
    obtain ⟨others, last, hOthers, hDone⟩ := bind_eq_ok hRest
    cases hDone
    obtain ⟨hCount, rfl, rfl⟩ := ih hOthers
    obtain ⟨hIndex, rfl⟩ := List.getElem?_eq_some_iff.1 (Element.getElem?_of_child hChild)
    have hAdd : between.addChild parent.children[index] = between.extend [parent.children[index]] :=
      rfl
    rw [List.drop_eq_getElem_cons hIndex, List.take_succ_cons]
    refine ⟨by rw [List.length_cons, hCount], ?_, ?_⟩
    · rw [hAdd, Builder.extend_extend, List.singleton_append]
    · rw [hAdd, Builder.isProperty_extend, List.any_cons, Bool.or_comm]

/-- What a route that succeeds adds to the innermost open copy. -/
def addRoute (route : Route) (b : Builder) : Builder :=
  let added := b.extend (route.selected b.source)
  { (if (route.selected b.source).any fun e => !b.isProperty e then added.furnish else added) with
    route := some route }

theorem chain_addRoute (route : Route) (b : Builder) : (addRoute route b).chain = b.chain := by
  rw [addRoute]
  split
  · exact (Builder.chain_furnish _).trans (Builder.chain_extend b _)
  · exact Builder.chain_extend b _

theorem current_addRoute (route : Route) (b : Builder) :
    (addRoute route b).current =
      { b.current with children := b.current.children ++ route.selected b.source } := by
  rw [addRoute]
  split
  · exact (Builder.current_furnish _).trans (Builder.current_extend b _)
  · exact Builder.current_extend b _

/-- A route that succeeds adds the children that it selects, all of which are there. -/
theorem copyRoute_eq_ok {route : Route} (hSome : route.isEmpty = false)
    (hRun : (copyRoute route).run b = .ok () b') :
    b.source.Reaches route.branch ∧
      (route.selected b.source).length = route.stop - route.start ∧
      ∃ between, (descend route.branch).run b = .ok () between ∧ b' = addRoute route between := by
  rw [copyRoute, hSome] at hRun
  obtain ⟨_, opened, hDescend, hRun⟩ := bind_eq_ok hRun
  have hSource := source_descend hDescend
  rw [run_get_bind] at hRun
  obtain ⟨parent, between, hCheck, hRest⟩ := bind_eq_ok hRun
  obtain ⟨rfl, hFind⟩ := check_eq_ok hCheck
  obtain ⟨isContent, last, hCopy, hDone⟩ := bind_eq_ok hRest
  obtain ⟨hCount, rfl, rfl⟩ := copyChildren_eq_ok hCopy
  have hParent := Element.descendant?_of_find hFind
  have hSelected : route.selected between.source =
      (parent.children.drop route.start).take (route.stop - route.start) := by
    rw [Route.selected, Element.descendant, hParent]
    rfl
  rw [← hSelected] at hCount hDone
  rw [← hSource]
  refine ⟨Option.isSome_iff_exists.2 ⟨parent, hParent⟩, hCount, between, hDescend, ?_⟩
  rw [addRoute]
  cases hAny : (route.selected between.source).any fun e => !between.isProperty e with
  | true =>
    rw [hAny] at hDone
    cases hDone
    rfl
  | false =>
    rw [hAny] at hDone
    cases hDone
    rfl

/-- A leaf that is copied is there. -/
theorem copyLeaf_eq_ok {front : Path} {last : Nat}
    (hRun : (copyLeaf (front ++ [last])).run b = .ok () b') :
    b.source.Reaches (front ++ [last]) ∧
      Route.selected ⟨front, last, last + 1⟩ b.source = [b.source.descendant (front ++ [last])] ∧
      ∃ between, (descend front).run b = .ok () between ∧
        b' = (addRoute ⟨front, last, last + 1⟩ between).settle := by
  rw [copyLeaf, List.getLast?_concat, List.dropLast_concat] at hRun
  obtain ⟨_, copied, hRoute, hDone⟩ := bind_eq_ok hRun
  cases hDone
  have hSome : Route.isEmpty ⟨front, last, last + 1⟩ = false :=
    decide_eq_false (Nat.not_le.2 last.lt_succ_self)
  obtain ⟨hFront, hCount, between, hDescend, rfl⟩ := copyRoute_eq_ok hSome hRoute
  rw [Route.selected, Nat.add_sub_cancel_left, List.length_take, List.length_drop] at hCount
  have hLeaf : b.source.Reaches (front ++ [last]) := by
    refine Element.reaches_concat.2 ⟨hFront, ?_⟩
    change last < (b.source.descendant front).children.length
    dsimp only at hCount
    omega
  refine ⟨hLeaf, ?_, between, hDescend, rfl⟩
  obtain ⟨hIndex, hChild⟩ := List.getElem?_eq_some_iff.1 hLeaf.child
  rw [Route.selected, Nat.add_sub_cancel_left, List.drop_eq_getElem_cons hIndex, hChild]
  rfl

/-- The content that routes select. -/
theorem addRoute_keeps (route : Route) (h : Keeps source format items b) :
    Keeps source format
      (items ++ (route.selected source).filter fun e => !format.any (·.isProperty e.tag))
      (addRoute route b) := by
  have hProperty : b.isProperty = fun e => format.any (·.isProperty e.tag) := by
    rw [← h.format_eq]
    rfl
  rw [addRoute, h.source_eq, hProperty]
  dsimp only
  refine (Keeps.stable ..).noteRoute _ _ ?_
  split
  · rw [Builder.furnish_extend]
    exact h.furnish.add (.filter _ _) fun _ => Builder.secure_furnish b
  · rename_i hNone
    have hFilter : (route.selected source).filter (fun e => !format.any (·.isProperty e.tag)) = [] := by
      simpa [List.filter_eq_nil_iff] using hNone
    rw [hFilter]
    exact h.add (.none _) fun hSome => absurd rfl hSome

/-- Routes that succeed add the content that they select. -/
theorem copy_keeps {routes : List Route} (h : Keeps source format items b)
    (hRun : (copy routes).run b = .ok () b') :
    Keeps source format (items ++ routes.flatMap fun route =>
      (route.selected source).filter fun e => !format.any (·.isProperty e.tag)) b' := by
  rw [copy] at hRun
  induction routes generalizing b items with
  | nil =>
    cases hRun
    rwa [List.flatMap_nil, List.append_nil]
  | cons route routes ih =>
    obtain ⟨_, between, hRoute, hRest⟩ := bind_eq_ok hRun
    rw [List.flatMap_cons, ← List.append_assoc]
    refine ih ?_ hRest
    cases hEmpty : route.isEmpty with
    | true =>
      rw [copyRoute, hEmpty] at hRoute
      cases hRoute
      rwa [route.selected_of_isEmpty source hEmpty, List.filter_nil, List.append_nil]
    | false =>
      obtain ⟨-, -, opened, hDescend, rfl⟩ := copyRoute_eq_ok hEmpty hRoute
      exact addRoute_keeps route (of_after (descend_stable (Keeps.stable ..) _ h) hDescend)

/-- Settling secures all that a route adds, formatting properties included. -/
theorem settle_addRoute_keeps (route : Route) (h : Keeps source format items b) :
    Keeps source format (items ++ route.selected source) (addRoute route b).settle := by
  have hSelected : Houses (route.selected source) (route.selected source) := by
    have hAll := Houses.filter (fun _ => true) (route.selected source)
    rwa [List.filter_true] at hAll
  rw [addRoute, h.source_eq]
  refine (Keeps.stable ..).noteRoute (Builder.settle (ite _ _ _)) (some route) ?_
  split
  · rw [Builder.furnish_extend, Builder.settle_extend]
    exact h.furnish.settle.add hSelected fun _ => Builder.secure_settle _
  · rw [Builder.settle_extend]
    exact h.settle.add hSelected fun _ => Builder.secure_settle b

/-- A leaf that is copied is kept. -/
theorem copyLeaf_keeps {front : Path} {last : Nat} (h : Keeps source format items b)
    (hRun : (copyLeaf (front ++ [last])).run b = .ok () b') :
    Keeps source format (items ++ [source.descendant (front ++ [last])]) b' := by
  obtain ⟨-, hSelected, opened, hDescend, rfl⟩ := copyLeaf_eq_ok hRun
  rw [← h.source_eq, ← hSelected, h.source_eq]
  exact settle_addRoute_keeps _ (of_after (descend_stable (Keeps.stable ..) _ h) hDescend)

end BuilderM

/-! ### Calls -/

namespace Builder

/-- The content that a call clones into the copy if it succeeds. -/
def Call.clones (source : Element) (format : Option Format) : Call → List Element
  | copy routes => routes.flatMap fun route =>
      (route.selected source).filter fun e => !format.any (·.isProperty e.tag)
  | copyLeaf path => if path.isEmpty then [] else [source.descendant path]
  | descend _ | rewind _ | setFloor _ => []

/-- The content that calls clone, in order. A call that fails counts for nothing. -/
def cloned (b : Builder) : List Call → List Element
  | [] => []
  | call :: calls =>
    match call.exec.run b with
    | .ok _ b' => call.clones b.source b.format ++ b'.cloned calls
    | .error _ b' => b'.cloned calls

variable {source : Element} {format : Option Format} {items : List Element} {b b' : Builder}

/-- A call that succeeds puts its clones behind everything that was kept. -/
theorem Call.exec_keeps {call : Call} (h : Keeps source format items b)
    (hRun : call.exec.run b = .ok () b') :
    Keeps source format (items ++ call.clones source format) b' := by
  have hAll := BuilderM.of_after (BuilderM.exec_stable (Keeps.stable ..) call h) hRun
  cases call with
  | copy routes => exact BuilderM.copy_keeps h hRun
  | copyLeaf path =>
    rw [clones]
    obtain rfl | ⟨front, last, rfl⟩ := path.eq_nil_or_concat'
    · rwa [List.isEmpty_nil, if_pos rfl, List.append_nil]
    · rw [if_neg (by simp)]
      exact BuilderM.copyLeaf_keeps h hRun
  | descend branch => rwa [clones, List.append_nil]
  | rewind depth => rwa [clones, List.append_nil]
  | setFloor floor => rwa [clones, List.append_nil]

/-- A run of calls keeps what its successful ones clone. -/
theorem Keeps.run (h : Keeps source format items b) (calls : List Call) :
    Keeps source format (items ++ b.cloned calls) (b.run calls) := by
  induction calls generalizing b items with
  | nil => rwa [cloned, List.append_nil]
  | cons call calls ih =>
    rw [cloned]
    cases hRun : call.exec.run b with
    | ok _ b' =>
      have hStep := ih (Call.exec_keeps h hRun)
      rw [h.source_eq, h.format_eq]
      dsimp only
      rwa [← List.append_assoc, Builder.run, List.foldl_cons, hRun]
    | error error b' =>
      have hStep := BuilderM.exec_stable (Keeps.stable source format items) call h
      rw [hRun] at hStep
      rw [Builder.run, List.foldl_cons, hRun]
      exact ih hStep

/-! ### What a zipper points at -/

variable {root e : Element} {rootBare : List Nat} {frames : List Frame} {index depth : Nat}
  {front : Path}

theorem length_places (root : Element) (frames : List Frame) :
    (places root frames).length = frames.length := by
  induction frames with
  | nil => rfl
  | cons frame rest ih => rw [places, List.length_append, ih, List.length_singleton, List.length_cons]

/-- The place of an open copy is the last one in the copy around it. -/
theorem exists_parent_plug (h : front ++ [index] <+: places root frames) (e : Element) :
    ∃ parent, (plug root frames e).descendant? front = some parent ∧
      parent.children.length = index + 1 := by
  induction frames generalizing e with
  | nil => simp [places] at h
  | cons frame rest ih =>
    rw [places, List.prefix_concat_iff] at h
    rw [plug]
    rcases h with hLast | hAbove
    · obtain ⟨rfl, hIndex⟩ := List.append_inj' hLast rfl
      rw [List.singleton_inj.1 hIndex]
      have hTop := descendant?_plug root
        { top root rest with children := (top root rest).children ++ [e] } rest []
      rw [List.append_nil] at hTop
      exact ⟨_, hTop, by simp⟩
    · exact ih hAbove _

/-- Every open copy has the shell of the element that it copies. -/
theorem KeepsIn.exists_copy {source : Element} {items : List Element}
    (h : KeepsIn source root rootBare frames items) (hDepth : depth ≤ frames.length)
    (he : e.shell = (top root frames).shell) :
    ∃ original copy, source.descendant? ((frames.map (·.step)).reverse.take depth) = some original ∧
      (plug root frames e).descendant? ((places root frames).take depth) = some copy ∧
      copy.shell = original.shell := by
  induction frames generalizing e items with
  | nil => exact ⟨source, e, by simp, by simp [places, plug], he.trans h.1⟩
  | cons frame rest ih =>
    obtain ⟨⟨original, hOriginal, hShell⟩, outer, own, -, -, -, hRest⟩ := h
    rcases Nat.lt_or_ge rest.length depth with hAll | hAbove
    · have hPlug := descendant?_plug root e (frame :: rest) []
      rw [List.append_nil] at hPlug
      refine ⟨original, e, ?_, ?_, he.trans hShell⟩
      · rwa [List.take_of_length_le (by simpa using Nat.succ_le_iff.2 hAll)]
      · rwa [List.take_of_length_le (by rw [length_places]; exact hAll)]
    · rw [places, plug, List.map_cons, List.reverse_cons,
        List.take_append_of_le_length (by simpa using hAbove),
        List.take_append_of_le_length (by rwa [length_places])]
      exact ih hRest hAbove rfl

end Builder

namespace Zipper

/-- A zipper whose chains belong together. -/
structure Sound (z : Zipper) : Prop where
  length_destinationChain : z.destinationChain.length = z.sourceChain.length
  length_levels : z.levels.length = z.sourceChain.length
  /-- Every index leads to the last child. -/
  last : ∀ front index, front ++ [index] <+: z.destinationChain →
    ∃ parent, z.destination.descendant? front = some parent ∧ parent.children.length = index + 1
  /-- Every open copy looks like its source. -/
  copies : ∀ depth ≤ z.sourceChain.length, ∃ original copy,
    z.source.descendant? (z.sourceChain.take depth) = some original ∧
    z.destination.descendant? (z.destinationChain.take depth) = some copy ∧
    copy.shell = original.shell

/-- The zipper of a builder that copies a source is sound. -/
theorem sound_zipper {source : Element} {format : Option Format} {items : List Element}
    {b : Builder} (h : b.Keeps source format items) : b.zipper.Sound where
  length_destinationChain := by
    rw [Builder.zipper, Builder.length_places, Builder.length_chain, Builder.depth]
  length_levels := by
    rw [Builder.zipper, List.length_map, Builder.length_chain, Builder.depth]
  last _ _ hPrefix := Builder.exists_parent_plug hPrefix b.current
  copies depth hDepth := by
    have hFrames := h.frames
    rw [← h.source_eq] at hFrames
    exact hFrames.exists_copy (by simpa [Builder.zipper, Builder.chain] using hDepth)
      (by rw [Builder.current_eq])

/-- Whatever is called, in whatever order, and whether it succeeds or fails: the zipper
is sound, and finishing it yields a tree in which everything that was cloned stands in
the order in which it was cloned. -/
theorem run_start_sound (source : Element) (format : Option Format) (calls : List Builder.Call) :
    let b := (Builder.start source format).run calls
    (start source format).run calls = b.zipper ∧ b.zipper.source = source ∧ b.zipper.Sound ∧
      (∃ closed, ZipperM.finish.run b.zipper = .ok b.finish closed) ∧
      ∃ places : List Path, places.Pairwise Path.Before ∧
        List.Forall₂ (fun place e => b.finish.descendant? place = some e) places
          ((Builder.start source format).cloned calls) := by
  intro b
  have hKeeps := (Builder.Keeps.start source format).run calls
  rw [List.nil_append] at hKeeps
  obtain ⟨places, hOrdered, hStands⟩ := hKeeps.finish.exists_places
  refine ⟨run_zipper (.start source format) calls, hKeeps.source_eq, sound_zipper hKeeps,
    ⟨_, ZipperM.finish_run b⟩, places, hOrdered, hStands.imp fun place e hPlace => ?_⟩
  obtain _ | ⟨index, path⟩ := place
  · cases hPlace
  · exact hPlace

end Zipper

end Infill
