import Infill.Builder
import Infill.Proofs.Boundary
import Infill.Proofs.Copies

/-!
A builder does what a desk does. Every builder that a run meets is the picture
of a desk, and each of its steps is a visit or a part of one.
-/
namespace Infill

open Infill.Xml

namespace Copy

/-- The indices of the bare pieces among the elements, which begin at `start`. -/
def bareAt (root : Element) : (start : Nat) → List Copy → List Nat
  | _, [] => []
  | start, copy :: rest =>
    (if copy.isBare then [start] else []) ++ bareAt root (start + (copy.elements root).length) rest

variable {root : Element}

theorem bareAt_append (start : Nat) (left right : List Copy) :
    bareAt root start (left ++ right) =
      bareAt root start left ++ bareAt root (start + (elementsOf root left).length) right := by
  induction left generalizing start with
  | nil => rfl
  | cons copy left ih => simp [bareAt, ih, Nat.add_assoc]

theorem length_bareAt (start : Nat) (copies : List Copy) :
    (bareAt root start copies).length = copies.countP isBare := by
  induction copies generalizing start with
  | nil => rfl
  | cons copy copies ih =>
    by_cases hBare : copy.isBare = true
    · simp [bareAt, ih, hBare]
    · simp [bareAt, ih, hBare]

/-- Erasing the elements at the indices of bare pieces takes these pieces out. -/
private theorem foldr_eraseIdx_bareAt (front : List Element) (kept : Nat) (copies : List Copy) :
    ((bareAt root front.length copies).drop kept).foldr
        (fun index children => children.eraseIdx index) (front ++ elementsOf root copies) =
      front ++ elementsOf root (dropBare kept copies) := by
  induction copies generalizing front kept with
  | nil => simp [bareAt, dropBare]
  | cons copy copies ih =>
    have hRest := ih (front ++ copy.elements root)
    simp only [List.length_append, List.append_assoc] at hRest
    by_cases hBare : copy.isBare = true
    · obtain ⟨e, he⟩ := @elements_of_isBare root copy hBare
      cases kept with
      | zero =>
        -- the indices behind the bare piece are erased first, so its own one still stands
        have hRest := hRest 0
        simp only [he, List.length_singleton, List.drop_zero, List.singleton_append] at hRest
        simp [bareAt, dropBare, hBare, he, hRest, List.eraseIdx_append_of_length_le]
      | succ kept => simpa [bareAt, dropBare, hBare, he] using hRest kept
    · simpa [bareAt, dropBare, hBare] using hRest kept

/-- What a builder keeps of the children of a copy. -/
theorem prune_elements (e : Element) (copies : List Copy) :
    Element.prune { e with children := elementsOf root copies } (bareAt root 0 copies) =
      { e with children := elementsOf root (prune root copies) } := by
  have hErase := @foldr_eraseIdx_bareAt root []
    (if copies.countP isBare = (elementsOf root copies).length then 1 else 0) copies
  simp only [List.length_nil, List.nil_append] at hErase
  simp only [Element.prune, length_bareAt, hErase, prune]

end Copy

theorem Builder.length_chain (b : Builder) : b.chain.length = b.depth := by
  rw [chain, List.length_reverse, List.length_map, depth]

namespace Desk

/-- The frames of a builder for open ancestors. -/
def framesOf (layout : Layout) : List Sheet → List Frame
  | [] => []
  | sheet :: rest =>
    { step := sheet.step
      copy :=
        { layout.root.descendant ((sheet :: rest).map (·.step)).reverse with
          children := Copy.elementsOf layout.root sheet.copies }
      isSettled := sheet.isSettled
      isPrunable := sheet.isPrunable
      isFurnished := sheet.isFurnished
      bare := Copy.bareAt layout.root 0 sheet.copies } :: framesOf layout rest

/-- The builder that a desk stands for. -/
def builder (layout : Layout) (floor : Option Nat) (route : Option Route) (desk : Desk) : Builder :=
  { source := layout.root
    format := some layout.format
    root := { layout.root with children := Copy.elementsOf layout.root desk.base }
    rootBare := Copy.bareAt layout.root 0 desk.base
    frames := framesOf layout desk.sheets
    floor := floor
    route := route }

variable {layout : Layout} {floor : Option Nat} {route : Option Route} {desk : Desk}

theorem steps_framesOf (sheets : List Sheet) :
    (framesOf layout sheets).map (·.step) = sheets.map (·.step) := by
  induction sheets with
  | nil => rfl
  | cons sheet sheets ih => simp [framesOf, ih]

theorem length_framesOf (sheets : List Sheet) :
    (framesOf layout sheets).length = sheets.length := by
  induction sheets with
  | nil => rfl
  | cons sheet sheets ih => simp [framesOf, ih]

@[simp] theorem chain_builder : (desk.builder layout floor route).chain = desk.chain := by
  rw [Builder.chain, builder, steps_framesOf, chain]

@[simp] theorem depth_builder : (desk.builder layout floor route).depth = desk.sheets.length :=
  length_framesOf desk.sheets

/-- The innermost open copy is that of the element at the chain. -/
theorem current_builder :
    (desk.builder layout floor route).current =
      { layout.root.descendant desk.chain with
        children := Copy.elementsOf layout.root desk.copies } := by
  obtain ⟨base, _ | ⟨sheet, rest⟩⟩ := desk <;> rfl

/-- Lay a piece down as far as a builder is concerned. -/
theorem put_builder {copy : Copy} {e : Element} (hElements : copy.elements layout.root = [e])
    (hBare : copy.isBare = false) :
    (desk.put layout copy).builder layout floor route =
      if copy.isContent layout then ((desk.builder layout floor route).addChild e).furnish
      else (desk.builder layout floor route).addChild e := by
  obtain ⟨base, _ | ⟨sheet, rest⟩⟩ := desk
  · cases copy.isContent layout <;>
      simp [put, builder, Builder.addChild, Builder.setCurrent, Builder.current, framesOf,
        Builder.furnish, hElements, Copy.bareAt_append, Copy.bareAt, hBare]
  · cases hContent : copy.isContent layout <;>
      simp [put, builder, Builder.addChild, Builder.setCurrent, Builder.current, framesOf,
        Builder.furnish, hElements, Copy.bareAt_append, Copy.bareAt, hBare, hContent]

/-- Lay a bare piece down as far as a builder is concerned. -/
theorem put_bare_builder {copy : Copy} {e : Element} (hElements : copy.elements layout.root = [e])
    (hBare : copy.isBare = true) :
    (desk.put layout copy).builder layout floor route =
      ((desk.builder layout floor route).addChild e).noteBare
        (desk.builder layout floor route).current.children.length := by
  have hContent : copy.isContent layout = false := by
    cases copy with
    | clone source => simp [Copy.isBare] at hBare
    | leaf source elements => simp [Copy.isBare] at hBare
    | shell source isBare copies => simpa [Copy.isContent, Copy.isBare] using hBare
  obtain ⟨base, _ | ⟨sheet, rest⟩⟩ := desk <;>
    simp [put, builder, Builder.addChild, Builder.setCurrent, Builder.current, framesOf,
      Builder.noteBare, hElements, Copy.bareAt_append, Copy.bareAt, hBare, hContent]

theorem close_builder :
    (desk.builder layout floor route).close = (desk.close layout).builder layout floor route := by
  obtain ⟨base, _ | ⟨sheet, rest⟩⟩ := desk
  · rfl
  · have hPrune := @Copy.prune_elements layout.root
      (layout.root.descendant ((sheet :: rest).map (·.step)).reverse) sheet.copies
    simp only [close]
    cases hFlag : (sheet.isPrunable && !sheet.isSettled && !sheet.isFurnished) with
    | true =>
      rw [put_bare_builder rfl rfl]
      simp only [Builder.close, builder, framesOf, hFlag, if_true, hPrune]
      rfl
    | false =>
      rw [put_builder rfl rfl]
      simp only [Builder.close, builder, framesOf, hFlag, hPrune, Copy.isContent, Bool.not_false,
        if_true]
      rfl

theorem rewind_builder (depth : Nat) :
    (desk.builder layout floor route).rewind depth =
      (desk.rewind layout depth).builder layout floor route := by
  rw [Builder.rewind, depth_builder, rewind]
  induction desk.sheets.length - depth with
  | zero => rfl
  | succ count ih => rw [Nat.repeat, ih, close_builder, Nat.repeat]

theorem openChild_builder (step : Nat) :
    (desk.builder layout floor route).openChild step
        (layout.root.descendant (desk.chain ++ [step])) =
      (desk.openChild floor step).builder layout floor route := by
  simp [Builder.openChild, openChild, builder, framesOf, chain, Builder.depth, length_framesOf,
    Element.shell, Copy.bareAt]

theorem settle_builder :
    (desk.builder layout floor route).settle = desk.settle.builder layout floor route := by
  have hFrames : ∀ sheets, (framesOf layout sheets).map (fun frame =>
      { frame with isSettled := true }) =
        framesOf layout (sheets.map fun sheet => { sheet with isSettled := true }) := by
    intro sheets
    induction sheets with
    | nil => rfl
    | cons sheet sheets ih =>
      simp only [framesOf, List.map_cons, ih, List.map_map]
      rfl
  simp [Builder.settle, settle, builder, hFrames]

theorem finish_builder :
    (desk.builder layout floor route).finish = desk.finish layout := by
  rw [Builder.finish, rewind_builder]
  exact Copy.prune_elements _ _

/-! ### The steps of a builder -/

/-- A step that succeeds hands its answer and its builder on. -/
theorem run_bind_ok {α β : Type} {action : BuilderM α} {next : α → BuilderM β} {b b' : Builder}
    {a : α} (h : action.run b = .ok a b') : (action >>= next).run b = (next a).run b' := by
  simp only [EStateM.run, bind, EStateM.bind] at h ⊢
  rw [h]

theorem openAlong_builder (path : Path) {walked : Path} (hWalked : desk.chain = walked)
    (hReaches : layout.root.Reaches (walked ++ path)) :
    (BuilderM.openAlong walked path).run (desk.builder layout floor route) =
      .ok () ((path.foldl (openChild floor) desk).builder layout floor route) := by
  induction path generalizing desk walked with
  | nil => rfl
  | cons step path ih =>
    subst hWalked
    have hStep : layout.root.Reaches (desk.chain ++ [step] ++ path) := by simpa using hReaches
    rw [BuilderM.openAlong]
    refine (run_bind_ok rfl).trans ?_
    have hFind : BuilderM.check ((desk.builder layout floor route).source.find
        (desk.chain ++ [step])) = pure (layout.root.descendant (desk.chain ++ [step])) := by
      rw [show (desk.builder layout floor route).source = layout.root from rfl,
        hStep.of_append.find]
      rfl
    rw [hFind, pure_bind]
    refine (run_bind_ok rfl).trans ?_
    beta_reduce
    rw [openChild_builder]
    exact ih (by simp [openChild, chain]) hStep

theorem chain_foldl_openChild (path : Path) :
    (path.foldl (openChild floor) desk).chain = desk.chain ++ path := by
  induction path generalizing desk with
  | nil => simp
  | cons step path ih => rw [List.foldl_cons, ih]; simp [openChild, chain]

theorem steps_put (copy : Copy) :
    (desk.put layout copy).sheets.map (·.step) = desk.sheets.map (·.step) := by
  obtain ⟨base, _ | ⟨sheet, rest⟩⟩ := desk <;> rfl

@[simp] theorem chain_put (copy : Copy) : (desk.put layout copy).chain = desk.chain := by
  rw [chain, steps_put, chain]

theorem steps_close : (desk.close layout).sheets.map (·.step) = (desk.sheets.map (·.step)).tail := by
  obtain ⟨base, _ | ⟨sheet, rest⟩⟩ := desk
  · rfl
  · rw [close, steps_put]
    rfl

theorem chain_rewind (depth : Nat) : (desk.rewind layout depth).chain = desk.chain.take depth := by
  have hDrop : ∀ count, ((Nat.repeat (close layout) count desk).sheets.map (·.step)) =
      (desk.sheets.map (·.step)).drop count := by
    intro count
    induction count with
    | zero => rfl
    | succ count ih => rw [Nat.repeat, steps_close, ih, List.tail_drop]
  rw [chain, rewind, hDrop, chain, List.take_reverse, List.length_map]

theorem chain_descend (branch : Path) : (desk.descend layout floor branch).chain = branch := by
  rw [descend, chain_foldl_openChild, chain_rewind, Path.take_sharedLength,
    List.take_append_drop]

/-- A desk that stands at a place moves nowhere to get there. -/
theorem descend_self : desk.descend layout floor desk.chain = desk := by
  have hShared : Path.sharedLength desk.chain desk.chain = desk.chain.length :=
    Nat.le_antisymm (Path.sharedLength_le_left _ _)
      (Path.le_sharedLength List.prefix_rfl List.prefix_rfl)
  rw [descend, hShared, List.drop_length, List.foldl_nil, rewind]
  simp [chain, Nat.repeat]

theorem descend_builder {branch : Path} (hReaches : layout.root.Reaches branch) :
    (BuilderM.descend branch).run (desk.builder layout floor route) =
      .ok () ((desk.descend layout floor branch).builder layout floor route) := by
  rw [BuilderM.descend]
  refine (run_bind_ok rfl).trans ?_
  rw [chain_builder]
  refine (run_bind_ok rfl).trans ?_
  beta_reduce
  rw [rewind_builder]
  refine openAlong_builder _ ?_ (by rwa [List.take_append_drop])
  rw [chain_rewind, Path.take_sharedLength]

private theorem furnish_addChild (b : Builder) (e : Element) :
    b.furnish.addChild e = (b.addChild e).furnish := by
  obtain ⟨source, format, root, rootBare, _ | ⟨frame, rest⟩, floor, route⟩ := b <;> rfl

theorem furnish_foldl_addChild (b : Builder) (children : List Element) :
    children.foldl Builder.addChild b.furnish = (children.foldl Builder.addChild b).furnish := by
  induction children generalizing b with
  | nil => rfl
  | cons e children ih => rw [List.foldl_cons, List.foldl_cons, furnish_addChild, ih]

theorem furnish_furnish (b : Builder) : b.furnish.furnish = b.furnish := by
  obtain ⟨source, format, root, rootBare, _ | ⟨frame, rest⟩, floor, route⟩ := b <;> rfl

theorem format_addChild (b : Builder) (e : Element) : (b.addChild e).format = b.format := by
  obtain ⟨source, format, root, rootBare, _ | ⟨frame, rest⟩, floor, route⟩ := b <;> rfl

/-- A desk notes for each sibling whether it is content, a builder once for all
of them. -/
private theorem foldl_put_builder (paths : List Path) :
    (paths.foldl (fun desk path => desk.put layout (.clone path)) desk).builder layout floor route =
      let added := (paths.map layout.root.descendant).foldl Builder.addChild
        (desk.builder layout floor route)
      if paths.any fun path => !layout.format.isProperty (layout.root.descendant path).tag then
        added.furnish
      else added := by
  induction paths generalizing desk with
  | nil => rfl
  | cons path paths ih =>
    rw [List.foldl_cons, ih, put_builder rfl rfl, List.map_cons, List.foldl_cons, List.any_cons,
      Copy.isContent]
    cases !layout.format.isProperty (layout.root.descendant path).tag with
    | false => rfl
    | true =>
      simp only [if_true, Bool.true_or, furnish_foldl_addChild, furnish_furnish, ite_self]

theorem copyChildren_run (parent : Element) (count : Nat) {start : Nat} {b : Builder}
    (hStop : start + count ≤ parent.children.length) :
    (BuilderM.copyChildren parent start count).run b =
      .ok (((parent.children.drop start).take count).any fun e => !b.isProperty e)
        (((parent.children.drop start).take count).foldl Builder.addChild b) := by
  induction count generalizing start b with
  | zero => simp [BuilderM.copyChildren]
  | succ count ih =>
    have hStart : start < parent.children.length := by omega
    have hChild : BuilderM.check (parent.child start) = pure parent.children[start] := by
      rw [Element.child, List.getElem?_eq_getElem hStart]
      rfl
    have hProperty : (b.addChild parent.children[start]).isProperty = b.isProperty := by
      funext e
      rw [Builder.isProperty, Builder.isProperty, format_addChild]
    rw [BuilderM.copyChildren, hChild, pure_bind]
    refine (run_bind_ok rfl).trans ?_
    refine (run_bind_ok rfl).trans ?_
    refine (run_bind_ok (ih (by omega))).trans ?_
    rw [List.drop_eq_getElem_cons hStart, List.take_succ_cons, List.any_cons, List.foldl_cons,
      hProperty, Bool.or_comm]
    rfl

/-- The children that a route selects, as they stand in the source. -/
private theorem map_siblings {branch : Path} {start stop : Nat}
    (hReaches : layout.root.Reaches branch) (hStop : stop ≤ layout.root.degree branch) :
    (Path.siblings branch start stop).map layout.root.descendant =
      (((layout.root.descendant branch).children.drop start).take (stop - start)) := by
  refine List.ext_getElem? fun i => ?_
  rw [Path.siblings, List.map_map, List.getElem?_map, List.getElem?_take, List.getElem?_drop]
  by_cases hi : i < stop - start
  · have hChild : layout.root.Reaches (branch ++ [start + i]) :=
      Element.reaches_concat.2 ⟨hReaches, by omega⟩
    rw [if_pos hi, hChild.child]
    simp [hi]
  · simp [hi]

/-- Siblings are cloned one by one where they stand. -/
private theorem run_clones {branch : Path} (paths : List Path)
    (hPaths : ∀ path ∈ paths, path.dropLast = branch) (hChain : desk.chain = branch) :
    Visit.run layout (paths.map (.clone floor)) desk =
      paths.foldl (fun desk path => desk.put layout (.clone path)) desk := by
  induction paths generalizing desk with
  | nil => rfl
  | cons path paths ih =>
    rw [List.map_cons, Visit.run_cons, Visit.exec, hPaths path List.mem_cons_self, ← hChain,
      descend_self, List.foldl_cons]
    exact ih (fun other hOther => hPaths other (List.mem_cons_of_mem path hOther))
      ((chain_put _).trans hChain)

/-- A desk moves to siblings before it clones the first of them. -/
private theorem run_siblings {branch : Path} {start stop : Nat} (hLess : start < stop) :
    Visit.run layout ((Path.siblings branch start stop).map (.clone floor)) desk =
      (Path.siblings branch start stop).foldl (fun desk path => desk.put layout (.clone path))
        (desk.descend layout floor branch) := by
  have hAll : ∀ path ∈ Path.siblings branch start stop, path.dropLast = branch := by
    intro path hPath
    obtain ⟨index, -, -, rfl⟩ := Path.mem_siblings.1 hPath
    exact List.dropLast_concat
  obtain ⟨path, paths, hCons⟩ : ∃ path paths, Path.siblings branch start stop = path :: paths := by
    refine List.exists_cons_of_ne_nil fun hNil => ?_
    simp [Path.siblings] at hNil
    omega
  rw [hCons] at hAll ⊢
  rw [List.map_cons, Visit.run_cons, Visit.exec, hAll path List.mem_cons_self, List.foldl_cons]
  exact run_clones paths (fun other hOther => hAll other (List.mem_cons_of_mem path hOther))
    ((chain_put _).trans (chain_descend branch))

/-- Copying what a route selects is cloning it piece by piece. -/
theorem copyRoute_builder (selected : Route)
    (hPaths : ∀ path ∈ selected.paths, layout.root.Reaches path) :
    ∃ route', (BuilderM.copyRoute selected).run (desk.builder layout floor route) =
      .ok () ((Visit.run layout (selected.paths.map (.clone floor)) desk).builder
        layout floor route') := by
  obtain ⟨branch, start, stop⟩ := selected
  rw [BuilderM.copyRoute]
  by_cases hEmpty : Route.isEmpty ⟨branch, start, stop⟩ = true
  · rw [Route.paths_of_isEmpty hEmpty]
    simp only [hEmpty]
    exact ⟨route, rfl⟩
  · have hLess : start < stop := by simpa [Route.isEmpty] using hEmpty
    have hLast : layout.root.Reaches (branch ++ [stop - 1]) :=
      hPaths _ (Path.mem_siblings.2
        ⟨stop - 1, Nat.le_sub_one_of_lt hLess, Nat.sub_one_lt_of_lt hLess, rfl⟩)
    obtain ⟨hReaches, hDegree⟩ := Element.reaches_concat.1 hLast
    have hStop : stop ≤ layout.root.degree branch := by omega
    have hFind : BuilderM.check (layout.root.find branch) =
        pure (layout.root.descendant branch) := by
      rw [hReaches.find]
      rfl
    refine ⟨some ⟨branch, start, stop⟩, ?_⟩
    rw [Route.paths, run_siblings hLess]
    simp only [hEmpty]
    refine (run_bind_ok (descend_builder hReaches)).trans ?_
    refine (run_bind_ok rfl).trans ?_
    rw [show ((desk.descend layout floor branch).builder layout floor route).source = layout.root
      from rfl, hFind, pure_bind]
    have hCopy := @copyChildren_run (layout.root.descendant branch) (stop - start) start
      ((desk.descend layout floor branch).builder layout floor route)
      (by rw [Element.degree] at hStop; omega)
    have hProperty : ∀ e, ((desk.descend layout floor branch).builder layout floor route).isProperty e =
        layout.format.isProperty e.tag := fun e => rfl
    simp only [hProperty] at hCopy
    refine (run_bind_ok hCopy).trans ?_
    rw [← map_siblings hReaches hStop, List.any_map]
    have hPut := @foldl_put_builder layout floor route (desk.descend layout floor branch)
      (Path.siblings branch start stop)
    simp only [Function.comp_def] at hPut ⊢
    by_cases hContent : ((Path.siblings branch start stop).any fun path =>
        !layout.format.isProperty (layout.root.descendant path).tag) = true
    · rw [if_pos hContent] at hPut ⊢
      refine (run_bind_ok rfl).trans ?_
      beta_reduce
      rw [← hPut]
      rfl
    · rw [if_neg hContent] at hPut ⊢
      rw [← hPut]
      rfl

theorem copy_builder (routes : List Route)
    (hPaths : ∀ path ∈ routes.flatMap Route.paths, layout.root.Reaches path) :
    ∃ route', (BuilderM.copy routes).run (desk.builder layout floor route) =
      .ok () ((Visit.run layout ((routes.flatMap Route.paths).map (.clone floor)) desk).builder
        layout floor route') := by
  induction routes generalizing desk route with
  | nil => exact ⟨route, rfl⟩
  | cons selected routes ih =>
    simp only [List.flatMap_cons, List.mem_append] at hPaths
    obtain ⟨route₁, hFirst⟩ := @copyRoute_builder layout floor route desk selected
      fun path hPath => hPaths path (.inl hPath)
    obtain ⟨route₂, hRest⟩ := @ih route₁
      (Visit.run layout (selected.paths.map (.clone floor)) desk)
      fun path hPath => hPaths path (.inr hPath)
    refine ⟨route₂, ?_⟩
    rw [List.flatMap_cons, List.map_append, Visit.run_append, ← hRest]
    exact run_bind_ok hFirst

/-- The text of a leaf that is copied for an entry does not matter for where a
desk goes. -/
theorem copyLeaf_builder {path : Path} (hNonempty : path ≠ [])
    (hReaches : layout.root.Reaches path)
    (hContent : layout.format.isProperty (layout.root.descendant path).tag = false) :
    ∃ route', (BuilderM.copyLeaf path).run (desk.builder layout floor route) =
      .ok () ((Visit.exec layout desk (.fill floor path none)).builder layout floor route') := by
  obtain ⟨branch, last, rfl⟩ : ∃ branch last, path = branch ++ [last] :=
    ⟨path.dropLast, path.getLast hNonempty, (List.dropLast_append_getLast hNonempty).symm⟩
  have hPaths : Route.paths ⟨branch, last, last + 1⟩ = [branch ++ [last]] := by
    simp [Route.paths, Path.siblings]
  obtain ⟨route', hRoute⟩ := @copyRoute_builder layout floor route desk ⟨branch, last, last + 1⟩
    (by simpa [hPaths] using hReaches)
  refine ⟨route', ?_⟩
  rw [BuilderM.copyLeaf, List.getLast?_concat]
  simp only [List.dropLast_concat]
  refine (run_bind_ok hRoute).trans ?_
  show EStateM.Result.ok () (Builder.settle _) = _
  rw [settle_builder]
  -- a leaf that is copied as it is looks like a clone of it, and both are content
  have hPut : ∀ desk : Desk, (desk.put layout (.clone (branch ++ [last]))).settle.builder
      layout floor route' = (desk.put layout (.leaf (branch ++ [last])
        [layout.root.descendant (branch ++ [last])])).settle.builder layout floor route' := by
    intro desk
    rw [← settle_builder, ← settle_builder, put_builder rfl rfl, put_builder rfl rfl]
    simp [Copy.isContent, hContent]
  rw [hPaths]
  simp only [List.map_cons, List.map_nil, Visit.run_cons, Visit.run_nil, Visit.exec,
    List.dropLast_concat, Layout.written]
  rw [hPut]

@[simp] theorem chain_settle : desk.settle.chain = desk.chain := by
  simp [settle, chain, Function.comp_def]

@[simp] theorem copies_settle : desk.settle.copies = desk.copies := by
  obtain ⟨base, _ | ⟨sheet, rest⟩⟩ := desk <;> rfl

@[simp] theorem copies_put (copy : Copy) :
    (desk.put layout copy).copies = desk.copies ++ [copy] := by
  obtain ⟨base, _ | ⟨sheet, rest⟩⟩ := desk <;> rfl

/-- Another text for the leaf that was copied last. -/
private theorem setCurrent_leaf {path : Path} (before after : List Element) (e : Element)
    (he : e = { layout.root.descendant desk.chain with
      children := Copy.elementsOf layout.root desk.copies ++ after }) :
    (((desk.put layout (.leaf path before)).settle).builder layout floor route).setCurrent e =
      ((desk.put layout (.leaf path after)).settle).builder layout floor route := by
  subst he
  obtain ⟨base, _ | ⟨sheet, rest⟩⟩ := desk
  · simp [put, settle, builder, Builder.setCurrent, framesOf, Copy.bareAt_append, Copy.bareAt,
      Copy.isBare, Copy.elements, chain, copies]
  · simp [put, settle, builder, Builder.setCurrent, framesOf, Copy.bareAt_append, Copy.bareAt,
      Copy.isBare, Copy.elements, chain, copies, Copy.isContent, Function.comp_def]

/-- Writing the leaf that was copied last is copying it with its text. -/
theorem writeLeaf_builder {floor' : Option Nat} {path : Path} (chunks : List String)
    (hLeaf : layout.format.HoldsText layout.root path) :
    (BuilderM.writeLeaf layout.format chunks).run
        ((Visit.exec layout desk (.fill floor' path none)).builder layout floor route) =
      .ok () ((Visit.exec layout desk (.fill floor' path (some chunks))).builder
        layout floor route) := by
  have hKind : layout.format.isSolid (layout.root.descendant path).tag = true ∨
      layout.format.isPiece (layout.root.descendant path).tag = true :=
    hLeaf.kind.imp_right fun h => h.1
  simp only [Visit.exec, Layout.written]
  have hChain := @chain_descend layout floor' desk path.dropLast
  generalize desk.descend layout floor' path.dropLast = parent at hChain ⊢
  have hCurrent : (((parent.put layout (.leaf path
      [layout.root.descendant path])).settle).builder layout floor route).current =
      { layout.root.descendant path.dropLast with
        children :=
          Copy.elementsOf layout.root parent.copies ++ [layout.root.descendant path] } := by
    rw [current_builder]
    simp [hChain, Copy.elements]
  have hWrite : BuilderM.check (layout.format.write { layout.root.descendant path.dropLast with
      children := Copy.elementsOf layout.root parent.copies ++ [layout.root.descendant path] }
        (Copy.elementsOf layout.root parent.copies).length chunks) = pure _ :=
    congrArg BuilderM.check (Format.write_eq_written hKind)
  rw [BuilderM.writeLeaf]
  refine (run_bind_ok rfl).trans ?_
  rw [hCurrent]
  simp only [List.length_append, List.length_singleton, Nat.add_sub_cancel]
  rw [hWrite, pure_bind]
  exact congrArg (EStateM.Result.ok ()) (setCurrent_leaf _ _ _ (by rw [hChain]))

end Desk

end Infill
