import Infill.Proofs.Tracing

/-!
The builder as a cursor over two trees. A zipper holds the copy as one tree and finds
its place there by the indices of the open copies, which it keeps beside the indices
of their sources; every step looks the place up anew. A builder keeps the open copies
apart instead. Both do the same: a zipper goes through the pictures of the builders,
and none of its lookups fails.
-/
namespace Infill

open Infill.Xml

/-- What a zipper notes of an open ancestor. -/
structure Level where
  /-- Whether a leaf was copied below. -/
  isSettled : Bool := false
  /-- Whether it was opened at or below the floor. -/
  isPrunable : Bool := false
  /-- Whether it holds a child besides formatting properties and bare copies. -/
  isFurnished : Bool := false
  /-- The indices of its bare children, ascending. -/
  bare : List Nat := []
  deriving DecidableEq, Inhabited, Repr

/-- A copy under way, as a tree with a place in it. -/
structure Zipper where
  source : Element
  format : Option Format
  destination : Element
  /-- The indices of the open ancestors in the source. -/
  sourceChain : Path := []
  /-- The indices of their copies in the destination. -/
  destinationChain : Path := []
  /-- The open ancestors, innermost first. -/
  levels : List Level := []
  /-- The indices of bare children of the root, ascending. -/
  bare : List Nat := []
  floor : Option Nat := some 0
  route : Option Route := none
  deriving Inhabited, Repr

namespace Zipper

/-- A zipper in front of the root's first child. -/
def start (source : Element) (format : Option Format) : Zipper :=
  { source := source, format := format, destination := source.shell }

/-- Whether an element only formats what it stands in. -/
def isProperty (z : Zipper) (e : Element) : Bool :=
  z.format.any (·.isProperty e.tag)

/-- Note that the innermost open copy holds content. -/
def furnish (z : Zipper) : Zipper :=
  { z with levels := z.levels.modifyHead fun level => { level with isFurnished := true } }

/-- Note that the child at an index of the innermost open copy is bare. -/
def noteBare (z : Zipper) (index : Nat) : Zipper :=
  match z.levels with
  | level :: rest => { z with levels := { level with bare := level.bare ++ [index] } :: rest }
  | [] => { z with bare := z.bare ++ [index] }

/-- Note that a leaf was copied below every open ancestor. -/
def settle (z : Zipper) : Zipper :=
  { z with levels := z.levels.map fun level => { level with isSettled := true } }

end Zipper

/-- Steps of a zipper. One that fails leaves what it did so far. -/
abbrev ZipperM := EStateM Error Zipper

namespace ZipperM

/-- A step that may fail and changes nothing. -/
def check {α : Type} (result : Except Error α) : ZipperM α :=
  match result with
  | .ok a => pure a
  | .error e => throw e

/-- Look up the innermost open copy. -/
def current : ZipperM Element := do
  let z ← get
  check (z.destination.find z.destinationChain)

/-- Change the innermost open copy, wherever it is in the tree. -/
def change (f : Element → Element) : ZipperM Unit := do
  let z ← get
  let tree ← check (z.destination.update z.destinationChain fun e => .ok (f e))
  set { z with destination := tree }

/-- Add a child to the innermost open copy. -/
def push (child : Element) : ZipperM Unit :=
  change fun e => { e with children := e.children ++ [child] }

/-- Close the innermost open ancestor. -/
def pop : ZipperM Unit := do
  let z ← get
  set { z with
    sourceChain := z.sourceChain.dropLast
    destinationChain := z.destinationChain.dropLast
    levels := z.levels.tail }
  match z.sourceChain.getLast?, z.destinationChain.getLast?, z.levels.head? with
  | some _, some index, some level => do
    change fun parent =>
      match parent.children[index]? with
      | some e => { parent with children := parent.children.set index (e.prune level.bare) }
      | none => parent
    if level.isPrunable && !level.isSettled && !level.isFurnished then modify (·.noteBare index)
    else modify (·.furnish)
  | _, _, _ => pure ()

/-- Close so many open ancestors. -/
def popTimes : Nat → ZipperM Unit
  | 0 => pure ()
  | count + 1 => do
    popTimes count
    pop

/-- Close open ancestors until `depth` remain. -/
def rewind (depth : Nat) : ZipperM Unit := do
  popTimes ((← get).sourceChain.length - depth)

/-- Open copies along a path below the open element, which `walked` leads to. -/
def openAlong (walked : Path) : Path → ZipperM Unit
  | [] => pure ()
  | step :: path => do
    let e ← check ((← get).source.find (walked ++ [step]))
    let parent ← current
    push e.shell
    modify fun z => { z with
      sourceChain := z.sourceChain ++ [step]
      destinationChain := z.destinationChain ++ [parent.children.length]
      levels := { isPrunable := z.floor.any (· ≤ walked.length + 1) } :: z.levels }
    openAlong (walked ++ [step]) path

/-- Move to `branch`: close the ancestors that do not lie on it and open copies
along the rest of it. -/
def descend (branch : Path) : ZipperM Unit := do
  let common := Path.sharedLength (← get).sourceChain branch
  rewind common
  openAlong (branch.take common) (branch.drop common)

/-- Copy so many children of an element from `index` on with all that is in them.
The answer tells whether one of them is content. -/
def copyChildren (parent : Element) (index : Nat) : (count : Nat) → ZipperM Bool
  | 0 => pure false
  | count + 1 => do
    let child ← check (parent.child index)
    push child
    let isContent := !(← get).isProperty child
    return (← copyChildren parent (index + 1) count) || isContent

/-- Copy the children that a route selects. An empty route does not move the
zipper. -/
def copyRoute (route : Route) : ZipperM Unit := do
  if !route.isEmpty then
    descend route.branch
    let parent ← check ((← get).source.find route.branch)
    let isFurnished ← copyChildren parent route.start (route.stop - route.start)
    if isFurnished then modify (·.furnish)
    modify fun z => { z with route := some route }

/-- Copy what routes select, one after the other. -/
def copy (routes : List Route) : ZipperM Unit :=
  routes.forM copyRoute

/-- Copy the leaf at a path and settle every open ancestor. The root is no leaf. -/
def copyLeaf (path : Path) : ZipperM Unit :=
  match path.getLast? with
  | none => pure ()
  | some last => do
    copyRoute ⟨path.dropLast, last, last + 1⟩
    modify (·.settle)

/-- Close every ancestor and hand out the copy. -/
def finish : ZipperM Element := do
  rewind 0
  let z ← get
  return z.destination.prune z.bare

/-- A step that succeeds hands its answer and its zipper on. -/
theorem run_bind_ok {α β : Type} {action : ZipperM α} {next : α → ZipperM β} {z z' : Zipper}
    {a : α} (h : action.run z = .ok a z') : (action >>= next).run z = (next a).run z' := by
  simp only [EStateM.run, bind, EStateM.bind] at h ⊢
  rw [h]

/-- A step that fails is the last one. -/
theorem run_bind_error {α β : Type} {action : ZipperM α} {next : α → ZipperM β} {z z' : Zipper}
    {error : Error} (h : action.run z = .error error z') :
    (action >>= next).run z = .error error z' := by
  simp only [EStateM.run, bind, EStateM.bind] at h ⊢
  rw [h]

end ZipperM

/-! ### The picture of a builder -/

namespace Builder

/-- The innermost of open copies. -/
def top (root : Element) : List Frame → Element
  | [] => root
  | frame :: _ => frame.copy

/-- The tree with an element in the place of the innermost open copy. -/
def plug (root : Element) : List Frame → Element → Element
  | [], e => e
  | _ :: rest, e =>
    plug root rest { top root rest with children := (top root rest).children ++ [e] }

/-- The indices of open copies. -/
def places (root : Element) : List Frame → Path
  | [] => []
  | _ :: rest => places root rest ++ [(top root rest).children.length]

/-- What a zipper notes of a frame. -/
def level (frame : Frame) : Level :=
  ⟨frame.isSettled, frame.isPrunable, frame.isFurnished, frame.bare⟩

/-- The zipper that a builder stands for. -/
def zipper (b : Builder) : Zipper :=
  { source := b.source
    format := b.format
    destination := plug b.root b.frames b.current
    sourceChain := b.chain
    destinationChain := places b.root b.frames
    levels := b.frames.map level
    bare := b.rootBare
    floor := b.floor
    route := b.route }

variable {b : Builder} {root e : Element} {frames : List Frame}

theorem current_eq (b : Builder) : b.current = top b.root b.frames := by
  obtain ⟨source, format, root, rootBare, _ | ⟨frame, rest⟩, floor, route⟩ := b <;> rfl

/-- Below the place of the innermost open copy stands what was put there. -/
theorem descendant?_plug (root e : Element) (frames : List Frame) (path : Path) :
    (plug root frames e).descendant? (places root frames ++ path) = e.descendant? path := by
  induction frames generalizing e path with
  | nil => rfl
  | cons frame rest ih =>
    rw [plug, places, List.append_assoc, ih, List.singleton_append]
    simp [Element.descendant?]

/-- A change at the place of the innermost open copy is a change of what stands there. -/
theorem updateFrom_plug (change : Element → Except Error Element) (root e : Element)
    (frames : List Frame) (walked path : Path) :
    (plug root frames e).updateFrom change walked (places root frames ++ path) =
      (e.updateFrom change (walked ++ places root frames) path).map (plug root frames) := by
  induction frames generalizing e path with
  | nil =>
    rw [places, List.nil_append, List.append_nil, plug]
    cases e.updateFrom change walked path <;> rfl
  | cons frame rest ih =>
    rw [plug, places, List.append_assoc, ih, List.singleton_append, Element.updateFrom]
    simp only [List.getElem?_concat_length, List.append_assoc]
    cases e.updateFrom change (walked ++ (places root rest ++ [(top root rest).children.length]))
      path with
    | error error => rfl
    | ok changed => simp [bind, Except.bind, pure, Except.pure, Except.map, plug]

/-- The place of the innermost open copy is there. -/
theorem find_zipper (b : Builder) : b.zipper.destination.find b.zipper.destinationChain =
    .ok b.current := by
  have hPlace := descendant?_plug b.root b.current b.frames []
  rw [List.append_nil, Element.descendant?_nil] at hPlace
  have hReaches : b.zipper.destination.Reaches b.zipper.destinationChain :=
    Option.isSome_iff_exists.2 ⟨_, hPlace⟩
  rw [hReaches.find, Element.descendant]
  exact congrArg Except.ok (congrArg (Option.getD · default) hPlace)

theorem current_run (b : Builder) : ZipperM.current.run b.zipper = .ok b.current b.zipper := by
  change (ZipperM.check (b.zipper.destination.find b.zipper.destinationChain)).run b.zipper = _
  rw [find_zipper]
  rfl

theorem zipper_setCurrent (b : Builder) (e : Element) :
    (b.setCurrent e).zipper = { b.zipper with destination := plug b.root b.frames e } := by
  obtain ⟨source, format, root, rootBare, _ | ⟨frame, rest⟩, floor, route⟩ := b <;> rfl

theorem change_run (b : Builder) (f : Element → Element) :
    (ZipperM.change f).run b.zipper = .ok () (b.setCurrent (f b.current)).zipper := by
  have hUpdate := updateFrom_plug (fun e => .ok (f e)) b.root b.current b.frames [] []
  rw [List.append_nil] at hUpdate
  have hTree : b.zipper.destination.update b.zipper.destinationChain (fun e => .ok (f e)) =
      .ok (plug b.root b.frames (f b.current)) := hUpdate
  change ((ZipperM.check (b.zipper.destination.update b.zipper.destinationChain
    fun e => .ok (f e))) >>= fun tree => set { b.zipper with destination := tree }).run b.zipper = _
  rw [hTree, zipper_setCurrent]
  rfl

theorem push_run (b : Builder) (child : Element) :
    (ZipperM.push child).run b.zipper = .ok () (b.addChild child).zipper :=
  change_run b _

theorem zipper_furnish (b : Builder) : b.zipper.furnish = b.furnish.zipper := by
  obtain ⟨source, format, root, rootBare, _ | ⟨frame, rest⟩, floor, route⟩ := b <;> rfl

theorem zipper_noteBare (b : Builder) (index : Nat) :
    b.zipper.noteBare index = (b.noteBare index).zipper := by
  obtain ⟨source, format, root, rootBare, _ | ⟨frame, rest⟩, floor, route⟩ := b <;> rfl

theorem zipper_settle (b : Builder) : b.zipper.settle = b.settle.zipper := by
  have hTop : ∀ frames : List Frame, top b.root (frames.map fun frame =>
      { frame with isSettled := true }) = top b.root frames := by
    rintro (_ | ⟨frame, rest⟩) <;> rfl
  have hPlug : ∀ (frames : List Frame) (e : Element), plug b.root (frames.map fun frame =>
      { frame with isSettled := true }) e = plug b.root frames e := by
    intro frames
    induction frames with
    | nil => exact fun _ => rfl
    | cons frame rest ih => exact fun e => by rw [List.map_cons, plug, plug, ih, hTop]
  have hPlaces : ∀ frames : List Frame, places b.root (frames.map fun frame =>
      { frame with isSettled := true }) = places b.root frames := by
    intro frames
    induction frames with
    | nil => rfl
    | cons frame rest ih => rw [List.map_cons, places, places, ih, hTop]
  simp only [Zipper.settle, zipper, settle, current_eq, hTop, hPlug, hPlaces, chain, List.map_map]
  rfl

/-! ### Closing -/

@[simp] theorem current_setCurrent (b : Builder) (e : Element) : (b.setCurrent e).current = e := by
  obtain ⟨source, format, root, rootBare, _ | ⟨frame, rest⟩, floor, route⟩ := b <;> rfl

@[simp] theorem setCurrent_setCurrent (b : Builder) (e other : Element) :
    (b.setCurrent e).setCurrent other = b.setCurrent other := by
  obtain ⟨source, format, root, rootBare, _ | ⟨frame, rest⟩, floor, route⟩ := b <;> rfl

/-- Changing the child that was added last is adding the changed one. -/
theorem setCurrent_addChild (b : Builder) (e : Element) (f : Element → Element) :
    (b.addChild e).setCurrent
      (match (b.addChild e).current.children[b.current.children.length]? with
        | some child => { (b.addChild e).current with
            children := (b.addChild e).current.children.set b.current.children.length (f child) }
        | none => (b.addChild e).current) = b.addChild (f e) := by
  simp [addChild]

/-- An open copy stands behind the children of the one around it. -/
theorem zipper_cons (b : Builder) (frame : Frame) :
    zipper { b with frames := frame :: b.frames } =
      { (b.addChild frame.copy).zipper with
        sourceChain := b.chain ++ [frame.step]
        destinationChain := places b.root b.frames ++ [b.current.children.length]
        levels := level frame :: b.frames.map level } := by
  have hChain : chain { b with frames := frame :: b.frames } = b.chain ++ [frame.step] := by
    simp [chain]
  rw [zipper, hChain, addChild, zipper_setCurrent, current_eq b]
  rfl

theorem close_cons (b : Builder) (frame : Frame) :
    close { b with frames := frame :: b.frames } =
      if frame.isPrunable && !frame.isSettled && !frame.isFurnished then
        (b.addChild (frame.copy.prune frame.bare)).noteBare b.current.children.length
      else (b.addChild (frame.copy.prune frame.bare)).furnish := rfl

/-- Closing is changing the open copy, which is then a child like the others. -/
theorem pop_run (b : Builder) : ZipperM.pop.run b.zipper = .ok () b.close.zipper := by
  obtain ⟨source, format, root, rootBare, _ | ⟨frame, rest⟩, floor, route⟩ := b
  · rfl
  let outer : Builder := ⟨source, format, root, rootBare, rest, floor, route⟩
  change ZipperM.pop.run (zipper { outer with frames := frame :: outer.frames }) =
    .ok () (close { outer with frames := frame :: outer.frames }).zipper
  have hCut : ({ (outer.addChild frame.copy).zipper with
      sourceChain := outer.chain
      destinationChain := places outer.root outer.frames
      levels := outer.frames.map level } : Zipper) = (outer.addChild frame.copy).zipper := by
    rw [addChild, zipper_setCurrent]
    rfl
  rw [zipper_cons, close_cons, ZipperM.pop]
  refine (ZipperM.run_bind_ok rfl).trans ((ZipperM.run_bind_ok rfl).trans ?_)
  simp only [List.dropLast_concat, List.getLast?_concat, List.head?_cons, List.tail_cons]
  rw [hCut]
  refine (ZipperM.run_bind_ok (change_run _ _)).trans ?_
  rw [setCurrent_addChild outer frame.copy fun e => e.prune (level frame).bare]
  cases hBare : frame.isPrunable && !frame.isSettled && !frame.isFurnished with
  | true =>
    rw [if_pos rfl, ← zipper_noteBare]
    simp only [level, hBare]
    rfl
  | false =>
    rw [if_neg Bool.false_ne_true, ← zipper_furnish]
    simp only [level, hBare]
    rfl

theorem popTimes_run (b : Builder) (count : Nat) :
    (ZipperM.popTimes count).run b.zipper = .ok () (Nat.repeat close count b).zipper := by
  induction count with
  | zero => rfl
  | succ count ih => exact (ZipperM.run_bind_ok ih).trans (pop_run _)

theorem rewind_run (b : Builder) (depth : Nat) :
    (ZipperM.rewind depth).run b.zipper = .ok () (b.rewind depth).zipper := by
  rw [ZipperM.rewind]
  refine (ZipperM.run_bind_ok rfl).trans ?_
  rw [show b.zipper.sourceChain = b.chain from rfl, length_chain]
  exact popTimes_run b _

/-! ### Chains of builders -/

@[simp] theorem frames_map_step_setCurrent (b : Builder) (e : Element) :
    (b.setCurrent e).frames.map (·.step) = b.frames.map (·.step) := by
  obtain ⟨source, format, root, rootBare, _ | ⟨frame, rest⟩, floor, route⟩ := b <;> rfl

theorem chain_addChild (b : Builder) (e : Element) : (b.addChild e).chain = b.chain := by
  rw [chain, addChild, frames_map_step_setCurrent, chain]

theorem chain_furnish (b : Builder) : b.furnish.chain = b.chain := by
  obtain ⟨source, format, root, rootBare, _ | ⟨frame, rest⟩, floor, route⟩ := b <;> rfl

theorem chain_noteBare (b : Builder) (index : Nat) : (b.noteBare index).chain = b.chain := by
  obtain ⟨source, format, root, rootBare, _ | ⟨frame, rest⟩, floor, route⟩ := b <;> rfl

theorem chain_openChild (b : Builder) (step : Nat) (e : Element) :
    (b.openChild step e).chain = b.chain ++ [step] := by
  simp [openChild, chain]

theorem chain_close (b : Builder) : b.close.chain = b.chain.dropLast := by
  obtain ⟨source, format, root, rootBare, _ | ⟨frame, rest⟩, floor, route⟩ := b
  · rfl
  · rw [close]
    dsimp only
    split
    · rw [chain_noteBare, chain_addChild]
      simp [chain]
    · rw [chain_furnish, chain_addChild]
      simp [chain]

theorem chain_rewind (b : Builder) (depth : Nat) : (b.rewind depth).chain = b.chain.take depth := by
  have hLength := length_chain b
  have hRepeat : ∀ count, (Nat.repeat close count b).chain = b.chain.take (b.depth - count) := by
    intro count
    induction count with
    | zero => rw [Nat.repeat, Nat.sub_zero, ← hLength, List.take_length]
    | succ count ih =>
      rw [Nat.repeat, chain_close, ih, List.dropLast_eq_take, List.take_take, List.length_take]
      congr 1
      omega
  rw [rewind, hRepeat, List.take_eq_take_iff]
  omega

theorem frames_rewind_zero (b : Builder) : (b.rewind 0).frames = [] := by
  have hChain := chain_rewind b 0
  rwa [List.take_zero, chain, List.reverse_eq_nil_iff, List.map_eq_nil_iff] at hChain

end Builder

/-! ### Steps -/

/-- A step that fails is the last one. -/
theorem BuilderM.run_bind_error {α β : Type} {action : BuilderM α} {next : α → BuilderM β}
    {b b' : Builder} {error : Error} (h : action.run b = .error error b') :
    (action >>= next).run b = .error error b' := by
  simp only [EStateM.run, bind, EStateM.bind] at h ⊢
  rw [h]

/-- A lookup that succeeds changes nothing. -/
theorem BuilderM.check_eq_ok {α : Type} {result : Except Error α} {a : α} {b b' : Builder}
    (h : (check result).run b = .ok a b') : b' = b ∧ result = .ok a := by
  cases result with
  | ok a =>
    cases h
    exact ⟨rfl, rfl⟩
  | error error => cases h

namespace ZipperM

/-- The result of a step of a builder as a zipper sees it. -/
def view {α : Type} : EStateM.Result Error Builder α → EStateM.Result Error Zipper α
  | .ok a b => .ok a b.zipper
  | .error error b => .error error b.zipper

variable {α β : Type} {b : Builder}

/-- Steps that agree, followed by steps that agree. -/
theorem view_bind {action : BuilderM α} {next : α → BuilderM β} {image : ZipperM α}
    {imageNext : α → ZipperM β} (h : image.run b.zipper = view (action.run b))
    (hNext : ∀ a b', action.run b = .ok a b' →
      (imageNext a).run b'.zipper = view ((next a).run b')) :
    (image >>= imageNext).run b.zipper = view ((action >>= next).run b) := by
  cases hRun : action.run b with
  | ok a b' =>
    rw [hRun] at h
    rw [run_bind_ok h, Desk.run_bind_ok hRun]
    exact hNext a b' hRun
  | error error b' =>
    rw [hRun] at h
    rw [run_bind_error h, BuilderM.run_bind_error hRun]
    rfl

theorem check_view (result : Except Error α) (b : Builder) :
    (check result).run b.zipper = view ((BuilderM.check result).run b) := by
  cases result <;> rfl

/-- Opening a child adds its copy and makes it the innermost open one. -/
theorem zipper_openChild (b : Builder) (step : Nat) (e : Element) :
    (b.openChild step e).zipper = { (b.addChild e.shell).zipper with
      sourceChain := b.chain ++ [step]
      destinationChain := Builder.places b.root b.frames ++ [b.current.children.length]
      levels := { isPrunable := b.floor.any (· ≤ b.depth + 1) } :: b.frames.map Builder.level } := by
  rw [Builder.addChild, Builder.zipper_setCurrent, Builder.zipper, Builder.chain_openChild,
    Builder.current_eq b]
  rfl

theorem openAlong_view (path : Path) {walked : Path} (h : b.chain = walked) :
    (openAlong walked path).run b.zipper = view ((BuilderM.openAlong walked path).run b) := by
  induction path generalizing b walked with
  | nil => rfl
  | cons step path ih =>
    subst h
    rw [openAlong, BuilderM.openAlong]
    refine (run_bind_ok rfl).trans (Eq.trans ?_ (congrArg view (Desk.run_bind_ok rfl)).symm)
    refine view_bind (check_view _ b) fun e b' hCheck => ?_
    obtain ⟨rfl, -⟩ := BuilderM.check_eq_ok hCheck
    refine (run_bind_ok (Builder.current_run _)).trans ((run_bind_ok (Builder.push_run _ _)).trans ?_)
    refine (run_bind_ok rfl).trans (Eq.trans ?_ (congrArg view (Desk.run_bind_ok rfl)).symm)
    have hOpen := ih (Builder.chain_openChild b' step e)
    rw [zipper_openChild, ← Builder.length_chain] at hOpen
    rw [Builder.addChild, Builder.zipper_setCurrent]
    rw [Builder.addChild, Builder.zipper_setCurrent] at hOpen
    exact hOpen

theorem descend_view (branch : Path) (b : Builder) :
    (descend branch).run b.zipper = view ((BuilderM.descend branch).run b) := by
  rw [descend, BuilderM.descend]
  refine (run_bind_ok rfl).trans (Eq.trans ?_ (congrArg view (Desk.run_bind_ok rfl)).symm)
  refine (run_bind_ok (Builder.rewind_run b _)).trans
    (Eq.trans ?_ (congrArg view (Desk.run_bind_ok rfl)).symm)
  exact openAlong_view _ ((Builder.chain_rewind b _).trans (Path.take_sharedLength b.chain branch))

theorem copyChildren_view (parent : Element) (index count : Nat) (b : Builder) :
    (copyChildren parent index count).run b.zipper =
      view ((BuilderM.copyChildren parent index count).run b) := by
  induction count generalizing index b with
  | zero => rfl
  | succ count ih =>
    rw [copyChildren, BuilderM.copyChildren]
    refine view_bind (check_view _ b) fun child b' hCheck => ?_
    obtain ⟨rfl, -⟩ := BuilderM.check_eq_ok hCheck
    refine (run_bind_ok (Builder.push_run _ _)).trans
      (Eq.trans ?_ (congrArg view (Desk.run_bind_ok rfl)).symm)
    refine (run_bind_ok rfl).trans (Eq.trans ?_ (congrArg view (Desk.run_bind_ok rfl)).symm)
    exact view_bind (ih _ _) fun _ _ _ => rfl

theorem copyRoute_view (route : Route) (b : Builder) :
    (copyRoute route).run b.zipper = view ((BuilderM.copyRoute route).run b) := by
  rw [copyRoute, BuilderM.copyRoute]
  cases route.isEmpty with
  | true => rfl
  | false =>
    refine view_bind (descend_view _ b) fun _ b' _ => ?_
    refine (run_bind_ok rfl).trans (Eq.trans ?_ (congrArg view (Desk.run_bind_ok rfl)).symm)
    refine view_bind (check_view _ b') fun parent b'' hCheck => ?_
    obtain ⟨rfl, -⟩ := BuilderM.check_eq_ok hCheck
    refine view_bind (copyChildren_view _ _ _ _) fun isFurnished b' _ => ?_
    cases isFurnished with
    | true =>
      refine (run_bind_ok rfl).trans (Eq.trans ?_ (congrArg view (Desk.run_bind_ok rfl)).symm)
      beta_reduce
      rw [Builder.zipper_furnish]
      rfl
    | false => rfl

theorem copy_view (routes : List Route) (b : Builder) :
    (copy routes).run b.zipper = view ((BuilderM.copy routes).run b) := by
  rw [copy, BuilderM.copy]
  induction routes generalizing b with
  | nil => rfl
  | cons route routes ih =>
    exact view_bind (copyRoute_view route b) fun _ b' _ => ih b'

theorem copyLeaf_view (path : Path) (b : Builder) :
    (copyLeaf path).run b.zipper = view ((BuilderM.copyLeaf path).run b) := by
  rw [copyLeaf, BuilderM.copyLeaf]
  cases path.getLast? with
  | none => rfl
  | some last =>
    refine view_bind (copyRoute_view _ b) fun _ b' _ => ?_
    change EStateM.Result.ok () b'.zipper.settle = _
    rw [Builder.zipper_settle]
    rfl

theorem finish_run (b : Builder) :
    finish.run b.zipper = .ok b.finish (b.rewind 0).zipper := by
  have hTree : (b.rewind 0).zipper.destination = (b.rewind 0).root := by
    rw [Builder.zipper, Builder.current_eq, Builder.frames_rewind_zero]
    rfl
  rw [finish]
  refine (run_bind_ok (Builder.rewind_run b 0)).trans ((run_bind_ok rfl).trans ?_)
  rw [hTree]
  rfl

end ZipperM

/-! ### Calls -/

/-- What a step leaves behind, whether it failed or not. -/
def after {σ α : Type} : EStateM.Result Error σ α → σ
  | .ok _ s => s
  | .error _ s => s

namespace Builder

/-- A call of a builder. -/
inductive Call
  | copy (routes : List Route)
  | copyLeaf (path : Path)
  | descend (branch : Path)
  | rewind (depth : Nat)
  | setFloor (floor : Option Nat)
  deriving DecidableEq, Inhabited, Repr

/-- A call as a step of a builder. -/
def Call.exec : Call → BuilderM Unit
  | copy routes => BuilderM.copy routes
  | copyLeaf path => BuilderM.copyLeaf path
  | descend branch => BuilderM.descend branch
  | rewind depth => BuilderM.rewind depth
  | setFloor floor => modify (·.setFloor floor)

/-- A call as a step of a zipper. -/
def Call.execZipper : Call → ZipperM Unit
  | copy routes => ZipperM.copy routes
  | copyLeaf path => ZipperM.copyLeaf path
  | descend branch => ZipperM.descend branch
  | rewind depth => ZipperM.rewind depth
  | setFloor floor => modify fun z => { z with floor := floor }

/-- Go through calls, those that fail included. -/
def run (b : Builder) (calls : List Call) : Builder :=
  calls.foldl (fun b call => after (call.exec.run b)) b

theorem Call.execZipper_view (call : Call) (b : Builder) :
    call.execZipper.run b.zipper = ZipperM.view (call.exec.run b) := by
  cases call with
  | copy routes => exact ZipperM.copy_view routes b
  | copyLeaf path => exact ZipperM.copyLeaf_view path b
  | descend branch => exact ZipperM.descend_view branch b
  | rewind depth => exact rewind_run b depth
  | setFloor floor => rfl

end Builder

/-- Go through calls, those that fail included. -/
def Zipper.run (z : Zipper) (calls : List Builder.Call) : Zipper :=
  calls.foldl (fun z call => after (call.execZipper.run z)) z

/-- A zipper goes through the pictures of the builders. -/
theorem Zipper.run_zipper (b : Builder) (calls : List Builder.Call) :
    b.zipper.run calls = (b.run calls).zipper := by
  induction calls generalizing b with
  | nil => rfl
  | cons call calls ih =>
    have hStep : after (call.execZipper.run b.zipper) = (after (call.exec.run b)).zipper := by
      rw [call.execZipper_view]
      cases call.exec.run b <;> rfl
    rw [run, List.foldl_cons, hStep]
    exact ih _

end Infill
