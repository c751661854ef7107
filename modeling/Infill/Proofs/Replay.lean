import Infill.Proofs.Tracing

/-!
Copying a tree from one leaf to the next. A builder without a format leaves
nothing out. Given the routes of every boundary and the leaves between them in
turn, it holds at each point the document up to there: what is open are the
ancestors of its place, each with its first children. A boundary picks up where
the leaf before it ends and stops where the next leaf begins.
-/
namespace Infill

open Infill.Xml

namespace Xml.Element

/-- The element with its first children. -/
def upTo (e : Element) (count : Nat) : Element :=
  { e with children := e.children.take count }

theorem upTo_of_le {e : Element} {count : Nat} (h : e.children.length ≤ count) :
    e.upTo count = e := by
  obtain ⟨name, tag, attributes, text, tail, children⟩ := e
  exact congrArg _ (List.take_of_length_le h)

theorem prune_nil (e : Element) : e.prune [] = e := by
  obtain ⟨name, tag, attributes, text, tail, children⟩ := e
  rw [prune, List.drop_nil]
  rfl

/-- One child more. -/
theorem Reaches.upTo_succ {root : Element} {path : Path} {index : Nat}
    (h : root.Reaches (path ++ [index])) :
    { (root.descendant path).upTo index with
      children := ((root.descendant path).upTo index).children ++
        [root.descendant (path ++ [index])] } = (root.descendant path).upTo (index + 1) := by
  simp only [upTo, List.take_add_one, h.child, Option.toList_some]

end Xml.Element

/-- Whether open copies, innermost first, and the copy of the root around them
hold the first children of their elements, so many of them in the innermost. -/
def Frame.Hold (root base : Element) : List Frame → (count : Nat) → Prop
  | [], count => base = root.upTo count
  | frame :: rest, count =>
    frame.copy = (root.descendant ((frame :: rest).map (·.step)).reverse).upTo count ∧
      frame.bare = [] ∧ (0 < count → frame.isFurnished = true) ∧ Hold root base rest frame.step

namespace Builder

/-- Whether a builder that leaves nothing out stands in front of the child at an
index of the element at a path, with all that comes before it. -/
structure UpTo (root : Element) (path : Path) (index : Nat) (b : Builder) : Prop where
  source : b.source = root
  format : b.format = none
  chain : b.chain = path
  rootBare : b.rootBare = []
  hold : Frame.Hold root b.root b.frames index

variable {root : Element} {path : Path} {index : Nat} {b : Builder}

theorem upTo_start (root : Element) : (start root none).UpTo root [] 0 :=
  ⟨rfl, rfl, rfl, rfl, rfl⟩

namespace UpTo

/-- Copying a child. -/
theorem push (h : b.UpTo root path index) (hReaches : root.Reaches (path ++ [index])) :
    (b.addChild (root.descendant (path ++ [index]))).furnish.UpTo root path (index + 1) := by
  obtain ⟨source, format, base, rootBare, frames, floor, route⟩ := b
  obtain ⟨hSource, hFormat, hChain, hBare, hHold⟩ := h
  have hMore := hReaches.upTo_succ
  cases frames with
  | nil =>
    obtain rfl : base = root.upTo index := hHold
    obtain rfl : [] = path := hChain
    exact ⟨hSource, hFormat, rfl, hBare, hMore⟩
  | cons frame rest =>
    obtain ⟨hCopy, hNone, -, hRest⟩ := hHold
    have hPath : ((frame :: rest).map (·.step)).reverse = path := hChain
    rw [hPath] at hCopy
    rw [← hCopy] at hMore
    refine ⟨hSource, hFormat, hChain, hBare, hMore.trans ?_, hNone, fun _ => rfl, hRest⟩
    rw [← hPath]
    rfl

/-- Copying children that follow each other. -/
theorem foldl (hReaches : root.Reaches path) (count : Nat) {index : Nat} {b : Builder}
    (h : b.UpTo root path index) (hStop : index + count < root.degree path) :
    ((((root.descendant path).children.drop index).take (count + 1)).foldl addChild b).furnish.UpTo
      root path (index + count + 1) := by
  have hChild : root.Reaches (path ++ [index]) :=
    Element.reaches_concat.2 ⟨hReaches, by omega⟩
  obtain ⟨hLess, hGet⟩ := List.getElem?_eq_some_iff.1 hChild.child
  rw [List.drop_eq_getElem_cons hLess, hGet, List.take_succ_cons, List.foldl_cons]
  cases count with
  | zero => exact h.push hChild
  | succ count =>
    have hRest := foldl hReaches count (h.push hChild) (by omega)
    rwa [Desk.furnish_foldl_addChild, Desk.furnish_furnish, Nat.add_right_comm index 1] at hRest

/-- Closing an open element behind its last child. -/
theorem close (h : b.UpTo root (path ++ [index]) (root.degree (path ++ [index])))
    (hReaches : root.Reaches (path ++ [index])) (hPos : 0 < root.degree (path ++ [index])) :
    b.close.UpTo root path (index + 1) := by
  obtain ⟨source, format, base, rootBare, frames, floor, route⟩ := b
  obtain ⟨hSource, hFormat, hChain, hBare, hHold⟩ := h
  cases frames with
  | nil => simp [Builder.chain] at hChain
  | cons frame rest =>
    obtain ⟨hCopy, hNone, hFurnished, hRest⟩ := hHold
    have hPath : ((frame :: rest).map (·.step)).reverse = path ++ [index] := hChain
    rw [hPath, Element.degree, Element.upTo_of_le (Nat.le_refl _)] at hCopy
    rw [List.map_cons, List.reverse_cons] at hPath
    obtain ⟨hOuter, hStep⟩ := List.append_inj' hPath rfl
    obtain rfl : frame.step = index := List.head_eq_of_cons_eq hStep
    have hAround : (Builder.mk source format base rootBare rest floor route).UpTo root path
        frame.step := ⟨hSource, hFormat, hOuter, hBare, hRest⟩
    have hClosed := hAround.push hReaches
    rw [← hCopy, ← Element.prune_nil frame.copy, ← hNone] at hClosed
    rw [Builder.close]
    simpa only [hFurnished hPos, Bool.not_true, Bool.and_false, Bool.false_eq_true, if_false]
      using hClosed

/-- Opening a copy of the next child. -/
theorem openChild (h : b.UpTo root path index) :
    (b.openChild index (root.descendant (path ++ [index]))).UpTo root (path ++ [index]) 0 := by
  have hChain : ((index :: b.frames.map (·.step))).reverse = path ++ [index] := by
    rw [List.reverse_cons, ← h.chain]
    rfl
  refine ⟨h.source, h.format, hChain, h.rootBare, ?_, rfl, fun hLess => absurd hLess (by simp), h.hold⟩
  show (root.descendant (path ++ [index])).shell = (root.descendant (index :: _).reverse).upTo 0
  rw [hChain]
  rfl

theorem settle (h : b.UpTo root path index) : b.settle.UpTo root path index := by
  have hFrames : ∀ (frames : List Frame) (count : Nat), Frame.Hold root b.root frames count →
      Frame.Hold root b.root (frames.map fun frame => { frame with isSettled := true }) count := by
    intro frames
    induction frames with
    | nil => exact fun count hHold => hHold
    | cons frame rest ih =>
      rintro count ⟨hCopy, hNone, hFurnished, hRest⟩
      refine ⟨?_, hNone, hFurnished, ih _ hRest⟩
      simpa [List.map_map, Function.comp_def] using hCopy
  refine ⟨h.source, h.format, ?_, h.rootBare, hFrames _ _ h.hold⟩
  rw [← h.chain]
  simp [Builder.chain, Builder.settle, Function.comp_def]

/-- What is finished behind the last child of the root is the root. -/
theorem finish (h : (b.rewind 0).UpTo root [] (root.degree [])) : b.finish = root := by
  have hNone : (b.rewind 0).frames = [] := by
    simpa [Builder.chain] using h.chain
  have hRoot : (b.rewind 0).root = root.upTo root.children.length := by
    have hHold := h.hold
    rwa [hNone] at hHold
  rw [Builder.finish]
  simp only [h.rootBare, Element.prune_nil]
  rw [hRoot, Element.upTo_of_le (Nat.le_refl _)]

end UpTo

/-- Whether a builder has copied the first children of the element at a path and
nothing else of it: it stands behind them, or at the end of the last of them. -/
inductive Past (root : Element) (b : Builder) : Path → Nat → Prop
  | here {path : Path} {index : Nat} (h : b.UpTo root path index) : Past root b path index
  | up {path : Path} {index : Nat} (hReaches : root.Reaches (path ++ [index]))
      (hPos : 0 < root.degree (path ++ [index]))
      (h : Past root b (path ++ [index]) (root.degree (path ++ [index]))) :
      Past root b path (index + 1)

theorem rewind_of_le {depth : Nat} (h : b.chain.length ≤ depth) : b.rewind depth = b := by
  rw [rewind, ← length_chain, Nat.sub_eq_zero_of_le h]
  rfl

theorem rewind_of_lt {depth : Nat} (h : depth < b.chain.length) :
    b.rewind depth = (b.rewind (depth + 1)).close := by
  rw [rewind, rewind, ← length_chain, show b.chain.length - depth = b.chain.length - (depth + 1) + 1 by omega]
  rfl

/-- What is open below a place lies in a child before it, and is closed on the
way there. -/
theorem Past.rewind (h : b.Past root path index) :
    ∃ rest, b.chain = path ++ rest ∧ (∀ i ∈ rest.head?, i < index) ∧
      (b.rewind path.length).UpTo root path index := by
  induction h with
  | here h =>
    refine ⟨[], by rw [h.chain, List.append_nil], by simp, ?_⟩
    rwa [rewind_of_le (by rw [h.chain])]
  | @up path index hReaches hPos h ih =>
    obtain ⟨rest, hChain, -, hUpTo⟩ := ih
    refine ⟨index :: rest, by simpa using hChain, by simp, ?_⟩
    rw [rewind_of_lt (by rw [hChain]; simp)]
    rw [List.length_append, List.length_singleton] at hUpTo
    exact hUpTo.close hReaches hPos

/-- A builder behind the last child of the root holds the whole document. -/
theorem Past.finish (h : b.Past root [] (root.degree [])) : b.finish = root := by
  obtain ⟨-, -, -, hUpTo⟩ := h.rewind
  exact hUpTo.finish

/-- Whether a builder has copied everything in front of an element. Its place may
still be further up, in front of an ancestor whose first steps lead there. -/
def Facing (root : Element) (b : Builder) (path : Path) : Prop :=
  ∃ w i s, path = w ++ i :: s ∧ (∀ k ∈ s, k = 0) ∧ b.Past root w i

theorem Past.facing (h : b.Past root path index) : b.Facing root (path ++ [index]) :=
  ⟨path, index, [], rfl, by simp, h⟩

/-- In front of an element is in front of its first child. -/
theorem Facing.first (h : b.Facing root path) : b.Facing root (path ++ [0]) := by
  obtain ⟨w, i, s, rfl, hFirst, hPast⟩ := h
  refine ⟨w, i, s ++ [0], by simp, ?_, hPast⟩
  simpa [or_imp, forall_and] using hFirst

/-- Whether a builder has copied everything up to an element with all that is in
it. -/
def Behind (root : Element) (b : Builder) (path : Path) : Prop :=
  ∃ w i, path = w ++ [i] ∧ b.Past root w (i + 1)

end Builder

namespace BuilderM

open Builder

/-- Whether a step succeeds and leaves a builder with a property. -/
def Leads (b : Builder) (action : BuilderM Unit) (goal : Builder → Prop) : Prop :=
  ∃ b', action.run b = .ok () b' ∧ goal b'

variable {root : Element} {path branch : Path} {index low high : Nat} {b : Builder}
variable {action next : BuilderM Unit} {goal later : Builder → Prop}

theorem Leads.pure (h : goal b) : Leads b (pure ()) goal :=
  ⟨b, rfl, h⟩

theorem Leads.bind (h : Leads b action goal) (hNext : ∀ b', goal b' → Leads b' next later) :
    Leads b (action >>= fun _ => next) later := by
  obtain ⟨b', hRun, hGoal⟩ := h
  obtain ⟨b'', hNextRun, hLater⟩ := hNext b' hGoal
  exact ⟨b'', (Desk.run_bind_ok hRun).trans hNextRun, hLater⟩

theorem Leads.mono (h : Leads b action goal) (hGoal : ∀ b', goal b' → later b') :
    Leads b action later :=
  h.imp fun b' hLeads => hLeads.imp_right (hGoal b')

/-- Opening copies along a path on which every child but the first is a first child. -/
theorem openAlong_leads (along : Path) {path : Path} {index : Nat} {b : Builder}
    (h : b.UpTo root path index) {rest : Path} (hFirst : ∀ k ∈ rest, k = 0)
    (hEq : along ++ [low] = index :: rest) (hReaches : root.Reaches (path ++ along)) :
    Leads b (openAlong path along) (·.UpTo root (path ++ along) low) := by
  induction along generalizing path index b rest with
  | nil =>
    obtain ⟨rfl, -⟩ := List.cons.inj hEq
    rw [List.append_nil]
    exact Leads.pure h
  | cons step along ih =>
    obtain ⟨rfl, hRest⟩ := List.cons.inj hEq
    have hStep : root.Reaches (path ++ [step] ++ along) := by simpa using hReaches
    have hFind : check (b.source.find (path ++ [step])) = Pure.pure (root.descendant (path ++ [step])) := by
      rw [h.source, hStep.of_append.find]
      rfl
    have hNext : ∃ tail, along ++ [low] = 0 :: tail ∧ ∀ k ∈ tail, k = 0 := by
      obtain ⟨k, tail, rfl⟩ : ∃ k tail, rest = k :: tail :=
        List.exists_cons_of_ne_nil (by rw [← hRest]; simp)
      obtain rfl := hFirst k List.mem_cons_self
      exact ⟨tail, hRest, fun j hj => hFirst j (List.mem_cons_of_mem _ hj)⟩
    obtain ⟨tail, hTail, hZero⟩ := hNext
    obtain ⟨b', hRun, hGoal⟩ := ih h.openChild hZero hTail hStep
    refine ⟨b', ?_, by simpa using hGoal⟩
    rw [openAlong]
    apply (Desk.run_bind_ok rfl).trans
    rw [hFind, pure_bind]
    exact (Desk.run_bind_ok rfl).trans hRun

/-- Moving to an element of which everything in front of a child is copied. -/
theorem descend_leads (h : b.Facing root (branch ++ [low])) (hReaches : root.Reaches branch) :
    Leads b (descend branch) (·.UpTo root branch low) := by
  obtain ⟨w, i, s, hPath, hFirst, hPast⟩ := h
  obtain ⟨rest, hChain, hBehind, hUpTo⟩ := hPast.rewind
  obtain ⟨along, rfl⟩ : w <+: branch := by
    apply List.prefix_of_prefix_length_le (hPath ▸ List.prefix_append w _) (List.prefix_append _ _)
    have := congrArg List.length hPath
    simp at this
    omega
  have hAlong : along ++ [low] = i :: s := by simpa using hPath
  -- what is open leaves the way in a child before the place, so the two part there
  have hApart : Path.sharedLength b.chain (w ++ along) = w.length := by
    rw [hChain]
    apply Path.sharedLength_apart
    intro j hj hSame
    obtain ⟨along, rfl⟩ : ∃ tail, along = j :: tail := by
      cases along <;> simp_all
    have hLess := hBehind j hj
    obtain rfl : j = i := by simpa using (List.cons.inj hAlong).1
    omega
  obtain ⟨b', hRun, hGoal⟩ := openAlong_leads along hUpTo hFirst hAlong hReaches
  refine ⟨b', ?_, hGoal⟩
  rw [descend]
  apply (Desk.run_bind_ok rfl).trans
  rw [hApart, List.take_left, List.drop_left]
  exact (Desk.run_bind_ok rfl).trans hRun

/-- Copying siblings in front of the first of which everything is copied. -/
theorem copyRoute_leads (h : b.Facing root (branch ++ [low])) (hReaches : root.Reaches branch)
    (hLess : low < high) (hStop : high ≤ root.degree branch) :
    Leads b (copyRoute ⟨branch, low, high⟩) (·.UpTo root branch high) := by
  obtain ⟨b', hDescend, hUpTo⟩ := descend_leads h hReaches
  obtain ⟨count, rfl⟩ : ∃ count, high = low + count + 1 := ⟨high - low - 1, by omega⟩
  have hFind : check (b'.source.find branch) = Pure.pure (root.descendant branch) := by
    rw [hUpTo.source, hReaches.find]
    rfl
  have hCopy := @Desk.copyChildren_run (root.descendant branch) (count + 1) low b' hStop
  have hContent : ((((root.descendant branch).children.drop low).take (count + 1)).any
      fun e => !b'.isProperty e) = true := by
    rw [List.drop_eq_getElem_cons (by rw [Element.degree] at hStop; omega), List.take_succ_cons,
      List.any_cons, isProperty, hUpTo.format]
    rfl
  have hDone := hUpTo.foldl hReaches count (by omega)
  generalize ((root.descendant branch).children.drop low).take (count + 1) = copied at hCopy hDone hContent
  have hRun : (copyRoute ⟨branch, low, low + count + 1⟩).run b =
      .ok () { (copied.foldl addChild b').furnish with
        route := some ⟨branch, low, low + count + 1⟩ } := by
    have hSome : (!Route.isEmpty ⟨branch, low, low + count + 1⟩) = true := by
      rw [Route.isEmpty, decide_eq_false (Nat.not_le_of_lt hLess)]
      rfl
    rw [copyRoute, if_pos hSome]
    apply (Desk.run_bind_ok hDescend).trans
    apply (Desk.run_bind_ok rfl).trans
    rw [hFind, pure_bind, show low + count + 1 - low = count + 1 by omega]
    apply (Desk.run_bind_ok hCopy).trans
    rw [hContent]
    rfl
  exact ⟨_, hRun, hDone.source, hDone.format, hDone.chain, hDone.rootBare, hDone.hold⟩

/-- Copying siblings behind those that are copied, possibly none. -/
theorem copyRoute_past {route : Route} (h : b.Past root route.branch route.start)
    (hFits : route.Fits root) : Leads b (copyRoute route) (·.Past root route.branch route.stop) := by
  rcases Nat.eq_or_lt_of_le hFits.start_le with hSame | hLess
  · rw [copyRoute, if_neg (by simp [Route.isEmpty, hSame])]
    exact Leads.pure (hSame ▸ h)
  · exact (copyRoute_leads h.facing hFits.reaches hLess hFits.stop_le).mono fun _ => .here

theorem copy_cons (route : Route) (routes : List Route) :
    copy (route :: routes) = copyRoute route >>= fun _ => copy routes :=
  List.forM_cons

theorem copy_append (left right : List Route) :
    copy (left ++ right) = copy left >>= fun _ => copy right :=
  List.forM_append

/-- Routes that select nothing do nothing. -/
theorem copy_filter (routes : List Route) : copy (routes.filter (!·.isEmpty)) = copy routes := by
  induction routes with
  | nil => rfl
  | cons route routes ih =>
    cases hEmpty : route.isEmpty with
    | true =>
      rw [List.filter_cons_of_neg (by simp [hEmpty]), ih, copy_cons, copyRoute,
        if_neg (by simp [hEmpty]), pure_bind]
    | false => rw [List.filter_cons_of_pos (by simp [hEmpty]), copy_cons, ih, copy_cons]

/-- What follows a place in the element that holds it, level by level. -/
theorem copy_behindAll (r : Path) {w : Path} {i : Nat} {b : Builder}
    (hReaches : root.Reaches (w ++ i :: r)) (h : b.Behind root (w ++ i :: r)) :
    Leads b (copy (Route.behindAll root (w ++ [i]) r)) (·.Past root w (i + 1)) := by
  induction r generalizing w i b with
  | nil =>
    obtain ⟨v, k, hSame, hPast⟩ := h
    obtain ⟨rfl, hLast⟩ := List.append_inj' hSame rfl
    obtain rfl : i = k := List.head_eq_of_cons_eq hLast
    exact Leads.pure hPast
  | cons j r ih =>
    have hSplit : w ++ i :: j :: r = (w ++ [i]) ++ j :: r := by simp
    rw [hSplit] at hReaches h
    have hChild : root.Reaches (w ++ [i] ++ [j]) := hReaches.above ⟨r, by simp⟩
    have hDegree := (Element.reaches_concat.1 hChild).2
    rw [Route.behindAll, copy_append]
    apply (ih hReaches h).bind
    intro b' hPast
    rw [copy_cons]
    have hFits : Route.Fits root ⟨w ++ [i], j + 1, root.degree (w ++ [i])⟩ :=
      ⟨hChild.of_append, hDegree, Nat.le_refl _⟩
    apply (copyRoute_past hPast hFits).bind
    intro b'' hPast
    exact Leads.pure (hPast.up hChild.of_append (by omega))

/-- What precedes a place in an element that the builder faces, level by level. -/
theorem copy_before (s : Path) {w : Path} {b : Builder} (hReaches : root.Reaches (w ++ s))
    (h : b.Facing root w) : Leads b (copy (Route.before w s)) (·.Facing root (w ++ s)) := by
  induction s generalizing w b with
  | nil =>
    rw [List.append_nil]
    exact Leads.pure h
  | cons k s ih =>
    have hSplit : w ++ k :: s = (w ++ [k]) ++ s := by simp
    rw [hSplit] at hReaches ⊢
    obtain ⟨hHere, hDegree⟩ := Element.reaches_concat.1 hReaches.of_append
    have hFirst : Leads b (copyRoute ⟨w, 0, k⟩) (·.Facing root (w ++ [k])) := by
      rcases Nat.eq_zero_or_pos k with rfl | hPos
      · rw [copyRoute, if_neg (by simp [Route.isEmpty])]
        exact Leads.pure h.first
      · exact (copyRoute_leads h.first hHere hPos (Nat.le_of_lt hDegree)).mono
          fun _ hUpTo => (Past.here hUpTo).facing
    rw [Route.before, copy_cons]
    exact hFirst.bind fun _ hFacing => ih hReaches hFacing

/-- Copying the leaf that the builder faces. -/
theorem copyLeaf_leads (hNonempty : path ≠ []) (hReaches : root.Reaches path)
    (h : b.Facing root path) : Leads b (copyLeaf path) (·.Behind root path) := by
  obtain ⟨branch, last, rfl⟩ : ∃ branch last, path = branch ++ [last] :=
    ⟨path.dropLast, path.getLast hNonempty, (List.dropLast_append_getLast hNonempty).symm⟩
  obtain ⟨hBranch, hLast⟩ := Element.reaches_concat.1 hReaches
  rw [copyLeaf, List.getLast?_concat]
  simp only [List.dropLast_concat]
  apply (copyRoute_leads h hBranch (Nat.lt_succ_self last) hLast).bind
  intro b' hUpTo
  exact ⟨b'.settle, rfl, branch, last, rfl, .here hUpTo.settle⟩

end BuilderM

/-! ### From leaf to leaf -/

/-- Whether a builder stands right behind a leaf, or in front of the document. -/
def Builder.Follows (root : Element) (b : Builder) : (previous : Option Path) → Prop
  | none => b.Past root [] 0
  | some p => b.Behind root p

/-- Whether a builder stands right in front of a leaf, or behind the document. -/
def Builder.Precedes (root : Element) (b : Builder) : (next : Option Path) → Prop
  | none => b.Past root [] (root.degree [])
  | some q => b.Facing root q

namespace Boundary

open BuilderM

variable {root : Element} {previous next : Option Path} {boundary : Boundary} {b : Builder}

theorem copy_routes (boundary : Boundary) :
    copy boundary.routes = copy boundary.ending >>= fun _ =>
      copyRoute boundary.gap >>= fun _ => copy boundary.opening := by
  rw [routes, copy_append, copy_cons]

theorem Departs.leads (h : boundary.Departs root previous) (hReaches : ∀ p ∈ previous, root.Reaches p)
    (hb : b.Follows root previous) :
    Leads b (copy boundary.ending) (·.Past root boundary.gap.branch boundary.gap.start) := by
  cases previous with
  | none =>
    obtain ⟨hBranch, hStart, hEnding⟩ := h
    rw [hBranch, hStart, hEnding]
    exact Leads.pure hb
  | some p =>
    obtain ⟨i, r, rfl, hStart, hEnding⟩ := h
    rw [hStart, hEnding, copy_filter]
    exact copy_behindAll r (hReaches _ rfl) hb

theorem Arrives.leads (h : boundary.Arrives root next) (hReaches : ∀ q ∈ next, root.Reaches q)
    (hb : b.Past root boundary.gap.branch boundary.gap.stop) :
    Leads b (copy boundary.opening) (·.Precedes root next) := by
  cases next with
  | none =>
    obtain ⟨hBranch, hStop, hOpening⟩ := h
    rw [hBranch, hStop] at hb
    rw [hOpening]
    exact Leads.pure hb
  | some q =>
    obtain ⟨j, s, rfl, rfl, hOpening⟩ := h
    have hSplit : boundary.gap.branch ++ boundary.gap.stop :: s =
        boundary.gap.branch ++ [boundary.gap.stop] ++ s := by simp
    have hPlace := hReaches _ rfl
    rw [hOpening, copy_filter]
    simp only [Builder.Precedes]
    rw [hSplit] at hPlace ⊢
    exact copy_before s hPlace hb.facing

/-- Copying a boundary leads from its first leaf to the next one. -/
theorem Spans.leads (h : Spans root previous next boundary)
    (hPrevious : ∀ p ∈ previous, root.Reaches p) (hNext : ∀ q ∈ next, root.Reaches q)
    (hb : b.Follows root previous) : Leads b (copy boundary.routes) (·.Precedes root next) := by
  rw [copy_routes]
  apply (h.departs.leads hPrevious hb).bind
  intro b' hPast
  apply (copyRoute_past hPast h.fits).bind
  intro b'' hPast
  exact h.arrives.leads hNext hPast

end Boundary

namespace Boundaries

open BuilderM

/-- Copy what stands between the leaves of a line and the leaves themselves, in
turn. -/
def replay (boundaries : Boundaries) : BuilderM Unit := do
  (List.range' 1 boundaries.leaves.length).forM fun index => do
    copy (← check (boundaries.get index)).routes
    copyLeaf (← check (boundaries.leaf index))
  copy (← check (boundaries.get boundaries.last)).routes

variable {root : Element} {leaves : List Path} {boundaries : Boundaries} {b : Builder}

section

variable (hLinks : Links root leaves boundaries) (hOrdered : leaves.Pairwise Path.Before)
  (hPlaces : ∀ leaf ∈ leaves, leaf ≠ [] ∧ root.Reaches leaf)
include hLinks hOrdered hPlaces

theorem Links.copy_leads {i : Nat} (hi : i ≤ leaves.length)
    (hb : b.Follows root (precursor none leaves i)) :
    ∃ boundary, boundaries.get (i + 1) = .ok boundary ∧
      Leads b (copy boundary.routes) (·.Precedes root leaves[i]?) := by
  obtain ⟨boundary, hGet, hSpans, -⟩ := hLinks.get_spans hOrdered hPlaces hi
  exact ⟨boundary, hGet, hSpans.leads (fun p hp => (hPlaces p (mem_precursor hp)).2)
    (fun q hq => (hPlaces q (List.mem_of_getElem? hq)).2) hb⟩

/-- One boundary and the leaf that it leads to. -/
theorem Links.step_leads {i : Nat} (hi : i < leaves.length)
    (hb : b.Follows root (precursor none leaves i)) :
    Leads b (do
      copy (← check (boundaries.get (i + 1))).routes
      copyLeaf (← check (boundaries.leaf (i + 1)))) (·.Follows root (precursor none leaves (i + 1))) := by
  have hLeaf : leaves[i]? = some leaves[i] := List.getElem?_eq_getElem hi
  have hFound : boundaries.leaf (i + 1) = .ok leaves[i] := by
    simp only [leaf, hLinks.leaves_eq, Ascending.lookup_numbered, hLeaf]
  obtain ⟨hNonempty, hReaches⟩ := hPlaces _ (List.getElem_mem hi)
  obtain ⟨boundary, hGet, hCopy⟩ := hLinks.copy_leads hOrdered hPlaces (Nat.le_of_lt hi) hb
  rw [hLeaf] at hCopy
  rw [hGet, hFound, precursor, hLeaf]
  apply hCopy.bind
  intro b' hFacing
  exact copyLeaf_leads hNonempty hReaches hFacing

/-- Boundaries and their leaves in turn. -/
theorem Links.forM_leads (count : Nat) {i : Nat} {b : Builder} (hi : i + count ≤ leaves.length)
    (hb : b.Follows root (precursor none leaves i)) :
    Leads b ((List.range' (i + 1) count).forM fun index => do
      copy (← check (boundaries.get index)).routes
      copyLeaf (← check (boundaries.leaf index)))
      (·.Follows root (precursor none leaves (i + count))) := by
  induction count generalizing i b with
  | zero => exact Leads.pure hb
  | succ count ih =>
    rw [List.range'_succ, List.forM_eq_forM, List.forM_cons]
    apply (hLinks.step_leads hOrdered hPlaces (by omega) hb).bind
    intro b' hb'
    rw [Nat.add_comm count 1, ← Nat.add_assoc]
    exact ih (by omega) hb'

/-- Replaying gives the document back. -/
theorem Links.replay_leads : Leads (.start root none) boundaries.replay (·.finish = root) := by
  have hCount : boundaries.leaves.length = leaves.length := by
    rw [hLinks.leaves_eq, Ascending.length_numbered]
  rw [replay, last, hCount]
  have hStart : (Builder.start root none).Follows root (precursor none leaves 0) :=
    .here (Builder.upTo_start root)
  apply (hLinks.forM_leads hOrdered hPlaces leaves.length (by omega) hStart).bind
  intro b hb
  rw [Nat.zero_add] at hb
  obtain ⟨boundary, hGet, hCopy⟩ := hLinks.copy_leads hOrdered hPlaces (Nat.le_refl _) hb
  rw [List.getElem?_eq_none (Nat.le_refl _)] at hCopy
  rw [hGet]
  exact hCopy.mono fun _ hPast => hPast.finish

end

end Boundaries

end Infill
