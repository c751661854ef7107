import Infill.Proofs.Cloning
import Infill.Proofs.Naming

/-!
A document that is rebuilt spells its names as the one it is rebuilt from. Copies carry
the declarations of what they copy, so whatever is copied stands in the scope it came
from; what a text makes of a leaf is written with prefixes that are in force there.
-/
namespace Infill

open Infill.Xml

/-! ### Builders -/

namespace Builder

/-- Whether open copies, innermost first, mirror the elements on a way into the source. -/
def MirrorsIn (source root : Element) : List Frame → Prop
  | [] => Mirrors (source.scopeAt [] []) source root
  | frame :: rest =>
    (∃ e, source.descendant? ((frame :: rest).map (·.step)).reverse = some e ∧
      Mirrors (source.scopeAt [] ((frame :: rest).map (·.step)).reverse) e frame.copy) ∧
    MirrorsIn source root rest

/-- Whether all open copies of a builder mirror what they copy. -/
structure Mirrored (source : Element) (b : Builder) : Prop where
  source_eq : b.source = source
  frames : MirrorsIn source b.root b.frames

namespace Mirrored

variable {source e child copy : Element} {b : Builder}

theorem start (source : Element) (format : Option Format) :
    Mirrored source (.start source format) :=
  ⟨rfl, .open_shell _ source⟩

theorem exists_current (h : Mirrored source b) :
    ∃ e, source.descendant? b.chain = some e ∧ Mirrors (source.scopeAt [] b.chain) e b.current := by
  obtain ⟨source, format, root, rootBare, _ | ⟨frame, rest⟩, floor, route⟩ := b
  · exact ⟨_, rfl, h.frames⟩
  · exact h.frames.1

/-- The innermost open copy mirrors what it copies. -/
theorem current (h : Mirrored source b) (he : source.descendant? b.chain = some e) :
    Mirrors (source.scopeAt [] b.chain) e b.current := by
  obtain ⟨found, hFound, hCurrent⟩ := h.exists_current
  obtain rfl := Option.some.inj (hFound.symm.trans he)
  exact hCurrent

theorem setCurrent (h : Mirrored source b) (he : source.descendant? b.chain = some e)
    (hCopy : Mirrors (source.scopeAt [] b.chain) e copy) : Mirrored source (b.setCurrent copy) := by
  obtain ⟨source, format, root, rootBare, _ | ⟨frame, rest⟩, floor, route⟩ := b
  · cases he
    exact ⟨h.source_eq, hCopy⟩
  · exact ⟨h.source_eq, ⟨e, he, hCopy⟩, h.frames.2⟩

theorem addChild (h : Mirrored source b) (he : source.descendant? b.chain = some e)
    (hChild : child.IsSpelled (source.scopeAt [] b.chain)) : Mirrored source (b.addChild child) := by
  refine h.setCurrent he ((h.current he).set_children fun other hOther => ?_)
  rcases List.mem_append.1 hOther with hOther | hOther
  · exact .inl hOther
  · exact .inr (List.mem_singleton.1 hOther ▸ hChild)

theorem furnish (h : Mirrored source b) : Mirrored source b.furnish := by
  obtain ⟨source, format, root, rootBare, _ | ⟨frame, rest⟩, floor, route⟩ := b
  · exact h
  · exact ⟨h.source_eq, h.frames⟩

theorem noteBare (h : Mirrored source b) (index : Nat) : Mirrored source (b.noteBare index) := by
  obtain ⟨source, format, root, rootBare, _ | ⟨frame, rest⟩, floor, route⟩ := b
  · exact ⟨h.source_eq, h.frames⟩
  · exact ⟨h.source_eq, h.frames⟩

theorem settle (h : Mirrored source b) : Mirrored source b.settle := by
  have hFrames : ∀ (root : Element) (frames : List Frame), MirrorsIn source root frames →
      MirrorsIn source root (frames.map fun frame => { frame with isSettled := true }) := by
    intro root frames hFrames
    induction frames with
    | nil => exact hFrames
    | cons frame rest ih =>
      obtain ⟨hCopy, hRest⟩ := hFrames
      refine ⟨?_, ih hRest⟩
      simpa [Function.comp_def] using hCopy
  exact ⟨h.source_eq, hFrames _ _ h.frames⟩

/-- A copy that is closed is spelled where what it copies is. -/
theorem close (hSource : source.IsSpelled []) (h : Mirrored source b) : Mirrored source b.close := by
  obtain ⟨source', format, root, rootBare, _ | ⟨frame, rest⟩, floor, route⟩ := b
  · exact h
  obtain ⟨hSame, ⟨e, he, hCopy⟩, hRest⟩ := h
  let around : Builder := ⟨source', format, root, rootBare, rest, floor, route⟩
  have hAround : Mirrored source around := ⟨hSame, hRest⟩
  obtain ⟨parent, hParent, -⟩ := hAround.exists_current
  rw [List.map_cons, List.reverse_cons] at he hCopy
  have hChild : e ∈ parent.children := by
    have hFound := he
    rw [Element.descendant?_append, show (rest.map (·.step)).reverse = around.chain from rfl,
      hParent] at hFound
    simp only [Option.bind_some, Element.descendant?, Option.bind_fun_some] at hFound
    exact List.mem_of_getElem? hFound
  have hSpelled := hSource.descendant hParent e hChild
  have hClosed : (frame.copy.prune frame.bare).IsSpelled (source.scopeAt [] around.chain) := by
    have hShell : (frame.copy.prune frame.bare).shell = e.shell := hCopy.shell_eq
    refine hSpelled.of_shell hShell fun child hKept => ?_
    rw [Element.scopeAt_concat he] at hCopy
    exact hCopy.spelled child ((prune_sublist _ _).mem hKept)
  have hAdd := hAround.addChild hParent hClosed
  rw [Builder.close]
  dsimp only
  split
  · exact hAdd.noteBare _
  · exact hAdd.furnish

theorem stable (hSource : source.IsSpelled []) : Stable (Mirrored source) where
  openChild b step e h hChild := by
    rw [h.source_eq] at hChild
    refine ⟨h.source_eq, ⟨e, ?_, .open_shell _ e⟩, h.frames⟩
    rw [List.map_cons, List.reverse_cons]
    exact hChild
  addChild b parent child h hParent hChild := by
    rw [h.source_eq] at hParent
    exact h.addChild hParent (hSource.descendant hParent child hChild)
  close b h := h.close hSource
  furnish b h := h.furnish
  settle b h := h.settle
  setFloor b floor h := ⟨h.source_eq, h.frames⟩
  noteRoute b route h := ⟨h.source_eq, h.frames⟩

/-- A finished copy is spelled. -/
theorem finish (hSource : source.IsSpelled []) (h : Mirrored source b) : b.finish.IsSpelled [] := by
  have hClosed := ((stable hSource).rewind h 0).frames
  rw [frames_rewind_zero] at hClosed
  exact hSource.of_shell hClosed.shell_eq fun child hChild =>
    hClosed.spelled child ((prune_sublist _ _).mem hChild)

end Mirrored

end Builder

namespace BuilderM

open Builder (Mirrored)

variable {source e : Element} {format : Format} {b b' : Builder} {chunks : List String}

/-- A leaf that was copied is the last child of the innermost open copy. -/
theorem current_copyLeaf {front : Path} {last : Nat}
    (hRun : (copyLeaf (front ++ [last])).run b = .ok () b') :
    b'.chain = front ∧ b.source.Reaches (front ++ [last]) ∧
      b'.current.children.getLast? = some (b.source.descendant (front ++ [last])) := by
  obtain ⟨hReaches, hSelected, between, hDescend, rfl⟩ := copyLeaf_eq_ok hRun
  refine ⟨?_, hReaches, ?_⟩
  · rw [Builder.chain_settle, chain_addRoute, chain_descend hDescend]
  · rw [Builder.current_settle, current_addRoute, source_descend hDescend, hSelected]
    exact List.getLast?_concat

theorem writeLeaf_eq_ok (hRun : (writeLeaf format chunks).run b = .ok () b') :
    ∃ written, format.write b.current (b.current.children.length - 1) chunks = .ok written ∧
      b' = b.setCurrent written := by
  rw [writeLeaf, run_get_bind] at hRun
  obtain ⟨written, between, hCheck, hDone⟩ := bind_eq_ok hRun
  obtain ⟨rfl, hWrite⟩ := check_eq_ok hCheck
  cases hDone
  exact ⟨written, hWrite, rfl⟩

end BuilderM

/-! ### Runs -/

namespace RebuildM

variable {α β : Type} {state state' : Rebuild} {a : α}

/-- If steps succeed together, each of them does. -/
theorem bind_eq_ok {action : RebuildM α} {next : α → RebuildM β} {c : β}
    (h : (action >>= next).run state = .ok (c, state')) :
    ∃ a between, action.run state = .ok (a, between) ∧ (next a).run between = .ok (c, state') := by
  rw [StateT.run_bind] at h
  cases hRun : action.run state with
  | error error =>
    rw [hRun] at h
    cases h
  | ok result =>
    rw [hRun] at h
    exact ⟨result.1, result.2, rfl, h⟩

/-- What is looked up changes nothing. -/
theorem lift_eq_ok {result : Except Error α}
    (h : (liftM result : RebuildM α).run state = .ok (a, state')) :
    result = .ok a ∧ state' = state := by
  cases result with
  | error error => cases h
  | ok found =>
    cases h
    exact ⟨rfl, rfl⟩

theorem build_eq_ok {action : BuilderM α} (h : (build action).run state = .ok (a, state')) :
    ∃ b, action.run state.builder = .ok a b ∧ state' = { state with builder := b } := by
  obtain ⟨start, between, hGet, hRest⟩ := bind_eq_ok h
  cases hGet
  cases hRun : action.run state.builder with
  | error error b =>
    rw [hRun] at hRest
    cases hRest
  | ok found b =>
    rw [hRun] at hRest
    cases hRest
    exact ⟨b, rfl, rfl⟩

end RebuildM

namespace Plan

open RebuildM

/-- Whether all that was copied mirrors the document, with no leaf open. -/
structure Idle (plan : Plan) (state : Rebuild) : Prop where
  mirrored : state.builder.Mirrored plan.root
  leaf_eq : state.leaf = none

/-- What holds of a run between two entries of a line. The leaf that it collects texts for
is the last child of the innermost open copy. -/
structure Sound (plan : Plan) (state : Rebuild) : Prop where
  mirrored : state.builder.Mirrored plan.root
  stands : state.leaf.isSome = true → ∃ path, plan.boundaries.leaf state.standing = .ok path ∧
    (path ≠ [] → state.builder.chain = path.dropLast ∧
      state.builder.current.children.getLast? = some (plan.root.descendant path))

/-- Whether a run that read a line comes to a state. -/
def Reads (plan : Plan) (line : Line) (state : Rebuild) : Prop :=
  (line.forM fun (pointer, text) => plan.step pointer text).run
    { builder := .start plan.root (some plan.format) } = .ok ((), state)

/-- Whether a run is about to write a text into the leaf at a path, which is the last child
of the open copy. -/
structure Writes (plan : Plan) (state : Rebuild) (path : Path) (text : String) : Prop where
  leaf : plan.boundaries.leaf state.standing = .ok path
  text : ∃ leaf, state.leaf = some leaf ∧ leaf.isDynamic = true ∧ text ∈ leaf.chunks

/-- Whether all that a run is about to write can be spelled where it stands. -/
def SpellsAt (plan : Plan) (state : Rebuild) : Prop :=
  ∀ path text, plan.Writes state path text →
    plan.format.Spells plan.root path state.builder.current text

/-- Whether all that a run over a line writes can be spelled where it writes it. -/
def Spells (plan : Plan) (line : Line) : Prop :=
  ∀ front back state, line = front ++ back → plan.Reads front state → plan.SpellsAt state

variable {plan : Plan} {line : Line} {state state' : Rebuild} {a : Unit}

theorem Idle.sound (h : plan.Idle state) : plan.Sound state :=
  ⟨h.mirrored, by simp [h.leaf_eq]⟩

theorem flush_idle (h : plan.Sound state) (hSpells : plan.SpellsAt state)
    (hRun : plan.flush.run state = .ok (a, state')) : plan.Idle state' := by
  rw [Plan.flush] at hRun
  obtain ⟨start, looked, hGet, hRest⟩ := RebuildM.bind_eq_ok hRun
  cases hGet
  cases hLeaf : state.leaf with
  | none =>
    rw [hLeaf] at hRest
    cases hRest
    exact ⟨h.mirrored, hLeaf⟩
  | some leaf =>
    rw [hLeaf] at hRest
    obtain ⟨_, closed, hModify, hFlush⟩ := RebuildM.bind_eq_ok hRest
    cases hModify
    split at hFlush
    · rename_i hDynamic
      obtain ⟨b, hWrite, rfl⟩ := build_eq_ok hFlush
      obtain ⟨written, hWritten, rfl⟩ := BuilderM.writeLeaf_eq_ok hWrite
      obtain ⟨parent, hParent, hCurrent⟩ := h.mirrored.exists_current
      refine ⟨h.mirrored.setCurrent hParent (Format.mirrors_write hCurrent ?_ hWritten), rfl⟩
      intro e he chunk hChunk
      obtain ⟨path, hPath, hStands⟩ := h.stands (by rw [hLeaf]; rfl)
      obtain ⟨hSome, hSpelled⟩ := hSpells path chunk ⟨hPath, leaf, hLeaf, hDynamic, hChunk⟩
      obtain ⟨hChain, hLast⟩ := hStands hSome
      rw [List.getLast?_eq_getElem?] at hLast
      obtain rfl := Option.some.inj (hLast.symm.trans he)
      rwa [← hChain] at hSpelled
    · cases hFlush
      exact ⟨h.mirrored, rfl⟩

section

variable (hRoot : plan.root.IsSpelled [])

include hRoot

theorem build_idle (call : Builder.Call) (h : plan.Idle state)
    (hRun : (build call.exec).run state = .ok (a, state')) : plan.Idle state' := by
  obtain ⟨b, hCall, rfl⟩ := build_eq_ok hRun
  exact ⟨BuilderM.of_after (BuilderM.exec_stable (Builder.Mirrored.stable hRoot) call h.mirrored) hCall,
    h.leaf_eq⟩

theorem setFloor_idle {key : Nat} (h : plan.Idle state)
    (hRun : (plan.setFloor key).run state = .ok (a, state')) : plan.Idle state' := by
  rw [Plan.setFloor] at hRun
  dsimp only at hRun
  split at hRun
  · exact build_idle hRoot (.setFloor none) h hRun
  · obtain ⟨floor, between, hFloor, hRest⟩ := RebuildM.bind_eq_ok hRun
    rw [map_eq_pure_bind] at hFloor
    obtain ⟨depth, looked, hDepth, hDone⟩ := RebuildM.bind_eq_ok hFloor
    obtain ⟨-, rfl⟩ := lift_eq_ok hDepth
    cases hDone
    exact build_idle hRoot (.setFloor (some depth)) h hRest

theorem skip_idle {key target : Nat} (h : plan.Idle state)
    (hRun : (plan.skip key target).run state = .ok (a, state')) : plan.Idle state' := by
  rw [Plan.skip] at hRun
  split at hRun
  · obtain ⟨path, between, hPath, hRest⟩ := RebuildM.bind_eq_ok hRun
    obtain ⟨-, rfl⟩ := lift_eq_ok hPath
    obtain ⟨floor, last, hFloor, hDescend⟩ := RebuildM.bind_eq_ok hRest
    obtain ⟨-, rfl⟩ := lift_eq_ok hFloor
    exact build_idle hRoot (.descend _) h hDescend
  · cases hRun
    exact h

theorem advanceFrom_idle {target key count : Nat} (h : plan.Idle state)
    (hRun : (plan.advanceFrom target key count).run state = .ok (a, state')) : plan.Idle state' := by
  induction count generalizing key state with
  | zero =>
    cases hRun
    exact h
  | succ count ih =>
    rw [Plan.advanceFrom] at hRun
    obtain ⟨_, floored, hFloor, hLookup⟩ := RebuildM.bind_eq_ok hRun
    obtain ⟨boundary, found, hBoundary, hCopies⟩ := RebuildM.bind_eq_ok hLookup
    obtain ⟨-, rfl⟩ := lift_eq_ok hBoundary
    obtain ⟨_, copied, hCopy, hSkips⟩ := RebuildM.bind_eq_ok hCopies
    obtain ⟨_, skipped, hSkip, hRest⟩ := RebuildM.bind_eq_ok hSkips
    exact ih (skip_idle hRoot (build_idle hRoot (.copy _) (setFloor_idle hRoot h hFloor) hCopy) hSkip)
      hRest

theorem advance_idle {index : Nat} (h : plan.Idle state)
    (hRun : (plan.advance index).run state = .ok (a, state')) : plan.Idle state' := by
  rw [Plan.advance] at hRun
  obtain ⟨start, looked, hGet, hRest⟩ := RebuildM.bind_eq_ok hRun
  cases hGet
  obtain ⟨_, between, hAdvance, hDone⟩ := RebuildM.bind_eq_ok hRest
  have hBetween := advanceFrom_idle hRoot h hAdvance
  cases hDone
  exact ⟨hBetween.mirrored, hBetween.leaf_eq⟩

theorem retreat_idle {index : Nat} {exitPath otherPath : Path} (h : plan.Idle state)
    (hRun : (plan.retreat index exitPath otherPath).run state = .ok (a, state')) :
    plan.Idle state' := by
  rw [Plan.retreat] at hRun
  obtain ⟨_, floored, hFloor, hEndings⟩ := RebuildM.bind_eq_ok hRun
  obtain ⟨ending, looked, hEnding, hCopies⟩ := RebuildM.bind_eq_ok hEndings
  obtain ⟨-, rfl⟩ := lift_eq_ok hEnding
  obtain ⟨_, ended, hEnd, hRewind⟩ := RebuildM.bind_eq_ok hCopies
  have hEnded := build_idle hRoot (.copy _) (setFloor_idle hRoot h hFloor) hEnd
  exact build_idle hRoot (.rewind _) hEnded hRewind

theorem beginPass_idle {index : Nat} {exitPath path : Path} {head : Option Nat}
    (h : plan.Idle state)
    (hRun : (plan.beginPass exitPath path index head).run state = .ok (a, state')) :
    plan.Idle state' := by
  cases head with
  | none =>
    obtain ⟨_, rewound, hRetreat, hOpening⟩ := RebuildM.bind_eq_ok hRun
    exact build_idle hRoot (.copy _) (retreat_idle hRoot h hRetreat) hOpening
  | some head =>
    obtain ⟨headPath, looked, hHeadPath, hRetreats⟩ := RebuildM.bind_eq_ok hRun
    obtain ⟨-, rfl⟩ := lift_eq_ok hHeadPath
    obtain ⟨_, rewound, hRetreat, hLowers⟩ := RebuildM.bind_eq_ok hRetreats
    obtain ⟨_, lowered, hLower, hBoundaries⟩ := RebuildM.bind_eq_ok hLowers
    obtain ⟨boundary, looked, hBoundary, hOpenings⟩ := RebuildM.bind_eq_ok hBoundaries
    obtain ⟨-, rfl⟩ := lift_eq_ok hBoundary
    obtain ⟨_, opened, hOpening, hSkips⟩ := RebuildM.bind_eq_ok hOpenings
    obtain ⟨_, skipped, hSkip, hAdvance⟩ := RebuildM.bind_eq_ok hSkips
    have hLowered := setFloor_idle hRoot (retreat_idle hRoot h hRetreat) hLower
    have hSkipped := skip_idle hRoot (build_idle hRoot (.copy _) hLowered hOpening) hSkip
    exact advanceFrom_idle hRoot hSkipped hAdvance

theorem openLeaf_sound {index : Nat} (h : plan.Idle state)
    (hRun : (plan.openLeaf index).run state = .ok (a, state')) :
    plan.Sound state' := by
  rw [Plan.openLeaf] at hRun
  obtain ⟨path, looked, hPath, hRest⟩ := RebuildM.bind_eq_ok hRun
  obtain ⟨hLeaf, rfl⟩ := lift_eq_ok hPath
  obtain ⟨_, copied, hCopy, hDone⟩ := RebuildM.bind_eq_ok hRest
  have hIdle := build_idle hRoot (.copyLeaf path) h hCopy
  obtain ⟨b, hCall, rfl⟩ := build_eq_ok hCopy
  cases hDone
  refine ⟨hIdle.mirrored, fun _ => ⟨path, hLeaf, fun hSome => ?_⟩⟩
  obtain rfl | ⟨front, last, rfl⟩ := path.eq_nil_or_concat'
  · exact absurd rfl hSome
  · obtain ⟨hChain, -, hLast⟩ := BuilderM.current_copyLeaf hCall
    rw [List.dropLast_concat]
    rw [h.mirrored.source_eq] at hLast
    exact ⟨hChain, hLast⟩

theorem reenter_sound {restart : Position} {index : Nat} (h : plan.Sound state)
    (hSpells : plan.SpellsAt state)
    (hRun : (plan.reenter restart index).run state = .ok (a, state')) : plan.Sound state' := by
  rw [reenter_eq] at hRun
  obtain ⟨_, flushed, hFlush, hReach⟩ := RebuildM.bind_eq_ok hRun
  obtain ⟨_, _, hGet, hStanding⟩ := RebuildM.bind_eq_ok hReach
  cases hGet
  obtain ⟨_, _, hGet, hAdvances⟩ := RebuildM.bind_eq_ok hStanding
  cases hGet
  obtain ⟨_, advanced, hAdvance, hExits⟩ := RebuildM.bind_eq_ok hAdvances
  obtain ⟨exitPath, _, hExit, hPaths⟩ := RebuildM.bind_eq_ok hExits
  obtain ⟨-, rfl⟩ := lift_eq_ok hExit
  obtain ⟨path, _, hPath, hDiscarded⟩ := RebuildM.bind_eq_ok hPaths
  obtain ⟨-, rfl⟩ := lift_eq_ok hPath
  obtain ⟨_, _, hGet, hBegins⟩ := RebuildM.bind_eq_ok hDiscarded
  cases hGet
  obtain ⟨_, begun, hBegin, hOpen⟩ := RebuildM.bind_eq_ok hBegins
  have hAdvanced := advance_idle hRoot (flush_idle h hSpells hFlush) hAdvance
  exact openLeaf_sound hRoot (beginPass_idle hRoot hAdvanced hBegin) hOpen

/-- A run that moved on to an entry collects texts for the leaf that it stands on. -/
theorem move_sound {index : Nat} {target : Path} (h : plan.Sound state) (hSpells : plan.SpellsAt state)
    (hRun : (plan.move index target).run state = .ok (a, state')) : plan.Sound state' := by
  rw [← state.rebuild_course] at hRun
  have hCleared : plan.Sound ({ state.course with restart := none }.rebuild state.builder) :=
    ⟨h.mirrored, h.stands⟩
  have hClearedSpells :
      plan.SpellsAt ({ state.course with restart := none }.rebuild state.builder) :=
    fun path text hWrites => hSpells path text ⟨hWrites.leaf, hWrites.text⟩
  rcases state.course.move_cases index with
    hForward | ⟨restart, hRestart, hReach, hOther⟩ | hHere | ⟨hRestart, hBehind⟩
  · rw [run_move_forward hForward] at hRun
    obtain ⟨_, flushed, hFlush, hAdvances⟩ := RebuildM.bind_eq_ok hRun
    obtain ⟨_, advanced, hAdvance, hOpen⟩ := RebuildM.bind_eq_ok hAdvances
    have hAdvanced := advance_idle hRoot (flush_idle hCleared hClearedSpells hFlush) hAdvance
    exact openLeaf_sound hRoot hAdvanced hOpen
  · rw [run_move_back hRestart hReach hOther] at hRun
    exact reenter_sound hRoot hCleared hClearedSpells hRun
  · rw [run_move_stay (.inl hHere)] at hRun
    cases hRun
    exact hCleared
  · by_cases hStuck : index < state.course.standing ∨ state.course.leaf.isNone = true
    · rw [run_move_stuck hRestart hBehind hStuck] at hRun
      obtain ⟨_, looked, -, hThrow⟩ := RebuildM.bind_eq_ok hRun
      cases hThrow
    · obtain ⟨hNotBehind, hOpen⟩ := not_or.1 hStuck
      have hSame : state.course.standing = index :=
        Nat.le_antisymm (Nat.le_of_not_lt hNotBehind) hBehind
      have hSome : state.course.leaf.isSome = true := by
        simpa [Option.isSome_iff_ne_none] using hOpen
      rw [run_move_stay (.inr ⟨hRestart, hSame, hSome⟩)] at hRun
      cases hRun
      exact hCleared

theorem step_sound {pointer : Pointer} {text : String} (h : plan.Sound state)
    (hSpells : plan.SpellsAt state) (hRun : (plan.step pointer text).run state = .ok (a, state')) :
    plan.Sound state' := by
  rw [step_eq, ← state.rebuild_course, see_run] at hRun
  have hSeen : plan.Sound ((state.course.see pointer.position).rebuild state.builder) :=
    ⟨h.mirrored, h.stands⟩
  have hSeenSpells : plan.SpellsAt ((state.course.see pointer.position).rebuild state.builder) :=
    fun path text hWrites => hSpells path text ⟨hWrites.leaf, hWrites.text⟩
  split at hRun
  · cases hRun
    exact ⟨h.mirrored, h.stands⟩
  · obtain ⟨_, moved, hMove, hCollect⟩ := RebuildM.bind_eq_ok hRun
    obtain ⟨hMirrored, hStands⟩ := move_sound hRoot hSeen hSeenSpells hMove
    cases hCollect
    exact ⟨hMirrored, fun hSome => hStands (by simpa using hSome)⟩

/-- A run is sound behind each entry if all that it writes can be spelled. -/
theorem Reads.sound (hSpells : plan.Spells line) (hRun : plan.Reads line state) :
    plan.Sound state := by
  induction line using List.reverseRecOn generalizing state with
  | nil =>
    cases hRun
    exact Idle.sound ⟨.start _ _, rfl⟩
  | append_singleton front entry ih =>
    rw [Reads, List.forM_eq_forM, List.forM_append] at hRun
    obtain ⟨_, between, hFront, hEntry⟩ := RebuildM.bind_eq_ok hRun
    rw [List.forM_cons, List.forM_nil] at hEntry
    obtain ⟨_, stepped, hStep, hDone⟩ := RebuildM.bind_eq_ok hEntry
    cases hDone
    refine step_sound hRoot (ih (fun first last other hSplit => ?_) hFront)
      (hSpells front [entry] between rfl hFront) hStep
    exact hSpells first (last ++ [entry]) other (by rw [hSplit, List.append_assoc])

/-- A run that succeeds leaves a copy behind that mirrors the document. -/
theorem run_idle (hSpells : plan.Spells line)
    (hRun : (plan.run line).run { builder := .start plan.root (some plan.format) } =
      .ok (a, state')) : plan.Idle state' := by
  rw [Plan.run] at hRun
  obtain ⟨_, read, hRead, hRest⟩ := RebuildM.bind_eq_ok hRun
  obtain ⟨_, flushed, hFlush, hAdvance⟩ := RebuildM.bind_eq_ok hRest
  have hSound : plan.Sound read := Reads.sound hRoot hSpells hRead
  have hLast := hSpells line [] read (List.append_nil line).symm hRead
  exact advance_idle hRoot (flush_idle hSound hLast hFlush) hAdvance

end

end Plan

/-- A document that is rebuilt from one that was read has names that stand for what is
noted beside them, whatever the line holds, if what its texts make of leaves can be
spelled where they are written. -/
theorem enforce_isSpelled {source : String} {document : Document} {line : Line}
    {boundaries : Boundaries} {format : Format} {result : Element}
    (hParse : Document.parse source = .ok document)
    (hEnforce : enforce document.root line boundaries format = .ok result)
    (hSpells : Plan.Spells ⟨document.root, boundaries, format⟩ line) : result.IsSpelled [] := by
  have hRoot := Document.isSpelled_of_parse hParse
  rw [enforce] at hEnforce
  obtain ⟨⟨_, state⟩, hRun, hDone⟩ := bind_eq_ok.1 hEnforce
  cases hDone
  exact (Plan.run_idle hRoot hSpells hRun).mirrored.finish hRoot

/-- The text of a document that is one tree. -/
def Xml.Element.source (root : Element) : String :=
  Document.print ⟨none, root⟩

/-- A formula with one run and some declarations. -/
def Docx.formula (declarations : List Attribute) (run : List Element) : Element :=
  ⟨"m:oMath", math "oMath", declarations, none, none, [⟨"m:r", math "r", [], none, none, run⟩]⟩

/-- A text of a formula. -/
def Docx.formulaText (attributes : List Attribute) (text : String) : Element :=
  ⟨"m:t", math "t", attributes, some text, none, []⟩

/-- A formula with formatting that is written with the prefix `x`. The prefix `w` is not
declared. -/
def Docx.styledFormula (content : List Element) : Element :=
  formula [⟨"xmlns:x", "xmlns:x", wordNamespace⟩, ⟨"xmlns:m", "xmlns:m", mathNamespace⟩]
    (.named "x:rPr" (word "rPr") :: content)

/-- A formula that is to be filled in. -/
def Docx.equation : Element :=
  styledFormula [formulaText [] "\x7b\x7bx\x7d\x7d"]

/-- A line with a text for the formula. -/
def Docx.equationLine (text : String) : Line :=
  [(⟨[0, 1], false, 5, 0, 5, 1⟩, text)]

/-- The formula filled in with a text that holds a tab and ends in a space. -/
def Docx.solution : Element :=
  styledFormula [formulaText [] "a", .named "x:tab" (word "tab"),
    formulaText [⟨"xml:space", Element.expanded xmlNamespace "space", "preserve"⟩] "b "]

theorem Docx.isResolved_equation : Element.IsResolved [] equation := by
  apply Element.IsResolved.mk (by decide) (by decide) (by decide) (by decide) (by decide)
  intro child hChild
  obtain rfl := List.mem_singleton.1 hChild
  apply Element.IsResolved.mk (by decide) (by decide) (by decide) (by decide) (by decide)
  intro child hChild
  rcases List.mem_cons.1 hChild with rfl | hChild
  · exact .mk (by decide) (by decide) (by decide) (by decide) (by decide) (by simp [Element.named])
  · obtain rfl := List.mem_singleton.1 hChild
    exact .mk (by decide) (by decide) (by decide) (by decide) (by decide) (by simp [formulaText])

/-- The tab is written beside the formatting, with the prefix of that. -/
theorem Docx.spells_equation {boundaries : Boundaries}
    (h : Boundaries.ofLine equation (equationLine "\x7b\x7bx\x7d\x7d") = .ok boundaries) :
    Plan.Spells ⟨equation, boundaries, .docx⟩ (equationLine "a\tb ") := by
  obtain rfl := Except.ok.inj h
  rintro front back state hSplit hReads path text ⟨hPath, leaf, hLeaf, -, hText⟩
  obtain _ | ⟨first, rest⟩ := front
  · cases hReads
    cases hLeaf
  · -- the leaf is open behind the only entry
    obtain ⟨rfl, hRest⟩ := List.cons.inj hSplit
    obtain rfl := (List.nil_eq_append_iff.1 hRest).1
    have hSeen := congrArg (Except.map fun run : Unit × Rebuild =>
      (run.2.standing, run.2.leaf, run.2.builder.current)) hReads
    have hState := hSeen.symm.trans
      (show _ = Except.ok (1, some ⟨["a\tb "], true⟩, (equation.descendant [0])) by decide +kernel)
    obtain ⟨hStanding, hFound⟩ := Prod.mk.inj (Except.ok.inj hState)
    obtain ⟨hOpen, hCopy⟩ := Prod.mk.inj hFound
    obtain rfl : _ = leaf := Option.some.inj (hOpen.symm.trans hLeaf)
    obtain rfl := List.mem_singleton.1 hText
    rw [hStanding] at hPath
    obtain rfl : [0, 1] = path := Except.ok.inj hPath
    rw [hCopy]
    exact ⟨by decide, .inr ⟨mathNamespace, by decide, by decide, fun _ _ => by decide⟩⟩

theorem enforce_isSpelled_equation :
    Document.parse Docx.equation.source = .ok ⟨none, Docx.equation⟩ ∧
      ∃ boundaries,
        Boundaries.ofLine Docx.equation (Docx.equationLine "\x7b\x7bx\x7d\x7d") = .ok boundaries ∧
        enforce Docx.equation (Docx.equationLine "a\tb ") boundaries .docx = .ok Docx.solution ∧
        Plan.Spells ⟨Docx.equation, boundaries, .docx⟩ (Docx.equationLine "a\tb ") ∧
        Docx.solution.IsSpelled [] := by
  have hParse : Document.parse Docx.equation.source = .ok ⟨none, Docx.equation⟩ :=
    Document.parse_print Docx.isResolved_equation
  have hRun : (do
      let boundaries ← Boundaries.ofLine Docx.equation (Docx.equationLine "\x7b\x7bx\x7d\x7d")
      enforce Docx.equation (Docx.equationLine "a\tb ") boundaries .docx) = .ok Docx.solution := by
    decide +kernel
  obtain ⟨boundaries, hBoundaries, hEnforce⟩ := bind_eq_ok.1 hRun
  have hSpells := Docx.spells_equation hBoundaries
  exact ⟨hParse, boundaries, hBoundaries, hEnforce, hSpells,
    enforce_isSpelled hParse hEnforce hSpells⟩

/-- A section that declares the namespace of texts as the default one, with the text and
the children of its paragraph. -/
def Odt.plainSection (text : String) (children : List Element) : Element :=
  ⟨"section", Element.expanded textNamespace "section", [⟨"xmlns", "xmlns", textNamespace⟩], none,
    none, [⟨"p", Element.expanded textNamespace "p", [], some text, none, children⟩]⟩

/-- The element for two more spaces as it is written into that paragraph. -/
def Odt.plainSpacer : Element :=
  ⟨"s", Element.expanded textNamespace "s", [⟨"c", Element.expanded textNamespace "c", "2"⟩], none,
    none, []⟩

/-- A formula that declares its own prefix alone. -/
def Docx.bareFormula (run : List Element) : Element :=
  formula [⟨"xmlns:m", "xmlns:m", mathNamespace⟩] run

/-- The count of spaces is written without a prefix in a paragraph that has none, where an
attribute stands for nothing; and a tab in a formula is written with a prefix that
nothing declares. -/
theorem enforce_loosePrefixes :
    (Document.parse (Odt.plainSection "\x7b\x7bx\x7d\x7d" []).source =
        .ok ⟨none, Odt.plainSection "\x7b\x7bx\x7d\x7d" []⟩ ∧
      (∃ boundaries,
        Boundaries.ofLine (Odt.plainSection "\x7b\x7bx\x7d\x7d" [])
          [(⟨[0], false, 5, 0, 5, 1⟩, "\x7b\x7bx\x7d\x7d")] = .ok boundaries ∧
        enforce (Odt.plainSection "\x7b\x7bx\x7d\x7d" []) [(⟨[0], false, 5, 0, 5, 1⟩, "   ")]
          boundaries .odt = .ok (Odt.plainSection " " [Odt.plainSpacer])) ∧
      ¬ (Odt.plainSection " " [Odt.plainSpacer]).IsSpelled []) ∧
    (Document.parse (Docx.bareFormula [Docx.formulaText [] "\x7b\x7bx\x7d\x7d"]).source =
        .ok ⟨none, Docx.bareFormula [Docx.formulaText [] "\x7b\x7bx\x7d\x7d"]⟩ ∧
      (∃ boundaries,
        Boundaries.ofLine (Docx.bareFormula [Docx.formulaText [] "\x7b\x7bx\x7d\x7d"])
          [(⟨[0, 0], false, 5, 0, 5, 1⟩, "\x7b\x7bx\x7d\x7d")] = .ok boundaries ∧
        enforce (Docx.bareFormula [Docx.formulaText [] "\x7b\x7bx\x7d\x7d"])
          [(⟨[0, 0], false, 5, 0, 5, 1⟩, "a\tb")] boundaries .docx =
            .ok (Docx.bareFormula [Docx.formulaText [] "a", .named "w:tab" (Docx.word "tab"),
              Docx.formulaText [] "b"])) ∧
      ¬ (Docx.bareFormula [Docx.formulaText [] "a", .named "w:tab" (Docx.word "tab"),
        Docx.formulaText [] "b"]).IsSpelled []) := by
  refine ⟨⟨Document.parse_print ?_, ⟨_, rfl, ?_⟩, fun h => ?_⟩,
    Document.parse_print ?_, ⟨_, rfl, ?_⟩, fun h => ?_⟩
  · apply Element.IsResolved.mk (by decide) (by decide) (by decide) (by decide) (by decide)
    intro child hChild
    obtain rfl := List.mem_singleton.1 hChild
    exact .mk (by decide) (by decide) (by decide) (by decide) (by decide) (by simp)
  · decide +kernel
  · -- the count of the element for spaces
    have hCount := ((h.child (.head _)).child (.head _)).key_eq (.head _)
    revert hCount
    decide
  · apply Element.IsResolved.mk (by decide) (by decide) (by decide) (by decide) (by decide)
    intro child hChild
    obtain rfl := List.mem_singleton.1 hChild
    apply Element.IsResolved.mk (by decide) (by decide) (by decide) (by decide) (by decide)
    intro child hChild
    obtain rfl := List.mem_singleton.1 hChild
    exact .mk (by decide) (by decide) (by decide) (by decide) (by decide) (by simp [Docx.formulaText])
  · decide +kernel
  · -- the tab behind the first text of the run
    have hTab := ((h.child (.head _)).child (.tail _ (.head _))).tag_eq
    revert hTab
    decide

end Infill
