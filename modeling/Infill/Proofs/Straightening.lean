import Infill.Proofs.Feeding
import Infill.Proofs.Leaves
import Infill.Xml.Walk

/-!
A document read step by step: a walk finds the elements that carry text, their
texts are taken out of them and fed to a lexer, and its events are read behind
every such element. Each step may refuse what it is given. None of them does, and
the events are those of the leaves, so reading with failures is flattening.
-/
namespace Infill

open Infill.Xml

open Template (Event Lexer)
open Template.Lexer (Session feed_eq textEvent)

namespace Xml

theorem Element.countList_append (front back : List Element) :
    countList (front ++ back) = countList front + countList back := by
  induction front with
  | nil => rw [List.nil_append, countList, Nat.zero_add]
  | cons e front ih => rw [List.cons_append, countList, countList, ih, Nat.add_assoc]

end Xml

namespace Xml.Walk

/-- The number of elements that a walk may still meet. -/
def size (walk : Walk) : Nat :=
  Element.countList (walk.pending.map Prod.snd)

theorem map_snd_below (path : Path) (e : Element) : (below path e).map Prod.snd = e.children := by
  refine List.ext_getElem (by simp [below]) fun index _ _ => ?_
  simp [below]

theorem exists_of_next? {walk rest : Walk} {path : Path} {e : Element}
    (h : walk.next? = some ((path, e), rest)) :
    ∃ pending, walk = ⟨(path, e) :: pending⟩ ∧ rest = ⟨below path e ++ pending⟩ := by
  obtain ⟨_ | ⟨⟨path, e⟩, pending⟩⟩ := walk
  · cases h
  · obtain ⟨hEntry, rfl⟩ := Prod.mk.inj (Option.some.inj h)
    obtain ⟨rfl, rfl⟩ := Prod.mk.inj hEntry
    exact ⟨pending, rfl, rfl⟩

theorem size_next? {walk rest : Walk} {path : Path} {e : Element}
    (h : walk.next? = some ((path, e), rest)) : rest.size < walk.size := by
  obtain ⟨pending, rfl, rfl⟩ := exists_of_next? h
  have hCount : e.count = Element.countList e.children + 1 := by
    obtain ⟨name, tag, attributes, text, tail, children⟩ := e
    rw [Element.count]
  rw [size, size, List.map_append, map_snd_below, Element.countList_append, List.map_cons,
    Element.countList, hCount]
  omega

theorem size_skip_le (walk : Walk) (count : Nat) : (walk.skip count).size ≤ walk.size := by
  have hSplit := Element.countList_append ((walk.pending.take count).map Prod.snd)
    ((walk.pending.drop count).map Prod.snd)
  rw [← List.map_append, List.take_append_drop] at hSplit
  rw [size, size, skip]
  dsimp only
  omega

theorem ne_nil_of_mem_below {path : Path} {e : Element} {entry : Path × Element}
    (h : entry ∈ below path e) : entry.1 ≠ [] := by
  obtain ⟨index, -, rfl⟩ := List.mem_mapIdx.1 h
  simp

end Xml.Walk

namespace Format

variable {format : Format} {e : Element} {path : Path} {depth : Int}

/-! ### Reading with failures -/

/-- The atom of a text that was found at `subpath` below an element that carries
text. The element that holds the text is looked up. -/
def readAtom (format : Format) (e : Element) (path subpath : Path) (depth : Int) :
    Except Error Path :=
  if subpath = [] then .ok (Path.atom path depth)
  else do
    let inner ← e.find subpath
    match format.atomDepth? inner.tag with
    | some nested => return Path.atom (path ++ subpath) nested
    | none => return Path.atom path depth

/-- Feed one text of an element that carries text. -/
def feedText (format : Format) (e : Element) (path : Path) (depth : Int) (lexer : Lexer)
    (found : Path × String) : Except Error Lexer := do
  let atom ← format.readAtom e path found.1 depth
  lexer.feed (.ofLeaf found.2 (path ++ found.1) atom)

/-- Feed the texts of an element that carries text, and take the events that are
there. -/
def readElement (format : Format) (path : Path) (depth : Int) (e : Element) (session : Session) :
    Except Error Session := do
  let texts ← format.convert e
  let fed ← texts.foldlM (format.feedText e path depth) session.2
  return (session.1 ++ fed.read.1, fed.read.2)

/-- Read the elements that a walk meets. The root is never read, and the walk does
not go on below an element that carries text. -/
def readWalk (format : Format) (walk : Walk) (session : Session) : Except Error Session :=
  match _h : walk.next? with
  | none => .ok session
  | some ((path, e), rest) =>
    if path = [] then readWalk format rest session
    else
      match format.atomDepth? e.tag with
      | none => readWalk format rest session
      | some depth => do
        let next ← format.readElement path depth e session
        readWalk format (rest.skip e.children.length) next
termination_by walk.size
decreasing_by
  · exact Walk.size_next? _h
  · exact Walk.size_next? _h
  · exact (Walk.size_skip_le _ _).trans_lt (Walk.size_next? _h)

/-- The line of a document that is read step by step, and whether it holds any tag. -/
def straighten (format : Format) (root : Element) : Except Error (Content × Line) := do
  let (events, lexer) ← format.readWalk (.start root) ([], {})
  let draft ← (events ++ lexer.close.read.1).foldlM Draft.step {}
  return (if draft.hasTag then .template else .plaintext, draft.line)

/-! ### The leaves that a walk meets -/

variable {format : Format} {e : Element} {path : Path} {depth : Int} {session : Session}
  {walk : Walk} {lexer : Lexer}

/-- The leaves of the elements that a walk still meets. -/
def leavesOfWalk (format : Format) (walk : Walk) : List Leaf :=
  walk.pending.flatMap fun entry => format.leavesIn entry.1 entry.2

theorem leavesInList_eq (format : Format) (path : Path) (index : Nat) (children : List Element) :
    format.leavesInList path index children =
      (children.mapIdx fun k child => (path ++ [index + k], child)).flatMap
        fun entry => format.leavesIn entry.1 entry.2 := by
  induction children generalizing index with
  | nil => rfl
  | cons child children ih =>
    rw [List.mapIdx_cons, List.flatMap_cons, leavesInList, ih (index + 1)]
    simp only [Nat.add_zero, Nat.add_right_comm index, Nat.add_assoc index]

theorem leavesIn_of_carries (hDepth : format.atomDepth? e.tag = some depth) (path : Path) :
    format.leavesIn path e = format.leavesOf path depth e := by
  obtain ⟨name, tag, attributes, text, tail, children⟩ := e
  simp only [leavesIn, hDepth]

theorem leavesIn_of_none (hDepth : format.atomDepth? e.tag = none) (path : Path) :
    format.leavesIn path e = format.leavesOfWalk ⟨Walk.below path e⟩ := by
  have hList := leavesInList_eq format path 0 e.children
  obtain ⟨name, tag, attributes, text, tail, children⟩ := e
  simp only [Nat.zero_add] at hList
  simp only [leavesIn, hDepth, hList]
  rfl

/-! ### Reading does not fail -/

/-- The element that holds a text is there. -/
theorem readAtom_eq {found : Path × String} (hCarrier : (format.atomDepth? e.tag).isSome = true)
    (hFound : found ∈ format.texts e) (path : Path) (depth : Int) :
    format.readAtom e path found.1 depth = .ok (format.leafAtom e path found.1 depth) := by
  obtain ⟨subpath, text⟩ := found
  obtain ⟨inner, hInner, -⟩ := place_of_mem_texts hCarrier hFound
  have hReaches : e.Reaches subpath := Option.isSome_iff_exists.2 ⟨inner, hInner⟩
  obtain _ | ⟨index, below⟩ := subpath
  · rfl
  · simp only [readAtom, leafAtom, hReaches.find, if_neg (List.cons_ne_nil index below), ok_bind]
    cases format.atomDepth? (e.descendant (index :: below)).tag with
    | none => rfl
    | some nested => rfl

/-- Feeding the texts of an element is feeding its leaves. -/
theorem foldlM_feedText (hCarrier : (format.atomDepth? e.tag).isSome = true)
    {texts : List (Path × String)} (hTexts : ∀ found ∈ texts, found ∈ format.texts e)
    (path : Path) (depth : Int) (lexer : Lexer) :
    texts.foldlM (format.feedText e path depth) lexer =
      lexer.feedLeaves (texts.map fun (subpath, text) =>
        ⟨path ++ subpath, format.leafAtom e path subpath depth, text⟩) := by
  induction texts generalizing lexer with
  | nil => rfl
  | cons found texts ih =>
    rw [List.foldlM_cons, List.map_cons, Lexer.feedLeaves, List.foldlM_cons, feedText,
      readAtom_eq hCarrier (hTexts found List.mem_cons_self), ok_bind]
    refine congrArg _ (funext fun fed => ?_)
    exact ih (fun other hOther => hTexts other (List.mem_cons_of_mem found hOther)) fed

/-- A session with all its events in the lexer. -/
def joined (session : Session) : Lexer :=
  { session.2 with events := session.1 ++ session.2.events }

theorem joined_read (seen : List Event) (hOpen : lexer.isClosed = false) :
    joined (seen ++ lexer.read.1, lexer.read.2) = joined (seen, lexer) := by
  rw [Lexer.read, if_neg (ne_true_of_eq_false hOpen), joined, joined, List.append_nil]

/-- An open lexer takes all leaves, whatever events are in it. -/
theorem feedLeaves_joined (leaves : List Leaf) (hOpen : lexer.isClosed = false) (seen : List Event) :
    ∃ fed, lexer.feedLeaves leaves = .ok fed ∧ fed.isClosed = false ∧
      (joined (seen, lexer)).feedLeaves leaves = .ok (joined (seen, fed)) := by
  induction leaves generalizing lexer with
  | nil => exact ⟨lexer, rfl, hOpen, rfl⟩
  | cons leaf leaves ih =>
    have hJoined : (joined (seen, lexer)).isClosed = false := hOpen
    rw [Lexer.feedLeaves, List.foldlM_cons, feed_eq hOpen, ok_bind, Lexer.feedLeaves,
      List.foldlM_cons, feed_eq hJoined, ok_bind]
    obtain ⟨fed, hFed, hStill, hSame⟩ := @ih { lexer with
      buffer := Lexer.kept (lexer.buffer ++ .ofLeaf leaf.text leaf.path leaf.atom)
      events := lexer.events ++
        Lexer.sort (lexer.buffer ++ .ofLeaf leaf.text leaf.path leaf.atom) } hOpen
    refine ⟨fed, hFed, hStill, Eq.trans ?_ hSame⟩
    rw [joined, joined, ← List.append_assoc]
    rfl

theorem readElement_eq (hDepth : format.atomDepth? e.tag = some depth)
    (hOpen : session.2.isClosed = false) (path : Path) :
    ∃ next, format.readElement path depth e session = .ok next ∧ next.2.isClosed = false ∧
      (joined session).feedLeaves (format.leavesIn path e) = .ok (joined next) := by
  have hCarrier : (format.atomDepth? e.tag).isSome = true := by rw [hDepth]; rfl
  obtain ⟨fed, hFed, hStill, hSame⟩ :=
    feedLeaves_joined (format.leavesIn path e) hOpen session.1
  rw [leavesIn_of_carries hDepth, leavesOf, ← foldlM_feedText hCarrier (fun _ => id)] at hFed
  refine ⟨(session.1 ++ fed.read.1, fed.read.2), ?_, ?_, ?_⟩
  · rw [readElement, convert, if_pos hCarrier, ok_bind, hFed, ok_bind]
    rfl
  · rw [Lexer.read, if_neg (ne_true_of_eq_false hStill)]
    exact hStill
  · rw [joined_read _ hStill]
    exact hSame

theorem feedLeaves_append {fed : Lexer} {front : List Leaf} (h : lexer.feedLeaves front = .ok fed)
    (back : List Leaf) : lexer.feedLeaves (front ++ back) = fed.feedLeaves back := by
  rw [Lexer.feedLeaves, List.foldlM_append]
  change lexer.feedLeaves front >>= _ = _
  rw [h, ok_bind]
  rfl

/-- A walk below the root is read without a failure: what is fed to the lexer are
the leaves of the elements that it meets. -/
theorem readWalk_eq (hBelow : ∀ entry ∈ walk.pending, entry.1 ≠ [])
    (hOpen : session.2.isClosed = false) :
    ∃ last, format.readWalk walk session = .ok last ∧ last.2.isClosed = false ∧
      (joined session).feedLeaves (format.leavesOfWalk walk) = .ok (joined last) := by
  induction walk, session using readWalk.induct format with
  | case1 walk session hDone =>
    obtain ⟨_ | ⟨entry, pending⟩⟩ := walk
    · refine ⟨session, ?_, hOpen, rfl⟩
      rw [readWalk]
      rfl
    · cases hDone
  | case2 walk session e rest hNext ih =>
    obtain ⟨pending, rfl, rfl⟩ := Walk.exists_of_next? hNext
    exact absurd rfl (hBelow _ List.mem_cons_self)
  | case3 walk session path e rest hNext hPath hNone ih =>
    obtain ⟨pending, rfl, rfl⟩ := Walk.exists_of_next? hNext
    have hRest : ∀ entry ∈ Walk.below path e ++ pending, entry.1 ≠ [] := by
      intro entry hEntry
      rcases List.mem_append.1 hEntry with hEntry | hEntry
      · exact Walk.ne_nil_of_mem_below hEntry
      · exact hBelow entry (List.mem_cons_of_mem _ hEntry)
    obtain ⟨last, hLast, hStill, hFed⟩ := ih hRest hOpen
    refine ⟨last, ?_, hStill, ?_⟩
    · rw [readWalk, hNext]
      simp only [if_neg hPath, hNone, hLast]
    · rw [leavesOfWalk, List.flatMap_append] at hFed
      rw [leavesOfWalk, List.flatMap_cons, leavesIn_of_none hNone]
      exact hFed
  | case4 walk session path e rest hNext hPath depth hDepth ih =>
    obtain ⟨pending, rfl, rfl⟩ := Walk.exists_of_next? hNext
    obtain ⟨next, hRead, hNextOpen, hHere⟩ := readElement_eq hDepth hOpen path
    have hSkip : (Walk.skip ⟨Walk.below path e ++ pending⟩ e.children.length).pending = pending :=
      Walk.skip_children path e pending
    obtain ⟨last, hLast, hStill, hFed⟩ := ih next
      (by rw [hSkip]; exact fun entry hEntry => hBelow entry (List.mem_cons_of_mem _ hEntry))
      hNextOpen
    refine ⟨last, ?_, hStill, ?_⟩
    · rw [readWalk, hNext]
      simp only [if_neg hPath, hDepth, hRead, ok_bind, hLast]
    · rw [leavesOfWalk, hSkip] at hFed
      rw [leavesOfWalk, List.flatMap_cons, feedLeaves_append hHere]
      exact hFed

/-- Reading a document step by step never fails before a tag is looked at. -/
theorem readWalk_start (format : Format) (root : Element) :
    ∃ last, format.readWalk (.start root) ([], {}) = .ok last ∧
      Template.Token.ofLeaves (format.leaves root) = .ok (last.1 ++ last.2.close.read.1) := by
  have hLeaves : format.leaves root = format.leavesOfWalk ⟨Walk.below [] root⟩ := by
    have hList := leavesInList_eq format [] 0 root.children
    simp only [Nat.zero_add] at hList
    rw [leaves, hList]
    rfl
  obtain ⟨last, hLast, -, hFed⟩ := @readWalk_eq format ([], {}) ⟨Walk.below [] root⟩
    (fun _ => Walk.ne_nil_of_mem_below) rfl
  refine ⟨last, ?_, ?_⟩
  · rw [readWalk]
    simp only [Walk.start, Walk.next?, List.append_nil]
    exact hLast
  · change Lexer.feedLeaves {} _ = _ at hFed
    rw [Template.Token.ofLeaves, hLeaves, hFed, ok_bind]
    exact congrArg Except.ok (List.append_assoc _ _ _)

/-- A document that is read step by step gives the line of its leaves. -/
theorem straighten_eq (format : Format) (root : Element) :
    format.straighten root = flatten format root := by
  obtain ⟨last, hLast, hEvents⟩ := readWalk_start format root
  rw [straighten, flatten, hLast, hEvents]
  rfl

end Format

end Infill
