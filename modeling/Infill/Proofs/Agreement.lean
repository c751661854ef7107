import Infill.Proofs.Atoms
import Infill.Proofs.Flattening
import Infill.Proofs.Splits

/-!
Two ways to the atom of a leaf. A document that is flattened attaches an atom to every
leaf, which no tag may leave; a document that is rebuilt looks the atom up again on the
path of the leaf, and opens and takes out copies by what it finds. Both begin at the
first element on the path that carries text, and there the second way ends. The first
one goes on to the leaf, so the two part where this carries text as well: at word art
in a run.
-/
namespace Infill

open Infill.Xml

open Template (Event)
open Template.Lexer (spansOf)
open RebuildM (build)

/-! ### Nested leaves -/

theorem Path.atom_prefix (path : Path) (depth : Int) : path.atom depth <+: path :=
  List.take_prefix _ _

namespace Format

variable {format : Format} {root : Element} {node below : Path} {leaf : Leaf} {depth : Int}

/-- Whether the element at a path carries text and lies in another one that does. -/
def IsNested (format : Format) (root : Element) (path : Path) : Prop :=
  format.isCarrier root path = true ∧
    ∃ above, above <+: path ∧ above ≠ [] ∧ above ≠ path ∧ format.isCarrier root above = true

/-- Word art in a run, which is the first element on the way to it that carries text. -/
structure IsArtIn (format : Format) (root : Element) (run path : Path) : Prop where
  isDocx : format = docx
  inside : run <+: path
  apart : run ≠ path
  nonempty : run ≠ []
  isRun : (root.descendant run).tag ∈ [Docx.word "r", Docx.math "r"]
  isArt : (root.descendant path).tag = Docx.textPath
  first : ∀ above, above <+: run → above ≠ [] → above ≠ run → format.isCarrier root above = false

/-- Only a run has texts that lie below it. -/
theorem tag_of_mem_texts {e : Element} {found : Path × String}
    (hCarrier : (format.atomDepth? e.tag).isSome = true) (h : found ∈ format.texts e)
    (hBelow : found.1 ≠ []) : format = docx ∧ e.tag ∈ [Docx.word "r", Docx.math "r"] := by
  cases format with
  | odt =>
    obtain rfl := List.mem_singleton.1 h
    exact absurd rfl hBelow
  | docx =>
    have hArt : e.tag ≠ Docx.textPath := by
      intro hTag
      rw [texts, Docx.texts, if_pos hTag] at h
      obtain rfl := List.mem_singleton.1 h
      exact hBelow rfl
    obtain ⟨depth, hDepth⟩ := Option.isSome_iff_exists.1 hCarrier
    obtain ⟨front, back, hSplit, -⟩ := List.lookup_eq_some_iff.1 hDepth
    have hEntry : (e.tag, depth) ∈ docx.textNodes :=
      hSplit ▸ List.mem_append_right front List.mem_cons_self
    have hCases : e.tag = Docx.word "r" ∨ e.tag = Docx.textPath ∨ e.tag = Docx.math "r" := by
      simp only [textNodes, Docx.textNodes, List.mem_cons, List.not_mem_nil, or_false,
        Prod.mk.injEq] at hEntry
      exact hEntry.imp And.left (Or.imp And.left And.left)
    rcases hCases with hTag | hTag | hTag
    · exact ⟨rfl, List.mem_pair.2 (.inl hTag)⟩
    · exact absurd hTag hArt
    · exact ⟨rfl, List.mem_pair.2 (.inr hTag)⟩

namespace Anchors

theorem node_prefix (h : format.Anchors root node below leaf) : node <+: leaf.path :=
  ⟨below, h.path.symm⟩

theorem node_ne_path (h : format.Anchors root node below leaf) (hBelow : below ≠ []) :
    node ≠ leaf.path := by
  intro hSame
  rw [h.path] at hSame
  exact hBelow (List.self_eq_append_right.1 hSame)

section

variable (h : format.Anchors root node below leaf) (hReaches : root.Reaches leaf.path)

include h hReaches

/-- Below the element that it is a text of only word art carries text. -/
theorem atomDepth?_eq (hBelow : below ≠ []) :
    format.atomDepth? (root.descendant leaf.path).tag =
      if (root.descendant leaf.path).tag = Docx.textPath then some 0 else none := by
  have hInner : (root.descendant node).descendant? below = some (root.descendant leaf.path) := by
    have hWhole := hReaches.descendant?_eq
    have hNode := (hReaches.above h.node_prefix).descendant?_eq
    rwa [h.path, Element.descendant?_append, hNode, Option.bind_some, ← h.path] at hWhole
  exact atomDepth?_of_mem_texts h.carries.2 h.text hInner hBelow

theorem isNested_iff :
    format.IsNested root leaf.path ↔
      below ≠ [] ∧ (root.descendant leaf.path).tag = Docx.textPath := by
  constructor
  · rintro ⟨hCarrier, above, hAbove, hSome, hApart, hOther⟩
    have hBelow : below ≠ [] := by
      -- the first element on the path that carries text has none above it
      rintro rfl
      rw [h.path, List.append_nil] at hAbove hApart
      rw [h.first above hAbove hSome hApart] at hOther
      cases hOther
    refine ⟨hBelow, ?_⟩
    by_contra hTag
    rw [isCarrier, h.atomDepth?_eq hReaches hBelow, if_neg hTag] at hCarrier
    cases hCarrier
  · rintro ⟨hBelow, hTag⟩
    refine ⟨?_, node, h.node_prefix, h.carries.1, h.node_ne_path hBelow, h.carries.2⟩
    rw [isCarrier, h.atomDepth?_eq hReaches hBelow, if_pos hTag, Option.isSome_some]

theorem isArtIn (hNested : format.IsNested root leaf.path) :
    format.IsArtIn root node leaf.path := by
  obtain ⟨hBelow, hTag⟩ := (h.isNested_iff hReaches).1 hNested
  obtain ⟨hDocx, hRun⟩ := tag_of_mem_texts h.carries.2 h.text hBelow
  exact ⟨hDocx, h.node_prefix, h.node_ne_path hBelow, h.carries.1, hRun, hTag, h.first⟩

/-- A nested leaf is its own atom. -/
theorem atom_of_isNested (hNested : format.IsNested root leaf.path) : leaf.atom = leaf.path := by
  rw [h.atom, if_pos ((h.isNested_iff hReaches).1 hNested)]

/-- Any other leaf has its atom from the element that it is a text of. -/
theorem atom_of_not_isNested (hDepth : format.atomDepth? (root.descendant node).tag = some depth)
    (hNested : ¬ format.IsNested root leaf.path) : leaf.atom = node.atom depth := by
  rw [h.atom, if_neg fun hArt => hNested ((h.isNested_iff hReaches).2 hArt),
    ← atom_of_atomDepth? hDepth]

/-- The atom that is looked up is that of the element that the leaf is a text of. -/
theorem atomFloor_eq (hDepth : format.atomDepth? (root.descendant node).tag = some depth) :
    format.atomFloor root leaf.path = .ok (node.atom depth).length := by
  rw [h.path] at hReaches
  rw [h.path, atomFloor, atomFloorFrom_eq [] h.carries.1 hReaches hDepth, List.nil_append]
  intro above hAbove hSome hApart
  have hNone := h.first above hAbove hSome hApart
  rwa [isCarrier, Option.isSome_eq_false_iff, Option.isNone_iff_eq_none] at hNone

/-- The atom that is looked up is the one that is attached, but for nested leaves. -/
theorem atom_eq_iff (hDepth : format.atomDepth? (root.descendant node).tag = some depth) :
    (node.atom depth).length = leaf.atom.length ↔ ¬ format.IsNested root leaf.path := by
  constructor
  · -- a nested leaf lies below the run, the atom of the run does not
    intro hLength hNested
    obtain ⟨hBelow, -⟩ := (h.isNested_iff hReaches).1 hNested
    have hAbove := (Path.atom_prefix node depth).length_le
    have hPos := List.length_pos_iff.2 hBelow
    rw [h.atom_of_isNested hReaches hNested, h.path, List.length_append] at hLength
    omega
  · intro hNested
    rw [h.atom_of_not_isNested hReaches hDepth hNested]

end

end Anchors

end Format

/-! ### The atom that a rebuild goes by -/

/-- Whether a rebuild takes the element at `atom` for the atom of the leaf `key`, which
lies at `path`. -/
structure Plan.GoesBy (plan : Plan) (key : Nat) (path atom : Path) : Prop where
  atomFloor : plan.atomFloor key = .ok atom.length
  /-- Where the leaf is passed by, the copies down to the atom are opened. -/
  skip : ∀ target, plan.skip key target =
    if key < target then build (BuilderM.descend atom) else pure ()
  /-- The boundary in front of the leaf, or behind it if it is the last one, goes by the
  depth of the atom. -/
  setFloor : ∀ boundary, min boundary (plan.boundaries.last - 1) = key →
    plan.setFloor boundary = build (modify (·.setFloor (some atom.length)))
  /-- Then what is opened on the path of the leaf may be taken out if and only if it is
  the atom or lies in it. -/
  prunes : ∀ (b : Builder) (step : Nat) (e : Element), b.chain ++ [step] <+: path →
    ((b.setFloor (some atom.length)).openChild step e).frames.head?.map Frame.isPrunable =
      some (decide (atom <+: b.chain ++ [step]))

/-- Whether a rebuild takes the element at `place` for the atom of the leaf `key`, which
lies at `path` and has its atom at `atom`. It finds the atom exactly if the leaf is not
nested. A nested leaf is word art and its own atom, and the rebuild goes by the element
around the run with the word art. -/
structure Plan.FindsAtom (plan : Plan) (key : Nat) (path atom place : Path) : Prop where
  goesBy : plan.GoesBy key path place
  atomFloor_iff : plan.atomFloor key = .ok atom.length ↔ ¬ plan.format.IsNested plan.root path
  place_eq : ¬ plan.format.IsNested plan.root path → place = atom
  nested : plan.format.IsNested plan.root path → atom = path ∧
    ∃ run, plan.format.IsArtIn plan.root run path ∧ place = run.dropLast

namespace Builder

variable {b : Builder} {path atom : Path} {step : Nat}

/-- From the depth of an atom on, a path leads to the atom or into it. -/
theorem isPrunable_openChild (hAtom : atom <+: path) (hStep : b.chain ++ [step] <+: path)
    (e : Element) :
    ((b.setFloor (some atom.length)).openChild step e).frames.head?.map Frame.isPrunable =
      some (decide (atom <+: b.chain ++ [step])) := by
  have hLength : (b.chain ++ [step]).length = b.depth + 1 := by
    rw [List.length_append, length_chain, List.length_singleton]
  have hDepth : atom.length ≤ b.depth + 1 ↔ atom <+: b.chain ++ [step] := by
    rw [← hLength]
    exact ⟨List.prefix_of_prefix_length_le hAtom hStep, List.IsPrefix.length_le⟩
  exact congrArg some (decide_eq_decide.2 hDepth)

end Builder

namespace Plan

variable {plan : Plan} {key : Nat} {path atom : Path}

theorem goesBy (hPos : 1 ≤ key) (hLast : key < plan.boundaries.last)
    (hLeaf : plan.boundaries.leaf key = .ok path)
    (hFloor : plan.format.atomFloor plan.root path = .ok atom.length) (hAtom : atom <+: path) :
    plan.GoesBy key path atom := by
  have hFound : plan.atomFloor key = .ok atom.length := by
    rw [Plan.atomFloor, hLeaf, ok_bind, hFloor]
  refine ⟨hFound, fun target => StateT.ext fun state => ?_, fun boundary hBoundary =>
    StateT.ext fun state => ?_, fun b step e hStep => Builder.isPrunable_openChild hAtom hStep e⟩
  · rw [Plan.skip]
    by_cases hLess : key < target
    · rw [if_pos ⟨hLess, hLast⟩, if_pos hLess, hLeaf]
      refine (RebuildM.run_bind_ok rfl).trans ?_
      rw [hFound]
      refine (RebuildM.run_bind_ok rfl).trans ?_
      rw [← List.prefix_iff_eq_take.1 hAtom]
    · rw [if_neg fun h => hLess h.1, if_neg hLess]
  · rw [Plan.setFloor]
    simp only [hBoundary]
    rw [if_neg (Nat.ne_of_gt hPos), hFound]
    rfl

end Plan

/-! ### The atom that is attached -/

/-- Whether events attach an atom to the leaf at `path`: they have a span of the leaf,
and all of these name the atom. -/
structure Template.Lexer.Attach (events : List Event) (path atom : Path) : Prop where
  exists_span : ∃ span ∈ spansOf events, span.path = path
  atom_eq : ∀ span ∈ spansOf events, span.path = path → span.atom = atom

open Template.Lexer (Attach)

/-- Events attach to every leaf the atom that it was found with. -/
theorem Drawn.attach {leaves : List Leaf} {events : List Event} {line : Line} {leaf : Leaf}
    (h : Drawn leaves events line) (hLeaf : leaf ∈ leaves) : Attach events leaf.path leaf.atom := by
  have hTiles := h.excerpt.tiles
  have hPlaced := Mark.placed_ofEvents h.sound 0
  have hSpans := Mark.map_span_ofEvents 0 events
  constructor
  · -- the stretch of the leaf among the marks is not empty
    obtain ⟨front, back, rfl⟩ := List.append_of_mem hLeaf
    obtain ⟨own, hOwn, hHere, -⟩ := Mark.exists_marks hTiles hPlaced
    obtain ⟨span, hSpan⟩ := List.exists_mem_of_ne_nil _ hHere.ne_nil
    obtain ⟨other, hOther, hPath, -⟩ := hHere.mem hSpan
    obtain rfl := List.mem_singleton.1 hOther
    exact ⟨span, hSpans ▸ List.map_subset _ hOwn hSpan, hPath⟩
  · intro span hSpan hPath
    rw [← hSpans] at hSpan
    obtain ⟨mark, hMark, rfl⟩ := List.mem_map.1 hSpan
    obtain ⟨front, other, back, rfl, hSame, hAtom, -⟩ :=
      @Mark.exists_leaf _ _ mark 0 0 hTiles hPlaced hMark
    obtain rfl : other = leaf :=
      List.inj_on_of_nodup_map h.nodup (by simp) hLeaf (hSame.symm.trans hPath)
    exact hAtom

/-! ### The two ways -/

variable {format : Format} {root : Element} {content : Content} {line : Line}

/-- The atom that a rebuild looks up for a leaf of a line is the one that the leaf had
when the document was flattened, unless the leaf is nested. Then it is word art in a run,
which was its own atom; the rebuild goes by the element around the run instead. -/
theorem atomFloor_eq_iff (h : flatten format root = .ok (content, line)) :
    ∃ boundaries events, Boundaries.ofLine root line = .ok boundaries ∧
      Template.Token.ofLeaves (format.leaves root) = .ok events ∧
      ∀ entry ∈ line, ∃ atom place, Attach events entry.1.path atom ∧
        Plan.FindsAtom ⟨root, boundaries, format⟩ entry.1.index entry.1.path atom place := by
  obtain ⟨events, draft, hEvents, -, -, -, hDrawn⟩ := exists_drawn h
  obtain ⟨boundaries, hBoundaries, charted⟩ :=
    Layout.exists_charted _ (Layout.leavesOf_ofLine h)
  refine ⟨boundaries, events, hBoundaries, hEvents, fun entry hEntry => ?_⟩
  obtain ⟨hPos, hCount, hPath⟩ := Layout.mem_ofLine h hEntry
  obtain ⟨leaf, hFound, hSame, -⟩ := hDrawn.belongs hEntry
  have hLeaf := List.mem_of_getElem? hFound
  have hReaches := (Format.holdsText_of_mem_leaves hLeaf).reaches
  obtain ⟨node, below, hAnchors⟩ := Format.exists_anchor_of_mem_leaves hLeaf
  obtain ⟨depth, hDepth⟩ := Option.isSome_iff_exists.1 hAnchors.carries.2
  have hFloor := hAnchors.atomFloor_eq hReaches hDepth
  have hPlace : Plan.GoesBy ⟨root, boundaries, format⟩ entry.1.index leaf.path (node.atom depth) :=
    Plan.goesBy hPos (by rw [charted.last]; omega)
      (by rw [charted.leaf _ hPos hCount, hPath, hSame]) hFloor
      ((Path.atom_prefix node depth).trans hAnchors.node_prefix)
  rw [hSame]
  refine ⟨leaf.atom, node.atom depth, hDrawn.attach hLeaf, hPlace, ?_, fun hNested => ?_,
    fun hNested => ⟨hAnchors.atom_of_isNested hReaches hNested, node,
      hAnchors.isArtIn hReaches hNested, ?_⟩⟩
  · rw [hPlace.atomFloor, Except.ok.injEq, hAnchors.atom_eq_iff hReaches hDepth]
  · exact (hAnchors.atom_of_not_isNested hReaches hDepth hNested).symm
  · rw [Format.atom_of_atomDepth? hDepth, if_pos (hAnchors.isArtIn hReaches hNested).isRun]

/-- An element of a drawing. -/
def Docx.drawn (localPart : String) (attributes : List Attribute) (children : List Element) :
    Element :=
  ⟨"v:" ++ localPart, Element.expanded "urn:schemas-microsoft-com:vml" localPart, attributes, none,
    none, children⟩

/-- A run that holds the given shapes. -/
def Docx.pictured (shapes : List Element) : Element :=
  element "r" none [element "pict" none shapes]

/-- A run with a greeting, and a run with a title in word art. -/
def Docx.poster : Element :=
  element "body" none
    [element "p" none [element "r" none [element "t" (some "\x7b\x7b name \x7d\x7d") []]],
      element "p" none
        [pictured [drawn "shape" []
          [drawn "textpath" [⟨"string", "string", "\x7b\x7b title \x7d\x7d"⟩] []]]]]

/-- The line of the greeting and the title. -/
def Docx.posterLine : Line :=
  [(⟨[0, 0, 0], false, 10, 0, 10, 1⟩, "\x7b\x7b name \x7d\x7d"),
    (⟨[1, 0, 0, 0, 0], false, 11, 0, 11, 2⟩, "\x7b\x7b title \x7d\x7d")]

/-- The rebuild finds the atom of the greeting, but not that of the title. -/
theorem atomFloor_eq_iff_poster :
    flatten .docx Docx.poster = .ok (.template, Docx.posterLine) ∧
      ∃ boundaries events, Boundaries.ofLine Docx.poster Docx.posterLine = .ok boundaries ∧
        Template.Token.ofLeaves (Format.docx.leaves Docx.poster) = .ok events ∧
        (∃ atom, Attach events [0, 0, 0] atom ∧
          Plan.FindsAtom ⟨Docx.poster, boundaries, .docx⟩ 1 [0, 0, 0] atom atom ∧
          Plan.atomFloor ⟨Docx.poster, boundaries, .docx⟩ 1 = .ok atom.length) ∧
        ∃ place, Attach events [1, 0, 0, 0, 0] [1, 0, 0, 0, 0] ∧
          Plan.FindsAtom ⟨Docx.poster, boundaries, .docx⟩ 2 [1, 0, 0, 0, 0] [1, 0, 0, 0, 0] place ∧
          Plan.atomFloor ⟨Docx.poster, boundaries, .docx⟩ 2 ≠ .ok 5 := by
  have hPoster : flatten .docx Docx.poster = .ok (.template, Docx.posterLine) := by
    decide +kernel
  obtain ⟨boundaries, events, hBoundaries, hEvents, hFinds⟩ := atomFloor_eq_iff hPoster
  have hPlain : ¬ Format.docx.IsNested Docx.poster [0, 0, 0] := fun hNested =>
    absurd hNested.1 (by decide +kernel)
  have hNested : Format.docx.IsNested Docx.poster [1, 0, 0, 0, 0] :=
    ⟨by decide +kernel, [1, 0], by decide, by decide, by decide, by decide +kernel⟩
  refine ⟨hPoster, boundaries, events, hBoundaries, hEvents, ?_, ?_⟩
  · obtain ⟨atom, place, hAttach, hFind⟩ := hFinds Docx.posterLine[0] (by decide)
    obtain rfl := hFind.place_eq hPlain
    exact ⟨_, hAttach, hFind, hFind.atomFloor_iff.2 hPlain⟩
  · obtain ⟨atom, place, hAttach, hFind⟩ := hFinds Docx.posterLine[1] (by decide)
    obtain ⟨rfl, -⟩ := hFind.nested hNested
    exact ⟨place, hAttach, hFind, fun hSame => hFind.atomFloor_iff.1 hSame hNested⟩

/-- A banner of word art in a shape with a filling and a stroke. -/
def Docx.banner : Element :=
  element "body" none
    [element "p" none
      [pictured
        [drawn "shape" []
          [drawn "fill" [] [],
            drawn "textpath" [⟨"string", "string", "\x7b\x7b title \x7d\x7d"⟩] [],
            drawn "stroke" [] []]]]]

/-- The line of the banner. -/
def Docx.bannerLine : Line :=
  [(⟨[0, 0, 0, 0, 1], false, 11, 0, 11, 1⟩, "\x7b\x7b title \x7d\x7d")]

/-- The banner without a title. -/
def Docx.bannerTape : Line :=
  [(⟨[0, 0, 0, 0, 1], false, 11, 0, 11, 1⟩, "")]

/-- What becomes of the banner without a title. -/
def Docx.bannerTorn : Element :=
  element "body" none
    [element "p" none
      [pictured [drawn "shape" [] [drawn "fill" [] []]],
        pictured [drawn "shape" [] [drawn "stroke" [] []]]]]

/-- The word art is its own atom when the banner is flattened, but the rebuild goes by
the body, and closes the shape where it passes the word art by. -/
theorem atomFloor_banner :
    flatten .docx Docx.banner = .ok (.template, Docx.bannerLine) ∧
      ∃ boundaries events, Boundaries.ofLine Docx.banner Docx.bannerLine = .ok boundaries ∧
        Template.Token.ofLeaves (Format.docx.leaves Docx.banner) = .ok events ∧
        Attach events [0, 0, 0, 0, 1] [0, 0, 0, 0, 1] ∧
        Plan.atomFloor ⟨Docx.banner, boundaries, .docx⟩ 1 = .ok 1 ∧
        enforce Docx.banner Docx.bannerTape boundaries .docx = .ok Docx.bannerTorn ∧
        ¬ ∀ entry ∈ Docx.bannerLine, ∀ atom, Attach events entry.1.path atom →
          Plan.atomFloor ⟨Docx.banner, boundaries, .docx⟩ entry.1.index = .ok atom.length := by
  -- the boundaries and the events are not written out, only what is made of them
  have hFloor : (do
      let boundaries ← Boundaries.ofLine Docx.banner Docx.bannerLine
      let out ← enforce Docx.banner Docx.bannerTape boundaries .docx
      let depth ← Plan.atomFloor ⟨Docx.banner, boundaries, .docx⟩ 1
      return (out, depth)) = .ok (Docx.bannerTorn, 1) := by
    decide +kernel
  have hSpans : (do
      let events ← Template.Token.ofLeaves (Format.docx.leaves Docx.banner)
      return (spansOf events).map fun span : Span => (span.path, span.atom)) =
        .ok [([0, 0, 0, 0, 1], [0, 0, 0, 0, 1])] := by
    decide +kernel
  obtain ⟨boundaries, hBoundaries, hRest⟩ := bind_eq_ok.1 hFloor
  obtain ⟨out, hEnforce, hRest⟩ := bind_eq_ok.1 hRest
  obtain ⟨depth, hDepth, hDone⟩ := bind_eq_ok.1 hRest
  obtain ⟨rfl, rfl⟩ := Prod.mk.inj (Except.ok.inj hDone)
  obtain ⟨events, hEvents, hDone⟩ := bind_eq_ok.1 hSpans
  have hMap := Except.ok.inj hDone
  have hAttach : Attach events [0, 0, 0, 0, 1] [0, 0, 0, 0, 1] := by
    obtain ⟨span, spans, hSplit, hPair, hNil⟩ := List.map_eq_cons_iff.1 hMap
    obtain rfl := List.map_eq_nil_iff.1 hNil
    obtain ⟨hPath, hAtom⟩ := Prod.mk.inj hPair
    refine ⟨⟨span, hSplit ▸ List.mem_cons_self, hPath⟩, fun other hOther _ => ?_⟩
    rw [hSplit, List.mem_singleton] at hOther
    rw [hOther, hAtom]
  refine ⟨by decide +kernel, boundaries, events, hBoundaries, hEvents, hAttach, hDepth, hEnforce,
    fun hAll => ?_⟩
  have hLength := (hAll _ List.mem_cons_self _ hAttach).symm.trans hDepth
  cases hLength

end Infill
