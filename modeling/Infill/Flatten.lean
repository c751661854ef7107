import Infill.Format
import Infill.Line
import Infill.Template.Lexer
import Infill.Text.Blank

/-!
Flattening: the texts of a document's leaves become one line. The text is
sorted into tags and the text between them over the borders of the leaves, and
what remains of each leaf keeps a pointer to it.
-/
namespace Infill

open Infill.Xml

/-- A text of the document with its place and its atom. -/
structure Leaf where
  path : Path
  atom : Path
  text : String
  deriving DecidableEq, Inhabited, Repr

namespace Format

/-- The atom of a text that was found at `subpath` below an element that
carries text at `path`. An element in between that carries text itself, such as
word art in a run, sets an atom of its own. -/
def leafAtom (format : Format) (e : Element) (path subpath : Path) (depth : Int) : Path :=
  match subpath, e.find subpath with
  | _ :: _, .ok inner =>
    match format.atomDepth? inner.tag with
    | some nested => Path.atom (path ++ subpath) nested
    | none => Path.atom path depth
  | _, _ => Path.atom path depth

/-- The leaves of an element that carries text. -/
def leavesOf (format : Format) (path : Path) (depth : Int) (e : Element) : List Leaf :=
  (format.texts e).map fun (subpath, text) =>
    ⟨path ++ subpath, format.leafAtom e path subpath depth, text⟩

mutual

/-- The leaves of an element reached by `path`. Below an element that carries
text none is looked for. -/
def leavesIn (format : Format) (path : Path) : Element → List Leaf
  | ⟨name, tag, attributes, text, tail, children⟩ =>
    match format.atomDepth? tag with
    | some depth => format.leavesOf path depth ⟨name, tag, attributes, text, tail, children⟩
    | none => leavesInList format path 0 children

def leavesInList (format : Format) (path : Path) (index : Nat) : List Element → List Leaf
  | [] => []
  | e :: rest => leavesIn format (path ++ [index]) e ++ leavesInList format path (index + 1) rest

end

/-- The leaves of a document in order. The root is never one of them. -/
def leaves (format : Format) (root : Element) : List Leaf :=
  format.leavesInList [] 0 root.children

end Format

namespace Template.Lexer

/-- Feed the texts of leaves one after the other. -/
def feedLeaves (lexer : Lexer) (leaves : List Leaf) : Except Error Lexer :=
  leaves.foldlM (fun lexer leaf => lexer.feed (.ofLeaf leaf.text leaf.path leaf.atom)) lexer

end Template.Lexer

/-- A line that is being drawn up. -/
structure Draft where
  /-- The entries up to the last tag. -/
  settled : Line := []
  /-- The entries since the last tag. -/
  recent : Line := []
  /-- The index of the last leaf. -/
  index : Nat := 0
  lastPath : Option Path := none
  hasTag : Bool := false
  /-- Whether the last tag takes the blanks behind it away. -/
  trimsNext : Bool := false
  deriving Inhabited

namespace Draft

/-- All entries. -/
def line (draft : Draft) : Line :=
  draft.settled ++ draft.recent

/-- Add an entry. A leaf that differs from the last one gets the next index. -/
def push (draft : Draft) (span : Span) (text : List Char) : Draft :=
  let index := if draft.lastPath = some span.path then draft.index else draft.index + 1
  { draft with
    recent := draft.recent ++ [(.ofSpan span index, String.ofList text)]
    index := index
    lastPath := some span.path }

/-- Add the text of a span, without its leading blanks if the last tag takes
them away. An entry that loses some is no longer constant. -/
def pushText (draft : Draft) (span : Span) (text : List Char) : Draft :=
  if draft.trimsNext then
    let trimmed := Text.trimStart text
    let span := if trimmed.length = text.length then span else { span with isConstant := false }
    { draft.push span trimmed with trimsNext := trimmed.isEmpty }
  else draft.push span text

/-- Take away the blanks at the end of entries, the last one first, as far as
they hold nothing else. An entry that loses some is no longer constant. -/
def trimBack : Line → Line
  | [] => []
  | (pointer, text) :: rest =>
    let trimmed := Text.trimEnd text.toList
    let entry :=
      if trimmed.length = text.toList.length then (pointer, text)
      else ({ pointer with isConstant := false }, String.ofList trimmed)
    if trimmed.isEmpty then entry :: trimBack rest else entry :: rest

/-- Whether a tag takes the blanks in front of it away. -/
def trimsBefore (tag : List Char) : Bool :=
  ['{', '{', '-'].isPrefixOf tag || ['{', '%', '-'].isPrefixOf tag || ['{', '#', '-'].isPrefixOf tag

/-- Whether a tag takes the blanks behind it away. -/
def trimsAfter (tag : List Char) : Bool :=
  ['-', '}', '}'].isSuffixOf tag || ['-', '%', '}'].isSuffixOf tag || ['-', '#', '}'].isSuffixOf tag

/-- The atoms of spans in order, each once. -/
def atoms (spans : List Span) : List Path :=
  spans.foldl (fun found span => if span.atom ∈ found then found else found ++ [span.atom]) []

/-- Add the spans of a tag. The first one carries its whole text, the others
are left as points at their ends. -/
def pushTagSpans (draft : Draft) (text : List Char) (spans : List Span) : Draft :=
  match spans with
  | [] => draft
  | span :: rest =>
    rest.foldl
      (fun draft span =>
        draft.push
          { span with offset := span.offset + span.length, length := 0, isConstant := false } [])
      (draft.push { span with isConstant := false } text)

/-- Add a tag, which must lie in one atom. -/
def pushTag (draft : Draft) (tag : Tagged) : Except Error Draft :=
  if 1 < (atoms tag.spans).length then .error (.splitTerminal tag.text (atoms tag.spans))
  else
    let text := tag.text.toList
    let recent :=
      if trimsBefore text then (trimBack draft.recent.reverse).reverse else draft.recent
    let pushed := { draft with recent := recent }.pushTagSpans text tag.spans
    .ok { pushed with
      settled := pushed.line
      recent := []
      hasTag := true
      trimsNext := trimsAfter text }

/-- Add what a lexer found. -/
def step (draft : Draft) : Template.Event → Except Error Draft
  | (.text, tagged) =>
    .ok (tagged.pieces.foldl (fun draft (span, text) => draft.pushText span text) draft)
  | (.terminal, tag) => draft.pushTag tag

end Draft

namespace Template.Token

/-- The events that leaves give rise to. -/
def ofLeaves (leaves : List Leaf) : Except Error (List Event) := do
  return (← Lexer.feedLeaves {} leaves).close.read.1

end Template.Token

/-- The line of a document, and whether it holds any tag. -/
def flatten (format : Format) (root : Element) : Except Error (Content × Line) := do
  let draft ← (← Template.Token.ofLeaves (format.leaves root)).foldlM Draft.step {}
  return (if draft.hasTag then .template else .plaintext, draft.line)

end Infill
