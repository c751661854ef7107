import Infill.Text.Blank
import Infill.Xml.Name

/-!
Word processing documents of Office Open XML. Text lies in runs, which editors
split freely, so a run's atom is the element around it. A run holds text
elements, tabs and breaks; word art in a run's drawing carries its text in an
attribute.
-/
namespace Infill.Docx

open Infill.Xml

def wordNamespace : String :=
  "http://schemas.openxmlformats.org/wordprocessingml/2006/main"

def mathNamespace : String :=
  "http://schemas.openxmlformats.org/officeDocument/2006/math"

/-- The expanded name of a word processing element. -/
def word (localPart : String) : String :=
  Element.expanded wordNamespace localPart

/-- The expanded name of an element of a formula. -/
def math (localPart : String) : String :=
  Element.expanded mathNamespace localPart

/-- The expanded name of the element that carries word art. -/
def textPath : String :=
  Element.expanded "urn:schemas-microsoft-com:vml" "textpath"

/-- The elements that carry text, with the level of their atom. -/
def textNodes : List (String × Int) :=
  [(word "r", -1), (textPath, 0), (math "r", -1)]

/-- The elements that only format what they stand in. -/
def properties : List String :=
  [word "pPr", word "rPr", math "rPr"]

/-- The entries of an archive that hold templates. -/
def parts : List String :=
  ["word/document.xml", "word/header*", "word/footer*", "word/footnotes.xml", "word/endnotes.xml"]

/-- Whether an element holds the text of a run. -/
def isText (tag : String) : Bool :=
  tag == word "t" || tag == math "t"

/-- The control character that an element of a run stands for. -/
def glyph? (tag : String) : Option Char :=
  if tag = word "tab" then some '\t'
  else if tag = word "br" ∨ tag = word "cr" then some '\n'
  else none

/-- The text of word art. -/
def artText (e : Element) : String :=
  (e.get? "string").getD ""

mutual

/-- The word art in an element that is reached by `path`. -/
def artIn (path : Path) : Element → List (Path × String)
  | ⟨name, tag, attributes, text, tail, children⟩ =>
    if tag = textPath then [(path, artText ⟨name, tag, attributes, text, tail, []⟩)]
    else artInList path 0 children

def artInList (path : Path) (index : Nat) : List Element → List (Path × String)
  | [] => []
  | e :: rest => artIn (path ++ [index]) e ++ artInList path (index + 1) rest

end

/-- The texts of a run's child at an index. -/
def childTexts (child : Element) (index : Nat) : List (Path × String) :=
  if isText child.tag then [([index], child.text.getD "")]
  else match glyph? child.tag with
    | some c => [([index], c.toString)]
    | none => artIn [index] child

/-- The texts of an element that carries text, each with its place below it. -/
def texts (e : Element) : List (Path × String) :=
  if e.tag = textPath then [([], artText e)]
  else (e.children.zipIdx.map fun (child, index) => childTexts child index).flatten

/-- A text as it is divided among the elements of a run. -/
inductive Piece
  | text (content : List Char)
  | glyph (c : Char)
  deriving DecidableEq, Inhabited, Repr

/-- Add a character in front of the first text. -/
def consText (c : Char) : List Piece → List Piece
  | .text content :: rest => .text (c :: content) :: rest
  | pieces => .text [c] :: pieces

/-- The pieces of a text: tabs and line feeds, and the text between them where
there is any. -/
def pieces : List Char → List Piece
  | [] => []
  | c :: text => if c = '\t' ∨ c = '\n' then .glyph c :: pieces text else consText c (pieces text)

/-- The element that stands for a control character in a run. It is always a
word processing element, also in a formula, where it is written with the prefix
that the first such element of the run has. -/
def glyphElement (run : Element) (c : Char) : Element :=
  let localPart := if c = '\t' then "tab" else "br"
  if run.namespace? = some wordNamespace then run.createLike localPart
  else
    let lead := match run.children.find? fun child => child.namespace? == some wordNamespace with
      | some child => ((nameParts child.name).1).getD "w"
      | none => "w"
    .named (lead ++ ":" ++ localPart) (word localPart)

/-- Mark the blanks at the ends of a text as meant. -/
def preserve (e : Element) : Element :=
  if isText e.tag && Text.isPadded (e.text.getD "").toList then
    e.set "xml:space" (Element.expanded xmlNamespace "space") "preserve"
  else e

/-- A run that takes text. The children that are written stand from `first` up to
`next`. -/
structure Sink where
  run : Element
  first : Nat
  /-- Where the next element goes. -/
  next : Nat
  /-- The text element that takes more characters. -/
  current : Option Nat

namespace Sink

/-- Make room for a text at the child `node` of a run. A text element stays, without
its text, a glyph gives way. -/
def open? (run : Element) (node : Nat) (e : Element) : Option Sink :=
  if isText e.tag then
    some ⟨{ run with children := run.children.set node { e with text := none } }, node, node + 1,
      some node⟩
  else if (glyph? e.tag).isSome then
    some ⟨{ run with children := run.children.eraseIdx node }, node, node, none⟩
  else none

/-- Put an element behind those that were written. -/
def insert (sink : Sink) (e : Element) : Sink :=
  { sink with
    run := { sink.run with children := sink.run.children.insertIdx sink.next e }
    next := sink.next + 1 }

/-- Have a text element that takes characters, with its index. -/
def target (sink : Sink) : Sink × Nat :=
  match sink.current with
  | some index => (sink, index)
  | none => ({ sink.insert (sink.run.createLike "t") with current := some sink.next }, sink.next)

/-- Add characters to the text element that takes them. -/
def write (sink : Sink) (text : List Char) : Sink :=
  let (sink, index) := sink.target
  { sink with
    run := { sink.run with
      children := sink.run.children.modify index fun e =>
        { e with text := Element.addText e.text text } } }

/-- Take in a piece of a chunk. Text behind a glyph goes to a new text element. -/
def put (sink : Sink) : Piece → Sink
  | .text content => sink.write content
  | .glyph c => { sink.insert (glyphElement sink.run c) with current := none }

/-- Take in a chunk. -/
def feed (sink : Sink) (chunk : String) : Sink :=
  (pieces chunk.toList).foldl put sink

/-- The run when no more chunks come. -/
def close (sink : Sink) : Element :=
  let children := sink.run.children
  { sink.run with
    children := children.take sink.first
      ++ ((children.take sink.next).drop sink.first).map preserve
      ++ children.drop sink.next }

end Sink

/-- Give the child `node` of a run the text of the chunks, one after the other. -/
def write? (run : Element) (node : Nat) (chunks : List String) : Option Element :=
  match run.children[node]? with
  | none => none
  | some e =>
    if e.tag = textPath then
      some { run with
        children := run.children.set node
          (e.set "string" "string" (String.ofList (chunks.map String.toList).flatten)) }
    else (Sink.open? run node e).map fun sink => (chunks.foldl Sink.feed sink).close

end Infill.Docx
