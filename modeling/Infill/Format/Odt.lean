import Infill.Xml.Element

/-!
Text documents of OpenDocument. A paragraph or a heading is an atom of its own,
and its text is what stands before its first child.
-/
namespace Infill.Odt

open Infill.Xml

def textNamespace : String :=
  "urn:oasis:names:tc:opendocument:xmlns:text:1.0"

/-- The elements that carry text, with the level of their atom. -/
def textNodes : List (String × Int) :=
  [(Element.expanded textNamespace "p", 0), (Element.expanded textNamespace "h", 0)]

/-- The entries of an archive that hold templates. -/
def parts : List String :=
  ["content.xml", "styles.xml"]

/-- The text of a paragraph. -/
def texts (e : Element) : List (Path × String) :=
  [([], e.text.getD "")]

/-- A chunk of text as it is written into a paragraph. -/
inductive Piece
  | text (content : List Char)
  /-- A tab or a line feed. -/
  | glyph (c : Char)
  /-- Two or more spaces. -/
  | spaces (count : Nat)
  deriving DecidableEq, Inhabited, Repr

/-- Add a character in front of the first text. -/
def consText (c : Char) : List Piece → List Piece
  | .text content :: rest => .text (c :: content) :: rest
  | pieces => .text [c] :: pieces

/-- The pieces of a chunk, behind `pending` spaces that were not placed yet. -/
def piecesFrom : (pending : Nat) → List Char → List Piece
  | pending, [] => place pending []
  | pending, c :: text =>
    if c = ' ' then piecesFrom (pending + 1) text
    else if c = '\t' ∨ c = '\n' then place pending (.glyph c :: piecesFrom 0 text)
    else place pending (consText c (piecesFrom 0 text))
where
  /-- Put spaces in front. A single one is text. -/
  place (pending : Nat) (pieces : List Piece) : List Piece :=
    match pending with
    | 0 => pieces
    | 1 => consText ' ' pieces
    | count => .spaces count :: pieces

/-- The pieces of a chunk. -/
def pieces (chunk : List Char) : List Piece :=
  piecesFrom 0 chunk

/-- What was written into a paragraph in front of its children. -/
structure Lead where
  text : Option String := none
  elements : List Element := []
  deriving Inhabited

namespace Lead

/-- Write text behind everything. -/
def write (lead : Lead) (content : List Char) : Lead :=
  match lead.elements.getLast? with
  | some last =>
    let last := { last with tail := Element.addText last.tail content }
    { lead with elements := lead.elements.dropLast ++ [last] }
  | none => { lead with text := Element.addText lead.text content }

/-- Put an element behind everything. -/
def push (lead : Lead) (e : Element) : Lead :=
  { lead with elements := lead.elements ++ [e] }

/-- Write a piece. Of several spaces the first is text and an element counts
the others. -/
def add (paragraph : Element) (lead : Lead) : Piece → Lead
  | .text content => lead.write content
  | .glyph c => lead.push (paragraph.createLike (if c = '\t' then "tab" else "line-break"))
  | .spaces count =>
    let e := paragraph.createLike "s"
    let counter := paragraph.createLike "c"
    (lead.write [' ']).push
      (if 2 < count then e.set counter.name counter.tag (count - 1).repr else e)

end Lead

/-- Give a paragraph the text of the chunks, in front of its children. -/
def refill (paragraph : Element) (chunks : List String) : Element :=
  let lead := (chunks.flatMap fun chunk => pieces chunk.toList).foldl (Lead.add paragraph) {}
  { paragraph with text := lead.text, children := lead.elements ++ paragraph.children }

end Infill.Odt
