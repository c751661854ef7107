import Infill.Format.Docx
import Infill.Format.Odt

/-!
The document formats: which elements carry text, how it is taken out of them,
and how a text is put back.
-/
namespace Infill

open Infill.Xml

inductive Format
  | docx
  | odt
  deriving DecidableEq, Inhabited, Repr

namespace Format

def name : Format → String
  | docx => "docx"
  | odt => "odt"

/-- The format with a name, in either case. -/
def ofName? (name : String) : Option Format :=
  match name.toList.map Char.toLower with
  | ['d', 'o', 'c', 'x'] => some docx
  | ['o', 'd', 't'] => some odt
  | _ => none

/-- The elements that carry text. The atom of such an element is so many levels
away from it. -/
def textNodes : Format → List (String × Int)
  | docx => Docx.textNodes
  | odt => Odt.textNodes

/-- How far the atom of an element that carries text is away from it. -/
def atomDepth? (format : Format) (tag : String) : Option Int :=
  format.textNodes.lookup tag

/-- Whether an element only formats what it stands in. -/
def isProperty : Format → String → Bool
  | docx, tag => Docx.properties.contains tag
  | odt, _ => false

/-- The names of the archive entries that hold templates. A star at the end
stands for the rest of a name. -/
def parts : Format → List String
  | docx => Docx.parts
  | odt => Odt.parts

/-- Whether an archive entry holds a template. -/
def isPart (format : Format) (entry : String) : Bool :=
  format.parts.any fun part =>
    if part.toList.getLast? = some '*' then
      part.toList.dropLast.isPrefixOf entry.toList && ".xml".toList.isSuffixOf entry.toList
    else entry == part

/-- The refusal of an element that carries no text. -/
def unsupported (format : Format) (e : Element) : Error :=
  .unsupportedElement e.tag (format.textNodes.map Prod.fst)

/-- The texts of an element that carries text, each with its place below it. -/
def texts : Format → Element → List (Path × String)
  | docx, e => Docx.texts e
  | odt, e => Odt.texts e

/-- The texts of an element, which must be one that carries text. -/
def convert (format : Format) (e : Element) : Except Error (List (Path × String)) :=
  if (format.atomDepth? e.tag).isSome then .ok (format.texts e) else .error (format.unsupported e)

/-- Give the child `node` of an element the text of the chunks. -/
def write (format : Format) (parent : Element) (node : Nat) (chunks : List String) :
    Except Error Element := do
  let e ← parent.child node
  match format with
  | docx =>
    match Docx.write? parent node chunks with
    | some written => .ok written
    | none => .error (format.unsupported e)
  | odt =>
    if (format.atomDepth? e.tag).isSome then
      .ok { parent with children := parent.children.set node (Odt.refill e chunks) }
    else .error (format.unsupported e)

end Format

/-- The atom of an element that carries text, so many levels away. -/
def Path.atom (path : Path) (depth : Int) : Path :=
  path.take (path.length + depth).toNat

end Infill
