import Infill.Xml.Document

/-!
The text of documents. Characters that could read as markup are escaped in
text and in attribute values; an element without children and without text is
written as one tag.
-/
namespace Infill.Xml

/-- An attribute behind the blank that divides it from what precedes. -/
def Attribute.print (a : Attribute) : List Char :=
  ' ' :: a.name.toList ++ '=' :: '"' :: escape a.value.toList ++ ['"']

/-- Character data, absent or not. -/
def printText (text : Option String) : List Char :=
  escape (text.getD "").toList

namespace Element

/-- The name and the attributes of an element as they stand in its tag. -/
def printHead (e : Element) : List Char :=
  '<' :: e.name.toList ++ e.attributes.flatMap Attribute.print

mutual

/-- An element without the text behind it. -/
def print : Element → List Char
  | ⟨name, tag, attributes, text, tail, children⟩ =>
    let head := printHead ⟨name, tag, attributes, text, tail, []⟩
    if children.isEmpty && (text.getD "").isEmpty then head ++ ['/', '>']
    else
      head ++ '>' :: printText text ++ printList children ++ '<' :: '/' :: name.toList ++ ['>']

/-- Elements each with the text behind it. -/
def printList : List Element → List Char
  | [] => []
  | e :: rest => print e ++ printText e.tail ++ printList rest

end

end Element

/-- A declaration with its values as they are. -/
def Declaration.print (d : Declaration) : List Char :=
  let item (name : String) (value : String) : String := " " ++ name ++ "=\"" ++ value ++ "\""
  let optional (name : String) (value : Option String) : String :=
    (value.map (item name)).getD ""
  ("<?xml" ++ item "version" d.version ++ optional "encoding" d.encoding
    ++ optional "standalone" d.standalone ++ "?>").toList

/-- The text of a document. A declaration stands on a line of its own, and the
text behind the root is not written. -/
def Document.print (document : Document) : String :=
  let head := match document.declaration with
    | some declaration => declaration.print ++ ['\n']
    | none => []
  String.ofList (head ++ document.root.print)

/-- The text of an element as the root of a document without declaration. -/
def Element.markup (e : Element) : String :=
  Document.print ⟨none, e⟩

end Infill.Xml
