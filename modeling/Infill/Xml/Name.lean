import Infill.Xml.Element

/-!
Resolution of written names. A name is a prefix and a local part divided by
the first colon; the declarations in scope tell which namespace a prefix stands
for. The empty prefix is the default namespace.
-/
namespace Infill.Xml

/-- The namespace of every name with the prefix `xml`. -/
def xmlNamespace : String :=
  "http://www.w3.org/XML/1998/namespace"

/-- What prefixes stand for, the declaration in force first. -/
abbrev Scope := List (String × String)

/-- The prefix, if there is one, and the local part of a written name. -/
def nameParts (name : String) : Option String × String :=
  match Text.splitAt? ':' name.toList with
  | some (lead, rest) => (some (String.ofList lead), String.ofList rest)
  | none => (none, name)

namespace Scope

/-- The namespace a prefix stands for. Declaring it empty takes it away. -/
def namespace? (scope : Scope) (lead : String) : Option String :=
  match scope.lookup lead with
  | some uri => if uri.isEmpty then none else some uri
  | none => none

/-- The expanded form of a name whose prefix is looked up, as it is written
when the prefix stands for nothing. -/
def expand (scope : Scope) (lead name localPart : String) : String :=
  if lead = "xml" then Element.expanded xmlNamespace localPart
  else match scope.namespace? lead with
    | some uri => Element.expanded uri localPart
    | none => name

/-- The expanded name of an element. -/
def elementTag (scope : Scope) (name : String) : String :=
  match nameParts name with
  | (some lead, localPart) => scope.expand lead name localPart
  | (none, _) => scope.expand "" name name

/-- The prefix an attribute declares, empty for the default namespace. -/
def declared? (name : String) : Option String :=
  if name = "xmlns" then some ""
  else (Text.after? "xmlns:".toList name.toList).map String.ofList

/-- The expanded name of an attribute. The default namespace does not reach
attributes, and declarations keep the name they are written with. -/
def attributeKey (scope : Scope) (name : String) : String :=
  if (declared? name).isSome then name
  else match nameParts name with
    | (some lead, localPart) => scope.expand lead name localPart
    | (none, _) => name

/-- The scope inside an element with these written attributes. Of two
declarations of one prefix the later is in force. -/
def enter (scope : Scope) (attributes : List (String × String)) : Scope :=
  (attributes.filterMap fun (name, value) => (declared? name).map fun lead => (lead, value)).reverse
    ++ scope

end Scope

/-- The element that a start tag opens, and the scope inside it. -/
def openElement (scope : Scope) (name : String) (attributes : List (String × String)) :
    Element × Scope :=
  let inner := scope.enter attributes
  (⟨name, inner.elementTag name,
    attributes.map fun (name, value) => ⟨name, inner.attributeKey name, value⟩,
    none, none, []⟩, inner)

end Infill.Xml
