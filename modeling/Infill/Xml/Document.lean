import Infill.Xml.Name
import Infill.Xml.Token

/-!
Documents: one root element, and the declaration if the text has one. A
document is assembled from tokens; elements that are open wait on a stack until
their end tag comes.
-/
namespace Infill.Xml

structure Document where
  declaration : Option Declaration
  root : Element
  deriving DecidableEq, Inhabited, Repr

/-- A document of which a part was read. -/
structure Assembly where
  declaration : Option Declaration := none
  /-- The open elements with the scopes inside them, innermost first. -/
  opened : List (Element × Scope) := []
  root : Option Element := none
  deriving Inhabited

namespace Assembly

/-- Give an element character data, which goes behind its last child. -/
def addCharacters (e : Element) (content : List Char) : Element :=
  match e.children.getLast? with
  | some last =>
    let last := { last with tail := Element.addText last.tail content }
    { e with children := e.children.dropLast ++ [last] }
  | none => { e with text := Element.addText e.text content }

/-- The scope in which the next element stands. -/
def scope (part : Assembly) : Scope :=
  match part.opened with
  | (_, scope) :: _ => scope
  | [] => []

/-- Put a finished element into the innermost open one. With none open it is
the root, of which there is one. -/
def close (part : Assembly) (e : Element) : Except Error Assembly :=
  match part.opened, part.root with
  | (parent, scope) :: rest, _ =>
    .ok { part with opened := ({ parent with children := parent.children ++ [e] }, scope) :: rest }
  | [], none => .ok { part with root := some e }
  | [], some _ => .error (.xml .multipleRoots)

/-- Read one token. Character data outside the root is no part of the tree. -/
def step (part : Assembly) : Token → Except Error Assembly
  | .declaration declaration => .ok { part with declaration := some declaration }
  | .start name attributes isEmpty =>
    let (e, inner) := openElement part.scope name attributes
    if isEmpty then part.close e else .ok { part with opened := (e, inner) :: part.opened }
  | .finish name =>
    match part.opened with
    | (e, _) :: rest =>
      if e.name = name then { part with opened := rest }.close e else .error (.xml .malformed)
    | [] => .error (.xml .malformed)
  | .characters content =>
    match part.opened with
    | (e, scope) :: rest => .ok { part with opened := (addCharacters e content, scope) :: rest }
    | [] => .ok part
  | .skipped => .ok part
  | .malformed => .error (.xml .malformed)

/-- The document, once every token was read. -/
def finish (part : Assembly) : Except Error Document :=
  match part.opened, part.root with
  | _ :: _, _ => .error (.xml .unclosedElement)
  | [], none => .error (.xml .noRoot)
  | [], some root => .ok ⟨part.declaration, root⟩

end Assembly

namespace Document

/-- The document that tokens make up. -/
def ofTokens (tokens : List Token) : Except Error Document := do
  (← tokens.foldlM Assembly.step {}).finish

/-- Read a document. A byte order mark in front is passed over. -/
def parse (source : String) : Except Error Document :=
  match source.toList with
  | '\uFEFF' :: text => ofTokens (Token.all text)
  | text => ofTokens (Token.all text)

end Document

end Infill.Xml
