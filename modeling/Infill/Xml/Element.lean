import Infill.Error
import Infill.Text.Split

/-!
Elements of a document. An element owns the text before its first child and
the text behind its own end. Names are kept as they are written, beside their
expanded form `{namespace}local`, so that a tree is printed with the names of
the document it came from.
-/
namespace Infill.Xml

structure Attribute where
  /-- The name as written, such as `xml:space`. -/
  name : String
  /-- The expanded name. -/
  key : String
  value : String
  deriving DecidableEq, Inhabited, Repr

structure Element where
  /-- The name as written, such as `w:t`. -/
  name : String
  /-- The expanded name. -/
  tag : String
  attributes : List Attribute
  /-- The text before the first child. -/
  text : Option String
  /-- The text behind the end of the element. -/
  tail : Option String
  children : List Element
  deriving Inhabited, Repr

namespace Element

mutual

/-- Equality of trees is decided from the leaves up. -/
def decideEq : (left right : Element) → Decidable (left = right)
  | ⟨name, tag, attributes, text, tail, children⟩,
    ⟨name', tag', attributes', text', tail', children'⟩ =>
    match decideEqList children children' with
    | isTrue same =>
      decidable_of_iff
        (name = name' ∧ tag = tag' ∧ attributes = attributes' ∧ text = text' ∧ tail = tail')
        (by subst same; simp)
    | isFalse different => isFalse (by simp [different])

def decideEqList : (left right : List Element) → Decidable (left = right)
  | [], [] => isTrue rfl
  | [], _ :: _ => isFalse (by simp)
  | _ :: _, [] => isFalse (by simp)
  | a :: left, b :: right =>
    match decideEq a b, decideEqList left right with
    | isTrue head, isTrue rest => isTrue (by rw [head, rest])
    | isFalse head, _ => isFalse (by simp [head])
    | _, isFalse rest => isFalse (by simp [rest])

end

instance : DecidableEq Element := decideEq

mutual

/-- The number of elements of a tree. -/
def count : Element → Nat
  | ⟨_, _, _, _, _, children⟩ => countList children + 1

def countList : List Element → Nat
  | [] => 0
  | e :: rest => count e + countList rest

end

/-- An element with a name and nothing else. -/
def named (name tag : String) : Element :=
  ⟨name, tag, [], none, none, []⟩

/-- Add to a text that may be absent. -/
def addText (text : Option String) (more : List Char) : Option String :=
  some (text.getD "" ++ String.ofList more)

/-- The element without its children. -/
def shell (e : Element) : Element :=
  { e with children := [] }

/-- The namespace of an expanded name, which stands between braces. -/
def namespace? (e : Element) : Option String :=
  match e.tag.toList with
  | '{' :: rest => (Text.splitAt? '}' rest).map fun (uri, _) => String.ofList uri
  | _ => none

/-- The expanded name without its namespace. -/
def localName (e : Element) : String :=
  String.ofList (e.tag.toList.reverse.takeWhile (· != '}')).reverse

/-- The expanded form of a local name in a namespace. -/
def expanded (uri localPart : String) : String :=
  "\x7b" ++ uri ++ "\x7d" ++ localPart

/-- A new element in the namespace of `e`, written with the prefix of `e`. -/
def createLike (e : Element) (localPart : String) : Element :=
  let name := match Text.splitAt? ':' e.name.toList with
    | some (lead, _) => String.ofList lead ++ ":" ++ localPart
    | none => localPart
  let tag := match e.namespace? with
    | some uri => expanded uri localPart
    | none => localPart
  named name tag

/-- The value of an attribute, looked up by its expanded name. -/
def get? (e : Element) (key : String) : Option String :=
  (e.attributes.find? (·.key == key)).map (·.value)

/-- Give the first attribute called `key` a value. -/
def replaceValue (key value : String) : List Attribute → List Attribute
  | [] => []
  | a :: rest =>
    if a.key = key then { a with value := value } :: rest
    else a :: replaceValue key value rest

/-- Set an attribute. One that is there keeps its place and its written name,
a new one goes behind the others. -/
def set (e : Element) (name key value : String) : Element :=
  if e.attributes.any (·.key == key) then
    { e with attributes := replaceValue key value e.attributes }
  else { e with attributes := e.attributes ++ [⟨name, key, value⟩] }

/-- Remove every attribute called `key`. -/
def remove (e : Element) (key : String) : Element :=
  { e with attributes := e.attributes.filter (·.key != key) }

/-- The failure to find a child of `e` on a path. -/
def missing (e : Element) (path : Path) : Error :=
  .noElement path e.name e.children.length

/-- One child. A failure names the child by its index alone. -/
def child (e : Element) (index : Nat) : Except Error Element :=
  match e.children[index]? with
  | some found => .ok found
  | none => .error (e.missing [index])

/-- Follow `path` below an element that was itself reached by `walked`. -/
def findFrom (walked : Path) (e : Element) : Path → Except Error Element
  | [] => .ok e
  | index :: path =>
    match e.children[index]? with
    | some found => findFrom (walked ++ [index]) found path
    | none => .error (e.missing (walked ++ [index]))

/-- The element at a path. A failure names the path up to the missing step. -/
def find (e : Element) (path : Path) : Except Error Element :=
  e.findFrom [] path

/-- Change the element at `path` below an element reached by `walked`. -/
def updateFrom (change : Element → Except Error Element) (walked : Path) (e : Element) :
    Path → Except Error Element
  | [] => change e
  | index :: path =>
    match e.children[index]? with
    | some found => do
      let changed ← updateFrom change (walked ++ [index]) found path
      return { e with children := e.children.set index changed }
    | none => .error (e.missing (walked ++ [index]))

/-- Change the element at a path, leaving the rest of the tree as it is. -/
def update (e : Element) (path : Path) (change : Element → Except Error Element) :
    Except Error Element :=
  e.updateFrom change [] path

end Element

end Infill.Xml
