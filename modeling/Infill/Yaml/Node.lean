import Infill.Yaml.Layout
import Infill.Yaml.Scalar

/-!
The tree of a YAML document, read from its tokens, and the data it stands for.
-/
namespace Infill.Yaml

inductive Node
  | scalar (tag : Option String) (isPlain : Bool) (text : String)
  | list (tag : Option String) (items : List Node)
  | mapping (tag : Option String) (entries : List (Node × Node))
  deriving Inhabited, Repr

namespace Node

/-- What stands where a node is left out. -/
def absent (tag : Option String) : Node :=
  .scalar tag true ""

/-- Tags that are local to a document. -/
def isLocal (tag : Option String) : Bool :=
  tag.any fun tag => tag.toList.head? == some '!'

/-- The text of a key, which is a scalar. -/
def keyText? : Node → Option String
  | .scalar _ _ text => some text
  | _ => none

mutual

/-- The data of a node whose lists and mappings nest at most `depth` deep. -/
def data? : (depth : Nat) → Node → Option Data
  | _, .scalar tag isPlain text => scalarData? tag isPlain text.toList
  | 0, _ => none
  | depth + 1, .list tag items =>
    if isLocal tag then none else (itemsData? depth items).map .list
  | depth + 1, .mapping tag entries =>
    if isLocal tag then none else (entriesData? depth entries).map .ofEntries

def itemsData? : (depth : Nat) → List Node → Option (List Data)
  | _, [] => some []
  | depth, item :: items =>
    (item.data? depth).bind fun first => (itemsData? depth items).map (first :: ·)

def entriesData? : (depth : Nat) → List (Node × Node) → Option (List (String × Data))
  | _, [] => some []
  | depth, (key, value) :: entries =>
    key.keyText?.bind fun key =>
      (value.data? depth).bind fun value =>
        (entriesData? depth entries).map ((key, value) :: ·)

end

end Node

/-- Tokens that are partly read, the handles of the document, and its anchors.
An anchor has no node while that is still being read. -/
structure Progress where
  tokens : List Token
  handles : List (String × String) := []
  anchors : List (String × Option Node) := []
  deriving Inhabited, Repr

abbrev Reader := StateT Progress Option

namespace Reader

def peek? : Reader (Option Token) := do
  return (← get).tokens.head?

def skip : Reader Unit :=
  modify fun progress => { progress with tokens := progress.tokens.drop 1 }

/-- Take the next token if it is this one. -/
def skipIf (token : Token) : Reader Bool := do
  if (← peek?) = some token then
    skip
    return true
  else return false

/-- The next token has to be this one. -/
def expect (token : Token) : Reader Unit := do
  guard (← skipIf token)

/-- Whether the next token is one of several. -/
def isNext (tokens : List Token) : Reader Bool := do
  return (← peek?).any tokens.contains

/-- The handles that every document has. -/
def defaultHandles : List (String × String) :=
  [("!", "!"), ("!!", coreSpace)]

/-- The full text of a tag. -/
def fullTag (handle rest : String) : Reader String := do
  if handle.isEmpty then return rest
  else
    let meaning ← ((← get).handles ++ defaultHandles).lookup handle
    return meaning ++ rest

/-- An anchor and a tag in front of a node, in either order. -/
def properties : Reader (Option String × Option String) := do
  match ← peek? with
  | some (.anchor name) =>
    skip
    match ← peek? with
    | some (.tag handle rest) =>
      skip
      return (some name, some (← fullTag handle rest))
    | _ => return (some name, none)
  | some (.tag handle rest) =>
    skip
    let tag ← fullTag handle rest
    match ← peek? with
    | some (.anchor name) =>
      skip
      return (some name, some tag)
    | _ => return (none, some tag)
  | _ => return (none, none)

def bind (anchor : Option String) (node : Option Node) : Reader Unit :=
  match anchor with
  | some name => modify fun progress =>
      { progress with anchors := (name, node) :: progress.anchors }
  | none => pure ()

/-- The node of an anchor that was read before. -/
def anchored (name : String) : Reader Node := do
  let node ← (← get).anchors.lookup name
  let node ← node
  return node

/-- What may stand at the place of a node: whether indented lists and mappings
may, and lists that are no deeper than the key in front of them. -/
structure Place where
  isBlock : Bool
  allowsShallowList : Bool
  deriving DecidableEq, Inhabited, Repr

def inBlock : Place := ⟨true, false⟩

def behindKey : Place := ⟨true, true⟩

def inFlow : Place := ⟨false, false⟩

mutual

/-- Read a node, in at most so many steps as `budget`. -/
def node (place : Place) : (budget : Nat) → Reader Node
  | 0 => failure
  | budget + 1 => do
    match ← peek? with
    | some (.alias name) =>
      skip
      anchored name
    | _ =>
      let (anchor, tag) ← properties
      bind anchor none
      let found ← content place tag (anchor.isSome || tag.isSome) budget
      bind anchor (some found)
      return found

/-- Read a node behind its anchor and tag. -/
def content (place : Place) (tag : Option String) (mayBeAbsent : Bool) :
    (budget : Nat) → Reader Node
  | 0 => failure
  | budget + 1 => do
    match ← peek? with
    | some (.scalar isPlain text) =>
      skip
      if tag = some "!" then return .scalar none isPlain text
      else return .scalar tag isPlain text
    | some (.open bracket) =>
      skip
      if bracket = '[' then return .list tag (← flowItems true budget)
      else return .mapping tag (← flowEntries true budget)
    | some .item =>
      if place.allowsShallowList then return .list tag (← shallowItems budget)
      else if mayBeAbsent then return .absent tag
      else failure
    | some .listStart =>
      if place.isBlock then
        skip
        return .list tag (← blockItems budget)
      else if mayBeAbsent then return .absent tag
      else failure
    | some .mappingStart =>
      if place.isBlock then
        skip
        return .mapping tag (← blockEntries budget)
      else if mayBeAbsent then return .absent tag
      else failure
    | _ => if mayBeAbsent then return .absent tag else failure

/-- Read a node unless one of the tokens is next that may follow its place. -/
def nodeBefore (place : Place) (ends : List Token) : (budget : Nat) → Reader Node
  | 0 => failure
  | budget + 1 => do
    if ← isNext ends then return .absent none else node place budget

/-- The items of an indented list. -/
def blockItems : (budget : Nat) → Reader (List Node)
  | 0 => failure
  | budget + 1 => do
    if ← skipIf .item then
      let first ← nodeBefore inBlock [.item, .dedent] budget
      return first :: (← blockItems budget)
    else
      expect .dedent
      return []

/-- The items of a list that is no deeper than the key in front of it. -/
def shallowItems : (budget : Nat) → Reader (List Node)
  | 0 => failure
  | budget + 1 => do
    if ← skipIf .item then
      let first ← nodeBefore inBlock [.item, .key, .value, .dedent] budget
      return first :: (← shallowItems budget)
    else return []

/-- The entries of an indented mapping. -/
def blockEntries : (budget : Nat) → Reader (List (Node × Node))
  | 0 => failure
  | budget + 1 => do
    if ← skipIf .key then
      let key ← nodeBefore behindKey [.key, .value, .dedent] budget
      let value ←
        if ← skipIf .value then nodeBefore behindKey [.key, .value, .dedent] budget
        else pure (.absent none)
      return (key, value) :: (← blockEntries budget)
    else
      expect .dedent
      return []

/-- The items of a list in brackets. An item with a colon is a mapping of its
own. -/
def flowItems (isFirst : Bool) : (budget : Nat) → Reader (List Node)
  | 0 => failure
  | budget + 1 => do
    if ← skipIf (.close ']') then return []
    else
      if !isFirst then expect .comma
      if ← skipIf (.close ']') then return []
      else if ← skipIf .key then
        let entry ← flowPair budget
        return .mapping none [entry] :: (← flowItems false budget)
      else
        let first ← node inFlow budget
        return first :: (← flowItems false budget)

/-- The one entry of a mapping that is an item of a list in brackets. A colon
without a key in front of it is no value. -/
def flowPair : (budget : Nat) → Reader (Node × Node)
  | 0 => failure
  | budget + 1 => do
    let ends : List Token := [.comma, .close ']']
    let key ←
      if ← isNext (.value :: ends) then
        skip
        pure (Node.absent none)
      else node inFlow budget
    let value ← if ← skipIf .value then nodeBefore inFlow ends budget else pure (.absent none)
    return (key, value)

/-- The entries of a mapping in brackets. -/
def flowEntries (isFirst : Bool) : (budget : Nat) → Reader (List (Node × Node))
  | 0 => failure
  | budget + 1 => do
    if ← skipIf (.close '}') then return []
    else
      if !isFirst then expect .comma
      let ends : List Token := [.comma, .close '}']
      if ← skipIf (.close '}') then return []
      else if ← skipIf .key then
        let key ← nodeBefore inFlow (.value :: ends) budget
        let value ← if ← skipIf .value then nodeBefore inFlow ends budget else pure (.absent none)
        return (key, value) :: (← flowEntries false budget)
      else
        let key ← node inFlow budget
        return (key, .absent none) :: (← flowEntries false budget)

end

/-- The directives in front of a document. Of each there is at most one, and
the language has the version 1.1 or 1.2. -/
def directives : (budget : Nat) → (hasVersion : Bool) → Reader Unit
  | 0, _ => failure
  | budget + 1, hasVersion => do
    match ← peek? with
    | some (.version major minor) =>
      skip
      guard (!hasVersion && major == 1 && (minor == 1 || minor == 2))
      directives budget true
    | some (.handle name meaning) =>
      skip
      guard (((← get).handles.lookup name).isNone)
      modify fun progress => { progress with handles := (name, meaning) :: progress.handles }
      directives budget hasVersion
    | _ => pure ()

/-- Whether a token stands in front of a document. -/
def isPreface : Token → Bool
  | .version .. | .handle .. | .documentStart => true
  | _ => false

/-- The only document of a text, which may be empty. -/
def document (budget : Nat) : Reader Node := do
  match ← peek? with
  | none => return .absent none
  | some first =>
    let root ←
      if isPreface first then
        directives budget false
        expect .documentStart
        let next ← peek?
        if next.all fun token => isPreface token || token == .documentEnd then
          pure (Node.absent none)
        else node inBlock budget
      else node inBlock budget
    modify fun progress =>
      { progress with tokens := progress.tokens.dropWhile (· == .documentEnd) }
    guard (← get).tokens.isEmpty
    return root

end Reader

/-- The data of a text that holds at most one document. -/
def parse? (text : String) : Option Data := do
  let tokens ← tokens? text
  let (root, _) ← (Reader.document (4 * tokens.length + 4)).run { tokens := tokens }
  root.data? 128

end Infill.Yaml
