import Infill.Yaml.Block
import Infill.Yaml.Flow
import Infill.Yaml.Token

/-!
The tokens of a YAML text. Indentation is turned into tokens of its own, and a
key, which only the colon behind it gives away, is marked when the colon is
reached.
-/
namespace Infill.Yaml

/-- A place where a key may have begun. -/
structure KeyPlace where
  /-- Whether nothing but a key can stand there. -/
  isRequired : Bool
  /-- How many tokens stand before it. -/
  index : Nat
  cursor : Cursor
  deriving Inhabited, Repr

/-- A text that is partly divided into tokens. -/
structure Layout where
  cursor : Cursor
  /-- The tokens found so far, the last one first. -/
  tokens : List Token := []
  /-- The column of the innermost indented list or mapping. -/
  indent : Option Nat := none
  /-- The columns of those around it, the inner ones first. -/
  outer : List (Option Nat) := []
  /-- Whether a key may begin at the next word. -/
  allowsKey : Bool := true
  key : Option KeyPlace := none
  /-- The key places outside of each open bracket, the inner ones first. -/
  outerKeys : List (Option KeyPlace) := []
  deriving Inhabited, Repr

namespace Layout

def inFlow (layout : Layout) : Bool :=
  !layout.outerKeys.isEmpty

def push (token : Token) (layout : Layout) : Layout :=
  { layout with tokens := token :: layout.tokens }

/-- Put a token where `index` others stand before it. -/
def insert (index : Nat) (token : Token) (layout : Layout) : Layout :=
  let after := layout.tokens.length - index
  { layout with tokens := layout.tokens.take after ++ token :: layout.tokens.drop after }

/-- Begin an indented list or mapping unless one is open at this column. Its
token goes where `index` others stand before it. -/
def deepen (column index : Nat) (token : Token) (layout : Layout) : Layout :=
  if !layout.inFlow && layout.indent.all (· < column) then
    { layout with indent := some column, outer := layout.indent :: layout.outer }.insert index token
  else layout

/-- The columns that stay open when the next word stands at a column, which is
none at the end of a document, and the tokens that close the others. -/
def closing (column : Option Nat) :
    (indent : Option Nat) → (outer : List (Option Nat)) → Option Nat × List (Option Nat) × Nat
  | none, outer => (none, outer, 0)
  | some indent, outer =>
    if column.any (indent ≤ ·) then (some indent, outer, 0)
    else
      match outer with
      | [] => (none, [], 1)
      | next :: outer =>
        let (indent, outer, count) := closing column next outer
        (indent, outer, count + 1)

/-- Close the lists and mappings that lie deeper than a column. -/
def rise (column : Option Nat) (layout : Layout) : Layout :=
  if layout.inFlow then layout
  else
    let (indent, outer, count) := closing column layout.indent layout.outer
    { layout with
      indent := indent
      outer := outer
      tokens := List.replicate count .dedent ++ layout.tokens }

/-- Give up the place where a key may have begun. -/
def dropKey? (layout : Layout) : Option Layout :=
  if layout.key.any (·.isRequired) then none else some { layout with key := none }

/-- Note that a key may begin here. -/
def noteKey? (layout : Layout) : Option Layout :=
  if layout.allowsKey then
    layout.dropKey?.map fun layout =>
      let isRequired := !layout.inFlow && layout.indent == some layout.cursor.column
      { layout with key := some ⟨isRequired, layout.tokens.length, layout.cursor⟩ }
  else some layout

/-- A key place as far as it still holds. A key lies on one line and has at
most 1024 characters. -/
def fresh? (cursor : Cursor) : Option KeyPlace → Option (Option KeyPlace)
  | none => some none
  | some place =>
    if place.cursor.line < cursor.line ∨ place.cursor.offset + 1024 < cursor.offset then
      if place.isRequired then none else some none
    else some (some place)

/-- Forget the key places that hold no longer. -/
def refreshKeys? (layout : Layout) : Option Layout := do
  let key ← fresh? layout.cursor layout.key
  let outerKeys ← layout.outerKeys.mapM (fresh? layout.cursor)
  return { layout with key := key, outerKeys := outerKeys }

/-- Pass blanks, comments and line breaks. Outside of brackets no tab stands
where a key may begin. -/
def toNextWord : (budget : Nat) → Layout → Layout
  | 0, layout => layout
  | budget + 1, layout =>
    let allowsTab := layout.inFlow || !layout.allowsKey
    let cursor := layout.cursor.skipWhile fun c => c == ' ' || (c == '\t' && allowsTab)
    let cursor := if cursor.text.head? = some '#' then cursor.skipWhile (!isBreak ·) else cursor
    match cursor.break? with
    | some (_, cursor) =>
      toNextWord budget
        { layout with cursor := cursor, allowsKey := layout.allowsKey || !layout.inFlow }
    | none => { layout with cursor := cursor }

/-- Take a token of so many characters. -/
def take (token : Token) (length : Nat) (layout : Layout) : Layout :=
  { layout with cursor := layout.cursor.skip length }.push token

/-- Close what is open at the end of a document. -/
def close? (layout : Layout) : Option Layout :=
  (layout.rise none).dropKey?.map fun layout => { layout with allowsKey := false }

def openBracket? (bracket : Char) (layout : Layout) : Option Layout :=
  layout.noteKey?.map fun layout =>
    { layout with
      key := none
      outerKeys := layout.key :: layout.outerKeys
      allowsKey := true }.take (.open bracket) 1

def closeBracket? (bracket : Char) (layout : Layout) : Option Layout :=
  layout.dropKey?.map fun layout =>
    { layout with
      key := layout.outerKeys.head?.getD none
      outerKeys := layout.outerKeys.drop 1
      allowsKey := false }.take (.close bracket) 1

def comma? (layout : Layout) : Option Layout :=
  layout.dropKey?.map fun layout => { layout with allowsKey := true }.take .comma 1

/-- Begin an indented list or mapping at a mark of one character. -/
def mark? (start token : Token) (allowsKey : Bool) (layout : Layout) : Option Layout :=
  if layout.inFlow || layout.allowsKey then
    (layout.deepen layout.cursor.column layout.tokens.length start).dropKey?.map fun layout =>
      { layout with allowsKey := allowsKey }.take token 1
  else none

/-- Take a colon. The word in front of it is a key if one may have begun
there. -/
def colon? (layout : Layout) : Option Layout :=
  match layout.key with
  | some place =>
    let layout := layout.insert place.index .key
    let layout := layout.deepen place.cursor.column place.index .mappingStart
    some ({ layout with key := none, allowsKey := false }.take .value 1)
  | none =>
    if layout.inFlow || layout.allowsKey then
      let layout := layout.deepen layout.cursor.column layout.tokens.length .mappingStart
      some ({ layout with allowsKey := !layout.inFlow }.take .value 1)
    else none

/-- Take a token that a function reads, with which a key may begin. -/
def word? (read : Cursor → Option (Token × Cursor)) (layout : Layout) : Option Layout :=
  layout.noteKey?.bind fun layout =>
    (read layout.cursor).map fun (token, cursor) =>
      { layout with cursor := cursor, allowsKey := false }.push token

def name? (make : String → Token) (cursor : Cursor) : Option (Token × Cursor) :=
  (anchorName? (cursor.skip 1)).map fun (name, cursor) => (make name, cursor)

def quotedScalar? (cursor : Cursor) : Option (Token × Cursor) :=
  (quoted? cursor).map fun (text, cursor) => (.scalar false (String.ofList text), cursor)

/-- Take a plain scalar. A key may begin behind it if a line break follows. -/
def plainScalar? (layout : Layout) : Option Layout :=
  layout.noteKey?.bind fun layout =>
    let indent := (layout.indent.map (· + 1)).getD 0
    (plain? layout.inFlow indent layout.cursor).map fun (text, broken, cursor) =>
      { layout with cursor := cursor, allowsKey := broken }.push (.scalar true (String.ofList text))

def blockScalar? (layout : Layout) : Option Layout :=
  layout.dropKey?.bind fun layout =>
    (block? layout.indent layout.cursor).map fun (text, cursor) =>
      { layout with cursor := cursor, allowsKey := true }.push
        (.scalar false (String.ofList text))

/-- Characters that no plain scalar begins with. Hyphen, question mark and
colon may begin one where a word goes on behind them. -/
def isMark (c : Char) : Bool :=
  "-?:,[]\x7b\x7d#&*!|>'\"%@\x60".toList.contains c

/-- Whether a plain scalar begins here. -/
def beginsPlain (inFlow : Bool) : List Char → Bool
  | [] => false
  | c :: text =>
    !(isMark c || isBlank c || isBreak c)
      || (c == '-' && !text.head?.any isBlank)
      || (!inFlow && (c == '?' || c == ':') && !endsWord text)

/-- Take the next token of a text that is not at its end. -/
def next? (layout : Layout) : Option Layout :=
  let cursor := layout.cursor
  if cursor.column = 0 ∧ cursor.text.head? = some '%' then
    layout.close?.bind fun layout =>
      (directive? cursor).map fun (token, cursor) => { layout with cursor := cursor }.push token
  else if cursor.isAtMark '-' then layout.close?.map (take .documentStart 3)
  else if cursor.isAtMark '.' then layout.close?.map (take .documentEnd 3)
  else
    match cursor.text with
    | [] => none
    | c :: text =>
      let standsAlone := endsWord text
      if c = '[' ∨ c = '{' then layout.openBracket? c
      else if c = ']' ∨ c = '}' then layout.closeBracket? c
      else if c = ',' then layout.comma?
      else if c = '-' ∧ standsAlone then layout.mark? .listStart .item true
      else if c = '?' ∧ (layout.inFlow ∨ standsAlone) then
        layout.mark? .mappingStart .key (!layout.inFlow)
      else if c = ':' ∧ (layout.inFlow ∨ standsAlone) then layout.colon?
      else if c = '*' then layout.word? (name? .alias)
      else if c = '&' then layout.word? (name? .anchor)
      else if c = '!' then layout.word? (tag? layout.inFlow)
      else if (c = '|' ∨ c = '>') ∧ !layout.inFlow then layout.blockScalar?
      else if c = '\'' ∨ c = '"' then layout.word? quotedScalar?
      else if beginsPlain layout.inFlow (c :: text) then layout.plainScalar?
      else none

/-- Take all tokens, in at most so many steps as `budget`. -/
def run? : (budget : Nat) → Layout → Option (List Token)
  | 0, _ => none
  | budget + 1, layout =>
    ((layout.toNextWord (layout.cursor.text.length + 1)).refreshKeys?).bind fun layout =>
      if layout.cursor.text.isEmpty then
        layout.close?.map fun layout => layout.tokens.reverse
      else
        ((layout.rise (some layout.cursor.column)).next?).bind (run? budget)

end Layout

/-- Whether a character may stand in a text. -/
def isAllowed (c : Char) : Bool :=
  let code := c.toNat
  [0x09, 0x0A, 0x0D, 0x85].contains code || (0x20 ≤ code && code ≤ 0x7E)
    || (0xA0 ≤ code && code != 0xFEFF && code != 0xFFFE && code != 0xFFFF)

/-- The tokens of a text, which may begin with a byte order mark. -/
def tokens? (text : String) : Option (List Token) :=
  let text := match text.toList with
    | '\uFEFF' :: rest => rest
    | rest => rest
  if text.all isAllowed then Layout.run? (text.length + 1) { cursor := { text := text } } else none

end Infill.Yaml
