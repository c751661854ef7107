import Infill.Yaml.Cursor

/-!
Tokens of YAML texts, and the reading of those that are neither scalars nor
part of the layout: directives, names of anchors, and tags.
-/
namespace Infill.Yaml

inductive Token
  /-- A version of the language. -/
  | version (major minor : Nat)
  /-- A short form of a text that tags begin with. -/
  | handle (name meaning : String)
  | documentStart
  | documentEnd
  /-- The first entry of an indented list. -/
  | listStart
  /-- The first key of an indented mapping. -/
  | mappingStart
  /-- The end of an indented list or mapping. -/
  | dedent
  | open (bracket : Char)
  | close (bracket : Char)
  | comma
  | item
  | key
  | value
  | anchor (name : String)
  | alias (name : String)
  /-- The handle of a tag, which may be empty, and what follows it. -/
  | tag (handle rest : String)
  | scalar (isPlain : Bool) (text : String)
  deriving DecidableEq, Inhabited, Repr

/-- The name of an anchor behind its mark. -/
def anchorName? (cursor : Cursor) : Option (String × Cursor) :=
  let name := cursor.text.takeWhile isNamePart
  let cursor := cursor.skip name.length
  let isEnd := endsWord cursor.text
    || cursor.text.head?.any ['?', ':', ',', ']', '}', '%', '@', '\x60'].contains
  if name.isEmpty || !isEnd then none else some (String.ofList name, cursor)

/-- Characters of tags. Brackets and commas stand only where the tag has a
definite end. -/
def isTagPart (isBounded : Bool) (c : Char) : Bool :=
  isNamePart c || ";/?:@&=+$.%!~*'()".toList.contains c || (isBounded && [',', '[', ']'].contains c)

/-- A handle: a mark, or a name between two marks. The part after a single mark
belongs to the tag. -/
def tagHandle (text : List Char) : List Char :=
  match text with
  | '!' :: rest =>
    let name := rest.takeWhile isNamePart
    if (rest.drop name.length).head? = some '!' then '!' :: name ++ ['!'] else ['!']
  | _ => []

/-- A tag, which begins with a mark. A mark alone is a tag without a handle. -/
def tag? (inFlow : Bool) (cursor : Cursor) : Option (Token × Cursor) :=
  let found := match cursor.text with
    | '!' :: '<' :: text =>
      let rest := text.takeWhile (isTagPart true)
      if rest.isEmpty ∨ (text.drop rest.length).head? ≠ some '>' then none
      else some (([] : List Char), rest, cursor.skip (rest.length + 3))
    | text =>
      let handle := tagHandle text
      let rest := (text.drop handle.length).takeWhile (isTagPart false)
      let cursor := cursor.skip (handle.length + rest.length)
      if !rest.isEmpty then some (handle, rest, cursor)
      else if handle = ['!'] then some ([], handle, cursor)
      else none
  found.bind fun (handle, rest, cursor) =>
    if endsWord cursor.text || (inFlow && cursor.text.head? == some ',') then
      some (.tag (String.ofList handle) (String.ofList rest), cursor)
    else none

/-- A number of a version, which has at most nine digits. -/
def versionPart? (cursor : Cursor) : Option (Nat × Cursor) :=
  let digits := cursor.text.takeWhile Char.isDigit
  if digits.isEmpty ∨ 9 < digits.length then none
  else some ((String.ofList digits).toNat?.getD 0, cursor.skip digits.length)

def versionDirective? (cursor : Cursor) : Option (Token × Cursor) := do
  let (major, cursor) ← versionPart? cursor
  if cursor.text.head? ≠ some '.' then none
  let (minor, cursor) ← versionPart? (cursor.skip 1)
  return (.version major minor, cursor)

def handleDirective? (cursor : Cursor) : Option (Token × Cursor) :=
  let handle := tagHandle cursor.text
  let cursor := cursor.skip handle.length
  let next := cursor.skipWhile isBlank
  let meaning := next.text.takeWhile (isTagPart true)
  let rest := next.skip meaning.length
  if handle.isEmpty || next.column == cursor.column || meaning.isEmpty || !endsWord rest.text then
    none
  else some (.handle (String.ofList handle) (String.ofList meaning), rest)

/-- A directive, which takes a whole line. -/
def directive? (cursor : Cursor) : Option (Token × Cursor) := do
  let name := (cursor.text.drop 1).takeWhile isNamePart
  let rest := cursor.skip (name.length + 1)
  if !endsWord rest.text then none
  let rest := rest.skipWhile isBlank
  let (token, rest) ←
    if name = "YAML".toList then versionDirective? rest
    else if name = "TAG".toList then handleDirective? rest
    else none
  return (token, ← rest.finishLine?)

end Infill.Yaml
