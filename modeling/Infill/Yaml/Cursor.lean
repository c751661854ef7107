/-!
Places in a YAML text, its line breaks, and the gaps between words. A gap that
holds line breaks is folded: one break counts as a blank, of several all but
the first are kept.
-/
namespace Infill.Yaml

/-- Whether a character ends a line. -/
def isBreak (c : Char) : Bool :=
  c == '\n' || c == '\r' || c == '\x85' || c == '\u2028' || c == '\u2029'

def isBlank (c : Char) : Bool :=
  c == ' ' || c == '\t'

/-- Whether a text begins with a blank or a line break, or is at its end. -/
def endsWord (text : List Char) : Bool :=
  text.head?.all fun c => isBlank c || isBreak c

/-- Whether a text begins with a line break or is at its end. -/
def endsLine (text : List Char) : Bool :=
  text.head?.all isBreak

/-- Letters, digits, hyphens and underscores. -/
def isNamePart (c : Char) : Bool :=
  c.isAlphanum || c == '-' || c == '_'

/-- A place in a text: what follows it, its line and column, and how many
characters stand before it. -/
structure Cursor where
  text : List Char
  line : Nat := 0
  column : Nat := 0
  offset : Nat := 0
  deriving DecidableEq, Inhabited, Repr

namespace Cursor

/-- Pass so many characters of the same line. -/
def skip (count : Nat) (cursor : Cursor) : Cursor :=
  { cursor with
    text := cursor.text.drop count
    column := cursor.column + count
    offset := cursor.offset + count }

/-- Pass characters of the same line as long as they are of one kind. -/
def skipWhile (kind : Char → Bool) (cursor : Cursor) : Cursor :=
  cursor.skip (cursor.text.takeWhile kind).length

/-- Pass a line break, which stands for the text that comes with it. -/
def break? (cursor : Cursor) : Option (List Char × Cursor) :=
  match cursor.text with
  | '\r' :: '\n' :: rest => some (['\n'], ⟨rest, cursor.line + 1, 0, cursor.offset + 2⟩)
  | c :: rest =>
    if isBreak c then
      let kept := if c = '\u2028' ∨ c = '\u2029' then c else '\n'
      some ([kept], ⟨rest, cursor.line + 1, 0, cursor.offset + 1⟩)
    else none
  | [] => none

/-- Whether a line begins here with a word of three equal marks, which divides
documents. -/
def isAtMark (mark : Char) (cursor : Cursor) : Bool :=
  cursor.column == 0 && cursor.text.take 3 == [mark, mark, mark]
    && endsWord (cursor.text.drop 3)

/-- Whether a document begins or ends here. -/
def isAtBoundary (cursor : Cursor) : Bool :=
  cursor.isAtMark '-' || cursor.isAtMark '.'

/-- Pass the blanks and the comment at the end of a line, and the line break. -/
def finishLine? (cursor : Cursor) : Option Cursor :=
  let cursor := cursor.skipWhile isBlank
  let cursor := if cursor.text.head? = some '#' then cursor.skipWhile (!isBreak ·) else cursor
  match cursor.break? with
  | some (_, cursor) => some cursor
  | none => if cursor.text.isEmpty then some cursor else none

end Cursor

/-- What stands between two words: the blanks of the first line, and the line
breaks if there are any. -/
structure Gap where
  blanks : List Char := []
  breaks : List (List Char) := []
  deriving DecidableEq, Inhabited, Repr

namespace Gap

/-- Whether a gap holds a line break. -/
def isBroken (gap : Gap) : Bool :=
  !gap.breaks.isEmpty

/-- The text that a gap stands for. -/
def text (gap : Gap) : List Char :=
  match gap.breaks with
  | [] => gap.blanks
  | ['\n'] :: [] => [' ']
  | ['\n'] :: rest => rest.flatten
  | breaks => breaks.flatten

/-- Read a gap. Behind a line break there is no tab before the column
`indent`. -/
def read? (indent : Nat) : (budget : Nat) → Gap → Cursor → Option (Gap × Cursor)
  | 0, _, _ => none
  | budget + 1, gap, cursor =>
    match cursor.break? with
    | some (kept, cursor) =>
      read? indent budget { gap with breaks := gap.breaks ++ [kept] } cursor
    | none =>
      match cursor.text with
      | c :: _ =>
        if isBlank c then
          if gap.isBroken then
            if c = '\t' ∧ cursor.column < indent then none
            else read? indent budget gap (cursor.skip 1)
          else read? indent budget { gap with blanks := gap.blanks ++ [c] } (cursor.skip 1)
        else some (gap, cursor)
      | [] => some (gap, cursor)

end Gap

/-- The gap at a place. -/
def Cursor.gap? (indent : Nat) (cursor : Cursor) : Option (Gap × Cursor) :=
  Gap.read? indent (cursor.text.length + 1) {} cursor

end Infill.Yaml
