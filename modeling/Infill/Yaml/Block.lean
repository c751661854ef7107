import Infill.Yaml.Cursor

/-!
Block scalars of YAML texts: indented lines behind `|`, which are kept, or
behind `>`, which are folded. What follows the mark says how far the lines are
indented and what becomes of the line breaks at the end.
-/
namespace Infill.Yaml

/-- What becomes of the line breaks at the end of a block scalar. -/
inductive Chomping
  | strip
  /-- One is kept. -/
  | clip
  | keep
  deriving DecidableEq, Inhabited, Repr

def chomping? (c : Char) : Option Chomping :=
  if c = '+' then some .keep else if c = '-' then some .strip else none

/-- How many columns deeper than their parent the lines are. -/
def increment? (c : Char) : Option Nat :=
  if '1' ≤ c ∧ c ≤ '9' then some (c.toNat - 48) else none

/-- The signs behind the mark, in either order. -/
def blockHeader (text : List Char) : Chomping × Option Nat × Nat :=
  match text with
  | c :: rest =>
    match chomping? c, increment? c with
    | some chomping, _ =>
      match rest.head?.bind increment? with
      | some depth => (chomping, some depth, 2)
      | none => (chomping, none, 1)
    | none, some depth =>
      match rest.head?.bind chomping? with
      | some chomping => (chomping, some depth, 2)
      | none => (.clip, some depth, 1)
    | none, none => (.clip, none, 0)
  | [] => (.clip, none, 0)

/-- Empty lines in front of a line of a block scalar: the deepest column, the
line breaks, and the place after them. Where the indentation is known, lines
are empty that end before it. -/
def emptyLines? (indent : Option Nat) :
    (budget deepest : Nat) → Cursor → Option (Nat × List Char × Cursor)
  | 0, _, _ => none
  | budget + 1, deepest, cursor =>
    let blanks := (cursor.text.takeWhile (· == ' ')).length
    let cursor := cursor.skip (min blanks ((indent.map (· - cursor.column)).getD blanks))
    let deepest := max deepest cursor.column
    if cursor.text.head? = some '\t' ∧ indent.all (cursor.column < ·) then none
    else
      match cursor.break? with
      | some (kept, cursor) =>
        (emptyLines? indent budget deepest cursor).map fun (deepest, breaks, cursor) =>
          (deepest, kept ++ breaks, cursor)
      | none => some (deepest, [], cursor)

/-- A line break between two lines of a block scalar. A folded one becomes a
blank, or nothing before empty lines; lines that begin with a blank are not
folded. -/
def lineJoint (folds : Bool) (leading empty : List Char) (afterBlank beforeBlank : Bool) :
    List Char :=
  if folds && leading == ['\n'] && !afterBlank && !beforeBlank then
    if empty.isEmpty then [' '] else empty
  else leading ++ empty

/-- The lines of a block scalar from a line break and empty lines on: the text,
and what is left at the end of them. -/
def blockLines? (folds : Bool) (indent : Nat) : (budget : Nat) → (leading empty : List Char) →
    (afterBlank : Bool) → Cursor → Option (List Char × List Char × List Char × Cursor)
  | 0, _, _, _, _ => none
  | budget + 1, leading, empty, afterBlank, cursor =>
    if cursor.column = indent ∧ cursor.text ≠ [] then
      let beforeBlank := cursor.text.head?.any isBlank
      let joint := lineJoint folds leading empty afterBlank beforeBlank
      let content := cursor.text.takeWhile (!isBreak ·)
      let cursor := cursor.skip content.length
      let (leading, cursor) := cursor.break?.getD ([], cursor)
      (emptyLines? (some indent) (cursor.text.length + 1) 0 cursor).bind fun (_, empty, cursor) =>
        (blockLines? folds indent budget leading empty beforeBlank cursor).map
          fun (text, tail) => (joint ++ content ++ text, tail)
    else some ([], leading, empty, cursor)

/-- A block scalar that is next. Its parent lies at the column `outer`, if
there is one. -/
def block? (outer : Option Nat) (cursor : Cursor) : Option (List Char × Cursor) :=
  let folds := cursor.text.head? == some '>'
  let cursor := cursor.skip 1
  let (chomping, depth, length) := blockHeader cursor.text
  ((cursor.skip length).finishLine?).bind fun cursor =>
    let known := depth.map (outer.getD 0 + ·)
    (emptyLines? known (cursor.text.length + 1) 0 cursor).bind fun (deepest, empty, cursor) =>
      let least := max 1 ((outer.map (· + 1)).getD 0)
      let indent := known.getD (max deepest least)
      (blockLines? folds indent (cursor.text.length + 1) [] empty false cursor).map
        fun (text, leading, empty, cursor) =>
          let tail := match chomping with
            | .strip => []
            | .clip => leading
            | .keep => leading ++ empty
          (text ++ tail, cursor)

end Infill.Yaml
