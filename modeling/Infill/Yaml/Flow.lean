import Infill.Decimal.Reader
import Infill.Yaml.Cursor

/-!
Plain and quoted scalars of YAML texts. Both may go on over several lines,
which are folded. A plain one ends at a comment, at a colon before a blank and,
between brackets, at a bracket or comma.
-/
namespace Infill.Yaml

/-- The brackets of lists and mappings, and the comma. -/
def isFlowMark (c : Char) : Bool :=
  [',', '[', ']', '{', '}'].contains c

/-- The next word of a plain scalar, which may be empty. Between brackets no
colon stands right before another mark. -/
def plainWord? (inFlow : Bool) : List Char → Option (List Char)
  | [] => some []
  | c :: text =>
    if isBlank c || isBreak c then some []
    else if inFlow && c == ':' && text.head?.any (fun c => isFlowMark c || c == '?') then none
    else if c == ':' && endsWord text then some []
    else if inFlow && isFlowMark c then some []
    else (plainWord? inFlow text).map (c :: ·)

/-- The words of a plain scalar behind a gap, whether a line break follows
them, and the place after that. Outside of brackets its lines lie at least at
the column `indent`. -/
def plainTail? (inFlow : Bool) (indent : Nat) :
    (budget : Nat) → Gap → Cursor → Option (List Char × Bool × Cursor)
  | 0, _, _ => none
  | budget + 1, gap, cursor =>
    if cursor.isAtBoundary || cursor.text.head? == some '#' then
      some ([], gap.isBroken, cursor)
    else
      (plainWord? inFlow cursor.text).bind fun word =>
        if word.isEmpty then some ([], gap.isBroken, cursor)
        else
          let front := gap.text ++ word
          (Cursor.gap? indent (cursor.skip word.length)).bind fun (gap, cursor) =>
            if !inFlow && gap.isBroken && cursor.column < indent then
              some (front, true, cursor)
            else
              (plainTail? inFlow indent budget gap cursor).map fun (rest, broken, cursor) =>
                (front ++ rest, broken, cursor)

/-- A plain scalar. -/
def plain? (inFlow : Bool) (indent : Nat) (cursor : Cursor) :
    Option (List Char × Bool × Cursor) :=
  plainTail? inFlow indent (cursor.text.length + 1) {} cursor

/-- The characters of escapes without a code point. -/
def escapes : List (Char × Char) :=
  [('0', '\x00'), ('a', '\x07'), ('b', '\x08'), ('t', '\t'), ('\t', '\t'), ('n', '\n'),
    ('v', '\x0b'), ('f', '\x0c'), ('r', '\r'), ('e', '\x1b'), (' ', ' '), ('"', '"'),
    ('/', '/'), ('\\', '\\'), ('N', '\x85'), ('_', '\xa0'), ('L', '\u2028'), ('P', '\u2029')]

/-- How many digits the code point of an escape has. -/
def codePointLength? (c : Char) : Option Nat :=
  [('x', 2), ('u', 4), ('U', 8)].lookup c

/-- The character of an escape behind its backslash, and the length of the
escape. -/
def escaped? : List Char → Option (Char × Nat)
  | [] => none
  | c :: text =>
    match codePointLength? c with
    | none => (escapes.lookup c).map (·, 1)
    | some count =>
      let digits := text.take count
      if digits.length = count then
        (Decimal.natural? 16 digits).bind fun code =>
          if code.isValidChar then some (Char.ofNat code, count + 1) else none
      else none

/-- The rest of a quoted scalar. Single quotes are written twice inside;
between double quotes a backslash hides a line break or begins an escape. -/
def quotedTail? (quote : Char) : (budget : Nat) → Cursor → Option (List Char × Cursor)
  | 0, _ => none
  | budget + 1, cursor =>
    let tail (front : List Char) (cursor : Cursor) : Option (List Char × Cursor) :=
      (quotedTail? quote budget cursor).map fun (rest, cursor) => (front ++ rest, cursor)
    if cursor.isAtBoundary then none
    else
      match cursor.text with
      | [] => none
      | c :: text =>
        if c = quote then
          if quote = '\'' ∧ text.head? = some quote then tail [quote] (cursor.skip 2)
          else some ([], cursor.skip 1)
        else if c = '\\' ∧ quote = '"' then
          match (cursor.skip 1).break? with
          | some (_, cursor) =>
            (Gap.read? 0 (text.length + 1) ⟨[], [[]]⟩ cursor).bind fun (gap, cursor) =>
              tail gap.text cursor
          | none =>
            (escaped? text).bind fun (found, length) => tail [found] (cursor.skip (length + 1))
        else if isBlank c || isBreak c then
          (cursor.gap? 0).bind fun (gap, cursor) => tail gap.text cursor
        else tail [c] (cursor.skip 1)

/-- A scalar whose opening quote is next. -/
def quoted? (cursor : Cursor) : Option (List Char × Cursor) :=
  match cursor.text with
  | quote :: rest => quotedTail? quote (rest.length + 1) (cursor.skip 1)
  | [] => none

end Infill.Yaml
