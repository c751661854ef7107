import Infill.Text.Blank
import Infill.Text.Split
import Infill.Json.Reader

/-!
A template divided into the text that is copied, the expressions whose values
are written, and the statements. The inside of a tag is divided into tokens; a
mark in it closes the tag unless brackets are open.
-/
namespace Infill.Engine

inductive Token
  | name (name : List Char)
  | string (content : List Char)
  | integer (value : Nat)
  | real (value : Float)
  /-- An operator or a bracket. -/
  | sign (sign : List Char)
  deriving Inhabited, Repr

namespace Token

/-- Blanks inside tags. -/
def isBlank (c : Char) : Bool :=
  c == ' ' || c == '\t' || c == '\n' || c == '\r' || c == '\x0c'

def isNameStart (c : Char) : Bool :=
  c.isAlpha || c == '_'

def isNamePart (c : Char) : Bool :=
  c.isAlphanum || c == '_'

/-- The signs of two characters; they win over the signs of one. -/
def longSigns : List (List Char) :=
  [['/', '/'], ['*', '*'], ['=', '='], ['!', '='], ['<', '='], ['>', '=']]

/-- The signs of one character. -/
def shortSigns : List Char :=
  ['+', '-', '*', '/', '%', '.', ',', ':', '~', '|', '=', '<', '>', '(', ')', '[', ']', '{', '}']

/-- The characters of a string up to the quote that closes it, escapes as they
are written, and what follows. -/
def quoted? (quote : Char) : (escaped : Bool) → List Char → Option (List Char × List Char)
  | _, [] => none
  | true, c :: text => (quoted? quote false text).map fun (front, back) => (c :: front, back)
  | false, c :: text =>
    if c = quote then some ([], text)
    else (quoted? quote (c == '\\') text).map fun (front, back) => (c :: front, back)

/-- The characters that a string with escapes stands for, in at most so many
steps as `budget`. -/
def unescape? : (budget : Nat) → List Char → Option (List Char)
  | _, [] => some []
  | 0, _ => none
  | budget + 1, '\\' :: '\'' :: text => (unescape? budget text).map ('\'' :: ·)
  | budget + 1, '\\' :: text =>
    (Json.escaped? text).bind fun (c, rest) => (unescape? budget rest).map (c :: ·)
  | budget + 1, c :: text => (unescape? budget text).map (c :: ·)

/-- A whole number, which has at most 128 bits. -/
def integer? (n : Nat) : Option Token :=
  if n < Decimal.capacity 128 then some (.integer n) else none

/-- The digits of a number and of its fraction, if there is a point. -/
def number? (text : List Char) : Option (Token × List Char) :=
  let isDigit (c : Char) : Bool := c.isDigit || c == '_'
  let value (digits : List Char) : Nat :=
    digits.foldl (fun total c => if c = '_' then total else total * 10 + (c.toNat - 48)) 0
  let whole := text.takeWhile isDigit
  match text.dropWhile isDigit with
  | '.' :: rest =>
    let fraction := (rest.takeWhile isDigit).filter (· != '_')
    let scaled := value whole * Nat.pow 10 fraction.length + value fraction
    exponent scaled fraction.length (rest.dropWhile isDigit)
  | c :: rest =>
    if c = 'e' ∨ c = 'E' then exponent (value whole) 0 (c :: rest)
    else (integer? (value whole)).map (·, c :: rest)
  | [] => (integer? (value whole)).map (·, [])
where
  /-- The exponent of a floating number of which `places` digits were read
  behind the point. -/
  exponent (scaled places : Nat) (text : List Char) : Option (Token × List Char) :=
    let finish (down : Bool) (rest : List Char) : Option (Token × List Char) :=
      let digits := rest.takeWhile Char.isDigit
      let size : Nat := digits.foldl (fun total c => min (total * 10 + (c.toNat - 48)) 100000) 0
      let power : Int := (if down then -Int.ofNat size else Int.ofNat size) - Int.ofNat places
      if digits.isEmpty then none
      else some (.real (Float.ofScientific scaled (power < 0) power.natAbs),
        rest.dropWhile Char.isDigit)
    match text with
    | c :: '-' :: rest => if c = 'e' ∨ c = 'E' then finish true rest else plain scaled places text
    | c :: '+' :: rest => if c = 'e' ∨ c = 'E' then finish false rest else plain scaled places text
    | c :: rest => if c = 'e' ∨ c = 'E' then finish false rest else plain scaled places text
    | [] => plain scaled places []
  /-- A floating number without exponent. -/
  plain (scaled places : Nat) (text : List Char) : Option (Token × List Char) :=
    some (.real (Float.ofScientific scaled true places), text)

/-- The first token of a text that begins with `c`, and what follows it. -/
def next? (c : Char) (text : List Char) : Option (Token × List Char) :=
  if isNameStart c then
    some (.name (c :: text.takeWhile isNamePart), text.dropWhile isNamePart)
  else if c.isDigit then number? (c :: text)
  else if c = '"' ∨ c = '\'' then
    (quoted? c false text).bind fun (content, rest) =>
      (unescape? content.length content).map fun content => (.string content, rest)
  else match longSigns.find? (·.isPrefixOf (c :: text)) with
    | some long => some (.sign long, text.drop 1)
    | none => if shortSigns.contains c then some (.sign [c], text) else none

/-- How a sign changes the number of open brackets. -/
def balance : Token → Int
  | .sign ['('] | .sign ['['] | .sign ['{'] => 1
  | .sign [')'] | .sign [']'] | .sign ['}'] => -1
  | _ => 0

/-- Whether a text begins with the mark that closes a tag, and if so whether
the tag takes the blanks behind it away, and what follows. -/
def closing? (isStatement : Bool) (text : List Char) : Option (Bool × List Char) :=
  let mark := if isStatement then ['%', '}'] else ['}', '}']
  match Text.after? ('-' :: mark) text with
  | some rest => some (true, rest)
  | none =>
    match Text.after? mark text with
    | some rest => some (false, rest)
    | none =>
      if isStatement then (Text.after? ('+' :: mark) text).map fun rest => (false, rest) else none

/-- The tokens up to the mark that closes a tag, with brackets open that are
counted, whether the tag takes the blanks behind it away, and what follows. -/
def inside? (isStatement : Bool) : (budget : Nat) → (depth : Int) → List Char →
    Option (List Token × Bool × List Char)
  | 0, _, _ => none
  | budget + 1, depth, text =>
    let text := text.dropWhile isBlank
    match if depth = 0 then closing? isStatement text else none with
    | some (trims, rest) => some ([], trims, rest)
    | none =>
      match text with
      | [] => none
      | c :: text =>
        (next? c text).bind fun (token, rest) =>
          (inside? isStatement budget (depth + token.balance) rest).map
            fun (tokens, found) => (token :: tokens, found)

end Token

/-- A part of a template. -/
inductive Piece
  /-- Text that is copied. -/
  | copy (content : List Char)
  /-- An expression whose value is written. -/
  | output (tokens : List Token)
  | statement (tokens : List Token)
  deriving Inhabited, Repr

namespace Piece

/-- The text before the first mark that opens a tag, the character that makes
it one, and what follows it. -/
def untilTag : List Char → List Char × Option (Char × List Char)
  | [] => ([], none)
  | c :: text =>
    let opens := match text with
      | d :: _ => c == '{' && (d == '{' || d == '%' || d == '#')
      | [] => false
    if opens then ([], some (text.headD ' ', text.tail))
    else
      let found := untilTag text
      (c :: found.1, found.2)

/-- What follows a word that stands alone in a statement, and whether the tag
takes the blanks behind it away. -/
def lone? (word : List Char) (text : List Char) : Option (Bool × List Char) :=
  (Text.after? word (text.dropWhile Token.isBlank)).bind fun rest =>
    Token.closing? true (rest.dropWhile Token.isBlank)

/-- A text that is copied without a look at its tags, up to the statement that
ends it: the text, whether the blanks at its end and behind that statement are
taken away, and what follows. -/
def raw? : List Char → Option (List Char × Bool × Bool × List Char)
  | [] => none
  | c :: text =>
    let ended := match c, text with
      | '{', '%' :: rest =>
        let (trims, rest) := match rest with
          | '-' :: rest => (true, rest)
          | '+' :: rest => (false, rest)
          | rest => (false, rest)
        (lone? "endraw".toList rest).map fun (trimsAfter, rest) => ([], trims, trimsAfter, rest)
      | _, _ => none
    match ended with
    | some found => some found
    | none => (raw? text).map fun (front, found) => (c :: front, found)

/-- The pieces of a template, in at most so many steps as `budget`. The blanks
at the start of the text are taken away if the tag in front of it says so. -/
def all? : (budget : Nat) → (trimsStart : Bool) → List Char → Option (List Piece)
  | 0, _, _ => none
  | budget + 1, trimsStart, source =>
    let source := if trimsStart then Text.trimStart source else source
    match untilTag source with
    | (content, none) => some [.copy content]
    | (content, some (kind, rest)) =>
      let (trimsBefore, rest) := match rest with
        | '-' :: rest => (true, rest)
        | '+' :: rest => (false, rest)
        | rest => (false, rest)
      let front : Piece := .copy (if trimsBefore then Text.trimEnd content else content)
      if kind = '#' then
        (Text.splitOn? ['#', '}'] rest).bind fun (comment, rest) =>
          (all? budget (comment.getLast? == some '-') rest).map (front :: ·)
      else if kind = '{' then
        (Token.inside? false (rest.length + 1) 0 rest).bind fun (tokens, trims, rest) =>
          (all? budget trims rest).map fun pieces => front :: .output tokens :: pieces
      else
        match lone? "raw".toList rest with
        | some (trimsFirst, rest) =>
          (raw? rest).bind fun (content, trimsLast, trims, rest) =>
            let content := if trimsFirst then Text.trimStart content else content
            let content := if trimsLast then Text.trimEnd content else content
            (all? budget trims rest).map fun pieces => front :: .copy content :: pieces
        | none =>
          (Token.inside? true (rest.length + 1) 0 rest).bind fun (tokens, trims, rest) =>
            (all? budget trims rest).map fun pieces => front :: .statement tokens :: pieces

/-- The pieces of a template. -/
def ofTemplate? (source : List Char) : Option (List Piece) :=
  all? (source.length + 1) false source

end Piece

end Infill.Engine
