import Infill.Json.Number
import Infill.Text.Split

/-!
Reading JSON texts. Blanks are space, tab, line feed and carriage return; the
brackets nest at most 127 deep; of equal keys in one object the last counts.
-/
namespace Infill.Json

def isBlank (c : Char) : Bool :=
  c == ' ' || c == '\t' || c == '\n' || c == '\r'

def skipBlank (text : List Char) : List Char :=
  text.dropWhile isBlank

/-- Read four hexadecimal digits. -/
def unit? (text : List Char) : Option (Nat × List Char) :=
  match text with
  | a :: b :: c :: d :: rest =>
    (Decimal.natural? 16 [a, b, c, d]).map (·, rest)
  | _ => none

/-- The character of an escape behind `\u`. A character beyond the first plane
takes two escapes, a high surrogate before a low one. -/
def unicode? (text : List Char) : Option (Char × List Char) :=
  match unit? text with
  | none => none
  | some (high, rest) =>
    if 0xD800 ≤ high ∧ high < 0xDC00 then
      match rest with
      | '\\' :: 'u' :: rest =>
        match unit? rest with
        | some (low, rest) =>
          if 0xDC00 ≤ low ∧ low < 0xE000 then
            some (Char.ofNat (0x10000 + (high - 0xD800) * 0x400 + (low - 0xDC00)), rest)
          else none
        | none => none
      | _ => none
    else if 0xDC00 ≤ high ∧ high < 0xE000 then none
    else some (Char.ofNat high, rest)

/-- The character of an escape behind its backslash. -/
def escaped? (text : List Char) : Option (Char × List Char) :=
  match text with
  | 'u' :: rest => unicode? rest
  | c :: rest =>
    (match c with
      | '"' => some '"'
      | '\\' => some '\\'
      | '/' => some '/'
      | 'b' => some '\x08'
      | 'f' => some '\x0c'
      | 'n' => some '\n'
      | 'r' => some '\r'
      | 't' => some '\t'
      | _ => none).map (·, rest)
  | [] => none

/-- The rest of a string whose opening quote was read, with at most as many
steps as `budget`. -/
def stringTail : (budget : Nat) → List Char → Option (List Char × List Char)
  | 0, _ => none
  | _, [] => none
  | budget + 1, c :: text =>
    if c = '"' then some ([], text)
    else if c.toNat < 0x20 then none
    else if c = '\\' then
      (escaped? text).bind fun (found, rest) =>
        (stringTail budget rest).map fun (front, back) => (found :: front, back)
    else (stringTail budget text).map fun (front, back) => (c :: front, back)

/-- A string whose opening quote was read. Every step takes a character, so
the length of the text is budget enough. -/
def string? (text : List Char) : Option (String × List Char) :=
  (stringTail (text.length + 1) text).map fun (front, back) => (String.ofList front, back)

/-- Read items that commas divide up to a closing bracket, at least one. -/
def items {α : Type} (item : List Char → Option (α × List Char)) (close : Char) :
    (budget : Nat) → List Char → Option (List α × List Char)
  | 0, _ => none
  | budget + 1, text =>
    (item text).bind fun (first, rest) =>
      match skipBlank rest with
      | c :: rest =>
        if c = ',' then
          (items item close budget rest).map fun (more, back) => (first :: more, back)
        else if c = close then some ([first], rest)
        else none
      | [] => none

/-- Read items that may be none at all. -/
def itemsOrNone {α : Type} (item : List Char → Option (α × List Char)) (close : Char)
    (text : List Char) : Option (List α × List Char) :=
  match skipBlank text with
  | c :: rest => if c = close then some ([], rest) else items item close text.length text
  | [] => none

/-- A key, a colon and a value. -/
def entry (value : List Char → Option (Data × List Char)) (text : List Char) :
    Option ((String × Data) × List Char) :=
  match skipBlank text with
  | '"' :: rest =>
    (string? rest).bind fun (key, rest) =>
      match skipBlank rest with
      | ':' :: rest => (value rest).map fun (data, rest) => ((key, data), rest)
      | _ => none
  | _ => none

/-- A word that stands for itself. -/
def word? (word : String) (data : Data) (text : List Char) : Option (Data × List Char) :=
  (Text.after? word.toList text).map (data, ·)

/-- A value whose brackets nest at most `depth` deep, and what follows it. -/
def value (depth : Nat) (text : List Char) : Option (Data × List Char) :=
  match skipBlank text with
  | '"' :: rest => (string? rest).map fun (content, rest) => (.string content, rest)
  | '[' :: rest =>
    match depth with
    | 0 => none
    | depth + 1 => (itemsOrNone (value depth) ']' rest).map fun (data, rest) => (.list data, rest)
  | '{' :: rest =>
    match depth with
    | 0 => none
    | depth + 1 =>
      (itemsOrNone (entry (value depth)) '}' rest).map fun (entries, rest) =>
        (.ofEntries entries, rest)
  | 't' :: rest => word? "rue" (.boolean true) rest
  | 'f' :: rest => word? "alse" (.boolean false) rest
  | 'n' :: rest => word? "ull" .null rest
  | text => Number.read? text

/-- The value of a text that holds one and nothing else. -/
def parse? (text : String) : Option Data :=
  match value 127 text.toList with
  | some (data, rest) => if (skipBlank rest).isEmpty then some data else none
  | none => none

end Infill.Json
