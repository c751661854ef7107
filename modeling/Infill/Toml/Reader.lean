import Infill.Toml.Scalar
import Infill.Toml.Table

/-!
Reading TOML texts: lines with a key and its value, and headers that say which
table the following lines belong to.
-/
namespace Infill.Toml

def isBlank (c : Char) : Bool :=
  c == ' ' || c == '\t'

/-- Whether a character may not stand in comments and strings. -/
def isControl (c : Char) : Bool :=
  (c.toNat < 0x20 && c != '\t') || c.toNat == 0x7F

def skipBlank (text : List Char) : List Char :=
  text.dropWhile isBlank

/-- What follows a line end. -/
def lineEnd? : List Char → Option (List Char)
  | '\n' :: rest => some rest
  | '\r' :: '\n' :: rest => some rest
  | _ => none

/-- What follows a comment up to the line end, if there is a comment. -/
def skipComment? (text : List Char) : Option (List Char) :=
  match text with
  | '#' :: rest =>
    let rest := rest.dropWhile (!isControl ·)
    if rest.isEmpty || (lineEnd? rest).isSome then some rest else none
  | rest => some rest

/-- What follows blanks, comments and line ends, in at most so many steps. -/
def skipLines? : (budget : Nat) → List Char → Option (List Char)
  | 0, _ => none
  | budget + 1, text =>
    (skipComment? (skipBlank text)).bind fun rest =>
      match lineEnd? rest with
      | some rest => skipLines? budget rest
      | none => some rest

/-- The character of an escape with so many hexadecimal digits. -/
def codePoint? (count : Nat) (text : List Char) : Option (Char × List Char) :=
  let digits := text.take count
  if digits.length = count then
    (Decimal.natural? 16 digits).bind fun code =>
      if code.isValidChar then some (Char.ofNat code, text.drop count) else none
  else none

/-- The character of an escape behind its backslash. -/
def escaped? : List Char → Option (Char × List Char)
  | 'b' :: rest => some ('\x08', rest)
  | 't' :: rest => some ('\t', rest)
  | 'n' :: rest => some ('\n', rest)
  | 'f' :: rest => some ('\x0c', rest)
  | 'r' :: rest => some ('\r', rest)
  | 'e' :: rest => some ('\x1b', rest)
  | '"' :: rest => some ('"', rest)
  | '\\' :: rest => some ('\\', rest)
  | 'x' :: rest => codePoint? 2 rest
  | 'u' :: rest => codePoint? 4 rest
  | 'U' :: rest => codePoint? 8 rest
  | _ => none

/-- The rest of a string on one line behind its opening quote. -/
def stringTail? (quote : Char) : (budget : Nat) → List Char → Option (List Char × List Char)
  | 0, _ => none
  | _, [] => none
  | budget + 1, c :: text =>
    if c = quote then some ([], text)
    else if isControl c then none
    else if c = '\\' ∧ quote = '"' then
      (escaped? text).bind fun (found, rest) =>
        (stringTail? quote budget rest).map fun (front, back) => (found :: front, back)
    else (stringTail? quote budget text).map fun (front, back) => (c :: front, back)

/-- What follows a backslash at the end of a line: all blanks and line ends are
passed over. -/
def joinedLine? (text : List Char) : Option (List Char) :=
  (lineEnd? (skipBlank text)).map fun rest =>
    rest.dropWhile fun c => isBlank c || c == '\n' || c == '\r'

/-- The rest of a string over several lines. Three quotes close it, and up to
two more in front of them belong to it. -/
def linesTail? (quote : Char) : (budget : Nat) → List Char → Option (List Char × List Char)
  | 0, _ => none
  | _, [] => none
  | budget + 1, c :: text =>
    if c = quote then
      let quotes := (text.takeWhile (· == quote)).length + 1
      let rest := text.dropWhile (· == quote)
      if quotes < 3 then
        (linesTail? quote budget rest).map fun (front, back) =>
          (List.replicate quotes quote ++ front, back)
      else if quotes ≤ 5 then some (List.replicate (quotes - 3) quote, rest)
      else none
    else
      match lineEnd? (c :: text) with
      | some rest => (linesTail? quote budget rest).map fun (front, back) => ('\n' :: front, back)
      | none =>
        if isControl c then none
        else if c = '\\' ∧ quote = '"' then
          match joinedLine? text with
          | some rest => linesTail? quote budget rest
          | none =>
            (escaped? text).bind fun (found, rest) =>
              (linesTail? quote budget rest).map fun (front, back) => (found :: front, back)
        else (linesTail? quote budget text).map fun (front, back) => (c :: front, back)

/-- A string that begins with a quote. -/
def string? (quote : Char) (text : List Char) : Option (String × List Char) :=
  let found := match text with
    | a :: b :: rest =>
      if a = quote ∧ b = quote then
        linesTail? quote (rest.length + 1) ((lineEnd? rest).getD rest)
      else stringTail? quote (text.length + 1) text
    | text => stringTail? quote (text.length + 1) text
  found.map fun (front, back) => (String.ofList front, back)

def isBareKey (c : Char) : Bool :=
  c.isAlphanum || c == '_' || c == '-'

/-- A key without dots. -/
def simpleKey? (text : List Char) : Option (String × List Char) :=
  match text with
  | c :: rest =>
    if c = '"' ∨ c = '\'' then
      (stringTail? c (rest.length + 1) rest).map fun (front, back) => (String.ofList front, back)
    else
      let name := text.takeWhile isBareKey
      if name.isEmpty then none else some (String.ofList name, text.dropWhile isBareKey)
  | [] => none

/-- A key, which may have dots, and what follows it and the blanks behind it. -/
def key? : (budget : Nat) → List Char → Option (List String × List Char)
  | 0, _ => none
  | budget + 1, text =>
    (simpleKey? (skipBlank text)).bind fun (name, rest) =>
      match skipBlank rest with
      | '.' :: rest => (key? budget rest).map fun (names, rest) => (name :: names, rest)
      | rest => some ([name], rest)

/-- The characters of numbers and dates. -/
def isScalarPart (c : Char) : Bool :=
  c.isAlphanum || c == '_' || c == '+' || c == '-' || c == '.' || c == ':'

/-- A number, a truth value or a date. A time may stand a blank behind its day. -/
def bare? (text : List Char) : Option (Data × List Char) :=
  let front := text.takeWhile isScalarPart
  let rest := text.dropWhile isScalarPart
  let time := match rest with
    | ' ' :: rest => rest.takeWhile isScalarPart
    | _ => []
  if (date? front).any (·.2.isEmpty) && (time? time).isSome then
    (scalar? (front ++ ' ' :: time)).map (·, rest.drop (time.length + 1))
  else (scalar? front).map (·, rest)

mutual

/-- A value that is nested at most `depth` deep. -/
def value? : (depth : Nat) → List Char → Option (Data × List Char)
  | depth, text =>
    match text with
    | [] => none
    | c :: rest =>
      if c = '"' ∨ c = '\'' then (string? c rest).map fun (content, rest) => (.string content, rest)
      else if c = '[' then
        match depth with
        | 0 => none
        | depth + 1 => (items? depth rest.length rest).map fun (items, rest) => (.list items, rest)
      else if c = '{' then
        match depth with
        | 0 => none
        | depth + 1 =>
          (pairs? depth rest.length [] rest).map fun (entries, rest) =>
            ((Entry.table .header entries).data, rest)
      else bare? text

/-- The items of a list up to its closing bracket. -/
def items? : (depth budget : Nat) → List Char → Option (List Data × List Char)
  | _, 0, _ => none
  | depth, budget + 1, text =>
    (skipLines? (text.length + 1) text).bind fun text =>
      match text with
      | ']' :: rest => some ([], rest)
      | text =>
        (value? depth text).bind fun (item, rest) =>
          (skipLines? (rest.length + 1) rest).bind fun rest =>
            match rest with
            | ',' :: rest => (items? depth budget rest).map fun (more, rest) => (item :: more, rest)
            | ']' :: rest => some ([item], rest)
            | _ => none

/-- The entries of a table in brackets up to the closing one. -/
def pairs? : (depth budget : Nat) → Entries → List Char → Option (Entries × List Char)
  | _, 0, _, _ => none
  | depth, budget + 1, entries, text =>
    (skipLines? (text.length + 1) text).bind fun text =>
      match text with
      | '}' :: rest => some (entries, rest)
      | text =>
        (key? text.length text).bind fun (path, rest) =>
          match rest with
          | '=' :: rest =>
            (value? depth (skipBlank rest)).bind fun (data, rest) =>
              (entries.assign data path).bind fun entries =>
                (skipLines? (rest.length + 1) rest).bind fun rest =>
                  match rest with
                  | ',' :: rest => pairs? depth budget entries rest
                  | '}' :: rest => some (entries, rest)
                  | _ => none
          | _ => none

end

/-- A text that is partly read: the table as a whole, and the header that the
next lines belong to. -/
structure Progress where
  root : Entries := []
  header : List String := []
  deriving Inhabited

/-- Read a header behind its first bracket. -/
def header? (progress : Progress) (text : List Char) : Option (Progress × List Char) :=
  let isList := text.head? == some '['
  let text := if isList then text.drop 1 else text
  (key? text.length text).bind fun (path, rest) =>
    let closing := if isList then [']', ']'] else [']']
    (Text.after? closing rest).bind fun rest =>
      match path.getLast? with
      | none => none
      | some key =>
        let change := if isList then Entries.addTable key else Entries.openTable key
        (progress.root.within change path.dropLast).map fun root => (⟨root, path⟩, rest)

/-- How deep the brackets of a value nest at most. -/
def nestingLimit : Nat :=
  80

/-- Read a key and its value. -/
def assignment? (progress : Progress) (text : List Char) : Option (Progress × List Char) :=
  (key? text.length text).bind fun (path, rest) =>
    match rest with
    | '=' :: rest =>
      (value? nestingLimit (skipBlank rest)).bind fun (data, rest) =>
        (progress.root.within (Entries.assign data path) progress.header).map fun root =>
          ({ progress with root := root }, rest)
    | _ => none

/-- Read all lines, in at most so many steps as `budget`. -/
def lines? : (budget : Nat) → Progress → List Char → Option Entries
  | 0, _, _ => none
  | budget + 1, progress, text =>
    (skipLines? (text.length + 1) text).bind fun text =>
      match text with
      | [] => some progress.root
      | c :: rest =>
        (if c = '[' then header? progress rest else assignment? progress (c :: rest)).bind
          fun (progress, rest) =>
            (skipComment? (skipBlank rest)).bind fun rest =>
              if rest.isEmpty then some progress.root
              else (lineEnd? rest).bind fun rest => lines? budget progress rest

/-- The data of a TOML text. -/
def parse? (text : String) : Option Data :=
  let text := match text.toList with
    | '\uFEFF' :: rest => rest
    | rest => rest
  (lines? (text.length + 1) {} text).map fun entries => (Entry.table .header entries).data

end Infill.Toml
