import Infill.Data
import Infill.Decimal.Reader
import Infill.Decimal.Width
import Infill.Text.Split

/-!
Numbers, truth values and dates of TOML texts. Underscores may stand between
digits. Dates are kept as text in their plain form.
-/
namespace Infill.Toml

/-- Digits with single underscores between them, which are left out. -/
def digits? (isDigit : Char → Bool) : List Char → Option (List Char)
  | [] => none
  | [c] => if isDigit c then some [c] else none
  | c :: '_' :: rest => if isDigit c then (digits? isDigit rest).map (c :: ·) else none
  | c :: rest => if isDigit c then (digits? isDigit rest).map (c :: ·) else none

/-- The digits of a whole number, without needless zeros in front. -/
def wholeDigits? (text : List Char) : Option (List Char) :=
  (digits? Char.isDigit text).bind fun digits =>
    if digits.length ≠ 1 ∧ digits.head? = some '0' then none else some digits

/-- Whole numbers have 64 bits. -/
def integerInRange? (n : Int) : Option Data :=
  if Decimal.isSigned 64 n then some (.integer n) else none

/-- A whole number, in another base if it says so. -/
def integer? (text : List Char) : Option Data :=
  let based (base : Nat) (digits : List Char) : Option Data :=
    ((digits? (fun c => (Decimal.digit? base c).isSome) digits).bind (Decimal.natural? base)).bind
      fun n => integerInRange? n
  match text with
  | '0' :: 'x' :: digits => based 16 digits
  | '0' :: 'o' :: digits => based 8 digits
  | '0' :: 'b' :: digits => based 2 digits
  | text =>
    let (negative, digits) := Decimal.sign text
    ((wholeDigits? digits).bind (Decimal.natural? 10)).bind fun n =>
      integerInRange? (if negative then -Int.ofNat n else n)

/-- A floating number. What is not finite has no data. -/
def real? (text : List Char) : Option Data :=
  let (_, size) := Decimal.sign text
  if size = "inf".toList ∨ size = "nan".toList then some .null
  else
    let whole := size.takeWhile fun c => c != '.' && c != 'e' && c != 'E'
    let rest := size.drop whole.length
    let (fraction, rest) := match rest with
      | '.' :: rest =>
        (some (rest.takeWhile fun c => c != 'e' && c != 'E'),
          rest.dropWhile fun c => c != 'e' && c != 'E')
      | rest => (none, rest)
    let exponent := rest.drop 1
    let isGood := (wholeDigits? whole).isSome
      && fraction.all (fun digits => (digits? Char.isDigit digits).isSome)
      && (rest.isEmpty || (digits? Char.isDigit (Decimal.sign exponent).2).isSome)
      && (fraction.isSome || !rest.isEmpty)
    if isGood then
      (Decimal.real? (text.filter (· != '_'))).bind fun value =>
        if value.isInf then none else some (.real value)
    else none

/-- A number of so many digits, within limits, and what follows it. -/
def field? (count low high : Nat) (text : List Char) : Option (Nat × List Char) :=
  let digits := text.take count
  if digits.length = count ∧ digits.all Char.isDigit then
    (Decimal.natural? 10 digits).bind fun n =>
      if low ≤ n ∧ n ≤ high then some (n, text.drop count) else none
  else none

/-- Two digits of a number below a hundred. -/
def twoDigits (n : Nat) : List Char :=
  (if n < 10 then ['0'] else []) ++ Nat.toDigits 10 n

/-- The days of a month. -/
def daysIn (year month : Nat) : Nat :=
  if month = 2 then
    if year % 4 = 0 ∧ (year % 100 ≠ 0 ∨ year % 400 = 0) then 29 else 28
  else if [4, 6, 9, 11].contains month then 30
  else 31

/-- A day, and what follows it. -/
def date? (text : List Char) : Option (List Char × List Char) := do
  let (year, rest) ← field? 4 0 9999 text
  let (month, rest) ← field? 2 1 12 (← Text.after? ['-'] rest)
  let (day, rest) ← field? 2 1 31 (← Text.after? ['-'] rest)
  if daysIn year month < day then none
  return (text.take 10, rest)

/-- The fraction of a second as it is written: at most nine digits, and no zero
at the end except a single one. -/
def fractionText (digits : List Char) : List Char :=
  let kept := ((digits.take 9).reverse.dropWhile (· == '0')).reverse
  '.' :: (if kept.isEmpty then ['0'] else kept)

/-- A time of day, and what follows it. The seconds may be left out. -/
def time? (text : List Char) : Option (List Char × List Char) := do
  let (_, rest) ← field? 2 0 23 text
  let (_, rest) ← field? 2 0 59 (← Text.after? [':'] rest)
  match rest with
  | ':' :: rest =>
    let (_, rest) ← field? 2 0 60 rest
    match rest with
    | '.' :: rest =>
      let digits := rest.takeWhile Char.isDigit
      if digits.isEmpty then none
      else return (text.take 8 ++ fractionText digits, rest.dropWhile Char.isDigit)
    | rest => return (text.take 8, rest)
  | rest => return (text.take 5, rest)

/-- The distance of a time from universal time. None at all has a plus sign. -/
def offset? (text : List Char) : Option (List Char) :=
  match text with
  | [] => some []
  | ['Z'] | ['z'] => some ['Z']
  | c :: rest =>
    if c = '+' ∨ c = '-' then do
      let (hours, rest) ← field? 2 0 23 rest
      let (minutes, rest) ← field? 2 0 59 (← Text.after? [':'] rest)
      let sign := if hours = 0 ∧ minutes = 0 then '+' else c
      if rest.isEmpty then some (sign :: twoDigits hours ++ ':' :: twoDigits minutes) else none
    else none

/-- A day, a time of day, or both with or without an offset. -/
def moment? (text : List Char) : Option Data :=
  match date? text with
  | some (day, []) => some (.string (String.ofList day))
  | some (day, c :: rest) =>
    if c = 'T' ∨ c = 't' ∨ c = ' ' then do
      let (time, rest) ← time? rest
      let offset ← offset? rest
      return .string (String.ofList (day ++ 'T' :: time ++ offset))
    else none
  | none =>
    match time? text with
    | some (time, []) => some (.string (String.ofList time))
    | _ => none

/-- A value that is neither text nor made up of others. -/
def scalar? (text : List Char) : Option Data :=
  if text = "true".toList then some (.boolean true)
  else if text = "false".toList then some (.boolean false)
  else (integer? text).or ((real? text).or (moment? text))

end Infill.Toml
