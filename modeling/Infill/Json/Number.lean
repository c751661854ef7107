import Infill.Data
import Infill.Decimal.Reader
import Infill.Decimal.Width

/-!
Numbers of JSON texts. A number without fraction and exponent is an integer
where 64 bits hold it; every other one is floating. A floating number is read
from at most the digits that 64 bits hold, scaled by one power of ten, so its
last bit may differ from the nearest value's.
-/
namespace Infill.Json.Number

/-- The greatest significand that is read. -/
def limit : Nat := Decimal.capacity 64 - 1

/-- The value of a decimal digit. -/
def digit? (c : Char) : Option Nat :=
  Decimal.digit? 10 c

/-- Digits that are read into a significand as far as the limit allows: the
significand, how many were read, and what follows. -/
def digits : Nat → List Char → Nat × Nat × List Char
  | significand, [] => (significand, 0, [])
  | significand, c :: text =>
    match digit? c with
    | some value =>
      if significand * 10 + value ≤ limit then
        let (total, read, rest) := digits (significand * 10 + value) text
        (total, read + 1, rest)
      else (significand, 0, c :: text)
    | none => (significand, 0, c :: text)

/-- How many digits a text begins with, and what follows them. -/
def passDigits (text : List Char) : Nat × List Char :=
  ((text.takeWhile (digit? · |>.isSome)).length, text.dropWhile (digit? · |>.isSome))

/-- Ten to a power of at most 308. -/
def powerOfTen (exponent : Nat) : Float :=
  Float.ofScientific 1 false exponent

/-- Scale a value by a power of ten, which may be far out of range. Large
values are refused, small ones become zero. -/
def scale (value : Float) (exponent : Int) : Option Float :=
  if 0 ≤ exponent then
    if exponent ≤ 308 then
      let scaled := value * powerOfTen exponent.toNat
      if scaled.isInf then none else some scaled
    else if value == 0 then some value
    else none
  else shrink value (-exponent).toNat
where
  /-- Divide by a power of ten in steps of at most 308. -/
  shrink (value : Float) (exponent : Nat) : Option Float :=
    if exponent ≤ 308 then some (value / powerOfTen exponent)
    else if value == 0 then some value
    else shrink (value / powerOfTen 308) (exponent - 308)
  termination_by exponent

/-- A floating number with its sign. -/
def float? (negative : Bool) (significand : Nat) (exponent : Int) : Option Data :=
  (scale (UInt64.ofNat significand).toFloat exponent).map fun value =>
    .real (if negative then -value else value)

/-- The exponent behind an `e`. Its size is read up to 31 bits; a larger one
makes a number zero or puts it out of range. -/
def exponent? (negative : Bool) (significand : Nat) (start : Int) (text : List Char) :
    Option (Data × List Char) :=
  let (down, text) := match text with
    | '-' :: text => (true, text)
    | '+' :: text => (false, text)
    | text => (false, text)
  let count := passDigits text
  if count.1 = 0 then none
  else
    let size := (text.take count.1).foldl (fun total c => total * 10 + (digit? c).getD 0) 0
    if size < Decimal.capacity 31 then
      let shifted := if down then start - size else start + size
      let reach := Int.ofNat (Decimal.capacity 31)
      let clamped := max (-reach) (min shifted (reach - 1))
      (float? negative significand clamped).map (·, count.2)
    else if significand ≠ 0 ∧ !down then none
    else some (.real (if negative then -0.0 else 0.0), count.2)

/-- What follows the digits of a floating number. -/
def finish? (negative : Bool) (significand : Nat) (exponent : Int) (text : List Char) :
    Option (Data × List Char) :=
  match text with
  | c :: rest =>
    if c = 'e' ∨ c = 'E' then exponent? negative significand exponent rest
    else (float? negative significand exponent).map (·, c :: rest)
  | [] => (float? negative significand exponent).map (·, [])

/-- The fraction behind a point, which has at least one digit. -/
def fraction? (negative : Bool) (significand : Nat) (exponent : Int) (text : List Char) :
    Option (Data × List Char) :=
  let (total, read, rest) := digits significand text
  let (passed, rest) := passDigits rest
  if read + passed = 0 then none
  else finish? negative total (exponent - read) rest

/-- What follows the digits of the whole part, of which `skipped` were too many. -/
def afterWhole? (negative : Bool) (significand skipped : Nat) (text : List Char) :
    Option (Data × List Char) :=
  match text with
  | '.' :: rest => fraction? negative significand skipped rest
  | text =>
    let isFloating := skipped ≠ 0 ∨ text.head? = some 'e' ∨ text.head? = some 'E'
      ∨ (negative ∧ (significand = 0 ∨ Decimal.capacity 63 < significand))
    if isFloating then finish? negative significand skipped text
    else some (.integer (if negative then -significand else significand), text)

/-- A number, and what follows it. -/
def read? (text : List Char) : Option (Data × List Char) :=
  let (negative, text) := match text with
    | '-' :: text => (true, text)
    | text => (false, text)
  match text with
  | '0' :: rest =>
    if (rest.head?.bind digit?).isSome then none else afterWhole? negative 0 0 rest
  | c :: _ =>
    if (digit? c).isSome then
      let (significand, _, rest) := digits 0 text
      let (skipped, rest) := passDigits rest
      afterWhole? negative significand skipped rest
    else none
  | [] => none

end Infill.Json.Number
