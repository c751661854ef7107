/-!
Reading numbers in a base, and reading floating numbers from decimal text: the
nearest number to what is written.
-/
namespace Infill.Decimal

/-- The value of a digit in a base up to sixteen, in either case. -/
def digit? (base : Nat) (c : Char) : Option Nat :=
  let value :=
    if '0' ≤ c ∧ c ≤ '9' then some (c.toNat - 48)
    else if 'a' ≤ c ∧ c ≤ 'f' then some (c.toNat - 87)
    else if 'A' ≤ c ∧ c ≤ 'F' then some (c.toNat - 55)
    else none
  value.filter (· < base)

/-- The number that digits stand for; there is at least one. -/
def natural? (base : Nat) : List Char → Option Nat
  | [] => none
  | digits => digits.foldlM (fun total c => (digit? base c).map (total * base + ·)) 0

/-- A sign in front of a text, true for minus. -/
def sign (text : List Char) : Bool × List Char :=
  match text with
  | '-' :: rest => (true, rest)
  | '+' :: rest => (false, rest)
  | rest => (false, rest)

/-- The number `digits · 10 ^ exponent`. An exponent far out of range gives the
same number as one just out of range. -/
def scaled (digits : Nat) (exponent : Int) : Float :=
  let room : Int := Int.ofNat (Nat.log2 (digits + 1)) + 400
  let exponent := max (-room) (min exponent 400)
  Float.ofScientific digits (exponent < 0) exponent.natAbs

/-- The size of a floating number: digits with or without a point, at least one
of them, and an exponent if there is one. -/
def magnitude? (text : List Char) : Option Float :=
  let whole := text.takeWhile Char.isDigit
  let rest := text.dropWhile Char.isDigit
  let (fraction, rest) := match rest with
    | '.' :: rest => (rest.takeWhile Char.isDigit, rest.dropWhile Char.isDigit)
    | rest => ([], rest)
  match natural? 10 (whole ++ fraction) with
  | none => none
  | some digits =>
    match rest with
    | [] => some (scaled digits (-Int.ofNat fraction.length))
    | c :: rest =>
      if c = 'e' ∨ c = 'E' then
        let (down, rest) := sign rest
        (natural? 10 rest).map fun size =>
          scaled digits ((if down then -Int.ofNat size else Int.ofNat size) - fraction.length)
      else none

/-- A floating number with its sign. -/
def real? (text : List Char) : Option Float :=
  let (negative, rest) := sign text
  (magnitude? rest).map fun value => if negative then -value else value

end Infill.Decimal
