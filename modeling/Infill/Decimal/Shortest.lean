import Infill.Decimal.Width

/-!
Decimal text of floating numbers: the fewest digits that read back as the same
number, and of those the nearest, written without an exponent.
-/
namespace Infill.Decimal

/-- A finite number as a multiple of a power of two. -/
structure Binary where
  significand : Nat
  exponent : Int
  deriving DecidableEq, Inhabited, Repr

/-- The size of a finite floating number. -/
def Binary.ofBits (bits : UInt64) : Binary :=
  let fraction := bits.toNat % capacity 52
  let exponent : Nat := bits.toNat / capacity 52 % capacity 11
  if exponent = 0 then ⟨fraction, -1074⟩ else ⟨fraction + capacity 52, Int.ofNat exponent - 1075⟩

/-- Decimal digits, and the power of ten that the last one counts. -/
structure Digits where
  value : Nat
  exponent : Int
  deriving DecidableEq, Inhabited, Repr

/-- Both sides of a comparison as whole numbers: `left · 2 ^ two` stands against
`right · 10 ^ ten`. -/
def align (left : Nat) (two : Int) (right : Nat) (ten : Int) : Nat × Nat :=
  (left * capacity two.toNat * Nat.pow 10 (-ten).toNat,
    right * Nat.pow 10 ten.toNat * capacity (-two).toNat)

/-- The greatest power of ten that does not exceed a number above zero. -/
def Binary.magnitude (b : Binary) : Int :=
  let estimate := ((b.exponent + Nat.log2 b.significand) * 30103).fdiv 100000
  let reaches (power : Int) : Bool :=
    let (left, right) := align b.significand b.exponent 1 power
    right ≤ left
  if reaches (estimate + 1) then estimate + 1
  else if reaches estimate then estimate
  else estimate - 1

/-- Whether a decimal lies among the numbers that are read as `b`: up to half
way to the neighbours, the ends included where the significand is even. Below a
power of two the neighbour is half as far. -/
def Binary.covers (b : Binary) (digits : Digits) : Bool :=
  let below := if b.significand = capacity 52 ∧ -1074 < b.exponent then 1 else 2
  let ends := b.significand % 2 == 0
  let (low, right) :=
    align (4 * b.significand - below) (b.exponent - 2) digits.value digits.exponent
  let (high, _) := align (4 * b.significand + 2) (b.exponent - 2) digits.value digits.exponent
  if ends then low ≤ right && right ≤ high else low < right && right < high

/-- The neighbours of a number among the decimals with a last digit of weight
`10 ^ exponent`, the nearer one first. -/
def Binary.neighbours (b : Binary) (exponent : Int) : List Digits :=
  let (left, unit) := align b.significand b.exponent 1 exponent
  let lower : Digits := ⟨left / unit, exponent⟩
  let upper : Digits := ⟨left / unit + 1, exponent⟩
  if 2 * (left % unit) < unit then [lower, upper] else [upper, lower]

/-- The fewest digits of a number above zero; seventeen are always enough. The
first grid is there for a number that is just short of a power of ten. -/
def Binary.shortest (b : Binary) : Digits :=
  let grids := (List.range 18).map fun count => b.magnitude + 1 - Int.ofNat count
  let found := grids.findSome? fun exponent => (b.neighbours exponent).find? b.covers
  found.getD ⟨b.significand, b.exponent⟩

/-- Digits with a point, as many zeros as it takes, and no exponent. -/
def Digits.positional (digits : Digits) : List Char :=
  let text := Nat.toDigits 10 digits.value
  if 0 ≤ digits.exponent then text ++ List.replicate digits.exponent.toNat '0' ++ ['.', '0']
  else
    let places := (-digits.exponent).toNat
    let padded := List.replicate (places + 1 - text.length) '0' ++ text
    padded.take (padded.length - places) ++ '.' :: padded.drop (padded.length - places)

/-- The text of a floating number. A whole one keeps a zero behind the point. -/
def text (value : Float) : List Char :=
  if value.isNaN then ['N', 'a', 'N']
  else
    let sign := if value.toBits.toNat / capacity 63 = 1 then ['-'] else []
    let size : List Char :=
      if value.isInf then ['i', 'n', 'f']
      else
        let b := Binary.ofBits value.toBits
        if b.significand = 0 then ['0', '.', '0'] else b.shortest.positional
    sign ++ size

end Infill.Decimal
