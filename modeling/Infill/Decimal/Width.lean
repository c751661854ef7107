/-!
Numbers of a limited width.
-/
namespace Infill.Decimal

/-- How many numbers so many bits hold. -/
def capacity (bits : Nat) : Nat :=
  Nat.pow 2 bits

/-- Whether so many bits hold a number with its sign. -/
def isSigned (bits : Nat) (n : Int) : Bool :=
  -Int.ofNat (capacity (bits - 1)) ≤ n && n < Int.ofNat (capacity (bits - 1))

/-- Whether so many bits hold a number that is not below zero. -/
def isUnsigned (bits : Nat) (n : Int) : Bool :=
  0 ≤ n && n < Int.ofNat (capacity bits)

end Infill.Decimal
