import Infill.Decimal.Width
import Infill.Error

/-!
Numbers as sequences of bytes with seven bits in each, the low ones first. All
bytes but the last carry a mark. Reading takes ten bytes at most and keeps the
low 64 bits.
-/
namespace Infill.Tape.Varint

/-- The shortest bytes of a number. -/
def encode (n : Nat) : List UInt8 :=
  if n < 128 then [UInt8.ofNat n] else UInt8.ofNat (n % 128 + 128) :: encode (n / 128)

/-- The number of which the bits below `shift` are `low`, and what follows it. -/
def decodeFrom (shift low : Nat) : List UInt8 → Except TapeFault (Nat × List UInt8)
  | [] => .error .truncatedRecord
  | byte :: bytes =>
    if 64 ≤ shift then .error .numberOverflow
    else
      let value := low + byte.toNat % 128 * Decimal.capacity shift % Decimal.capacity 64
      if byte.toNat < 128 then .ok (value, bytes) else decodeFrom (shift + 7) value bytes

/-- A number, and what follows it. -/
def decode (bytes : List UInt8) : Except TapeFault (Nat × List UInt8) :=
  decodeFrom 0 0 bytes

end Infill.Tape.Varint
