import Infill.Decimal.Reader
import Infill.Error
import Infill.Text.Bytes

/-!
Bytes as pairs of hexadecimal digits. Written digits are lowercase; either case
is read, and a plus sign in place of the high digit reads as zero.
-/
namespace Infill.Tape.Hex

/-- The lowercase digit of a number below sixteen. -/
def digit (n : Nat) : Char :=
  if n < 10 then Char.ofNat (n + 48) else Char.ofNat (n + 87)

/-- The value of a digit in either case. -/
def value? (c : Char) : Option Nat :=
  Decimal.digit? 16 c

/-- The digits of bytes. -/
def encode (bytes : List UInt8) : List Char :=
  bytes.flatMap fun byte => [digit (byte.toNat / 16), digit (byte.toNat % 16)]

/-- The byte of a pair. -/
def pair? (high low : Char) : Option UInt8 :=
  if high = '+' then (value? low).map UInt8.ofNat
  else do return UInt8.ofNat ((← value? high) * 16 + (← value? low))

/-- The bytes of pairs. -/
def pairs? : List Char → Option (List UInt8)
  | [] => some []
  | [_] => none
  | high :: low :: rest => do return (← pair? high low) :: (← pairs? rest)

/-- The bytes of a text. -/
def decode (text : List Char) : Except TapeFault (List UInt8) :=
  if Text.byteLength text % 2 = 1 then .error .oddHex
  else match pairs? text with
    | some bytes => .ok bytes
    | none => .error (.invalidHex (String.ofList text))

end Infill.Tape.Hex
