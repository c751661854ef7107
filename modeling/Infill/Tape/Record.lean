import Infill.Line
import Infill.Tape.Varint

/-!
Pointers as bytes: a version, the length of the path and its steps, a flag for
constant entries, and the four numbers of the pointer.
-/
namespace Infill.Tape.Record

/-- The version in front of every record. -/
def version : UInt8 := 1

/-- The bytes of a pointer. -/
def pack (pointer : Pointer) : List UInt8 :=
  version :: Varint.encode pointer.path.length
    ++ pointer.path.flatMap Varint.encode
    ++ [if pointer.isConstant then 1 else 0]
    ++ Varint.encode pointer.total
    ++ Varint.encode pointer.offset
    ++ Varint.encode pointer.length
    ++ Varint.encode pointer.index

/-- One byte, and what follows it. -/
def takeByte : List UInt8 → Except TapeFault (UInt8 × List UInt8)
  | [] => .error .truncatedRecord
  | byte :: bytes => .ok (byte, bytes)

/-- As many numbers as asked for, and what follows them. -/
def takeNumbers : Nat → List UInt8 → Except TapeFault (List Nat × List UInt8)
  | 0, bytes => .ok ([], bytes)
  | count + 1, bytes => do
    let (number, bytes) ← Varint.decode bytes
    let (numbers, bytes) ← takeNumbers count bytes
    return (number :: numbers, bytes)

/-- The pointer that bytes stand for. No byte may be left over. -/
def unpack (bytes : List UInt8) : Except TapeFault Pointer := do
  let (found, bytes) ← takeByte bytes
  if found ≠ version then .error (.unknownVersion found.toNat)
  let (depth, bytes) ← Varint.decode bytes
  let (path, bytes) ← takeNumbers depth bytes
  let (flag, bytes) ← takeByte bytes
  if 1 < flag.toNat then .error (.invalidFlag flag.toNat)
  let (total, bytes) ← Varint.decode bytes
  let (offset, bytes) ← Varint.decode bytes
  let (length, bytes) ← Varint.decode bytes
  let (index, bytes) ← Varint.decode bytes
  if bytes ≠ [] then .error .trailingBytes
  return ⟨path, flag == 1, total, offset, length, index⟩

end Infill.Tape.Record
