import Infill.Tape
import Mathlib.Tactic.Ring

/-!
Records are read back as they were written. The digits of a byte give the byte,
the bytes of a number below 2 ^ 64 give the number, whatever follows them, and
so a pointer whose numbers all have this width comes back field by field.
-/
namespace Infill

namespace Tape.Hex

variable {n : Nat} {c : Char}

theorem value?_digit (h : n < 16) : value? (digit n) = some n := by
  have all : ∀ n : Fin 16, value? (digit n) = some n.val := by decide
  exact all ⟨n, h⟩

theorem digit_ne_plus (h : n < 16) : digit n ≠ '+' := by
  have all : ∀ n : Fin 16, digit n ≠ '+' := by decide
  exact all ⟨n, h⟩

theorem isMark_digit (h : n < 16) : isMark (digit n) = false := by
  have all : ∀ n : Fin 16, isMark (digit n) = false := by decide
  exact all ⟨n, h⟩

theorem utf8Size_digit (h : n < 16) : (digit n).utf8Size = 1 := by
  have all : ∀ n : Fin 16, (digit n).utf8Size = 1 := by decide
  exact all ⟨n, h⟩

theorem high_lt (byte : UInt8) : byte.toNat / 16 < 16 := by
  have := byte.toNat_lt
  omega

theorem low_lt (byte : UInt8) : byte.toNat % 16 < 16 :=
  Nat.mod_lt _ (by decide)

theorem encode_cons (byte : UInt8) (bytes : List UInt8) :
    encode (byte :: bytes) = digit (byte.toNat / 16) :: digit (byte.toNat % 16) :: encode bytes :=
  rfl

theorem pair?_digits (byte : UInt8) :
    pair? (digit (byte.toNat / 16)) (digit (byte.toNat % 16)) = some byte := by
  have hByte : byte.toNat / 16 * 16 + byte.toNat % 16 = byte.toNat := by omega
  rw [pair?, if_neg (digit_ne_plus (high_lt byte)), value?_digit (high_lt byte),
    value?_digit (low_lt byte)]
  change some (UInt8.ofNat (byte.toNat / 16 * 16 + byte.toNat % 16)) = some byte
  rw [hByte, UInt8.ofNat_toNat]

theorem pairs?_encode (bytes : List UInt8) : pairs? (encode bytes) = some bytes := by
  induction bytes with
  | nil => rfl
  | cons byte bytes ih =>
    rw [encode_cons, pairs?, pair?_digits, ih]
    rfl

theorem byteLength_encode (bytes : List UInt8) :
    Text.byteLength (encode bytes) = 2 * bytes.length := by
  induction bytes with
  | nil => rfl
  | cons byte bytes ih =>
    rw [encode_cons, Text.byteLength_cons, Text.byteLength_cons, utf8Size_digit (high_lt byte),
      utf8Size_digit (low_lt byte), ih, List.length_cons]
    omega

/-- Bytes are read back from their digits. -/
theorem decode_encode (bytes : List UInt8) : decode (encode bytes) = .ok bytes := by
  rw [decode, if_neg (by rw [byteLength_encode]; omega), pairs?_encode]

/-- No digit delimits a record. -/
theorem isMark_of_mem_encode {bytes : List UInt8} (h : c ∈ encode bytes) : isMark c = false := by
  obtain ⟨byte, -, hDigit⟩ := List.mem_flatMap.1 h
  rcases List.mem_cons.1 hDigit with rfl | hDigit
  · exact isMark_digit (high_lt byte)
  · rw [List.mem_singleton.1 hDigit]
    exact isMark_digit (low_lt byte)

end Tape.Hex

namespace Tape.Varint

open Decimal (capacity)

/-- The bits from `shift` on are read as a number and added to what was read. -/
theorem decodeFrom_encode {n shift low : Nat} (rest : List UInt8) (hShift : shift < 64)
    (hWidth : n * capacity shift < capacity 64) :
    decodeFrom shift low (encode n ++ rest) = .ok (low + n * capacity shift, rest) := by
  induction n using Nat.strongRecOn generalizing shift low with
  | ind n ih =>
    have hPart : n % 128 * capacity shift < capacity 64 :=
      Nat.lt_of_le_of_lt (Nat.mul_le_mul_right _ (Nat.mod_le n 128)) hWidth
    rw [encode]
    split
    · rename_i hLast
      have hByte : (UInt8.ofNat n).toNat = n := by
        rw [UInt8.toNat_ofNat']
        omega
      rw [List.singleton_append, decodeFrom, if_neg (Nat.not_le_of_lt hShift), hByte,
        Nat.mod_eq_of_lt hPart, if_pos hLast, Nat.mod_eq_of_lt hLast]
    · rename_i hMore
      have hByte : (UInt8.ofNat (n % 128 + 128)).toNat = n % 128 + 128 := by
        rw [UInt8.toNat_ofNat']
        omega
      have hNext : capacity (shift + 7) = 128 * capacity shift := by
        rw [capacity, capacity, Nat.pow_eq, Nat.pow_eq, Nat.pow_add, Nat.mul_comm]
      -- the rest of the number is not zero, so its bits still have their place
      have hRest : n / 128 * capacity (shift + 7) < capacity 64 := by
        rw [hNext, ← Nat.mul_assoc]
        exact Nat.lt_of_le_of_lt (Nat.mul_le_mul_right _ (Nat.div_mul_le_self n 128)) hWidth
      have hFits : shift + 7 < 64 := by
        refine Nat.lt_of_not_le fun hWide => Nat.not_le_of_lt hRest ?_
        calc capacity 64
            ≤ capacity (shift + 7) := Nat.pow_le_pow_right (by decide) hWide
          _ ≤ n / 128 * capacity (shift + 7) := Nat.le_mul_of_pos_left _ (by omega)
      rw [List.cons_append, decodeFrom, if_neg (Nat.not_le_of_lt hShift), hByte,
        Nat.add_mod_right, Nat.mod_mod, Nat.mod_eq_of_lt hPart, if_neg (by omega),
        ih (n / 128) (by omega) hFits hRest, hNext]
      congr 2
      calc low + n % 128 * capacity shift + n / 128 * (128 * capacity shift)
          = low + (n % 128 + 128 * (n / 128)) * capacity shift := by ring
        _ = low + n * capacity shift := by rw [Nat.mod_add_div]

/-- A number of 64 bits is read back, and no byte behind it is touched. -/
theorem decode_encode {n : Nat} (h : n < 2 ^ 64) (rest : List UInt8) :
    decode (encode n ++ rest) = .ok (n, rest) := by
  have hWidth : n * capacity 0 < capacity 64 := by
    rw [capacity, capacity, Nat.pow_eq, Nat.pow_zero, Nat.mul_one]
    exact h
  rw [decode, decodeFrom_encode rest (by decide) hWidth]
  simp [capacity]

end Tape.Varint

/-- Whether all numbers of a pointer, the length of its path too, have 64 bits. -/
structure Pointer.Fits (pointer : Pointer) : Prop where
  depth : pointer.path.length < 2 ^ 64
  path : ∀ step ∈ pointer.path, step < 2 ^ 64
  total : pointer.total < 2 ^ 64
  offset : pointer.offset < 2 ^ 64
  length : pointer.length < 2 ^ 64
  index : pointer.index < 2 ^ 64

instance (pointer : Pointer) : Decidable pointer.Fits :=
  decidable_of_iff
    ((pointer.path.length < 2 ^ 64 ∧ ∀ step ∈ pointer.path, step < 2 ^ 64) ∧
      pointer.total < 2 ^ 64 ∧ pointer.offset < 2 ^ 64 ∧ pointer.length < 2 ^ 64 ∧
      pointer.index < 2 ^ 64)
    ⟨fun h => ⟨h.1.1, h.1.2, h.2.1, h.2.2.1, h.2.2.2.1, h.2.2.2.2⟩,
      fun h => ⟨⟨h.depth, h.path⟩, h.total, h.offset, h.length, h.index⟩⟩

namespace Tape.Record

theorem takeNumbers_encode {numbers : List Nat} (h : ∀ n ∈ numbers, n < 2 ^ 64)
    (rest : List UInt8) :
    takeNumbers numbers.length (numbers.flatMap Varint.encode ++ rest) = .ok (numbers, rest) := by
  induction numbers with
  | nil => rfl
  | cons n numbers ih =>
    rw [List.flatMap_cons, List.append_assoc, List.length_cons, takeNumbers,
      Varint.decode_encode (h n List.mem_cons_self)]
    simp only [bind, Except.bind]
    rw [ih fun m hm => h m (List.mem_cons_of_mem n hm)]
    rfl

/-- A pointer is read back from its bytes. -/
theorem unpack_pack {pointer : Pointer} (h : pointer.Fits) :
    unpack (pack pointer) = .ok pointer := by
  obtain ⟨path, isConstant, total, offset, length, index⟩ := pointer
  have hIndex : Varint.decode (Varint.encode index) = .ok (index, []) := by
    simpa using Varint.decode_encode h.index []
  rw [unpack, pack]
  simp only [List.cons_append, List.nil_append, List.append_assoc, takeByte, bind, Except.bind,
    Varint.decode_encode h.depth, takeNumbers_encode h.path, Varint.decode_encode h.total,
    Varint.decode_encode h.offset, Varint.decode_encode h.length, hIndex]
  cases isConstant <;> rfl

end Tape.Record

end Infill
