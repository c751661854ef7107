import Infill.Proofs.Lexing
import Infill.Proofs.Tapes

/-!
The grammar of tapes. A tape that is read is a sequence of records with a text
behind each, and a record is the numbers of a pointer in groups of seven bits.
Reading takes every number of at most ten groups and keeps its low 64 bits, and
it takes a plus sign for a high digit of zero. So what is read is what was
written, unless a number is too large or a digit was replaced by the sign.
-/
namespace Infill

namespace Text

variable {mark : Char} {text front : List Char} {others : List (List Char)}

/-- A text is made of its parts with the mark between them, and no part holds it. -/
theorem parts_eq_cons_iff : parts mark text = front :: others ↔
    text = front ++ others.flatMap (mark :: ·) ∧ ∀ part ∈ front :: others, mark ∉ part := by
  constructor
  · intro h
    induction text generalizing front others with
    | nil =>
      obtain ⟨rfl, rfl⟩ := List.cons.inj h
      simp
    | cons c text ih =>
      rw [parts] at h
      split at h
      · rename_i hMark
        obtain ⟨rfl, rfl⟩ := List.cons.inj h
        obtain ⟨part, rest, hParts⟩ := List.exists_cons_of_ne_nil (parts_ne_nil mark text)
        obtain ⟨hText, hFree⟩ := ih hParts
        rw [hParts, List.flatMap_cons, hMark, List.nil_append, List.cons_append, ← hText]
        exact ⟨rfl, List.forall_mem_cons.2 ⟨List.not_mem_nil, hFree⟩⟩
      · rename_i hMark
        split at h
        · rename_i hNone
          exact absurd hNone (parts_ne_nil mark text)
        · rename_i part rest hParts
          obtain ⟨rfl, rfl⟩ := List.cons.inj h
          obtain ⟨hText, hFree⟩ := ih hParts
          obtain ⟨hPart, hRest⟩ := List.forall_mem_cons.1 hFree
          exact ⟨congrArg (c :: ·) hText, List.forall_mem_cons.2
            ⟨List.not_mem_cons_of_ne_of_not_mem (Ne.symm hMark) hPart, hRest⟩⟩
  · rintro ⟨rfl, hFree⟩
    obtain ⟨hFront, hOthers⟩ := List.forall_mem_cons.1 hFree
    induction others generalizing front with
    | nil => simpa using parts_of_not_mem hFront
    | cons part others ih =>
      obtain ⟨hPart, hRest⟩ := List.forall_mem_cons.1 hOthers
      rw [List.flatMap_cons, List.cons_append, parts_mark, parts_of_not_mem hFront,
        ih hOthers hPart hRest, List.singleton_append]

end Text

namespace Tape.Hex

/-- Whether characters write bytes, each as a pair of hexadecimal digits in
either case. A plus sign may stand in place of a high digit. -/
inductive Writes : List Char → List UInt8 → Prop
  | nil : Writes [] []
  | digits {high low : Char} {h l : Nat} {text : List Char} {bytes : List UInt8}
      (hHigh : value? high = some h) (hLow : value? low = some l) (rest : Writes text bytes) :
      Writes (high :: low :: text) (UInt8.ofNat (h * 16 + l) :: bytes)
  | signed {low : Char} {l : Nat} {text : List Char} {bytes : List UInt8}
      (hLow : value? low = some l) (rest : Writes text bytes) :
      Writes ('+' :: low :: text) (UInt8.ofNat l :: bytes)

variable {c high low : Char} {n : Nat} {byte : UInt8} {text : List Char} {bytes : List UInt8}

theorem utf8Size_of_value? (h : value? c = some n) : c.utf8Size = 1 := by
  have hBound : c.val ≤ 127 := by
    simp only [value?, Decimal.digit?, Option.filter_eq_some_iff] at h
    obtain ⟨hDigit, -⟩ := h
    split at hDigit
    · rename_i hRange
      exact UInt32.le_trans hRange.2 (by decide)
    · split at hDigit
      · rename_i hRange
        exact UInt32.le_trans hRange.2 (by decide)
      · split at hDigit
        · rename_i hRange
          exact UInt32.le_trans hRange.2 (by decide)
        · cases hDigit
  exact if_pos hBound

theorem isMark_of_value? (h : value? c = some n) : isMark c = false := by
  have hSize := utf8Size_of_value? h
  rw [isMark, Bool.or_eq_false_iff, beq_eq_false_iff_ne, beq_eq_false_iff_ne]
  constructor
  · rintro rfl
    exact absurd hSize (by decide)
  · rintro rfl
    exact absurd hSize (by decide)

theorem pair?_eq_some_iff : pair? high low = some byte ↔
    (∃ h l, value? high = some h ∧ value? low = some l ∧ byte = UInt8.ofNat (h * 16 + l)) ∨
      high = '+' ∧ ∃ l, value? low = some l ∧ byte = UInt8.ofNat l := by
  rw [pair?]
  split
  · rename_i hSign
    subst hSign
    have hNone : value? '+' = none := by decide
    simp [hNone, eq_comm]
  · rename_i hSign
    constructor
    · intro h
      obtain ⟨h, hHigh, hRest⟩ := Option.bind_eq_some_iff.1 h
      obtain ⟨l, hLow, hByte⟩ := Option.bind_eq_some_iff.1 hRest
      exact .inl ⟨h, l, hHigh, hLow, (Option.some.inj hByte).symm⟩
    · rintro (⟨h, l, hHigh, hLow, rfl⟩ | ⟨hPlus, -⟩)
      · rw [hHigh, hLow]
        rfl
      · exact absurd hPlus hSign

theorem pairs?_eq_some_iff : pairs? text = some bytes ↔ Writes text bytes := by
  constructor
  · intro h
    fun_induction pairs? text generalizing bytes with
    | case1 =>
      obtain rfl := Option.some.inj h
      exact .nil
    | case2 => cases h
    | case3 high low rest ih =>
      simp only [Option.bind_eq_bind, Option.bind_eq_some_iff, Option.pure_def,
        Option.some.injEq] at h
      obtain ⟨byte, hPair, others, hRest, rfl⟩ := h
      rcases pair?_eq_some_iff.1 hPair with ⟨h, l, hHigh, hLow, rfl⟩ | ⟨rfl, l, hLow, rfl⟩
      · exact .digits hHigh hLow (ih hRest)
      · exact .signed hLow (ih hRest)
  · intro h
    induction h with
    | nil => rfl
    | digits hHigh hLow rest ih =>
      rw [pairs?, pair?_eq_some_iff.2 (.inl ⟨_, _, hHigh, hLow, rfl⟩), ih]
      rfl
    | signed hLow rest ih =>
      rw [pairs?, pair?_eq_some_iff.2 (.inr ⟨rfl, _, hLow, rfl⟩), ih]
      rfl

namespace Writes

theorem byteLength_eq (h : Writes text bytes) : Text.byteLength text = 2 * bytes.length := by
  induction h with
  | nil => rfl
  | digits hHigh hLow rest ih =>
    rw [Text.byteLength_cons, Text.byteLength_cons, utf8Size_of_value? hHigh,
      utf8Size_of_value? hLow, ih, List.length_cons]
    omega
  | signed hLow rest ih =>
    rw [Text.byteLength_cons, Text.byteLength_cons, utf8Size_of_value? hLow, ih, List.length_cons,
      show '+'.utf8Size = 1 by decide]
    omega

/-- Nothing that writes bytes delimits a record. -/
theorem isPlain (h : Writes text bytes) : IsPlain text := by
  induction h with
  | nil => simp [IsPlain]
  | digits hHigh hLow rest ih =>
    exact List.forall_mem_cons.2 ⟨isMark_of_value? hHigh,
      List.forall_mem_cons.2 ⟨isMark_of_value? hLow, ih⟩⟩
  | signed hLow rest ih =>
    exact List.forall_mem_cons.2 ⟨by decide, List.forall_mem_cons.2 ⟨isMark_of_value? hLow, ih⟩⟩

end Writes

/-- The bytes of a text are those that it writes. -/
theorem decode_eq_ok_iff : decode text = .ok bytes ↔ Writes text bytes := by
  rw [decode, ← pairs?_eq_some_iff]
  constructor
  · intro h
    split at h
    · cases h
    · split at h
      · rename_i found hFound
        rw [hFound, Except.ok.inj h]
      · cases h
  · intro h
    have hLength := (pairs?_eq_some_iff.1 h).byteLength_eq
    rw [if_neg (by omega), h]

end Tape.Hex

namespace Tape.Varint

/-- Whether bytes are those of a number: all but the last carry a mark. -/
inductive IsNumeral : List UInt8 → Prop
  | last {byte : UInt8} (h : byte.toNat < 128) : IsNumeral [byte]
  | more {byte : UInt8} {bytes : List UInt8} (h : 128 ≤ byte.toNat) (rest : IsNumeral bytes) :
      IsNumeral (byte :: bytes)

/-- The number that bytes stand for, with seven bits in each, the low ones first. -/
def value : List UInt8 → Nat
  | [] => 0
  | byte :: bytes => byte.toNat % 128 + 128 * value bytes

/-- What is read of a number. -/
def low (numeral : List UInt8) : Nat :=
  value numeral % 2 ^ 64

theorem isNumeral_encode (n : Nat) : IsNumeral (encode n) := by
  fun_induction encode n with
  | case1 n hLast => exact .last (by rw [UInt8.toNat_ofNat']; omega)
  | case2 n hMore ih => exact .more (by rw [UInt8.toNat_ofNat']; omega) ih

/-- A number of any width is written with the bytes that stand for it. -/
theorem value_encode (n : Nat) : value (encode n) = n := by
  fun_induction encode n with
  | case1 n hLast =>
    rw [value, value, UInt8.toNat_ofNat']
    omega
  | case2 n hMore ih =>
    rw [value, ih, UInt8.toNat_ofNat']
    omega

variable {numeral other bytes rest : List UInt8} {n shift low : Nat}

/-- A number ends at the first byte without a mark. -/
theorem IsNumeral.append_inj (h : IsNumeral numeral) (hOther : IsNumeral other)
    (hSame : numeral ++ bytes = other ++ rest) : numeral = other ∧ bytes = rest := by
  induction h generalizing other with
  | @last byte hLast =>
    cases hOther with
    | last _ => simpa using hSame
    | more hMore _ =>
      obtain ⟨rfl, -⟩ := List.cons.inj hSame
      omega
  | @more byte numeral hMore _ ih =>
    cases hOther with
    | last hLast =>
      obtain ⟨rfl, -⟩ := List.cons.inj hSame
      omega
    | more _ hRest =>
      obtain ⟨rfl, hTail⟩ := List.cons.inj hSame
      obtain ⟨rfl, hBytes⟩ := ih hRest hTail
      exact ⟨rfl, hBytes⟩

/-- Bits that are added above others lose what does not fit in 64 bits. -/
theorem add_mul_mod (hLow : low < 2 ^ shift) (hShift : shift < 64) (n : Nat) :
    (low + n * 2 ^ shift) % 2 ^ 64 = low + n * 2 ^ shift % 2 ^ 64 := by
  have hSplit : 2 ^ 64 = 2 ^ (64 - shift) * 2 ^ shift := by
    rw [← Nat.pow_add, Nat.sub_add_cancel (Nat.le_of_lt hShift)]
  rw [hSplit, Nat.mul_mod_mul_right, Nat.add_mod, Nat.mul_mod_mul_right,
    Nat.mod_eq_of_lt (a := low), Nat.mod_eq_of_lt]
  · have hPart : n % 2 ^ (64 - shift) + 1 ≤ 2 ^ (64 - shift) :=
      Nat.mod_lt _ (Nat.two_pow_pos _)
    calc low + n % 2 ^ (64 - shift) * 2 ^ shift
        < 2 ^ shift + n % 2 ^ (64 - shift) * 2 ^ shift := Nat.add_lt_add_right hLow _
      _ = (n % 2 ^ (64 - shift) + 1) * 2 ^ shift := by ring
      _ ≤ 2 ^ (64 - shift) * 2 ^ shift := Nat.mul_le_mul_right _ hPart
  · calc low < 2 ^ shift := hLow
      _ ≤ 2 ^ (64 - shift) * 2 ^ shift := Nat.le_mul_of_pos_left _ (Nat.two_pow_pos _)

/-- A group of seven bits reaches up to the next group. -/
theorem add_group_lt (hLow : low < 2 ^ shift) (byte : UInt8) :
    low + byte.toNat % 128 * 2 ^ shift % 2 ^ 64 < 2 ^ (shift + 7) := by
  have hByte : byte.toNat % 128 + 1 ≤ 128 := Nat.mod_lt _ (by decide)
  calc low + byte.toNat % 128 * 2 ^ shift % 2 ^ 64
      ≤ low + byte.toNat % 128 * 2 ^ shift := Nat.add_le_add_left (Nat.mod_le _ _) _
    _ < 2 ^ shift + byte.toNat % 128 * 2 ^ shift := Nat.add_lt_add_right hLow _
    _ = (byte.toNat % 128 + 1) * 2 ^ shift := by ring
    _ ≤ 128 * 2 ^ shift := Nat.mul_le_mul_right _ hByte
    _ = 2 ^ (shift + 7) := by rw [Nat.pow_add, Nat.mul_comm]

/-- A number in which the bits of its first group are added before the others. -/
theorem add_value_cons (hLow : low < 2 ^ shift) (hShift : shift < 64) (byte : UInt8)
    (numeral : List UInt8) :
    (low + value (byte :: numeral) * 2 ^ shift) % 2 ^ 64 =
      (low + byte.toNat % 128 * 2 ^ shift % 2 ^ 64 + value numeral * 2 ^ (shift + 7)) %
        2 ^ 64 := by
  rw [← add_mul_mod hLow hShift, Nat.mod_add_mod, value, Nat.pow_add]
  congr 1
  ring

/-- What is read from some bit on is a number that ends within 64 bits. Of its
bits those that fit are kept. -/
theorem decodeFrom_eq_ok_iff (hLow : low < 2 ^ shift) :
    decodeFrom shift low bytes = .ok (n, rest) ↔ ∃ numeral, IsNumeral numeral ∧
      shift + 7 * numeral.length < 71 ∧ bytes = numeral ++ rest ∧
        n = (low + value numeral * 2 ^ shift) % 2 ^ 64 := by
  induction bytes generalizing shift low with
  | nil =>
    refine ⟨fun h => (by cases h), ?_⟩
    rintro ⟨numeral, hNumeral, -, hBytes, -⟩
    cases hNumeral <;> simp at hBytes
  | cons byte bytes ih =>
    rw [decodeFrom]
    split
    · rename_i hWide
      refine ⟨fun h => (by cases h), ?_⟩
      rintro ⟨numeral, hNumeral, hLength, -⟩
      have : 1 ≤ numeral.length := by cases hNumeral <;> simp
      omega
    · rename_i hFits
      have hShift : shift < 64 := Nat.lt_of_not_le hFits
      simp only [Decimal.capacity, Nat.pow_eq]
      split
      · rename_i hLast
        rw [← add_mul_mod hLow hShift, Nat.mod_eq_of_lt hLast]
        constructor
        · intro h
          obtain ⟨rfl, rfl⟩ := Prod.mk.inj (Except.ok.inj h)
          exact ⟨[byte], .last hLast, by rw [List.length_singleton]; omega, rfl,
            by rw [value, value, Nat.mod_eq_of_lt hLast, Nat.mul_zero, Nat.add_zero]⟩
        · rintro ⟨numeral, hNumeral, -, hBytes, rfl⟩
          cases hNumeral with
          | last h =>
            obtain ⟨rfl, rfl⟩ := List.cons.inj hBytes
            rw [value, value, Nat.mod_eq_of_lt hLast, Nat.mul_zero, Nat.add_zero]
          | more h _ =>
            obtain ⟨rfl, -⟩ := List.cons.inj hBytes
            omega
      · rename_i hMore
        rw [ih (add_group_lt hLow byte)]
        constructor
        · rintro ⟨numeral, hNumeral, hLength, rfl, rfl⟩
          exact ⟨byte :: numeral, .more (Nat.le_of_not_lt hMore) hNumeral,
            by rw [List.length_cons]; omega, rfl, (add_value_cons hLow hShift byte numeral).symm⟩
        · rintro ⟨numeral, hNumeral, hLength, hBytes, rfl⟩
          cases hNumeral with
          | last h =>
            obtain ⟨rfl, -⟩ := List.cons.inj hBytes
            exact absurd h hMore
          | more h hRest =>
            obtain ⟨rfl, rfl⟩ := List.cons.inj hBytes
            exact ⟨_, hRest, by rw [List.length_cons] at hLength; omega, rfl,
              add_value_cons hLow hShift byte _⟩

/-- A number is read with its low 64 bits if it has at most ten bytes. -/
theorem decode_eq_ok_iff : decode bytes = .ok (n, rest) ↔ ∃ numeral, IsNumeral numeral ∧
    numeral.length ≤ 10 ∧ bytes = numeral ++ rest ∧ n = Varint.low numeral := by
  rw [decode, decodeFrom_eq_ok_iff (by decide)]
  simp only [Nat.zero_add, Nat.pow_zero, Nat.mul_one]
  refine exists_congr fun numeral => and_congr_right fun _ => and_congr_left fun _ => ?_
  omega

end Tape.Varint

namespace Tape

/-- The numbers of a pointer, each as the bytes that stand for it. -/
structure Script where
  depth : List UInt8
  path : List (List UInt8)
  isConstant : Bool
  total : List UInt8
  offset : List UInt8
  length : List UInt8
  index : List UInt8

namespace Script

/-- The bytes of the numbers. -/
def numerals (script : Script) : List (List UInt8) :=
  script.depth :: script.path ++ [script.total, script.offset, script.length, script.index]

/-- The bytes of the record. -/
def bytes (script : Script) : List UInt8 :=
  Record.version :: (script.depth ++ (script.path.flatten ++
    ((if script.isConstant then 1 else 0) ::
      (script.total ++ (script.offset ++ (script.length ++ script.index))))))

/-- The pointer of the record, with what every number is taken for. -/
def pointer (number : List UInt8 → Nat) (script : Script) : Pointer :=
  ⟨script.path.map number, script.isConstant, number script.total, number script.offset,
    number script.length, number script.index⟩

theorem forall_numerals {script : Script} {P : List UInt8 → Prop} :
    (∀ numeral ∈ script.numerals, P numeral) ↔ P script.depth ∧ (∀ step ∈ script.path, P step) ∧
      P script.total ∧ P script.offset ∧ P script.length ∧ P script.index := by
  simp only [numerals, List.cons_append, List.forall_mem_cons, List.forall_mem_append,
    List.not_mem_nil, false_implies, implies_true, and_true]

/-- Whether numbers are numbers, and the path has as many steps as is read. -/
structure IsRecord (script : Script) : Prop where
  numerals : ∀ numeral ∈ script.numerals, Varint.IsNumeral numeral
  depth : Varint.low script.depth = script.path.length

/-- Whether no number has more bytes than are read. -/
def IsShort (script : Script) : Prop :=
  ∀ numeral ∈ script.numerals, numeral.length ≤ 10

/-- Whether every number has 64 bits. -/
def IsExact (script : Script) : Prop :=
  ∀ numeral ∈ script.numerals, Varint.value numeral < 2 ^ 64

end Script

namespace Record

open Varint (IsNumeral)

variable {bytes rest : List UInt8} {byte : UInt8} {count : Nat} {numbers : List Nat}
  {pointer : Pointer} {left right : List (List UInt8)}

theorem takeByte_eq_ok_iff : takeByte bytes = .ok (byte, rest) ↔ bytes = byte :: rest := by
  cases bytes <;> simp [takeByte]

theorem takeNumbers_eq_ok_iff : takeNumbers count bytes = .ok (numbers, rest) ↔
    ∃ numerals : List (List UInt8), (∀ numeral ∈ numerals, IsNumeral numeral) ∧
      (∀ numeral ∈ numerals, numeral.length ≤ 10) ∧ numerals.length = count ∧
        bytes = numerals.flatten ++ rest ∧ numbers = numerals.map Varint.low := by
  induction count generalizing bytes numbers with
  | zero => simp [takeNumbers, List.length_eq_zero_iff, eq_comm, and_comm]
  | succ count ih =>
    rw [takeNumbers, bind_eq_ok]
    constructor
    · rintro ⟨⟨number, behind⟩, hNumber, hRest⟩
      obtain ⟨⟨others, after⟩, hOthers, hFound⟩ := bind_eq_ok.1 hRest
      obtain ⟨rfl, rfl⟩ := Prod.mk.inj (Except.ok.inj hFound)
      obtain ⟨numeral, hNumeral, hShort, rfl, rfl⟩ := Varint.decode_eq_ok_iff.1 hNumber
      obtain ⟨numerals, hNumerals, hShorts, rfl, rfl, rfl⟩ := ih.1 hOthers
      exact ⟨numeral :: numerals, List.forall_mem_cons.2 ⟨hNumeral, hNumerals⟩,
        List.forall_mem_cons.2 ⟨hShort, hShorts⟩, rfl, by simp, rfl⟩
    · rintro ⟨numerals, hNumerals, hShorts, hCount, rfl, rfl⟩
      obtain ⟨numeral, numerals, rfl⟩ := List.exists_cons_of_length_eq_add_one hCount
      obtain ⟨hNumeral, hNumerals⟩ := List.forall_mem_cons.1 hNumerals
      obtain ⟨hShort, hShorts⟩ := List.forall_mem_cons.1 hShorts
      rw [List.flatten_cons, List.append_assoc]
      refine ⟨(Varint.low numeral, numerals.flatten ++ rest),
        Varint.decode_eq_ok_iff.2 ⟨numeral, hNumeral, hShort, rfl, rfl⟩, ?_⟩
      exact bind_eq_ok.2 ⟨(numerals.map Varint.low, rest),
        ih.2 ⟨numerals, hNumerals, hShorts, Nat.succ.inj hCount, rfl, rfl⟩, rfl⟩

/-- A flag is a byte below two. -/
theorem flag_eq_iff {isConstant : Bool} : byte.toNat ≤ 1 ∧ isConstant = (byte == 1) ↔
    byte = if isConstant then 1 else 0 := by
  constructor
  · rintro ⟨hFlag, rfl⟩
    have hCases : byte.toNat = (0 : UInt8).toNat ∨ byte.toNat = (1 : UInt8).toNat := by
      change byte.toNat = 0 ∨ byte.toNat = 1
      omega
    rcases hCases with hByte | hByte
    · rw [UInt8.toNat_inj.1 hByte]
      rfl
    · rw [UInt8.toNat_inj.1 hByte]
      rfl
  · rintro rfl
    cases isConstant <;> decide

theorem decode_of_mem {script : Script} {numeral : List UInt8} (h : script.IsRecord)
    (hShort : script.IsShort) (hMem : numeral ∈ script.numerals) (rest : List UInt8) :
    Varint.decode (numeral ++ rest) = .ok (Varint.low numeral, rest) :=
  Varint.decode_eq_ok_iff.2 ⟨numeral, h.numerals _ hMem, hShort _ hMem, rfl, rfl⟩

/-- What is read as a pointer is a record with short numbers. -/
theorem exists_of_unpack (h : unpack bytes = .ok pointer) :
    ∃ script : Script, script.IsRecord ∧ script.IsShort ∧ bytes = script.bytes ∧
      pointer = script.pointer Varint.low := by
  obtain ⟨⟨found, bytes⟩, hVersion, h⟩ := bind_eq_ok.1 h
  dsimp only at h
  split at h
  · cases h
  rename_i hFound
  obtain ⟨⟨depth, bytes⟩, hDepth, h⟩ := bind_eq_ok.1 h
  obtain ⟨⟨path, bytes⟩, hPath, h⟩ := bind_eq_ok.1 h
  obtain ⟨⟨flag, bytes⟩, hFlag, h⟩ := bind_eq_ok.1 h
  dsimp only at h
  split at h
  · cases h
  rename_i hSmall
  obtain ⟨⟨total, bytes⟩, hTotal, h⟩ := bind_eq_ok.1 h
  obtain ⟨⟨offset, bytes⟩, hOffset, h⟩ := bind_eq_ok.1 h
  obtain ⟨⟨length, bytes⟩, hLength, h⟩ := bind_eq_ok.1 h
  obtain ⟨⟨index, bytes⟩, hIndex, h⟩ := bind_eq_ok.1 h
  split at h
  · cases h
  rename_i hEnd
  obtain rfl := Except.ok.inj h
  rw [not_not] at hFound hEnd
  obtain rfl := takeByte_eq_ok_iff.1 hVersion
  obtain ⟨depth, hIsDepth, hShortDepth, rfl, rfl⟩ := Varint.decode_eq_ok_iff.1 hDepth
  obtain ⟨path, hIsPath, hShortPath, hSteps, rfl, rfl⟩ := takeNumbers_eq_ok_iff.1 hPath
  obtain rfl := takeByte_eq_ok_iff.1 hFlag
  obtain ⟨total, hIsTotal, hShortTotal, rfl, rfl⟩ := Varint.decode_eq_ok_iff.1 hTotal
  obtain ⟨offset, hIsOffset, hShortOffset, rfl, rfl⟩ := Varint.decode_eq_ok_iff.1 hOffset
  obtain ⟨length, hIsLength, hShortLength, rfl, rfl⟩ := Varint.decode_eq_ok_iff.1 hLength
  obtain ⟨index, hIsIndex, hShortIndex, rfl, rfl⟩ := Varint.decode_eq_ok_iff.1 hIndex
  obtain rfl : bytes = [] := hEnd
  refine ⟨⟨depth, path, flag == 1, total, offset, length, index⟩, ⟨?_, hSteps.symm⟩, ?_, ?_, rfl⟩
  · exact Script.forall_numerals.2
      ⟨hIsDepth, hIsPath, hIsTotal, hIsOffset, hIsLength, hIsIndex⟩
  · exact Script.forall_numerals.2
      ⟨hShortDepth, hShortPath, hShortTotal, hShortOffset, hShortLength, hShortIndex⟩
  · rw [Script.bytes, ← flag_eq_iff.1 ⟨Nat.le_of_not_lt hSmall, rfl⟩, hFound, List.append_nil]

/-- A record with short numbers is read. -/
theorem unpack_bytes {script : Script} (hRecord : script.IsRecord) (hShort : script.IsShort) :
    unpack script.bytes = .ok (script.pointer Varint.low) := by
  obtain ⟨-, hIsPath, -⟩ := Script.forall_numerals.1 hRecord.numerals
  obtain ⟨hDepth, hPath, hTotal, hOffset, hLength, hIndex⟩ :=
    Script.forall_numerals.1 fun numeral hMem => decode_of_mem hRecord hShort hMem
  obtain ⟨-, hShortPath, -⟩ := Script.forall_numerals.1 hShort
  have hSteps : ∀ rest, takeNumbers script.path.length (script.path.flatten ++ rest) =
      .ok (script.path.map Varint.low, rest) := fun rest =>
    takeNumbers_eq_ok_iff.2 ⟨script.path, hIsPath, hShortPath, rfl, rfl, rfl⟩
  have hLast := hIndex []
  rw [List.append_nil] at hLast
  rw [unpack, Script.bytes]
  simp only [bind, Except.bind, takeByte, hDepth, hRecord.depth, hSteps, hTotal, hOffset,
    hLength, hLast]
  obtain ⟨-, -, isConstant, -, -, -, -⟩ := script
  cases isConstant <;> rfl

end Record

namespace Script

open Varint (IsNumeral)

/-- Numbers are told apart if it is known how many there are. -/
theorem flatten_append_inj {left right : List (List UInt8)} {bytes rest : List UInt8}
    (hLeft : ∀ numeral ∈ left, IsNumeral numeral) (hRight : ∀ numeral ∈ right, IsNumeral numeral)
    (hLength : left.length = right.length)
    (hSame : left.flatten ++ bytes = right.flatten ++ rest) : left = right ∧ bytes = rest := by
  induction left generalizing right with
  | nil =>
    obtain rfl := List.length_eq_zero_iff.1 hLength.symm
    exact ⟨rfl, hSame⟩
  | cons numeral left ih =>
    obtain ⟨other, others, rfl⟩ := List.exists_cons_of_length_eq_add_one hLength.symm
    obtain ⟨hNumeral, hNumerals⟩ := List.forall_mem_cons.1 hLeft
    obtain ⟨hOther, hOthers⟩ := List.forall_mem_cons.1 hRight
    rw [List.flatten_cons, List.flatten_cons, List.append_assoc, List.append_assoc] at hSame
    obtain ⟨rfl, hRest⟩ := hNumeral.append_inj hOther hSame
    obtain ⟨rfl, hBytes⟩ := ih hNumerals hOthers (Nat.succ.inj hLength) hRest
    exact ⟨rfl, hBytes⟩

/-- Bytes are a record in one way only. -/
theorem IsRecord.eq_of_bytes {left right : Script} (hLeft : left.IsRecord)
    (hRight : right.IsRecord) (h : left.bytes = right.bytes) : left = right := by
  obtain ⟨hDepth, hPath, hTotal, hOffset, hLength, hIndex⟩ := forall_numerals.1 hLeft.numerals
  obtain ⟨hDepth', hPath', hTotal', hOffset', hLength', hIndex'⟩ :=
    forall_numerals.1 hRight.numerals
  obtain ⟨-, h⟩ := List.cons.inj h
  obtain ⟨hSameDepth, h⟩ := hDepth.append_inj hDepth' h
  have hSteps : left.path.length = right.path.length := by
    rw [← hLeft.depth, ← hRight.depth, hSameDepth]
  obtain ⟨hSamePath, h⟩ := flatten_append_inj hPath hPath' hSteps h
  obtain ⟨hFlag, h⟩ := List.cons.inj h
  have hSameFlag : left.isConstant = right.isConstant :=
    (Record.flag_eq_iff.2 rfl).2.trans (Record.flag_eq_iff.2 hFlag).2.symm
  obtain ⟨hSameTotal, h⟩ := hTotal.append_inj hTotal' h
  obtain ⟨hSameOffset, h⟩ := hOffset.append_inj hOffset' h
  obtain ⟨hSameLength, hSameIndex⟩ := hLength.append_inj hLength' h
  cases left
  cases right
  simp_all

/-- The numbers of a pointer as they are written. -/
def ofPointer (pointer : Pointer) : Script :=
  ⟨Varint.encode pointer.path.length, pointer.path.map Varint.encode, pointer.isConstant,
    Varint.encode pointer.total, Varint.encode pointer.offset, Varint.encode pointer.length,
    Varint.encode pointer.index⟩

theorem bytes_ofPointer (pointer : Pointer) : (ofPointer pointer).bytes = Record.pack pointer := by
  rw [bytes, ofPointer, Record.pack, List.flatMap_def]
  cases pointer.isConstant <;> simp

theorem isRecord_ofPointer {pointer : Pointer} (h : pointer.path.length < 2 ^ 64) :
    (ofPointer pointer).IsRecord where
  numerals := forall_numerals.2 ⟨Varint.isNumeral_encode _,
    List.forall_mem_map.2 fun step _ => Varint.isNumeral_encode step, Varint.isNumeral_encode _,
    Varint.isNumeral_encode _, Varint.isNumeral_encode _, Varint.isNumeral_encode _⟩
  depth := by
    rw [ofPointer, Varint.low, Varint.value_encode, Nat.mod_eq_of_lt h, List.length_map]

end Script

/-- A record and the text behind it, as they stand on a tape. -/
structure Item where
  hex : List Char
  script : Script
  text : List Char

namespace Item

/-- What stands behind the mark in front of the record. -/
def body (item : Item) : List Char :=
  item.hex ++ closeMark :: item.text

/-- The entry of the record, with what every number is taken for. -/
def read (number : List UInt8 → Nat) (item : Item) : Pointer × String :=
  (item.script.pointer number, String.ofList item.text)

/-- Whether the digits write the bytes of a record, and the text holds no mark. -/
structure IsSound (item : Item) : Prop where
  writes : Hex.Writes item.hex item.script.bytes
  record : item.script.IsRecord
  plain : IsPlain item.text

/-- Whether all digits are digits, and every number has 64 bits. -/
def IsExact (item : Item) : Prop :=
  '+' ∉ item.hex ∧ item.script.IsExact

/-- The record of a pointer as it is written, with a text behind it. -/
def ofEntry (entry : Pointer × String) : Item :=
  ⟨Hex.encode (Record.pack entry.1), .ofPointer entry.1, entry.2.toList⟩

variable {item left right : Item} {text : List Char} {entry : Pointer × String}

/-- Numbers of 64 bits are taken for what they are. -/
theorem IsExact.read_eq (h : item.IsExact) : item.read Varint.low = item.read Varint.value := by
  obtain ⟨-, hPath, hTotal, hOffset, hLength, hIndex⟩ := Script.forall_numerals.1 fun _ hMem =>
    show Varint.low _ = Varint.value _ from Nat.mod_eq_of_lt (h.2 _ hMem)
  rw [read, read, Script.pointer, Script.pointer, List.map_congr_left hPath, hTotal, hOffset,
    hLength, hIndex]

theorem IsSound.openMark_not_mem (h : item.IsSound) : openMark ∉ item.body := by
  rw [body, List.mem_append, List.mem_cons]
  rintro (hMem | hSame | hMem)
  · exact (isPlain_iff.1 h.writes.isPlain).1 hMem
  · exact absurd hSame (by decide)
  · exact (isPlain_iff.1 h.plain).1 hMem

theorem IsSound.splitAt?_body (h : item.IsSound) :
    Text.splitAt? closeMark item.body = some (item.hex, item.text) :=
  Text.splitAt?_mark (isPlain_iff.1 h.writes.isPlain).2

/-- A record is there in one way only. -/
theorem IsSound.eq_of_body (hLeft : left.IsSound) (hRight : right.IsSound)
    (h : left.body = right.body) : left = right := by
  have hSplit := hLeft.splitAt?_body
  rw [h, hRight.splitAt?_body] at hSplit
  obtain ⟨hHex, hText⟩ := Prod.mk.inj (Option.some.inj hSplit)
  have hBytes := Hex.decode_eq_ok_iff.2 hLeft.writes
  rw [← hHex, Hex.decode_eq_ok_iff.2 hRight.writes] at hBytes
  have hScript := hRight.record.eq_of_bytes hLeft.record (Except.ok.inj hBytes)
  cases left
  cases right
  simp_all

/-- What is read as an entry is a record with short numbers, and a text. -/
theorem parseEntry_eq_ok_iff (hOpen : openMark ∉ text) : parseEntry text = .ok entry ↔
    ∃ item : Item, item.IsSound ∧ item.script.IsShort ∧ text = item.body ∧
      entry = item.read Varint.low := by
  constructor
  · intro h
    rw [parseEntry] at h
    split at h
    · cases h
    rename_i hex behind hSplit
    split at h
    · cases h
    rename_i hClose
    obtain ⟨bytes, hBytes, h⟩ := bind_eq_ok.1 h
    obtain ⟨pointer, hPointer, h⟩ := bind_eq_ok.1 h
    obtain ⟨script, hRecord, hShort, rfl, rfl⟩ := Record.exists_of_unpack hPointer
    obtain ⟨rfl, -⟩ := Text.splitAt?_eq_some_iff.1 hSplit
    have hPlain : openMark ∉ behind := fun hMem =>
      hOpen (List.mem_append_right hex (List.mem_cons_of_mem closeMark hMem))
    exact ⟨⟨hex, script, behind⟩,
      ⟨Hex.decode_eq_ok_iff.1 hBytes, hRecord, isPlain_iff.2 ⟨hPlain, hClose⟩⟩, hShort, rfl,
      (Except.ok.inj h).symm⟩
  · rintro ⟨item, hSound, hShort, rfl, rfl⟩
    rw [parseEntry, hSound.splitAt?_body]
    dsimp only
    rw [if_neg (isPlain_iff.1 hSound.plain).2]
    exact bind_eq_ok.2 ⟨item.script.bytes, Hex.decode_eq_ok_iff.2 hSound.writes, bind_eq_ok.2
      ⟨_, Record.unpack_bytes hSound.record hShort, rfl⟩⟩

theorem mapM_parseEntry_eq_ok_iff {parts : List (List Char)} {line : Line}
    (hOpen : ∀ part ∈ parts, openMark ∉ part) : parts.mapM parseEntry = .ok line ↔
      ∃ items : List Item, (∀ item ∈ items, item.IsSound) ∧
        (∀ item ∈ items, item.script.IsShort) ∧ parts = items.map body ∧
          line = items.map (read Varint.low) := by
  induction parts generalizing line with
  | nil =>
    refine ⟨fun h => ⟨[], by simp, by simp, rfl, (Except.ok.inj h).symm⟩, ?_⟩
    rintro ⟨items, -, -, hParts, rfl⟩
    rw [List.map_eq_nil_iff.1 hParts.symm]
    rfl
  | cons part parts ih =>
    obtain ⟨hPart, hParts⟩ := List.forall_mem_cons.1 hOpen
    rw [List.mapM_cons]
    constructor
    · intro h
      obtain ⟨entry, hEntry, h⟩ := bind_eq_ok.1 h
      obtain ⟨others, hOthers, h⟩ := bind_eq_ok.1 h
      obtain ⟨item, hSound, hShort, rfl, rfl⟩ := (parseEntry_eq_ok_iff hPart).1 hEntry
      obtain ⟨items, hSounds, hShorts, rfl, rfl⟩ := (ih hParts).1 hOthers
      exact ⟨item :: items, List.forall_mem_cons.2 ⟨hSound, hSounds⟩,
        List.forall_mem_cons.2 ⟨hShort, hShorts⟩, rfl, (Except.ok.inj h).symm⟩
    · rintro ⟨items, hSounds, hShorts, hSame, rfl⟩
      obtain ⟨item, items, rfl, rfl, rfl⟩ := List.map_eq_cons_iff.1 hSame.symm
      obtain ⟨hSound, hSounds⟩ := List.forall_mem_cons.1 hSounds
      obtain ⟨hShort, hShorts⟩ := List.forall_mem_cons.1 hShorts
      exact bind_eq_ok.2 ⟨_, (parseEntry_eq_ok_iff hPart).2 ⟨item, hSound, hShort, rfl, rfl⟩,
        bind_eq_ok.2 ⟨_, (ih hParts).2 ⟨items, hSounds, hShorts, rfl, rfl⟩, rfl⟩⟩

end Item

/-- Whether a tape is made of records with a text behind each. -/
structure Spells (tape : List Char) (items : List Item) : Prop where
  chars : tape = items.flatMap fun item => openMark :: item.body
  sound : ∀ item ∈ items, item.IsSound

namespace Spells

variable {tape : List Char} {items others : List Item}

theorem parts_eq (h : Spells tape items) :
    Text.parts openMark tape = [] :: items.map Item.body := by
  refine Text.parts_eq_cons_iff.2 ⟨?_, List.forall_mem_cons.2 ⟨List.not_mem_nil, ?_⟩⟩
  · rw [h.chars, List.nil_append, List.flatMap_map]
  · exact List.forall_mem_map.2 fun item hItem => (h.sound item hItem).openMark_not_mem

/-- A tape is made of records in one way only. -/
theorem unique (h : Spells tape items) (hOther : Spells tape others) : items = others := by
  have hParts := h.parts_eq
  rw [hOther.parts_eq] at hParts
  obtain ⟨-, hBodies⟩ := List.cons.inj hParts
  clear hParts
  obtain ⟨-, hSounds⟩ := h
  obtain ⟨-, hOthers⟩ := hOther
  induction items generalizing others with
  | nil => exact (List.map_eq_nil_iff.1 hBodies).symm
  | cons item items ih =>
    obtain ⟨other, others, rfl, hBody, hRest⟩ := List.map_eq_cons_iff.1 hBodies
    obtain ⟨hSound, hSounds⟩ := List.forall_mem_cons.1 hSounds
    obtain ⟨hOther, hOthers⟩ := List.forall_mem_cons.1 hOthers
    rw [hSound.eq_of_body hOther hBody.symm, ih hRest hSounds hOthers]

end Spells

/-- Whether a tape holds the entries of a line, as the records have them: all
digits are hexadecimal ones, and all numbers have 64 bits. -/
def Conforms (tape : String) (line : Line) : Prop :=
  ∃ items, Spells tape.toList items ∧ (∀ item ∈ items, item.IsExact) ∧
    line = items.map (Item.read Varint.value)

/-- A pointer is written in the grammar, whatever its numbers are. -/
theorem spells_ofCopies {copies : Line} (hDepth : ∀ copy ∈ copies, copy.1.path.length < 2 ^ 64)
    (hPlain : ∀ copy ∈ copies, IsPlain copy.2.toList) :
    Spells (ofCopies copies).toList (copies.map Item.ofEntry) where
  chars := by
    rw [ofCopies, String.toList_ofList, List.flatMap_map]
    simp [record, Item.ofEntry, Item.body]
  sound := List.forall_mem_map.2 fun copy hCopy => by
    refine ⟨?_, Script.isRecord_ofPointer (hDepth copy hCopy), hPlain copy hCopy⟩
    rw [Item.ofEntry, Script.bytes_ofPointer]
    exact Hex.decode_eq_ok_iff.1 (Hex.decode_encode _)

/-- The line on a tape is that of its records with short numbers. -/
theorem parseLine_eq_ok_iff_spells {tape : List Char} {line : Line} :
    parseLine tape = .ok line ↔ ∃ items, Spells tape items ∧
      (∀ item ∈ items, item.script.IsShort) ∧ line = items.map (Item.read Varint.low) := by
  constructor
  · intro h
    rw [parseLine] at h
    split at h
    · rename_i hNone
      exact absurd hNone (Text.parts_ne_nil openMark tape)
    · rename_i parts hParts
      obtain ⟨hTape, hFree⟩ := Text.parts_eq_cons_iff.1 hParts
      obtain ⟨-, hOpen⟩ := List.forall_mem_cons.1 hFree
      obtain ⟨items, hSound, hShort, rfl, rfl⟩ := (Item.mapM_parseEntry_eq_ok_iff hOpen).1 h
      rw [List.flatMap_map, List.nil_append] at hTape
      exact ⟨items, ⟨hTape, hSound⟩, hShort, rfl⟩
    · cases h
  · rintro ⟨items, hSpells, hShort, rfl⟩
    rw [parseLine, hSpells.parts_eq]
    exact (Item.mapM_parseEntry_eq_ok_iff (List.forall_mem_map.2 fun item hItem =>
      (hSpells.sound item hItem).openMark_not_mem)).2 ⟨items, hSpells.sound, hShort, rfl, rfl⟩

/-- A tape is read if its records have numbers of at most ten bytes, and gives
the low 64 bits of the numbers. So the tapes that are read are those that hold
lines, with the same lines, except for a tape with a plus sign for a digit or a
number of more than 64 bits that is read, and one with a number of 64 bits in
more than ten bytes. -/
theorem parse_grammar (tape : String) :
    (∀ line, parse tape = .ok line ↔ ∃ items, Spells tape.toList items ∧
      (∀ item ∈ items, item.script.IsShort) ∧ line = items.map (Item.read Varint.low)) ∧
    (∀ e, parse tape = .error e → ∃ fault, e = .malformedTape fault) ∧
    ((∀ line, parse tape = .ok line ↔ Conforms tape line) ↔ ∀ items, Spells tape.toList items →
      ((∀ item ∈ items, item.script.IsShort) ↔ ∀ item ∈ items, item.IsExact)) := by
  have hReads : ∀ line, parse tape = .ok line ↔ ∃ items, Spells tape.toList items ∧
      (∀ item ∈ items, item.script.IsShort) ∧ line = items.map (Item.read Varint.low) :=
    fun line => parse_eq_ok_iff.trans parseLine_eq_ok_iff_spells
  refine ⟨hReads, ?_, fun hSame items hSpells => ⟨fun hShort => ?_, fun hExact => ?_⟩,
    fun hSame line => ?_⟩
  · intro e h
    rw [parse] at h
    split at h
    · cases h
    · exact ⟨_, (Except.error.inj h).symm⟩
  · obtain ⟨others, hOthers, hExact, -⟩ :=
      (hSame _).1 ((hReads _).2 ⟨items, hSpells, hShort, rfl⟩)
    rwa [hSpells.unique hOthers]
  · obtain ⟨others, hOthers, hShort, -⟩ :=
      (hReads _).1 ((hSame _).2 ⟨items, hSpells, hExact, rfl⟩)
    rwa [hSpells.unique hOthers]
  · rw [hReads, Conforms]
    refine exists_congr fun items => and_congr_right fun hSpells => ?_
    rw [hSame items hSpells]
    refine and_congr_right fun hExact => ?_
    rw [List.map_congr_left fun item hItem => (hExact item hItem).read_eq]

/-- An entry with an index of 65 bits, of which 64 are those of one. -/
def wideEntry : Pointer × String :=
  (⟨[], true, 0, 0, 0, 2 ^ 64 + 1⟩, "")

/-- A record of index one with a plus sign for its first digit. -/
def signedItem : Item :=
  ⟨"+1000100000001".toList, .ofPointer ⟨[], true, 0, 0, 0, 1⟩, []⟩

/-- Two tapes that hold no line are read as the same entry. -/
theorem parse_wide_signed :
    parse (ofCopies [wideEntry]) = .ok [(⟨[], true, 0, 0, 0, 1⟩, "")] ∧
      (∀ line, ¬ Conforms (ofCopies [wideEntry]) line) ∧
      parse "\ufdd0+1000100000001\ufdd1" = .ok [(⟨[], true, 0, 0, 0, 1⟩, "")] ∧
      ∀ line, ¬ Conforms "\ufdd0+1000100000001\ufdd1" line := by
  have hWide : Spells (ofCopies [wideEntry]).toList [Item.ofEntry wideEntry] :=
    spells_ofCopies (by decide) (by decide)
  have hSigned : Spells "\ufdd0+1000100000001\ufdd1".toList [signedItem] := by
    refine ⟨rfl, List.forall_mem_singleton.2 ⟨Hex.decode_eq_ok_iff.1 (by decide +kernel),
      Script.isRecord_ofPointer (by decide), by decide⟩⟩
  refine ⟨?_, ?_, by decide +kernel, ?_⟩
  · refine parse_eq_ok_iff.2 (parseLine_eq_ok_iff_spells.2 ⟨_, hWide, ?_, ?_⟩)
    · refine List.forall_mem_singleton.2 (Script.forall_numerals.2 ?_)
      simp [wideEntry, Item.ofEntry, Script.ofPointer, Varint.encode]
    · simp [wideEntry, Item.ofEntry, Item.read, Script.ofPointer, Script.pointer, Varint.low,
        Varint.value_encode]
  · rintro line ⟨items, hItems, hExact, -⟩
    obtain rfl := hWide.unique hItems
    have hIndex := (List.forall_mem_singleton.1 hExact).2 (Varint.encode (2 ^ 64 + 1))
      (by simp [Script.numerals, Item.ofEntry, Script.ofPointer, wideEntry])
    rw [Varint.value_encode] at hIndex
    exact absurd hIndex (by decide)
  · rintro line ⟨items, hItems, hExact, -⟩
    obtain rfl := hSigned.unique hItems
    exact (List.forall_mem_singleton.1 hExact).1 (by decide)

end Tape

end Infill
