import ForkRedis.Lib.Wire
import ForkRedis.Lib.Decimal
import Mathlib.Data.List.TakeWhile

set_option autoImplicit false

/- The helpers of util.h and util.cc: fixed-width encodings, the readers over the
bytes of a dump, and the conversions between strings and machine integers.
`int` is `Int32` and `std::size_t` is `UInt64`. -/
namespace ForkRedis

open Wire Decimal

abbrev Bytes := List UInt8

/-- The bytes of a C string literal. -/
def bytes (text : String) : Bytes := text.toUTF8.data.toList

/-- How a call can fail to return: the standard exceptions the code can raise,
behaviour the language leaves undefined, such as reading through `end()`, and a loop that
does not end. -/
inductive Fault where
  | outOfRange
  | invalidArgument
  | runtimeError
  | badOptionalAccess
  | undefined
  | endless
  deriving DecidableEq, Repr

/-- A reader over `std::deque<char> *source`. -/
abbrev Source := Reader UInt8 Fault

/-- `BitsToString<int>`. -/
def bitsToStringInt (data : Int32) : Bytes := littleEndian 4 data.toUInt32.toNat

/-- `BitsToString<std::size_t>`. -/
def bitsToStringSize (data : UInt64) : Bytes := littleEndian 8 data.toNat

/-- The bytes of `source->at(0)` to `source->at(size - 1)`, which are then erased. -/
def peekBits (size : Nat) : Source Bytes := fun source =>
  if source.length < size then .error .outOfRange
  else .ok (source.take size, source.drop size)

def peekInt : Source Int32 := do
  let bits ← peekBits 4
  return (UInt32.ofNat (littleEndianValue bits)).toInt32

def peekSize : Source UInt64 := do
  let bits ← peekBits 8
  return UInt64.ofNat (littleEndianValue bits)

/-- `PeekString` advances a raw iterator, so a short source is undefined behaviour. -/
def peekString (size : Nat) : Source Bytes := fun source =>
  if source.length < size then .error .undefined
  else .ok (source.take size, source.drop size)

/-- `source->front()` followed by `source->pop_front()`. -/
def popFront : Source UInt8 := fun source =>
  match source with
  | [] => .error .undefined
  | c :: rest => .ok (c, rest)

theorem peekBits_reads {data : Bytes} {size : Nat} (width : data.length = size) :
    Reads (peekBits size) data data := by
  intro rest
  subst width
  have enough : ¬ (data ++ rest).length < data.length := by
    rw [List.length_append]
    omega
  simp only [StateT.run, peekBits, enough, ↓reduceIte, List.take_left, List.drop_left]

theorem peekString_reads (data : Bytes) : Reads (peekString data.length) data data := by
  intro rest
  have enough : ¬ (data ++ rest).length < data.length := by
    rw [List.length_append]
    omega
  simp only [StateT.run, peekString, enough, ↓reduceIte, List.take_left, List.drop_left]

theorem peekInt_reads (data : Int32) : Reads peekInt (bitsToStringInt data) data := by
  have value : (UInt32.ofNat (littleEndianValue (bitsToStringInt data))).toInt32 = data := by
    rw [bitsToStringInt, littleEndianValue_of_lt data.toUInt32.toNat_lt]
    simp
  have read := Reads.bind_pure (fun bits => (UInt32.ofNat (littleEndianValue bits)).toInt32)
    (peekBits_reads (littleEndian_length 4 data.toUInt32.toNat))
  rwa [← bitsToStringInt, value] at read

theorem peekSize_reads (data : UInt64) : Reads peekSize (bitsToStringSize data) data := by
  have value : UInt64.ofNat (littleEndianValue (bitsToStringSize data)) = data := by
    rw [bitsToStringSize, littleEndianValue_of_lt data.toNat_lt]
    simp
  have read := Reads.bind_pure (fun bits => UInt64.ofNat (littleEndianValue bits))
    (peekBits_reads (littleEndian_length 8 data.toNat))
  rwa [← bitsToStringSize, value] at read

theorem popFront_reads (c : UInt8) : Reads popFront [c] c := fun _ => rfl

/-- `std::isspace` in the "C" locale. -/
def isSpace (c : UInt8) : Bool := c == 32 || (9 ≤ c && c ≤ 13)

/-- The byte `'-'`. -/
def minus : UInt8 := 45

/-- The number at the front of `str`, `none` when no digit is there. -/
def digitRun (str : Bytes) : Option Nat :=
  let digits := str.takeWhile isDigit
  if digits = [] then none else some (value digits)

/-- The conversion of `strtol` in base 10 before any range check: white space, an
optional sign, and the longest run of digits; what follows is ignored. -/
def strtol (str : Bytes) : Option Int :=
  match str.dropWhile isSpace with
  | [] => none
  | c :: rest =>
      if c = minus then (digitRun rest).map fun n : Nat => -(n : Int)
      else if c = 43 then (digitRun rest).map fun n : Nat => (n : Int)
      else (digitRun (c :: rest)).map fun n : Nat => (n : Int)

/-- `std::stoi`. -/
def stoi (str : Bytes) : Except Fault Int32 :=
  match strtol str with
  | none => .error .invalidArgument
  | some n => if -2 ^ 31 ≤ n ∧ n < 2 ^ 31 then .ok (Int32.ofInt n) else .error .outOfRange

/-- `std::stoull`; a negated number wraps. -/
def stoull (str : Bytes) : Except Fault UInt64 :=
  match strtol str with
  | none => .error .invalidArgument
  | some n => if n.natAbs < 2 ^ 64 then .ok (UInt64.ofInt n) else .error .outOfRange

/-- `std::to_string(int)`. -/
def toStringInt (n : Int32) : Bytes := render n.toInt

/-- `std::to_string(std::size_t)`. -/
def toStringSize (n : Nat) : Bytes := numeral n

def redisStrToSize (raw : Bytes) : Except Fault (Option UInt64) :=
  if raw = [] then .ok none
  else if raw.all isDigit then do
    let n ← stoull raw
    return some n
  else .ok none

def redisStrToInt (raw : Bytes) : Except Fault (Option Int32) :=
  match raw with
  | [] => .ok none
  | c :: abs =>
      if c ≠ minus then
        if raw.all isDigit then do
          let n ← stoi raw
          return some n
        else .ok none
      else if abs = [] then .ok none
      else if abs.all isDigit then do
        let n ← stoi abs
        return some (-n)
      else .ok none

/-- An optional minus sign and at least one digit: what `RedisStrToInt` converts. -/
def intShaped : Bytes → Bool
  | [] => false
  | c :: abs => if c = minus then !abs.isEmpty && abs.all isDigit else (c :: abs).all isDigit

/-- The digits of an integer-shaped string, without the sign. -/
def magnitude : Bytes → Nat
  | [] => 0
  | c :: abs => if c = minus then value abs else value (c :: abs)

/-- The integer an integer-shaped string denotes. -/
def intValue : Bytes → Int
  | [] => 0
  | c :: abs => if c = minus then -(value abs : Int) else value (c :: abs)

theorem magnitude_eq (raw : Bytes) : magnitude raw = (intValue raw).natAbs := by
  cases raw with
  | nil => rfl
  | cons c abs =>
      rw [magnitude, intValue]
      split
      · rw [Int.natAbs_neg, Int.natAbs_natCast]
      · rw [Int.natAbs_natCast]

theorem isDigit_not_space {c : UInt8} (digit : isDigit c = true) : isSpace c = false := by
  rw [isDigit_iff] at digit
  simp only [isSpace, Bool.or_eq_false_iff, beq_eq_false_iff_ne, ne_eq, Bool.and_eq_false_iff,
    decide_eq_false_iff_not, UInt8.le_iff_toNat_le, ← UInt8.toNat_inj]
  have space : (32 : UInt8).toNat = 32 := rfl
  have carriage : (13 : UInt8).toNat = 13 := rfl
  omega

theorem isDigit_ne_minus {c : UInt8} (digit : isDigit c = true) : c ≠ minus := by
  rintro rfl
  exact absurd digit (by decide)

theorem digitRun_digits {digits : Bytes} (some_digit : digits ≠ [])
    (all : digits.all isDigit = true) : digitRun digits = some (value digits) := by
  have whole : digits.takeWhile isDigit = digits :=
    List.takeWhile_eq_self_iff.mpr (List.all_eq_true.mp all)
  simp only [digitRun, whole, some_digit, ↓reduceIte]

theorem strtol_digits {digits : Bytes} (some_digit : digits ≠ [])
    (all : digits.all isDigit = true) : strtol digits = some (value digits : Int) := by
  cases digits with
  | nil => contradiction
  | cons c rest =>
      have digit : isDigit c = true := List.all_eq_true.mp all c List.mem_cons_self
      have plus : c ≠ 43 := by
        rintro rfl
        exact absurd digit (by decide)
      have unspaced : (c :: rest).dropWhile isSpace = c :: rest := by
        simp only [List.dropWhile_cons, isDigit_not_space digit, Bool.false_eq_true, ↓reduceIte]
      simp only [strtol, unspaced, isDigit_ne_minus digit, plus, ↓reduceIte,
        digitRun_digits some_digit all, Option.map_some]

theorem strtol_minus {digits : Bytes} (some_digit : digits ≠ [])
    (all : digits.all isDigit = true) :
    strtol (minus :: digits) = some (-(value digits : Int)) := by
  have unspaced : (minus :: digits).dropWhile isSpace = minus :: digits := rfl
  simp only [strtol, unspaced, ↓reduceIte, digitRun_digits some_digit all, Option.map_some]

theorem stoi_digits {digits : Bytes} (some_digit : digits ≠ [])
    (all : digits.all isDigit = true) :
    stoi digits = if value digits < 2 ^ 31 then .ok (Int32.ofInt (value digits))
      else .error .outOfRange := by
  simp only [stoi, strtol_digits some_digit all]
  congr 1
  apply propext
  omega

theorem stoull_digits {digits : Bytes} (some_digit : digits ≠ [])
    (all : digits.all isDigit = true) :
    stoull digits = if value digits < 2 ^ 64 then .ok (UInt64.ofNat (value digits))
      else .error .outOfRange := by
  simp only [stoull, strtol_digits some_digit all, Int.natAbs_natCast]
  split
  · rename_i small
    have same : UInt64.ofInt (value digits : Int) = UInt64.ofNat (value digits) := by
      rw [← UInt64.toNat_inj, UInt64.ofInt, UInt64.toNat_ofNat', UInt64.toNat_ofNat']
      omega
    rw [same]
  · rfl

/-- `std::stoi` on an integer-shaped string reads all of it. -/
theorem stoi_shaped {raw : Bytes} (shaped : intShaped raw = true) :
    stoi raw = if -2 ^ 31 ≤ intValue raw ∧ intValue raw < 2 ^ 31
      then .ok (Int32.ofInt (intValue raw)) else .error .outOfRange := by
  cases raw with
  | nil => cases shaped
  | cons c abs =>
      by_cases signed : c = minus
      · subst signed
        simp only [intShaped, ↓reduceIte, Bool.and_eq_true, Bool.not_eq_true',
          List.isEmpty_eq_false_iff] at shaped
        simp only [stoi, strtol_minus shaped.1 shaped.2, intValue, ↓reduceIte]
      · simp only [intShaped, signed, ↓reduceIte] at shaped
        simp only [stoi, strtol_digits (List.cons_ne_nil c abs) shaped, intValue, signed,
          ↓reduceIte]

/-- What `RedisStrToInt` does, by the shape of the string: anything that is not an
integer is refused, and an integer of 2^31 or more in magnitude raises. -/
theorem redisStrToInt_eq (raw : Bytes) :
    redisStrToInt raw =
      if intShaped raw then
        if magnitude raw < 2 ^ 31 then .ok (some (Int32.ofInt (intValue raw)))
        else .error .outOfRange
      else .ok none := by
  cases raw with
  | nil => rfl
  | cons c abs =>
      by_cases signed : c = minus
      · subst signed
        simp only [redisStrToInt, intShaped, magnitude, intValue, ne_eq, not_true_eq_false,
          ↓reduceIte]
        by_cases empty : abs = []
        · simp only [empty, ↓reduceIte, List.isEmpty_nil, Bool.not_true, Bool.false_and,
            Bool.false_eq_true]
        · by_cases all : abs.all isDigit = true
          · have filled : abs.isEmpty = false := List.isEmpty_eq_false_iff.mpr empty
            simp only [empty, all, filled, ↓reduceIte, stoi_digits empty all, Bool.not_false,
              Bool.and_self]
            split
            · rw [Int32.ofInt_neg]
              rfl
            · rfl
          · simp only [empty, all, Bool.and_false, Bool.false_eq_true, ↓reduceIte]
      · simp only [redisStrToInt, intShaped, magnitude, intValue, signed, ne_eq,
          not_false_eq_true, ↓reduceIte]
        by_cases all : (c :: abs).all isDigit = true
        · simp only [all, ↓reduceIte, stoi_digits (List.cons_ne_nil c abs) all]
          split <;> rfl
        · simp only [all, Bool.false_eq_true, ↓reduceIte]

end ForkRedis
