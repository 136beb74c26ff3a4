import ForkRedis.Util

set_option autoImplicit false

/- `Str`, the string object, with its integer tag and its dump encoding. -/
namespace ForkRedis

open Wire Decimal

/-- `EncodingType` without `UNKNOWN`, which is the absence of a value here. -/
inductive EncodingType where
  | int
  | strRaw
  | strCompress
  | list
  | array
  | hashMap
  | rbTree
  deriving DecidableEq, Repr

def encodingTypeToChar : EncodingType → UInt8
  | .int => 0
  | .strRaw => 1
  | .strCompress => 2
  | .list => 3
  | .array => 4
  | .hashMap => 5
  | .rbTree => 6

def charToEncodingType (c : UInt8) : Option EncodingType :=
  if c = 0 then some .int
  else if c = 1 then some .strRaw
  else if c = 2 then some .strCompress
  else if c = 3 then some .list
  else if c = 4 then some .array
  else if c = 5 then some .hashMap
  else if c = 6 then some .rbTree
  else none

/-- The tag the constructor and `Set` give to some contents: `INT` unless a byte is
neither a digit nor a leading minus sign with something behind it. -/
def classify : Bytes → EncodingType
  | [] => .int
  | c :: rest =>
      if isDigit c || (c == minus && !rest.isEmpty) then
        if rest.all isDigit then .int else .strRaw
      else .strRaw

/-- A string object. Its tag is one of two, and contents tagged `INT` passed the
scan of the constructor. -/
structure Str where
  data : Bytes
  encodingType : EncodingType
  tagged : encodingType = .strRaw ∨ encodingType = .int ∧ classify data = .int
  deriving DecidableEq

theorem classify_cases (data : Bytes) : classify data = .strRaw ∨ classify data = .int := by
  cases data with
  | nil => exact Or.inr rfl
  | cons c rest =>
      simp only [classify]
      split
      · split
        · exact Or.inr rfl
        · exact Or.inl rfl
      · exact Or.inl rfl

theorem classify_int_iff (data : Bytes) :
    classify data = .int ↔ data = [] ∨ intShaped data = true := by
  cases data with
  | nil => simp only [classify, true_or]
  | cons c rest =>
      by_cases signed : c = minus
      · subst signed
        have sign : isDigit minus = false := rfl
        simp only [classify, intShaped, sign, ↓reduceIte, List.cons_ne_nil, false_or,
          beq_self_eq_true, Bool.true_and, Bool.and_eq_true]
        split
        · split <;> simp_all
        · simp_all
      · simp only [classify, intShaped, signed, ↓reduceIte, List.cons_ne_nil, false_or,
          beq_eq_false_iff_ne.mpr signed, Bool.false_and, Bool.or_false, List.all_cons,
          Bool.and_eq_true]
        split
        · split <;> simp_all
        · simp_all

namespace Str

/-- The constructor from a `std::string`. -/
def ofData (data : Bytes) : Str where
  data := data
  encodingType := classify data
  tagged := (classify_cases data).imp id fun int => ⟨int, int⟩

theorem map_data_ofData (texts : List Bytes) : (texts.map ofData).map data = texts := by
  rw [List.map_map]
  exact List.map_id texts

/-- The value-initialised `Str{}`: no contents, and the zero tag. -/
def empty : Str := ⟨[], .int, Or.inr ⟨rfl, rfl⟩⟩

/-- `GetRaw`. -/
abbrev getRaw (s : Str) : Bytes := s.data

/-- `Set` classifies the new contents exactly as the constructor does. -/
def set (_ : Str) (data : Bytes) : Str := ofData data

/-- A raw string with the given contents. -/
def raw (data : Bytes) : Str := ⟨data, .strRaw, Or.inl rfl⟩

theorem classify_of_redisStrToInt {data : Bytes} {n : Int32}
    (converted : redisStrToInt data = .ok (some n)) : classify data = .int := by
  rw [redisStrToInt_eq] at converted
  by_cases shaped : intShaped data = true
  · exact (classify_int_iff data).mpr (Or.inr shaped)
  · simp only [shaped, Bool.false_eq_true, ↓reduceIte, Except.ok.injEq, reduceCtorEq] at converted

/-- `Append` returns the new length. The conversion that decides the tag is made
after the bytes were added, and it can raise. -/
def append (s : Str) (data : Bytes) : Except Fault (Str × Nat) :=
  let joined := s.data ++ data
  if s.encodingType = .int then
    match converted : redisStrToInt joined with
    | .error fault => .error fault
    | .ok none => .ok (raw joined, joined.length)
    | .ok (some _) =>
        .ok (⟨joined, .int, Or.inr ⟨rfl, classify_of_redisStrToInt converted⟩⟩, joined.length)
  else .ok (raw joined, joined.length)

/-- The contents `std::to_string(int)` leaves behind. -/
theorem classify_toStringInt (n : Int32) : classify (toStringInt n) = .int := by
  rw [classify_int_iff]
  apply Or.inr
  unfold toStringInt render
  split
  · have filled : (numeral n.toInt.natAbs).isEmpty = false :=
      List.isEmpty_eq_false_iff.mpr (numeral_ne_nil _)
    simp only [intShaped, minus, ↓reduceIte, filled, Bool.not_false, numeral_digits,
      Bool.and_self]
  · have digits := numeral_digits n.toInt.natAbs
    cases shape : numeral n.toInt.natAbs with
    | nil => exact absurd shape (numeral_ne_nil _)
    | cons c rest =>
        have first : c ≠ minus := by
          rintro rfl
          exact numeral_ne_minus _ rest shape
        rw [shape] at digits
        simp only [intShaped, first, ↓reduceIte, digits]

/-- A string holding the decimal of a 32-bit integer. -/
def ofInt (n : Int32) : Str := ⟨toStringInt n, .int, Or.inr ⟨rfl, classify_toStringInt n⟩⟩

/-- `IncrBy` returns the new contents, or nothing when it refuses. -/
def incrBy (s : Str) (delta : Int32) : Except Fault (Str × Bytes) :=
  if s.encodingType ≠ .int then .ok (s, [])
  else do
    let intval ← redisStrToInt s.data
    match intval with
    | none => return (raw s.data, [])
    | some rawInt => return (ofInt (rawInt + delta), toStringInt (rawInt + delta))

def decrBy (s : Str) (delta : Int32) : Except Fault (Str × Bytes) := s.incrBy (-delta)

def len (s : Str) : Nat := s.data.length

def isEmpty (s : Str) : Bool := s.data.isEmpty

end Str

/-- `Compress` and `Decompress`, the wrappers around lzfse. -/
structure Lzfse where
  compress : Bytes → Bytes
  decompress : Bytes → Bytes

/-- No `std::string` is as long as this. -/
def stringLimit : Nat := 2 ^ 63

/-- The loop of `Decompress`, for so many rounds. `decodeBuffer` is what
`lzfse_decode_buffer` writes into a destination of a given size; a destination that is
filled was perhaps too small, and the next one is larger. -/
def decompressFrom (decodeBuffer : Nat → Bytes → Bytes) (data : Bytes) : Nat → Nat → Option Bytes
  | 0, _ => none
  | rounds + 1, times =>
      let written := decodeBuffer (data.length * times) data
      if written.length = data.length * times then
        decompressFrom decodeBuffer data rounds (times + 1)
      else some written

/-- The loop ends when no destination beyond some size is filled, unless there is no data:
then each destination is empty, and filled. -/
theorem decompressFrom_ends_iff {decodeBuffer : Nat → Bytes → Bytes} {data : Bytes}
    (fits : ∀ size, (decodeBuffer size data).length ≤ size) {bound : Nat}
    (bounded : ∀ size, (decodeBuffer size data).length ≤ bound) (times : Nat) :
    (∃ rounds written, decompressFrom decodeBuffer data rounds times = some written) ↔
      data ≠ [] := by
  constructor
  · rintro ⟨rounds, written, ended⟩ rfl
    induction rounds generalizing times with
    | zero => cases ended
    | succ rounds ih =>
        have filled : (decodeBuffer (0 * times) []).length = 0 * times := by
          have := fits (0 * times)
          omega
        rw [decompressFrom, List.length_nil, if_pos filled] at ended
        exact ih (times + 1) ended
  · intro filled
    have positive : 0 < data.length := List.length_pos_iff.mpr filled
    -- every round takes the destination closer to the bound
    induction left : bound + 1 - times generalizing times with
    | zero =>
        have larger : times ≤ data.length * times := Nat.le_mul_of_pos_left times positive
        have spare : (decodeBuffer (data.length * times) data).length ≠ data.length * times := by
          have := bounded (data.length * times)
          omega
        exact ⟨1, _, by rw [decompressFrom, if_neg spare]⟩
    | succ left' ih =>
        obtain ⟨rounds, written, ended⟩ := ih (times + 1) (by omega)
        by_cases full : (decodeBuffer (data.length * times) data).length = data.length * times
        · exact ⟨rounds + 1, written, by rw [decompressFrom, if_pos full, ended]⟩
        · exact ⟨1, _, by rw [decompressFrom, if_neg full]⟩

/-- What a dump relies on: decompression undoes compression of non-empty strings,
compression leaves something of them, and the length of a compressed string is a
`std::size_t`. -/
structure Lzfse.Lawful (lz : Lzfse) : Prop where
  filled : ∀ data, data ≠ [] → lz.compress data ≠ []
  inverse : ∀ data, data ≠ [] → data.length < stringLimit →
    lz.decompress (lz.compress data) = data
  fits : ∀ data, data.length < stringLimit → (lz.compress data).length < 2 ^ 64

/-- The settings a dump is written under: the compressor and `DefineCompress()`. -/
structure DumpConf where
  lz : Lzfse
  compress : Bool

namespace Str

/-- The tag, then for an integer its four bytes, and for a string the length of the
compressed form if there is one, the length of the contents, and the payload. -/
def encodeValue (conf : DumpConf) (s : Str) : Except Fault Bytes :=
  if s.encodingType = .strRaw then
    if conf.compress then
      let cprs := conf.lz.compress s.data
      .ok (encodingTypeToChar .strCompress :: (bitsToStringSize (UInt64.ofNat cprs.length) ++
        (bitsToStringSize (UInt64.ofNat s.data.length) ++ cprs)))
    else
      .ok (encodingTypeToChar .strRaw :: (bitsToStringSize (UInt64.ofNat s.data.length) ++ s.data))
  else do
    let data ← stoi s.data
    return encodingTypeToChar .int :: bitsToStringInt data

/-- A tag that is not a string's leaves a cleared raw string and reads no further. The loop
of `Decompress` does not end when there is no data. -/
def decodeValue (lz : Lzfse) : Source Str := do
  let c ← popFront
  match charToEncodingType c with
  | some .int => do
      let n ← peekInt
      return ofInt n
  | some .strRaw => do
      let size ← peekSize
      let data ← peekString size.toNat
      return raw data
  | some .strCompress => do
      let sizeCompress ← peekSize
      let _ ← peekSize
      let cprs ← peekString sizeCompress.toNat
      if cprs = [] then throw .endless else return raw (lz.decompress cprs)
  | _ => return raw []

/-- What a dump makes of a string: contents tagged `INT` become the canonical decimal
of their value, raw contents stay. -/
def norm (s : Str) : Str :=
  if s.encodingType = .strRaw then s
  else
    match stoi s.data with
    | .ok n => ofInt n
    | .error _ => s

def Fits (s : Str) : Prop := s.data.length < stringLimit

instance (s : Str) : Decidable s.Fits := inferInstanceAs (Decidable (_ < _))

theorem ext_data {s t : Str} (data : s.data = t.data)
    (tag : s.encodingType = t.encodingType) : s = t := by
  cases s
  cases t
  simp only at data tag
  subst data tag
  rfl

theorem encodingType_eq_int {s : Str} (other : s.encodingType ≠ .strRaw) :
    s.encodingType = .int ∧ classify s.data = .int :=
  s.tagged.resolve_left other

theorem raw_data {s : Str} (tag : s.encodingType = .strRaw) : raw s.data = s :=
  ext_data rfl tag.symm

theorem charToEncodingType_toChar (tag : EncodingType) :
    charToEncodingType (encodingTypeToChar tag) = some tag := by
  cases tag <;> rfl

theorem peekSized_reads {data : Bytes} (fits : data.length < 2 ^ 64) :
    Reads (peekString (UInt64.ofNat data.length).toNat) data data := by
  rw [UInt64.toNat_ofNat', Nat.mod_eq_of_lt fits]
  exact peekString_reads data

/-- A string whose encoding raises: tagged `INT`, and empty or beyond 32 bits. -/
def Unencodable (s : Str) : Prop :=
  s.encodingType = .int ∧
    (s.data = [] ∨ ¬ (-2 ^ 31 ≤ intValue s.data ∧ intValue s.data < 2 ^ 31))

theorem encodeValue_error_iff (conf : DumpConf) (s : Str) :
    (∃ fault, s.encodeValue conf = .error fault) ↔ s.Unencodable := by
  by_cases raw_tag : s.encodingType = .strRaw
  · have returns : ∃ code, s.encodeValue conf = .ok code := by
      rw [encodeValue, if_pos raw_tag]
      split <;> exact ⟨_, rfl⟩
    obtain ⟨code, encoded⟩ := returns
    simp only [encoded, reduceCtorEq, exists_false, Unencodable, raw_tag, false_and]
  · obtain ⟨tag, scanned⟩ := encodingType_eq_int raw_tag
    rw [encodeValue, if_neg raw_tag, Unencodable, and_iff_right tag]
    rcases (classify_int_iff s.data).mp scanned with empty | shaped
    · simp only [empty, true_or, iff_true]
      exact ⟨.invalidArgument, rfl⟩
    · have filled : s.data ≠ [] := by
        intro empty
        rw [empty] at shaped
        cases shaped
      rw [stoi_shaped shaped]
      by_cases range : -2 ^ 31 ≤ intValue s.data ∧ intValue s.data < 2 ^ 31
      · simp only [range, and_self, ↓reduceIte, filled, not_true_eq_false, or_self, iff_false]
        rintro ⟨fault, raised⟩
        cases raised
      · simp only [range, ↓reduceIte, filled, not_false_eq_true, or_true, iff_true]
        exact ⟨.outOfRange, rfl⟩

/-- Decoding an encoded string yields its normal form and leaves every suffix. -/
theorem decodeValue_reads {conf : DumpConf} (lawful : conf.lz.Lawful) {s : Str}
    (fits : s.Fits) (filled : s.encodingType = .strRaw → s.data ≠ []) {code : Bytes}
    (encoded : s.encodeValue conf = .ok code) :
    Reads (decodeValue conf.lz) code s.norm := by
  unfold encodeValue at encoded
  by_cases raw_tag : s.encodingType = .strRaw
  · have same : s.norm = raw s.data := by
      rw [norm, if_pos raw_tag, raw_data raw_tag]
    rw [if_pos raw_tag] at encoded
    by_cases compressed : conf.compress = true
    · rw [if_pos compressed] at encoded
      cases encoded
      rw [same, ← List.singleton_append]
      apply Reads.bind (popFront_reads _)
      rw [charToEncodingType_toChar]
      apply Reads.bind (peekSize_reads _)
      apply Reads.bind (peekSize_reads _)
      intro rest
      rw [StateT.run_bind, peekSized_reads (lawful.fits s.data fits)]
      dsimp only [bind, Except.bind]
      rw [if_neg (lawful.filled s.data (filled raw_tag)),
        lawful.inverse s.data (filled raw_tag) fits]
      rfl
    · rw [if_neg compressed] at encoded
      cases encoded
      rw [same, ← List.singleton_append]
      apply Reads.bind (popFront_reads _)
      rw [charToEncodingType_toChar]
      apply Reads.bind (peekSize_reads _)
      exact Reads.bind_pure raw (peekSized_reads (Nat.lt_trans fits (by decide)))
  · rw [if_neg raw_tag] at encoded
    cases converted : stoi s.data with
    | error fault =>
        rw [converted] at encoded
        cases encoded
    | ok n =>
        rw [converted] at encoded
        cases encoded
        rw [norm, if_neg raw_tag, converted, ← List.singleton_append]
        apply Reads.bind (popFront_reads _)
        rw [charToEncodingType_toChar]
        exact Reads.bind_pure ofInt (peekInt_reads n)

end Str

/-- `EncodeValue` of a container: its size, then the code of each element in order. -/
def encodeAll {α : Type} (encode : α → Except Fault Bytes) (items : List α) :
    Except Fault Bytes := do
  let codes ← items.mapM encode
  return bitsToStringSize (UInt64.ofNat items.length) ++ codes.flatten

end ForkRedis
