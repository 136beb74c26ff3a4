import ForkRedis.Str

set_option autoImplicit false

/- `Compress` and `Decompress` of util.cc: loops that offer lzfse larger and larger
destinations. -/
namespace ForkRedis

/-- The loop of `Compress`, for so many rounds. `encodeBuffer` is what
`lzfse_encode_buffer` writes into a destination of a given size. -/
def compressFrom (encodeBuffer : Nat → Bytes → Bytes) (data : Bytes) : Nat → Nat → Option Bytes
  | 0, _ => none
  | rounds + 1, times =>
      let written := encodeBuffer (data.length * times) data
      if written.length = 0 then compressFrom encodeBuffer data rounds (times + 1)
      else some written

/-- The two functions of lzfse: what they write into a destination of a given size. The
count they return is the length of that. -/
structure LzfseBuffers where
  encodeBuffer : Nat → Bytes → Bytes
  decodeBuffer : Nat → Bytes → Bytes

namespace LzfseBuffers

variable (lzfse : LzfseBuffers)

def compress (rounds : Nat) (data : Bytes) : Option Bytes :=
  if data = [] then some [] else compressFrom lzfse.encodeBuffer data rounds 1

def decompress (rounds : Nat) (data : Bytes) : Option Bytes :=
  decompressFrom lzfse.decodeBuffer data rounds 5

/-- The encoder returns 0 when the code word does not fit, and writes it otherwise. -/
def Encodes (data word : Bytes) : Prop :=
  word ≠ [] ∧ ∀ size, lzfse.encodeBuffer size data = if size < word.length then [] else word

/-- The decoder writes as much of the data as there is room for. -/
def Decodes (word data : Bytes) : Prop := ∀ size, lzfse.decodeBuffer size word = data.take size

variable {lzfse}

/-- A round whose destination is too small makes the next one larger by the whole data, so
there are at most as many rounds as the code word has bytes. -/
theorem compressFrom_ends {data word : Bytes} (filled : data ≠ [])
    (encodes : lzfse.Encodes data word) {rounds times : Nat}
    (enough : word.length ≤ rounds + times) :
    compressFrom lzfse.encodeBuffer data (rounds + 1) times = some word := by
  have positive : 0 < data.length := List.length_pos_iff.mpr filled
  have present : word.length ≠ 0 := fun none => encodes.1 (List.length_eq_zero_iff.mp none)
  induction rounds generalizing times with
  | zero =>
      have room : times ≤ data.length * times := Nat.le_mul_of_pos_left times positive
      have fits : ¬ data.length * times < word.length := by omega
      simp only [compressFrom, encodes.2, if_neg fits, if_neg present]
  | succ rounds ih =>
      rw [compressFrom]
      by_cases small : data.length * times < word.length
      · have later := ih (show word.length ≤ rounds + (times + 1) by omega)
        simp only [encodes.2, if_pos small, List.length_nil, ↓reduceIte, later]
      · simp only [encodes.2, if_neg small, if_neg present]

/-- A destination the data fills exactly is taken for one that is too small; the next one
is larger by a non-empty word, and is not filled. -/
theorem decompressFrom_ends {data word : Bytes} (present : word ≠ [])
    (decodes : lzfse.Decodes word data) {rounds times : Nat}
    (enough : data.length < rounds + times) :
    decompressFrom lzfse.decodeBuffer word (rounds + 1) times = some data := by
  have positive : 0 < word.length := List.length_pos_iff.mpr present
  have whole {size : Nat} (spare : data.length < size) : data.take size = data :=
    List.take_of_length_le (Nat.le_of_lt spare)
  induction rounds generalizing times with
  | zero =>
      have room : times ≤ word.length * times := Nat.le_mul_of_pos_left times positive
      have spare : data.length < word.length * times := by omega
      have unfilled : data.length ≠ word.length * times := by omega
      simp only [decompressFrom, decodes _, whole spare, if_neg unfilled]
  | succ rounds ih =>
      rw [decompressFrom]
      by_cases spare : data.length < word.length * times
      · have unfilled : data.length ≠ word.length * times := by omega
        simp only [decodes _, whole spare, if_neg unfilled]
      · have filled : (data.take (word.length * times)).length = word.length * times := by
          rw [List.length_take]
          omega
        have later := ih (show data.length < rounds + (times + 1) by omega)
        simp only [decodes _, if_pos filled, later]

theorem compress_ends {data word : Bytes} (filled : data ≠ []) (encodes : lzfse.Encodes data word)
    {rounds : Nat} (enough : word.length ≤ rounds) :
    lzfse.compress (rounds + 1) data = some word := by
  rw [compress, if_neg filled]
  exact compressFrom_ends filled encodes (by omega)

theorem decompress_ends {data word : Bytes} (present : word ≠ [])
    (decodes : lzfse.Decodes word data) {rounds : Nat} (enough : data.length ≤ rounds) :
    lzfse.decompress (rounds + 1) word = some data :=
  decompressFrom_ends present decodes (by omega)

/-- Both loops end, whatever the lengths of the data and its code word, and the second
returns what the first was given. -/
theorem decompress_compress {data word : Bytes} (filled : data ≠ [])
    (encodes : lzfse.Encodes data word) (decodes : lzfse.Decodes word data) :
    ∃ rounds, ∀ more ≥ rounds, ∃ compressed,
      lzfse.compress more data = some compressed ∧
        lzfse.decompress more compressed = some data := by
  refine ⟨data.length + word.length + 1, fun more enough => ⟨word, ?_, ?_⟩⟩
  · obtain ⟨rounds, rfl⟩ : ∃ rounds, more = rounds + 1 := ⟨more - 1, by omega⟩
    exact compress_ends filled encodes (by omega)
  · obtain ⟨rounds, rfl⟩ : ∃ rounds, more = rounds + 1 := ⟨more - 1, by omega⟩
    exact decompress_ends encodes.1 decodes (by omega)

/-- An lzfse that knows one string: ten equal bytes, whose code word of two bytes fills the
first destination `Decompress` offers exactly. -/
def tenfold : LzfseBuffers where
  encodeBuffer size data :=
    if data = List.replicate 10 7 then (if size < 2 then [] else [10, 7]) else []
  decodeBuffer size word := if word = [10, 7] then (List.replicate 10 7).take size else []

theorem decompress_compress_tenfold :
    (tenfold.Encodes (List.replicate 10 7) [10, 7] ∧
      tenfold.Decodes [10, 7] (List.replicate 10 7)) ∧
    ∃ rounds, ∀ more ≥ rounds, ∃ compressed,
      tenfold.compress more (List.replicate 10 7) = some compressed ∧
        tenfold.decompress more compressed = some (List.replicate 10 7) := by
  have encodes : tenfold.Encodes (List.replicate 10 7) [10, 7] := ⟨by decide, fun _ => rfl⟩
  have decodes : tenfold.Decodes [10, 7] (List.replicate 10 7) := fun _ => rfl
  exact ⟨⟨encodes, decodes⟩, decompress_compress (by decide) encodes decodes⟩

end LzfseBuffers

namespace Lzfse

/-- The functions of a compressor are what the loops return when they are let run. -/
structure Runs (lz : Lzfse) (lzfse : LzfseBuffers) : Prop where
  compress : ∀ data, data ≠ [] →
    ∃ rounds, ∀ more ≥ rounds, lzfse.compress more data = some (lz.compress data)
  decompress : ∀ word, word ≠ [] →
    ∃ rounds, ∀ more ≥ rounds, lzfse.decompress more word = some (lz.decompress word)

variable {lz : Lzfse} {lzfse : LzfseBuffers} {codeWord : Bytes → Bytes}

theorem Runs.compress_eq (runs : lz.Runs lzfse) {data word : Bytes} (filled : data ≠ [])
    (encodes : lzfse.Encodes data word) : lz.compress data = word := by
  obtain ⟨rounds, settled⟩ := runs.compress data filled
  have ended := settled (rounds + word.length + 1) (by omega)
  rw [LzfseBuffers.compress_ends filled encodes (by omega)] at ended
  exact (Option.some.inj ended).symm

theorem Runs.decompress_eq (runs : lz.Runs lzfse) {data word : Bytes} (present : word ≠ [])
    (decodes : lzfse.Decodes word data) : lz.decompress word = data := by
  obtain ⟨rounds, settled⟩ := runs.decompress word present
  have ended := settled (rounds + data.length + 1) (by omega)
  rw [LzfseBuffers.decompress_ends present decodes (by omega)] at ended
  exact (Option.some.inj ended).symm

/-- What dumps rely on follows from what lzfse does with one destination. -/
theorem Runs.lawful (runs : lz.Runs lzfse)
    (encodes : ∀ data, data ≠ [] → lzfse.Encodes data (codeWord data))
    (decodes : ∀ data, data ≠ [] → lzfse.Decodes (codeWord data) data)
    (fits : ∀ data, data.length < stringLimit → (lz.compress data).length < 2 ^ 64) :
    lz.Lawful where
  filled data filled := by
    rw [runs.compress_eq filled (encodes data filled)]
    exact (encodes data filled).1
  inverse data filled _ := by
    rw [runs.compress_eq filled (encodes data filled)]
    exact runs.decompress_eq (encodes data filled).1 (decodes data filled)
  fits := fits

end Lzfse

end ForkRedis
