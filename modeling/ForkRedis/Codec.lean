import ForkRedis.Db
import ForkRedis.Lib.Fallible

set_option autoImplicit false

/- What an entry of a dump means: decoding reads back the normal form of what was
encoded, and encoding raises on the strings it cannot write as an integer. -/
namespace ForkRedis

open Wire Decimal Lists Fallible

variable {conf : DumpConf} {code : Bytes}

section Containers

variable {α γ : Type} {encode : α → Except Fault Bytes} {items : List α}

theorem encodeAll_error_iff :
    (∃ fault, encodeAll encode items = .error fault) ↔
      ∃ item ∈ items, ∃ fault, encode item = .error fault := by
  rw [encodeAll, bind_error_iff, mapM_error_iff]
  simp only [pure_eq_ok, reduceCtorEq, exists_false, and_false, or_false]

/-- A container is read back by folding its elements in, in encoded order. -/
theorem encodeAll_reads {round : γ → Source γ} {absorb : γ → α → γ} {code : Bytes}
    (fits : items.length < 2 ^ 64) (encoded : encodeAll encode items = .ok code)
    (reads : ∀ item ∈ items, ∀ itemCode, encode item = .ok itemCode →
      ∀ acc, Reads (round acc) itemCode (absorb acc item)) (acc : γ) :
    Reads (do
      let len ← peekSize
      loop round len.toNat acc) code (items.foldl absorb acc) := by
  obtain ⟨codes, mapped, returned⟩ := bind_eq_ok.mp encoded
  obtain ⟨each, rfl⟩ := mapM_pointwise [] mapped
  cases returned
  apply Reads.bind (peekSize_reads _)
  rw [UInt64.toNat_ofNat', Nat.mod_eq_of_lt fits, ← List.flatMap_def]
  apply Reads.loop
  intro item member acc
  exact reads item member _ (each item member) acc

end Containers

/-- Whatever the bytes, a decoded string is the decimal of an integer, or raw; the first byte
decides which. -/
theorem Str.decodeValue_cases {lz : Lzfse} {c : UInt8} {source rest : Bytes} {s : Str}
    (decoded : (decodeValue lz).run (c :: source) = .ok (s, rest)) :
    (charToEncodingType c = some .int ∧ ∃ n, s = ofInt n) ∨
      (charToEncodingType c ≠ some .int ∧ ∃ data, s = raw data) := by
  rw [decodeValue, StateT.run_bind] at decoded
  obtain ⟨⟨first, tail⟩, popped, returned⟩ := bind_eq_ok.mp decoded
  cases popped
  dsimp only at returned
  split at returned
  · rename_i tag
    obtain ⟨read, -, same⟩ := bind_eq_ok.mp returned
    cases same
    exact Or.inl ⟨tag, _, rfl⟩
  · rename_i tag
    obtain ⟨size, -, more⟩ := bind_eq_ok.mp returned
    obtain ⟨data, -, same⟩ := bind_eq_ok.mp more
    cases same
    exact Or.inr ⟨by rw [tag]; exact nofun, _, rfl⟩
  · rename_i tag
    obtain ⟨sizeCompress, -, more⟩ := bind_eq_ok.mp returned
    obtain ⟨size, -, more⟩ := bind_eq_ok.mp more
    obtain ⟨⟨cprs, tail⟩, -, more⟩ := bind_eq_ok.mp more
    dsimp only at more
    split at more
    · cases more
    · cases more
      exact Or.inr ⟨by rw [tag]; exact nofun, _, rfl⟩
  · rename_i other _ _
    cases returned
    exact Or.inr ⟨other, _, rfl⟩

/-- A string a dump can hold: it is a `std::string`, and compression never sees an
empty one. -/
structure Str.Storable (s : Str) : Prop where
  fits : s.Fits
  filled : s.encodingType = .strRaw → s.data ≠ []

instance (s : Str) : Decidable s.Storable :=
  decidable_of_iff (s.Fits ∧ (s.encodingType = .strRaw → s.data ≠ []))
    ⟨fun ⟨fits, filled⟩ => ⟨fits, filled⟩, fun ⟨fits, filled⟩ => ⟨fits, filled⟩⟩

namespace StrList

def norm (l : List Str) : List Str := l.map Str.norm

theorem foldl_pushBack (l acc : List Str) :
    l.foldl (fun acc s => pushBack acc s.norm) acc = acc ++ norm l := by
  induction l generalizing acc with
  | nil => rw [List.foldl_nil, norm, List.map_nil, List.append_nil]
  | cons s l ih =>
      rw [List.foldl_cons, ih, pushBack, List.append_assoc]
      rfl

end StrList

namespace StrSet

/-- The normal forms of the members, inserted in order. -/
def norm (s : StrSet) : StrSet := Keyed.ofList (s.items.map Str.norm)

end StrSet

namespace StrHash

def norm (h : StrHash) : StrHash :=
  Keyed.ofList (h.items.map fun field => (field.1.norm, field.2.norm))

theorem encodeField_error_iff (conf : DumpConf) (field : Str × Str) :
    (∃ fault, encodeField conf field = .error fault) ↔
      field.1.Unencodable ∨ field.2.Unencodable := by
  rw [encodeField, seq_error_iff, Str.encodeValue_error_iff, Str.encodeValue_error_iff]

end StrHash

namespace LinkedZSet

/-- The (member, score) pairs in insertion order. -/
def entries (z : LinkedZSet) : List (Str × Int32) := z.1.entries.toOption.getD []

/-- A fresh object to which pairs were added in order. -/
def ofEntries (entries : List (Str × Int32)) : LinkedZSet :=
  entries.foldl (fun acc entry => (acc.add entry.2 entry.1).1) empty

def norm (z : LinkedZSet) : LinkedZSet :=
  ofEntries (z.entries.map fun entry => (entry.1.norm, entry.2))

theorem entries_eq {z : LinkedZSet} {es : List ZEntry} (rep : z.1.Rep es) :
    z.entries = es.map fun e => (e.key, e.score) := by
  rw [entries, rep.entries_eq]
  rfl

theorem foldl_add_val (entries : List (Str × Int32)) (acc : LinkedZSet) :
    (entries.foldl (fun acc entry => (acc.add entry.2 entry.1).1) acc).1 =
      entries.foldl (fun acc entry => (acc.add entry.2 entry.1).1) acc.1 := by
  induction entries generalizing acc with
  | nil => rfl
  | cons entry entries ih => rw [List.foldl_cons, List.foldl_cons, ih]; rfl

theorem attach_ok {β : Type} {result : Except Fault (ZSet × β)}
    {keeps : ∀ r, result = .ok r → r.1.Linked} {r : ZSet × β} (returned : result = .ok r) :
    attach result keeps = .ok (⟨r.1, keeps r returned⟩, r.2) := by
  subst returned
  rfl

/-- The dump of a `ZSet` is that of its pairs. -/
def encodeEntry (conf : DumpConf) (entry : Str × Int32) : Except Fault Bytes := do
  let code ← entry.1.encodeValue conf
  return bitsToStringInt entry.2 ++ code

theorem encodeValue_eq (conf : DumpConf) (z : LinkedZSet) :
    z.1.encodeValue conf = encodeAll (encodeEntry conf) z.entries := by
  obtain ⟨es, rep⟩ := z.2
  have each : ∀ e ∈ es, z.1.encodeNode conf e.seqNode = encodeEntry conf (e.key, e.score) := by
    intro e member
    rw [ZSet.encodeNode, ZEntry.seqNode, rep.memberAt_of_mem member]
    rfl
  rw [entries_eq rep, ZSet.encodeValue, rep.seq, encodeAll, encodeAll]
  simp only [List.length_map, List.mapM_map]
  rw [mapM_congr (g := encodeEntry conf ∘ fun e => (e.key, e.score)) each]

theorem decodeValue_reads (lawful : conf.lz.Lawful) {z : LinkedZSet}
    (fits : z.entries.length < 2 ^ 64) (storable : ∀ entry ∈ z.entries, entry.1.Storable)
    (encoded : z.1.encodeValue conf = .ok code) : Reads (decodeValue conf.lz) code z.norm := by
  rw [encodeValue_eq] at encoded
  have read : Reads (ZSet.decodeValue conf.lz ZSet.empty) code z.norm.1 := by
    rw [norm, ofEntries, foldl_add_val, List.foldl_map]
    apply encodeAll_reads fits encoded
    intro entry member entryCode entryEncoded acc
    obtain ⟨nameCode, named, returned⟩ := bind_eq_ok.mp entryEncoded
    cases returned
    apply Reads.bind (peekInt_reads _)
    exact Reads.bind_pure (fun s => (acc.add entry.2 s).1)
      (Str.decodeValue_reads lawful (storable entry member).fits
        (storable entry member).filled named)
  intro rest
  exact attach_ok (read rest)

end LinkedZSet

namespace StrList

theorem decodeValue_reads (lawful : conf.lz.Lawful) {l : List Str} (fits : l.length < 2 ^ 64)
    (storable : ∀ s ∈ l, s.Storable) (encoded : encodeValue conf l = .ok code) :
    Reads (decodeValue conf.lz []) code (norm l) := by
  rw [← List.nil_append (norm l), ← foldl_pushBack]
  apply encodeAll_reads fits encoded
  intro s member strCode strEncoded acc
  exact Reads.bind_pure (pushBack acc)
    (Str.decodeValue_reads lawful (storable s member).fits (storable s member).filled strEncoded)

end StrList

namespace StrSet

theorem decodeValue_reads (lawful : conf.lz.Lawful) {s : StrSet} (fits : s.items.length < 2 ^ 64)
    (storable : ∀ str ∈ s.items, str.Storable) (encoded : s.encodeValue conf = .ok code) :
    Reads (decodeValue conf.lz Keyed.empty) code s.norm := by
  rw [norm, Keyed.ofList, List.foldl_map]
  apply encodeAll_reads fits encoded
  intro str member strCode strEncoded acc
  exact Reads.bind_pure acc.insert
    (Str.decodeValue_reads lawful (storable str member).fits (storable str member).filled
      strEncoded)

end StrSet

namespace StrHash

theorem decodeValue_reads (lawful : conf.lz.Lawful) {h : StrHash} (fits : h.items.length < 2 ^ 64)
    (storable : ∀ field ∈ h.items, field.1.Storable ∧ field.2.Storable)
    (encoded : h.encodeValue conf = .ok code) :
    Reads (decodeValue conf.lz Keyed.empty) code h.norm := by
  rw [norm, Keyed.ofList, List.foldl_map]
  apply encodeAll_reads fits encoded
  intro field member fieldCode fieldEncoded acc
  obtain ⟨keyCode, keyEncoded, rest⟩ := bind_eq_ok.mp fieldEncoded
  obtain ⟨valueCode, valueEncoded, returned⟩ := bind_eq_ok.mp rest
  cases returned
  obtain ⟨key, value⟩ := storable field member
  apply Reads.bind (Str.decodeValue_reads lawful key.fits key.filled keyEncoded)
  exact Reads.bind_pure (fun v => acc.insert (field.1.norm, v))
    (Str.decodeValue_reads lawful value.fits value.filled valueEncoded)

end StrHash

namespace Object

/-- Every string an object contains. -/
def strings : Object → List Str
  | .str s => [s]
  | .list l => l
  | .hash h => h.items.flatMap fun field => [field.1, field.2]
  | .set s => s.items
  | .zset z => z.entries.map Prod.fst

/-- The number of elements of a container. -/
def size : Object → Nat
  | .str s => s.data.length
  | .list l => l.length
  | .hash h => h.items.length
  | .set s => s.items.length
  | .zset z => z.entries.length

/-- The normal form of every contained string, inserted in encoded order. -/
def norm : Object → Object
  | .str s => .str s.norm
  | .list l => .list (StrList.norm l)
  | .hash h => .hash (StrHash.norm h)
  | .set s => .set (StrSet.norm s)
  | .zset z => .zset (LinkedZSet.norm z)

theorem getObjectType_norm (object : Object) :
    object.norm.getObjectType = object.getObjectType := by
  cases object <;> rfl

theorem encodeValue_error_iff (conf : DumpConf) (object : Object) :
    (∃ fault, object.encodeValue conf = .error fault) ↔
      ∃ s ∈ object.strings, s.Unencodable := by
  cases object with
  | str s =>
      simp only [encodeValue, strings, List.mem_singleton, exists_eq_left,
        Str.encodeValue_error_iff]
  | list l =>
      simp only [encodeValue, strings, StrList.encodeValue, encodeAll_error_iff,
        Str.encodeValue_error_iff]
  | hash h =>
      simp only [encodeValue, strings, StrHash.encodeValue, encodeAll_error_iff,
        StrHash.encodeField_error_iff, List.mem_flatMap, List.mem_cons, List.not_mem_nil, or_false]
      constructor
      · rintro ⟨field, member, bad | bad⟩
        · exact ⟨field.1, ⟨field, member, Or.inl rfl⟩, bad⟩
        · exact ⟨field.2, ⟨field, member, Or.inr rfl⟩, bad⟩
      · rintro ⟨s, ⟨field, member, rfl | rfl⟩, bad⟩
        · exact ⟨field, member, Or.inl bad⟩
        · exact ⟨field, member, Or.inr bad⟩
  | set s =>
      simp only [encodeValue, strings, StrSet.encodeValue, encodeAll_error_iff,
        Str.encodeValue_error_iff]
  | zset z =>
      have pairs (entry : Str × Int32) :
          (∃ fault, LinkedZSet.encodeEntry conf entry = .error fault) ↔ entry.1.Unencodable := by
        rw [LinkedZSet.encodeEntry, bind_error_iff, Str.encodeValue_error_iff]
        simp only [pure_eq_ok, reduceCtorEq, exists_false, and_false, or_false]
      simp only [encodeValue, strings, LinkedZSet.encodeValue_eq, encodeAll_error_iff, pairs,
        List.mem_map, exists_exists_and_eq_and]

/-- Every container has a `std::size_t` size and every string can be stored. -/
structure Storable (object : Object) : Prop where
  sized : object.size < 2 ^ 64
  strings : ∀ s ∈ object.strings, s.Storable

instance (object : Object) : Decidable object.Storable :=
  decidable_of_iff (object.size < 2 ^ 64 ∧ ∀ s ∈ object.strings, s.Storable)
    ⟨fun ⟨sized, strings⟩ => ⟨sized, strings⟩, fun ⟨sized, strings⟩ => ⟨sized, strings⟩⟩

theorem decodeValue_reads (lawful : conf.lz.Lawful) {object : Object} (storable : object.Storable)
    (encoded : object.encodeValue conf = .ok code) :
    Reads (decodeValue conf.lz (some object.getObjectType)) code (some object.norm) := by
  obtain ⟨sized, each⟩ := storable
  cases object with
  | str s =>
      have fits := each s List.mem_cons_self
      exact Reads.bind_pure (fun s => some (Object.str s))
        (Str.decodeValue_reads lawful fits.fits fits.filled encoded)
  | list l =>
      exact Reads.bind_pure (fun l => some (Object.list l))
        (StrList.decodeValue_reads lawful sized each encoded)
  | hash h =>
      refine Reads.bind_pure (fun h => some (Object.hash h))
        (StrHash.decodeValue_reads lawful sized ?_ encoded)
      intro field member
      exact ⟨each field.1 (List.mem_flatMap.mpr ⟨field, member, List.mem_cons_self⟩),
        each field.2 (List.mem_flatMap.mpr
          ⟨field, member, List.mem_cons_of_mem _ List.mem_cons_self⟩)⟩
  | set s =>
      exact Reads.bind_pure (fun s => some (Object.set s))
        (StrSet.decodeValue_reads lawful sized each encoded)
  | zset z =>
      refine Reads.bind_pure (fun z => some (Object.zset z))
        (LinkedZSet.decodeValue_reads lawful sized ?_ encoded)
      intro entry member
      exact each entry.1 (List.mem_map.mpr ⟨entry, member, rfl⟩)

end Object

namespace KeyValue

/-- The key and every string of the value. -/
def strings (kv : KeyValue) : List Str := kv.key :: kv.value.strings

structure Storable (kv : KeyValue) : Prop where
  key : kv.key.Storable
  value : kv.value.Storable

instance (kv : KeyValue) : Decidable (Storable kv) :=
  decidable_of_iff (kv.key.Storable ∧ kv.value.Storable)
    ⟨fun ⟨key, value⟩ => ⟨key, value⟩, fun ⟨key, value⟩ => ⟨key, value⟩⟩

/-- The entry a dump of `kv` stands for. -/
def norm (kv : KeyValue) : LoadedKeyValue :=
  ⟨kv.key.norm, some kv.value.norm, kv.expireTimeUs⟩

theorem encode_error_iff (conf : DumpConf) (kv : KeyValue) :
    (∃ fault, kv.encode conf = .error fault) ↔ ∃ s ∈ kv.strings, s.Unencodable := by
  rw [encode, seq_error_iff, Str.encodeValue_error_iff, Object.encodeValue_error_iff]
  simp only [strings, List.mem_cons, exists_eq_or_imp]

theorem decode_reads (lawful : conf.lz.Lawful) {kv : KeyValue} (storable : kv.Storable)
    (encoded : kv.encode conf = .ok code) : Reads (decode conf.lz) code kv.norm := by
  obtain ⟨keyCode, keyEncoded, rest⟩ := bind_eq_ok.mp encoded
  obtain ⟨valueCode, valueEncoded, returned⟩ := bind_eq_ok.mp rest
  cases returned
  have key := Str.decodeValue_reads lawful storable.key.fits storable.key.filled keyEncoded
  have value := Object.decodeValue_reads lawful storable.value valueEncoded
  cases expiry : kv.expireTimeUs with
  | none =>
      have other : charToObjectType (objectTypeToChar kv.value.getObjectType) ≠
          some .expireEntry := by
        rw [charToObjectType_toChar, ne_eq, Option.some.injEq]
        exact kv.value.getObjectType_ne_expireEntry
      rw [internalPrefixEncode, expiry]
      apply Reads.bind (popFront_reads _)
      rw [if_neg other]
      apply Reads.bind key
      rw [charToObjectType_toChar]
      rw [norm, expiry]
      exact Reads.bind_pure (fun value => (⟨kv.key.norm, value, none⟩ : LoadedKeyValue)) value
  | some time =>
      have framed : kv.internalPrefixEncode ++ (keyCode ++ valueCode) =
          [objectTypeToChar .expireEntry] ++ (bitsToStringSize time ++
            ([objectTypeToChar kv.value.getObjectType] ++ (keyCode ++ valueCode))) := by
        simp only [internalPrefixEncode, expiry, List.cons_append, List.nil_append,
          List.append_assoc]
      rw [framed]
      apply Reads.bind (popFront_reads _)
      rw [if_pos (charToObjectType_toChar .expireEntry)]
      apply Reads.bind (peekSize_reads _)
      apply Reads.bind (popFront_reads _)
      apply Reads.bind key
      rw [charToObjectType_toChar]
      rw [norm, expiry]
      exact Reads.bind_pure (fun value => (⟨kv.key.norm, value, some time⟩ : LoadedKeyValue)) value

/-- The meaning of an entry's dump, and when there is none. -/
theorem encode_meaning (conf : DumpConf) (lawful : conf.lz.Lawful) (kv : KeyValue)
    (storable : kv.Storable) :
    (∀ code rest, kv.encode conf = .ok code →
      (decode conf.lz).run (code ++ rest) = .ok (kv.norm, rest)) ∧
    kv.norm.expireTimeUs = kv.expireTimeUs ∧
    kv.norm.value.map Object.getObjectType = some kv.value.getObjectType ∧
    ((∃ fault, kv.encode conf = .error fault) ↔ ∃ s ∈ kv.strings, s.Unencodable) := by
  refine ⟨?_, rfl, ?_, encode_error_iff conf kv⟩
  · intro code rest encoded
    exact decode_reads lawful storable encoded rest
  · rw [norm, Option.map_some, Object.getObjectType_norm]

end KeyValue

namespace Lzfse

/-- The streams lzfse writes for short strings: one stored block between its magic
number and the end-of-stream mark. -/
def storedBlocks : Lzfse where
  compress data := bytes "bvx-" ++ littleEndian 4 data.length ++ data ++ bytes "bvx$"
  decompress cprs := (cprs.drop 8).take (cprs.length - 12)

theorem storedBlocks_lawful : storedBlocks.Lawful where
  filled := by
    intro data _ empty
    have length := congrArg List.length empty
    simp only [storedBlocks, List.length_append, littleEndian_length, List.length_nil] at length
    omega
  inverse := by
    intro data _ _
    have header : (bytes "bvx-" ++ littleEndian 4 data.length).length = 8 := by
      rw [List.length_append, littleEndian_length]
      rfl
    have total : (storedBlocks.compress data).length - 12 = data.length := by
      simp only [storedBlocks, List.length_append, littleEndian_length]
      have magic : (bytes "bvx-").length = 4 := rfl
      have mark : (bytes "bvx$").length = 4 := rfl
      omega
    simp only [storedBlocks] at total ⊢
    rw [total, List.append_assoc, List.drop_left' header, List.take_left]
  fits := by
    intro data fits
    simp only [storedBlocks, List.length_append, littleEndian_length]
    have magic : (bytes "bvx-").length = 4 := rfl
    have mark : (bytes "bvx$").length = 4 := rfl
    simp only [stringLimit] at fits
    omega

end Lzfse

namespace KeyValue

/-- Two members that differ only in leading zeros come back as one. -/
def collidingSet : KeyValue where
  key := Str.ofData (bytes "user")
  value := .set ((Keyed.empty.insert (Str.ofData (bytes "7"))).insert (Str.ofData (bytes "007")))
  expireTimeUs := some 990000

theorem encode_meaning_collidingSet :
    ∃ code, collidingSet.encode ⟨Lzfse.storedBlocks, true⟩ = .ok code ∧
      (decode Lzfse.storedBlocks).run (code ++ [255]) = .ok (collidingSet.norm, [255]) ∧
      collidingSet.norm = ⟨Str.ofData (bytes "user"),
        some (.set (Keyed.empty.insert (Str.ofData (bytes "7")))), some 990000⟩ := by
  obtain ⟨reads, -⟩ := encode_meaning ⟨Lzfse.storedBlocks, true⟩
    Lzfse.storedBlocks_lawful collidingSet ⟨by decide, by decide⟩
  refine ⟨_, rfl, reads _ _ rfl, by decide⟩

end KeyValue

end ForkRedis
