import ForkRedis.Codec
import ForkRedis.Lib.Format

set_option autoImplicit false

/- `RDBLoad` on any contents of the dump file, with assertions off. The formats say what the
readers can take: an input that is whole, or one that breaks off where that is noticed. -/
namespace ForkRedis

open Wire Lists Fallible

/-- An exception was raised. -/
def Fault.Raised (fault : Fault) : Prop := fault ≠ .undefined ∧ fault ≠ .endless

/- The formats. Of a string its contents are seen, of an entry its name and whether it has a
type of which there are objects. -/

def intFormat : Format UInt8 Int32 :=
  (Format.field 4).map fun bits => (UInt32.ofNat (littleEndianValue bits)).toInt32

def sizeFormat : Format UInt8 UInt64 :=
  (Format.field 8).map fun bits => UInt64.ofNat (littleEndianValue bits)

/-- A compressed string has a payload. -/
def strFormat (lz : Lzfse) : Format UInt8 Bytes :=
  Format.one.andThen fun tag =>
    match charToEncodingType tag with
    | some .int => intFormat.map toStringInt
    | some .strRaw => sizeFormat.andThen fun size => .block size.toNat
    | some .strCompress =>
        sizeFormat.andThen fun size => sizeFormat.andThen fun _ =>
          (Format.block size.toNat).andThen fun cprs =>
            if cprs = [] then .void else .done (lz.decompress cprs)
    | _ => .done []

def containerFormat {ω : Type} (item : Format UInt8 ω) : Format UInt8 Bool :=
  (sizeFormat.andThen fun count => item.times count.toNat).map fun _ => true

def valueFormat (lz : Lzfse) : Option ObjectType → Format UInt8 Bool
  | some .str => (strFormat lz).map fun _ => true
  | some .list => containerFormat (strFormat lz)
  | some .hash => containerFormat ((strFormat lz).andThen fun _ => strFormat lz)
  | some .set => containerFormat (strFormat lz)
  | some .zset => containerFormat (intFormat.andThen fun _ => strFormat lz)
  | _ => .done false

/-- The key, and then the value of the type that stood before it. -/
def keyValueFormat (lz : Lzfse) (tag : UInt8) : Format UInt8 (Bytes × Bool) :=
  (strFormat lz).andThen fun name => (valueFormat lz (charToObjectType tag)).map (Prod.mk name)

def entryFormat (lz : Lzfse) : Format UInt8 (Bytes × Bool) :=
  Format.one.andThen fun tag =>
    if charToObjectType tag = some .expireEntry then
      sizeFormat.andThen fun _ => Format.one.andThen (keyValueFormat lz)
    else keyValueFormat lz tag

def dbFormat (lz : Lzfse) : Format UInt8 (List (Bytes × Bool)) :=
  Format.one.andThen fun s =>
    if s ≠ Db.selectDb then .refusal
    else intFormat.andThen fun _ => sizeFormat.andThen fun n => (entryFormat lz).times n.toNat

/- The readers follow the formats. -/

theorem popFront_follows : Follows Fault.Raised popFront Format.one Eq where
  returns := by
    intro input value rest returned
    cases input with
    | nil => cases returned
    | cons c input =>
        cases returned
        exact ⟨[value], value, rfl, rfl, rfl⟩
  reads := by
    rintro code seen rest rfl
    exact ⟨seen, rfl, rfl⟩
  raises := by
    intro input fault failed raised
    cases input with
    | nil =>
        cases failed
        exact raised.1 rfl
    | cons c input => cases failed
  reported := False.elim

theorem peekBits_follows (size : Nat) :
    Follows Fault.Raised (peekBits size) (Format.field size) Eq := by
  apply Follows.take
  · intro code seen
    rfl
  · intro input
    exact (and_iff_left ⟨by decide, by decide⟩).symm

theorem peekString_follows (size : Nat) :
    Follows Fault.Raised (peekString size) (Format.block size) Eq := by
  apply Follows.take
  · intro code seen
    rfl
  · intro input
    exact iff_of_false not_false fun short => short.2.1 rfl

theorem peekInt_follows : Follows Fault.Raised peekInt intFormat Eq :=
  Follows.map _ (Follows.bind_pure _ ((peekBits_follows 4).imp fun _ _ same => by rw [same]))

theorem peekSize_follows : Follows Fault.Raised peekSize sizeFormat Eq :=
  Follows.map _ (Follows.bind_pure _ ((peekBits_follows 8).imp fun _ _ same => by rw [same]))

theorem Str.decodeValue_follows (lz : Lzfse) :
    Follows Fault.Raised (Str.decodeValue lz) (strFormat lz) fun s name => s.data = name := by
  apply Follows.bind popFront_follows
  rintro tag _ rfl
  have cleared : Follows Fault.Raised (pure (Str.raw []) : Source Str) (.done [])
      fun s name => s.data = name := Follows.pure rfl
  cases charToEncodingType tag with
  | none => exact cleared
  | some encoding =>
      cases encoding with
      | int =>
          apply Follows.map
          apply Follows.bind_pure
          exact peekInt_follows.imp fun n m same => by rw [same]; rfl
      | strRaw =>
          apply Follows.bind peekSize_follows
          rintro size _ rfl
          apply Follows.bind_pure
          exact peekString_follows size.toNat
      | strCompress =>
          apply Follows.bind peekSize_follows
          rintro size _ rfl
          apply Follows.bind peekSize_follows
          intro origin _ _
          apply Follows.bind (peekString_follows size.toNat)
          rintro cprs _ rfl
          by_cases empty : cprs = []
          · rw [if_pos empty, if_pos empty]
            exact Follows.void fun raised => raised.2 rfl
          · rw [if_neg empty, if_neg empty]
            exact Follows.pure rfl
      | list => exact cleared
      | array => exact cleared
      | hashMap => exact cleared
      | rbTree => exact cleared

/-- The loop of a container. -/
theorem container_follows {α ω : Type} {round : α → Source α} {item : Format UInt8 ω}
    (step : ∀ acc, Follows Fault.Raised (round acc) item fun _ _ => True) (acc : α) :
    Follows Fault.Raised (do
      let len ← peekSize
      loop round len.toNat acc) (containerFormat item) fun _ known => true = known := by
  apply Follows.map
  apply Follows.bind peekSize_follows
  rintro len _ rfl
  have rounds := Follows.loop (R := fun _ _ => True) (fun acc _ _ => step acc) len.toNat acc []
    trivial
  exact rounds.imp fun _ _ _ => rfl

/-- A string in a container. -/
theorem Str.decodeValue_follows_any (lz : Lzfse) :
    Follows Fault.Raised (Str.decodeValue lz) (strFormat lz) fun _ _ => True :=
  (Str.decodeValue_follows lz).imp fun _ _ _ => trivial

theorem LinkedZSet.map_attach {β : Type} (result : Except Fault (ZSet × β))
    (keeps : ∀ r, result = .ok r → r.1.Linked) :
    (attach result keeps).map (fun r => (r.1.1, r.2)) = result := by
  cases result with
  | error fault => rfl
  | ok r => rfl

theorem LinkedZSet.map_decodeValue (lz : Lzfse) :
    Subtype.val <$> LinkedZSet.decodeValue lz = ZSet.decodeValue lz ZSet.empty := by
  funext source
  exact map_attach ((ZSet.decodeValue lz ZSet.empty).run source) _

theorem Object.decodeValue_follows (lz : Lzfse) (otyp : Option ObjectType) :
    Follows Fault.Raised (Object.decodeValue lz otyp) (valueFormat lz otyp)
      fun value known => value.isSome = known := by
  have missing : Follows Fault.Raised (pure none : Source (Option Object)) (.done false)
      fun value known => value.isSome = known := Follows.pure rfl
  cases otyp with
  | none => exact missing
  | some otyp =>
      cases otyp with
      | str =>
          apply Follows.map
          apply Follows.bind_pure
          exact (Str.decodeValue_follows_any lz).imp fun _ _ _ => rfl
      | list =>
          apply Follows.bind_pure
          apply container_follows
          intro l
          apply Follows.bind_pure
          exact Str.decodeValue_follows_any lz
      | hash =>
          apply Follows.bind_pure
          apply container_follows
          intro h
          apply Follows.bind (Str.decodeValue_follows_any lz)
          intro key _ _
          apply Follows.bind_pure
          exact Str.decodeValue_follows_any lz
      | set =>
          apply Follows.bind_pure
          apply container_follows
          intro s
          apply Follows.bind_pure
          exact Str.decodeValue_follows_any lz
      | zset =>
          apply Follows.bind_pure
          have linked : Follows Fault.Raised (Subtype.val <$> LinkedZSet.decodeValue lz)
              (valueFormat lz (some .zset)) fun _ known => true = known := by
            rw [LinkedZSet.map_decodeValue]
            apply container_follows
            intro z
            apply Follows.bind peekInt_follows
            intro score _ _
            apply Follows.bind_pure
            exact Str.decodeValue_follows_any lz
          exact linked.of_map
      | expireEntry => exact missing

theorem KeyValue.decode_follows (lz : Lzfse) :
    Follows Fault.Raised (KeyValue.decode lz) (entryFormat lz)
      fun kv seen => (kv.name, kv.value.isSome) = seen := by
  have body : ∀ (tag : UInt8) (time : Option UInt64), Follows Fault.Raised (do
      let key ← Str.decodeValue lz
      let value ← Object.decodeValue lz (charToObjectType tag)
      return (⟨key, value, time⟩ : LoadedKeyValue)) (keyValueFormat lz tag)
      fun kv seen => (kv.name, kv.value.isSome) = seen := by
    intro tag time
    apply Follows.bind (Str.decodeValue_follows lz)
    rintro key _ rfl
    apply Follows.map
    apply Follows.bind_pure
    exact (Object.decodeValue_follows lz (charToObjectType tag)).imp
      fun value known same => congrArg (Prod.mk key.data) same
  apply Follows.bind popFront_follows
  rintro tag _ rfl
  by_cases timed : charToObjectType tag = some .expireEntry
  · simp only [if_pos timed]
    apply Follows.bind peekSize_follows
    intro time _ _
    apply Follows.bind popFront_follows
    rintro tag _ rfl
    exact body tag (some time)
  · simp only [if_neg timed]
    exact body tag none

/-- The flag of the first entry with a name. -/
def firstFlag (entries : List (Bytes × Bool)) (name : Bytes) : Option Bool :=
  (entries.find? fun entry => entry.1 == name).map Prod.snd

/-- A table has, under each name, what the first entry with it was. -/
def KeepsFirst (map : Keyed (Entry.name (V := Option Object))) (entries : List (Bytes × Bool)) :
    Prop :=
  ∀ name, (map.find name).map (fun kv => kv.value.isSome) = firstFlag entries name

theorem KeepsFirst.insert {map : Keyed (Entry.name (V := Option Object))}
    {entries : List (Bytes × Bool)} (keeps : KeepsFirst map entries) (kv : LoadedKeyValue) :
    KeepsFirst (map.insert kv) (entries ++ [(kv.name, kv.value.isSome)]) := by
  intro name
  have kept := keeps name
  rw [firstFlag] at kept
  rw [firstFlag, Keyed.find_insert, List.find?_append, List.find?_singleton]
  by_cases same : kv.name = name
  · rw [if_pos same, if_pos (beq_iff_eq.mpr same)]
    cases found : map.find name with
    | none =>
        rw [found, Option.map_none, eq_comm, Option.map_eq_none_iff] at kept
        rw [kept]
        rfl
    | some first =>
        rw [found, Option.map_some, eq_comm, Option.map_eq_some_iff] at kept
        obtain ⟨entry, there, flag⟩ := kept
        rw [there]
        exact congrArg some flag.symm
  · rw [if_neg same, if_neg (mt beq_iff_eq.mp same), Option.or_none, kept]

theorem Db.load_follows (lz : Lzfse) :
    Follows Fault.Raised (Db.load lz) (dbFormat lz)
      fun db entries => KeepsFirst db.keyValueMap entries := by
  apply Follows.bind popFront_follows
  rintro s _ rfl
  by_cases other : s ≠ Db.selectDb
  · simp only [if_pos other]
    exact Follows.refusal ⟨by decide, by decide⟩
  · simp only [if_neg other]
    apply Follows.bind peekInt_follows
    intro number _ _
    apply Follows.bind peekSize_follows
    rintro n _ rfl
    apply Follows.bind_pure
    have start : KeepsFirst Keyed.empty [] := fun _ => rfl
    apply Follows.loop (R := KeepsFirst) _ n.toNat Keyed.empty [] start
    intro map entries keeps
    apply Follows.bind_pure
    exact (KeyValue.decode_follows lz).imp fun kv seen same => same ▸ keeps.insert kv

theorem dbFormat_filled (lz : Lzfse) (code : Bytes) (entries : List (Bytes × Bool))
    (whole : (dbFormat lz).whole code entries) : code ≠ [] := by
  obtain ⟨front, s, back, rfl, rfl, -⟩ := whole
  exact List.cons_ne_nil s back

theorem rdbLoadDatabases_eq_drain (lz : Lzfse) (fuel : Nat) :
    rdbLoadDatabases lz fuel = drain (Db.load lz) fuel := by
  induction fuel with
  | zero => rfl
  | succ fuel ih =>
      funext source
      cases source with
      | nil => rfl
      | cons c source =>
          simp only [rdbLoadDatabases, drain, List.cons_ne_nil, ↓reduceIte, ih]

/-- No key without a value: the first entry with each name has a known type. -/
def AllKnown (entries : List (Bytes × Bool)) : Prop :=
  ∀ name, firstFlag entries name ≠ some false

theorem KeepsFirst.allKnown_iff {map : Keyed (Entry.name (V := Option Object))}
    {entries : List (Bytes × Bool)} (keeps : KeepsFirst map entries) :
    (∀ kv ∈ map.items, kv.value ≠ none) ↔ AllKnown entries := by
  constructor
  · intro present name unknown
    rw [← keeps name, Option.map_eq_some_iff] at unknown
    obtain ⟨kv, found, absent⟩ := unknown
    exact present kv (map.find_eq_some_iff.mp found).1 (Option.not_isSome_iff_eq_none.mp
      (Bool.eq_false_iff.mp absent))
  · intro known kv member absent
    apply known kv.name
    rw [← keeps kv.name, map.find_of_mem member, Option.map_some, absent]
    rfl

/-- `RDBLoad` came to its end without undefined behaviour: it returned databases in which
each key has a value, or it raised an exception. -/
def SafeOutcome : Except Fault (List LoadedDb) → Prop
  | .ok databases => ∀ db ∈ databases, ∀ kv ∈ db.keyValueMap.items, kv.value ≠ none
  | .error fault => fault.Raised

instance : (outcome : Except Fault (List LoadedDb)) → Decidable (SafeOutcome outcome)
  | .ok databases =>
      inferInstanceAs (Decidable (∀ db ∈ databases, ∀ kv ∈ db.keyValueMap.items, kv.value ≠ none))
  | .error fault => inferInstanceAs (Decidable (fault ≠ .undefined ∧ fault ≠ .endless))

theorem safeOutcome_ok_iff {databases : List LoadedDb} {seen : List (List (Bytes × Bool))}
    (all : List.Forall₂ (fun db entries => KeepsFirst db.keyValueMap entries) databases seen) :
    SafeOutcome (.ok databases) ↔ ∀ entries ∈ seen, AllKnown entries := by
  rw [SafeOutcome]
  induction all with
  | nil => simp only [List.not_mem_nil, false_implies, implies_true]
  | cons keeps _ ih =>
      rw [List.forall_mem_cons, List.forall_mem_cons, keeps.allKnown_iff, ih]

/-- The files with room for a magic number, where it is another one, or where the databases
behind it are whole and without an unknown type at the first entry of a name, or where the
first thing that goes wrong is noticed: a number breaks off, or a database begins with a
wrong byte. -/
def Loadable (lz : Lzfse) (file : Bytes) : Prop :=
  3 ≤ file.length ∧ (file.take 3 = bytes "RDB" →
    (dbFormat lz).BrokenSeries (file.drop 3) ∨
      ∃ databases, (dbFormat lz).Series (file.drop 3) databases ∧
        ∀ entries ∈ databases, AllKnown entries)

/-- What `RDBLoad` makes of the bytes behind the magic number. -/
theorem rdbLoad_databases {lz : Lzfse} {file : Bytes} (long : 3 ≤ file.length)
    (magic : file.take 3 = bytes "RDB") :
    rdbLoad lz file =
      ((drain (Db.load lz) (file.drop 3).length).run (file.drop 3)).map Prod.fst := by
  rw [rdbLoad, peekString, if_neg (Nat.not_lt.mpr long), ok_bind]
  dsimp only
  rw [if_neg (not_not_intro magic), rdbLoadDatabases_eq_drain]
  rfl

/-- On the bytes behind the magic number. -/
theorem safeOutcome_drain_iff (lz : Lzfse) (source : Bytes) :
    SafeOutcome (((drain (Db.load lz) source.length).run source).map Prod.fst) ↔
      (dbFormat lz).BrokenSeries source ∨
        ∃ databases, (dbFormat lz).Series source databases ∧
          ∀ entries ∈ databases, AllKnown entries := by
  have follows := Db.load_follows lz
  have filled := dbFormat_filled lz
  cases outcome : (drain (Db.load lz) source.length).run source with
  | ok result =>
      obtain ⟨databases, rest⟩ := result
      constructor
      · intro safe
        obtain ⟨-, seen, series, all⟩ := drain_returns follows filled (Nat.le_refl _) outcome
        exact Or.inr ⟨seen, series, (safeOutcome_ok_iff all).mp safe⟩
      · rintro (broken | ⟨seen, series, allKnown⟩)
        · obtain ⟨fault, failed, -⟩ := drain_reported follows filled (Nat.le_refl _) broken
          cases outcome.symm.trans failed
        · obtain ⟨values, returned, all⟩ := drain_reads follows filled (Nat.le_refl _) series
          cases outcome.symm.trans returned
          exact (safeOutcome_ok_iff all).mpr allKnown
  | error fault =>
      constructor
      · intro raised
        exact Or.inl (drain_raises follows outcome raised)
      · rintro (broken | ⟨seen, series, -⟩)
        · obtain ⟨other, failed, raised⟩ := drain_reported follows filled (Nat.le_refl _) broken
          cases outcome.symm.trans failed
          exact raised
        · obtain ⟨values, returned, -⟩ := drain_reads follows filled (Nat.le_refl _) series
          cases outcome.symm.trans returned

/-- A load is safe exactly of the loadable files. -/
theorem load_safe_iff (lz : Lzfse) (file : Bytes) :
    SafeOutcome (rdbLoad lz file) ↔ Loadable lz file := by
  by_cases long : 3 ≤ file.length
  · rw [Loadable, and_iff_right long]
    by_cases magic : file.take 3 = bytes "RDB"
    · rw [rdbLoad_databases long magic, safeOutcome_drain_iff, imp_iff_right magic]
    · have other : rdbLoad lz file = .ok [] := by
        rw [rdbLoad, peekString, if_neg (Nat.not_lt.mpr long), ok_bind]
        dsimp only
        rw [if_pos magic]
        rfl
      rw [other]
      exact iff_of_true (fun db member => absurd member List.not_mem_nil)
        fun same => absurd same magic
  · have short : rdbLoad lz file = .error .undefined := by
      rw [rdbLoad, peekString, if_pos (Nat.lt_of_not_le long)]
      rfl
    rw [short]
    exact iff_of_false (fun raised => raised.1 rfl) fun loadable => long loadable.1

/-- A file with one database that has one entry. -/
def oneEntryFile (entry : Bytes) : Bytes :=
  bytes "RDB" ++ Db.selectDb :: (bitsToStringInt 0 ++ bitsToStringSize 1 ++ entry)

/-- The file of a first start is empty and is read beyond its end, and so is a string that
breaks off. An entry of a type that does not exist is left without a value. A compressed
string without a payload is decompressed for ever. -/
theorem load_unsafe :
    rdbLoad Lzfse.storedBlocks [] = .error .undefined ∧
    rdbLoad Lzfse.storedBlocks (oneEntryFile (1 :: 1 :: (bitsToStringSize 5 ++ bytes "abc"))) =
      .error .undefined ∧
    (∃ databases,
      rdbLoad Lzfse.storedBlocks (oneEntryFile (9 :: 0 :: bitsToStringInt 7)) = .ok databases ∧
        ¬ SafeOutcome (.ok databases)) ∧
    rdbLoad Lzfse.storedBlocks
      (oneEntryFile (1 :: 2 :: (bitsToStringSize 0 ++ bitsToStringSize 0))) = .error .endless ∧
    ¬ SafeOutcome (.error .undefined) ∧ ¬ SafeOutcome (.error .endless) := by
  refine ⟨rfl, ?_, ?_, ?_, ?_, ?_⟩
  · decide +kernel
  · exact ok_checked (by decide +kernel)
  · decide +kernel
  · decide
  · decide

end ForkRedis
