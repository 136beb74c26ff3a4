import ForkRedis.Objects

set_option autoImplicit false

/- `KeyValue` and `Db`: the entries of a database, their dump, and the dump of a list
of databases. -/
namespace ForkRedis

open Wire Decimal Lists

/-- An entry. A database holds entries with an object; `Decode` can leave an entry
without one, so the type of the value is a parameter. -/
structure Entry (V : Type) where
  key : Str
  value : V
  expireTimeUs : Option UInt64
  deriving DecidableEq

abbrev KeyValue := Entry Object

/-- An entry as `Decode` leaves it: `value_` may be null. -/
abbrev LoadedKeyValue := Entry (Option Object)

namespace Entry

def name {V : Type} (kv : Entry V) : Bytes := kv.key.data

end Entry

namespace KeyValue

def internalPrefixEncode (kv : KeyValue) : Bytes :=
  match kv.expireTimeUs with
  | some time =>
      objectTypeToChar .expireEntry :: (bitsToStringSize time ++
        [objectTypeToChar kv.value.getObjectType])
  | none => [objectTypeToChar kv.value.getObjectType]

def encode (conf : DumpConf) (kv : KeyValue) : Except Fault Bytes := do
  let key ← kv.key.encodeValue conf
  let value ← kv.value.encodeValue conf
  return kv.internalPrefixEncode ++ (key ++ value)

def decode (lz : Lzfse) : Source LoadedKeyValue := do
  let c ← popFront
  if charToObjectType c = some .expireEntry then
    let time ← peekSize
    let c ← popFront
    let key ← Str.decodeValue lz
    let value ← Object.decodeValue lz (charToObjectType c)
    return ⟨key, value, some time⟩
  else
    let key ← Str.decodeValue lz
    let value ← Object.decodeValue lz (charToObjectType c)
    return ⟨key, value, none⟩

end KeyValue

/-- A database: its number and its key space. The append-only cache belongs to the
log and is kept there. -/
structure Store (V : Type) where
  number : Int32
  keyValueMap : Keyed (Entry.name (V := V))
  deriving DecidableEq

abbrev Db := Store Object

abbrev LoadedDb := Store (Option Object)

namespace Db

/-- `SELECT_DB_`. -/
def selectDb : UInt8 := 115

/-- A database without keys saves as nothing. -/
def save (conf : DumpConf) (db : Db) : Except Fault Bytes :=
  if db.keyValueMap.items = [] then .ok []
  else do
    let codes ← db.keyValueMap.items.mapM (KeyValue.encode conf)
    return selectDb :: (bitsToStringInt db.number ++
      (bitsToStringSize (UInt64.ofNat db.keyValueMap.items.length) ++ codes.flatten))

def load (lz : Lzfse) : Source LoadedDb := do
  let s ← popFront
  if s ≠ selectDb then throw .runtimeError
  else
    let number ← peekInt
    let n ← peekSize
    let map ← loop (fun map => do
      let kv ← KeyValue.decode lz
      return map.insert kv) n.toNat Keyed.empty
    return ⟨number, map⟩

end Db

/-- `MainLoop::DatabaseSave`. -/
def databaseSave (conf : DumpConf) (databases : List Db) : Except Fault (List Bytes) :=
  databases.mapM (Db.save conf)

/-- The contents of the dump file after `RDBSave`. -/
def rdbSave (databaseSources : List Bytes) : Bytes := bytes "RDB" ++ databaseSources.flatten

/-- `RDBLoad`: every database takes at least one byte, so the number of bytes bounds the
number of rounds. -/
def rdbLoadDatabases (lz : Lzfse) : Nat → Source (List LoadedDb)
  | 0 => pure []
  | fuel + 1 => fun source =>
      if source = [] then .ok ([], [])
      else do
        let (db, source) ← Db.load lz source
        let (rest, source) ← rdbLoadDatabases lz fuel source
        return (db :: rest, source)

def rdbLoad (lz : Lzfse) (source : Bytes) : Except Fault (List LoadedDb) := do
  let (magic, source) ← peekString 3 source
  if magic ≠ bytes "RDB" then return []
  else do
    let (databases, _) ← rdbLoadDatabases lz source.length source
    return databases

end ForkRedis
