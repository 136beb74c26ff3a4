import ForkRedis.Command
import ForkRedis.Db
import ForkRedis.Lib.Fallible

set_option autoImplicit false

/- `Exec` of the commands that work on one database: what each does to the object
under its key, and the frame they share. -/
namespace ForkRedis

open Decimal Lists Fallible

/-- The array a command answers with. -/
abbrev Reply := List Bytes

def refused : Reply := [bytes " "]
def nilReply : Reply := [bytes "(nil)"]
def okReply : Reply := [bytes "OK"]

def quoted (text : Bytes) : Bytes := 34 :: (text ++ [34])

/-- A reply of several texts; without any, `(nil)`. -/
def orNil (texts : List Bytes) : Reply := if texts = [] then nilReply else texts

/-- A reply of one text; the empty one is replaced. -/
def textOr (missing : Reply) (text : Bytes) : Reply := if text = [] then missing else [text]

def quotedOrNil (text : Bytes) : Reply := if text = [] then nilReply else [quoted text]

/-- `value_.value()`. -/
def optionalValue (value : Option Bytes) : Except Fault Bytes :=
  match value with
  | none => .error .badOptionalAccess
  | some text => .ok text

theorem optionalValue_eq_ok {value : Option Bytes} {text : Bytes} :
    optionalValue value = .ok text ↔ value = some text := by
  cases value with
  | none => exact ⟨nofun, nofun⟩
  | some other => simp only [optionalValue, Except.ok.injEq, Option.some.injEq]

/-- `values_[i]`. -/
def valueAt (values : List Str) (i : Nat) : Except Fault Str :=
  match values[i]? with
  | none => .error .undefined
  | some value => .ok value

theorem valueAt_eq_ok {values : List Str} {i : Nat} {value : Str} :
    valueAt values i = .ok value ↔ values[i]? = some value := by
  rw [valueAt]
  cases values[i]? with
  | none => exact ⟨nofun, nofun⟩
  | some other => simp only [Except.ok.injEq, Option.some.injEq]

/-- The loops that take two values a round. -/
def eachPair {γ : Type} (round : γ → Str → Str → Except Fault γ) :
    γ → List Str → Except Fault γ
  | acc, [] => .ok acc
  | _, [_] => .error .undefined
  | acc, first :: second :: rest => do
      let next ← round acc first second
      eachPair round next rest

namespace StrCommand

/-- `INCRBY` and `DECRBY` are the same but for the method they call. -/
def addBy (method : Str → Int32 → Except Fault (Str × Bytes)) (c : StrCommand) (str : Str) :
    Except Fault (Str × Reply) := do
  let value ← optionalValue c.value
  let intval ← redisStrToInt value
  match intval with
  | none => return (str, refused)
  | some n => do
      let (str, ret) ← method str n
      return (str, textOr refused ret)

def onStr (c : StrCommand) (str : Str) : Except Fault (Str × Reply) :=
  match c.command with
  | .set => do
      let value ← optionalValue c.value
      return (str.set value, okReply)
  | .get => .ok (str, quotedOrNil str.getRaw)
  | .incrBy => addBy Str.incrBy c str
  | .decrBy => addBy Str.decrBy c str
  | .append => do
      let value ← optionalValue c.value
      let (str, size) ← str.append value
      return (str, [toStringSize size])
  | .len => .ok (str, [toStringSize str.len])

end StrCommand

namespace ListCommand

/-- One round of `LINDEX`: a value that is no integer is skipped, and so is an empty
string. -/
def indexTexts (l : List Str) (value : Str) : Except Fault (List Bytes) := do
  let intval ← redisStrToInt value.data
  match intval with
  | none => return []
  | some n => do
      let str ← StrList.index l n
      return if str.isEmpty then [] else [quoted str.getRaw]

def onList (c : ListCommand) (l : List Str) : Except Fault (List Str × Reply) :=
  match c.command with
  | .lpushf =>
      let l := c.values.foldl StrList.pushFront l
      .ok (l, [toStringSize (StrList.len l)])
  | .lpushb =>
      let l := c.values.foldl StrList.pushBack l
      .ok (l, [toStringSize (StrList.len l)])
  | .lpopf =>
      let (l, str) := StrList.popFront l
      .ok (l, quotedOrNil str.getRaw)
  | .lpopb =>
      let (l, str) := StrList.popBack l
      .ok (l, quotedOrNil str.getRaw)
  | .lindex => do
      let texts ← c.values.mapM (indexTexts l)
      return (l, orNil texts.flatten)
  | .llen => .ok (l, [toStringSize (StrList.len l)])
  | .lrem => do
      let count ← valueAt c.values 0
      let intval ← redisStrToInt count.data
      match intval with
      | none => return (l, refused)
      | some count => do
          let value ← valueAt c.values 1
          let (l, n) ← StrList.rem l count value
          return (l, [toStringSize n])
  | .ltrim => do
      let begin ← valueAt c.values 0
      let intval1 ← redisStrToInt begin.data
      let end_ ← valueAt c.values 1
      let intval2 ← redisStrToInt end_.data
      match intval1, intval2 with
      | some begin, some end_ => do
          let (l, ret) ← StrList.trim l begin end_
          return (l, if ret then okReply else refused)
      | _, _ => return (l, refused)
  | .lset => do
      let index ← valueAt c.values 0
      let intval ← redisStrToInt index.data
      match intval with
      | none => return (l, refused)
      | some index => do
          let value ← valueAt c.values 1
          let (l, ret) ← StrList.set l index value
          return (l, if ret then okReply else refused)

end ListCommand

namespace HashCommand

def addBy (method : StrHash → Str → Int32 → Except Fault (StrHash × Bytes)) (c : HashCommand)
    (tbl : StrHash) : Except Fault (StrHash × Reply) := do
  let delta ← valueAt c.values 1
  let intval ← redisStrToInt delta.data
  match intval with
  | none => return (tbl, refused)
  | some n => do
      let key ← valueAt c.values 0
      let (tbl, val) ← method tbl key n
      return (tbl, textOr refused val)

def onHash (c : HashCommand) (tbl : StrHash) : Except Fault (StrHash × Reply) :=
  match c.command with
  | .hset => do
      let tbl ← eachPair (fun tbl key value => .ok (StrHash.set tbl key value)) tbl c.values
      return (tbl, okReply)
  | .hget =>
      .ok (tbl, orNil (c.values.map fun key =>
        let s := (StrHash.get tbl key).getRaw
        quoted (if s = [] then bytes "(nil)" else s)))
  | .hexist =>
      .ok (tbl, c.values.map fun key => if StrHash.exist tbl key then bytes "1" else bytes "0")
  | .hdel => .ok (c.values.foldl StrHash.del tbl, okReply)
  | .hlen => .ok (tbl, [toStringSize (StrHash.len tbl)])
  | .hgetall =>
      .ok (tbl, orNil ((StrHash.getAll tbl).flatMap fun kv =>
        [quoted kv.1.getRaw, quoted kv.2.getRaw]))
  | .hincrby => addBy StrHash.incrBy c tbl
  | .hdecrby => addBy StrHash.decrBy c tbl

end HashCommand

/-- `if (ok) cnt++`. -/
def counted {α : Type} (cnt : Int32) (result : α × Bool) : α × Int32 :=
  (result.1, if result.2 then cnt + 1 else cnt)

namespace SetCommand

/-- `SINTER` and `SDIFF` with the set under another key of the same database; `get` is
`Db::Get`. -/
def combine (method : StrSet → StrSet → Bool → List Str) (get : Bytes → Option Object)
    (c : SetCommand) (st : StrSet) : Except Fault (StrSet × Reply) := do
  let another ← valueAt c.values 0
  match get another.data with
  | some (.set other) =>
      return (st, orNil ((method st other (another.data == c.objName)).map Str.getRaw))
  | _ => return (st, refused)

def onSet (random : Nat) (get : Bytes → Option Object) (c : SetCommand) (st : StrSet) :
    Except Fault (StrSet × Reply) :=
  match c.command with
  | .sadd =>
      let (st, cnt) := c.values.foldl (fun acc m => counted acc.2 (StrSet.add acc.1 m)) (st, 0)
      .ok (st, [toStringInt cnt])
  | .scard => .ok (st, [toStringSize (StrSet.card st)])
  | .sismember =>
      .ok (st, orNil (c.values.map fun m =>
        if StrSet.isMember st m then bytes "1" else bytes "0"))
  | .smembers => .ok (st, orNil ((StrSet.members st).map fun m => quoted m.getRaw))
  | .srandmember => .ok (st, quotedOrNil (StrSet.randMember st random).getRaw)
  | .spop => do
      let (st, v) ← StrSet.pop st
      return (st, quotedOrNil v.getRaw)
  | .srem =>
      let (st, cnt) := c.values.foldl (fun acc m => counted acc.2 (StrSet.rem acc.1 m)) (st, 0)
      .ok (st, [toStringInt cnt])
  | .sinter => combine StrSet.inter get c st
  | .sdiff => combine StrSet.diff get c st

end SetCommand

namespace ZSetCommand

/-- A round of `ZADD` or `ZREM`: a score that is no integer skips the pair. -/
def scored (method : LinkedZSet → Int32 → Str → Except Fault (LinkedZSet × Bool))
    (acc : LinkedZSet × Int32) (score member : Str) : Except Fault (LinkedZSet × Int32) := do
  let intval ← redisStrToInt score.data
  match intval with
  | none => return acc
  | some n => do
      let result ← method acc.1 n member
      return counted acc.2 result

/-- Two integer arguments, and what is answered if both are there. -/
def between (answer : Int32 → Int32 → Except Fault Reply) (c : ZSetCommand) :
    Except Fault Reply := do
  let low ← valueAt c.values 0
  let intval1 ← redisStrToInt low.data
  let high ← valueAt c.values 1
  let intval2 ← redisStrToInt high.data
  match intval1, intval2 with
  | some low, some high => answer low high
  | _, _ => return refused

def pairTexts (res : List (Str × Int32)) : Reply :=
  orNil (res.flatMap fun kv => [kv.1.getRaw, toStringInt kv.2])

/-- `DECRBY`'s counterpart hands `has_value()` to `DecrBy`, so every step is by one. -/
def onZSet (c : ZSetCommand) (zst : LinkedZSet) : Except Fault (LinkedZSet × Reply) :=
  match c.command with
  | .zadd => do
      let (zst, cnt) ← eachPair (scored fun z n m => .ok (z.add n m)) (zst, 0) c.values
      return (zst, [toStringInt cnt])
  | .zcard => .ok (zst, [toStringSize zst.1.card])
  | .zrem => do
      let (zst, cnt) ← eachPair (scored LinkedZSet.rem) (zst, 0) c.values
      return (zst, [toStringInt cnt])
  | .zcount => do
      let reply ← between (fun low high => .ok [toStringSize (zst.1.count low high)]) c
      return (zst, reply)
  | .zlexcount => do
      let low ← valueAt c.values 0
      let high ← valueAt c.values 1
      return (zst, [toStringSize (zst.1.lexCount low high)])
  | .zincrby => do
      let delta ← valueAt c.values 0
      let intval ← redisStrToInt delta.data
      match intval with
      | none => return (zst, refused)
      | some n => do
          let member ← valueAt c.values 1
          let (zst, val) ← zst.incrBy n member
          return (zst, textOr refused val)
  | .zdecrby => do
      let delta ← valueAt c.values 0
      let intval ← redisStrToInt delta.data
      match intval with
      | none => return (zst, refused)
      | some _ => do
          let member ← valueAt c.values 1
          let (zst, val) ← zst.decrBy 1 member
          return (zst, textOr refused val)
  | .zrange => do
      let reply ← between (fun low high => do
        let res ← zst.1.range low high
        return pairTexts res) c
      return (zst, reply)
  | .zrangebyscore => do
      let reply ← between (fun low high => do
        let res ← zst.1.rangeByScore low high
        return pairTexts res) c
      return (zst, reply)
  | .zrangebylex => do
      let low ← valueAt c.values 0
      let high ← valueAt c.values 1
      let res ← zst.1.rangeByLex low high
      return (zst, pairTexts res)
  | .zrank => do
      let member ← valueAt c.values 0
      let rank ← zst.1.rank member
      return (zst, textOr nilReply rank)
  | .zscore => do
      let member ← valueAt c.values 0
      let score ← zst.1.score member
      return (zst, textOr nilReply score)

end ZSetCommand

/-- A `DbExpireTimer` without its database: the key and the time it waits for. -/
structure ExpireTimer where
  objName : Bytes
  expireTimeUs : UInt64
  deriving DecidableEq

namespace Db

def get (db : Db) (key : Bytes) : Option Object := (db.keyValueMap.find key).map Entry.value

/-- `NewStr` to `NewZSet`: a fresh object under a key. -/
def newObject (db : Db) (key : Bytes) (object : Object) : Db :=
  { db with keyValueMap := db.keyValueMap.insert ⟨Str.ofData key, object, none⟩ }

/-- What a method called through the shared pointer leaves under the key. -/
def store (db : Db) (key : Bytes) (object : Object) : Db where
  number := db.number
  keyValueMap := db.keyValueMap.modify key (fun kv => { kv with value := object }) fun _ => rfl

def del (db : Db) (key : Bytes) : Db × Nat :=
  ({ db with keyValueMap := db.keyValueMap.erase key },
    if db.keyValueMap.find key = none then 0 else 1)

/-- `MakeExpireAt` on the entry under a key. -/
def makeExpireAt (db : Db) (key : Bytes) (time : UInt64) : Db where
  number := db.number
  keyValueMap :=
    db.keyValueMap.modify key (fun kv => { kv with expireTimeUs := some time }) fun _ => rfl

def expireAt (db : Db) (key : Bytes) (time : UInt64) : Db × Option ExpireTimer :=
  match db.keyValueMap.find key with
  | none => (db, none)
  | some _ => (db.makeExpireAt key time, some ⟨key, time⟩)

/-- `now` is `UsTime()`; the difference is taken in `std::size_t`. -/
def whenExpire (db : Db) (key : Bytes) (now : UInt64) : Bytes :=
  match db.keyValueMap.find key with
  | none => bytes "(nil)"
  | some kv =>
      match kv.expireTimeUs with
      | none => bytes "never"
      | some time => toStringSize ((time - now) / 990000).toNat

end Db

/-- A type of objects: how a value of it is kept under a key, and how it is got back. -/
structure ObjectKind (α : Type) where
  wrap : α → Object
  unwrap : Object → Option α
  fresh : α
  unwrap_eq_some : ∀ {object value}, unwrap object = some value ↔ object = wrap value

namespace ObjectKind

def str : ObjectKind Str where
  wrap := .str
  unwrap | .str s => some s | _ => none
  fresh := Str.empty
  unwrap_eq_some := by
    intro object value
    cases object <;> simp [eq_comm]

def list : ObjectKind (List Str) where
  wrap := .list
  unwrap | .list l => some l | _ => none
  fresh := []
  unwrap_eq_some := by
    intro object value
    cases object <;> simp [eq_comm]

def hash : ObjectKind StrHash where
  wrap := .hash
  unwrap | .hash h => some h | _ => none
  fresh := Keyed.empty
  unwrap_eq_some := by
    intro object value
    cases object <;> simp [eq_comm]

def set : ObjectKind StrSet where
  wrap := .set
  unwrap | .set s => some s | _ => none
  fresh := Keyed.empty
  unwrap_eq_some := by
    intro object value
    cases object <;> simp [eq_comm]

def zset : ObjectKind LinkedZSet where
  wrap := .zset
  unwrap | .zset z => some z | _ => none
  fresh := LinkedZSet.empty
  unwrap_eq_some := by
    intro object value
    cases object <;> simp [eq_comm]

end ObjectKind

/-- The frame of the five `Exec`: find the object, or create it if the command does that,
check its type, and call the method. -/
def Db.execOn {α : Type} (db : Db) (kind : ObjectKind α) (key : Bytes) (creates : Bool)
    (method : α → Except Fault (α × Reply)) : Except Fault (Db × Reply) :=
  match db.get key with
  | none =>
      if creates then do
        let (value, reply) ← method kind.fresh
        return ((db.newObject key (kind.wrap kind.fresh)).store key (kind.wrap value), reply)
      else .ok (db, refused)
  | some object =>
      match kind.unwrap object with
      | none => .ok (db, refused)
      | some value => do
          let (value, reply) ← method value
          return (db.store key (kind.wrap value), reply)

namespace Db

theorem get_eq_none_iff {db : Db} {key : Bytes} :
    db.get key = none ↔ db.keyValueMap.find key = none := by
  rw [get, Option.map_eq_none_iff]

theorem get_eq_some_iff {db : Db} {key : Bytes} {object : Object} :
    db.get key = some object ↔ ∃ kv, db.keyValueMap.find key = some kv ∧ kv.value = object := by
  rw [get, Option.map_eq_some_iff]

theorem find_store (db : Db) (key : Bytes) (object : Object) (k : Bytes) :
    (db.store key object).keyValueMap.find k =
      if key = k then (db.keyValueMap.find k).map fun kv => { kv with value := object }
      else db.keyValueMap.find k :=
  db.keyValueMap.find_modify key (fun kv => { kv with value := object }) (fun _ => rfl) k

theorem get_store (db : Db) (key : Bytes) (object : Object) :
    (db.store key object).get key = (db.get key).map fun _ => object := by
  rw [get, find_store, if_pos rfl, get, Option.map_map, Option.map_map]
  rfl

theorem get_newObject {db : Db} {key : Bytes} (absent : db.get key = none) (object : Object) :
    (db.newObject key object).get key = some object := by
  have named : Entry.name (⟨Str.ofData key, object, none⟩ : KeyValue) = key := rfl
  rw [get, newObject, Keyed.find_insert, named, if_pos rfl, get_eq_none_iff.mp absent]
  rfl

theorem store_store (db : Db) (key : Bytes) (first second : Object) :
    (db.store key first).store key second = db.store key second := by
  have map := db.keyValueMap.modify_modify key (f := fun kv => { kv with value := first })
    (g := fun kv => { kv with value := second }) (fun _ => rfl) (fun _ => rfl) fun _ => rfl
  simp only [store, map]

/-- Nothing is written to a key that is gone, and nothing changes by writing what is
there. -/
theorem store_same {db : Db} {key : Bytes} {object : Object}
    (same : ∀ other, db.get key = some other → other = object) : db.store key object = db := by
  have map : db.keyValueMap.modify key (fun kv => { kv with value := object }) (fun _ => rfl) =
      db.keyValueMap := by
    apply Keyed.modify_fixed
    intro kv found
    have value : kv.value = object := same kv.value (get_eq_some_iff.mpr ⟨kv, found, rfl⟩)
    rw [← value]
  simp only [store, map]

theorem find_makeExpireAt (db : Db) (key : Bytes) (time : UInt64) (k : Bytes) :
    (db.makeExpireAt key time).keyValueMap.find k =
      if key = k then (db.keyValueMap.find k).map fun kv => { kv with expireTimeUs := some time }
      else db.keyValueMap.find k :=
  db.keyValueMap.find_modify key (fun kv => { kv with expireTimeUs := some time })
    (fun _ => rfl) k

/-- A key that was created and then written to. -/
theorem find_store_newObject {db : Db} {key : Bytes} (absent : db.keyValueMap.find key = none)
    (first object : Object) (k : Bytes) :
    ((db.newObject key first).store key object).keyValueMap.find k =
      if key = k then some ⟨Str.ofData key, object, none⟩ else db.keyValueMap.find k := by
  rw [find_store, newObject, Keyed.find_insert]
  have named : Entry.name (⟨Str.ofData key, first, none⟩ : KeyValue) = key := rfl
  rw [named]
  split
  · rename_i same
    rw [← same, absent]
    rfl
  · rfl

/-- Everything the frame can do: refuse, create the object and write to it, or write to
the object that is there. -/
theorem execOn_cases {α : Type} {db db' : Db} {kind : ObjectKind α} {key : Bytes} {creates : Bool}
    {method : α → Except Fault (α × Reply)} {reply : Reply}
    (returned : db.execOn kind key creates method = .ok (db', reply)) :
    (db' = db ∧ reply = refused) ∨
    (db.keyValueMap.find key = none ∧ creates = true ∧ ∃ value,
      method kind.fresh = .ok (value, reply) ∧
      db' = (db.newObject key (kind.wrap kind.fresh)).store key (kind.wrap value)) ∨
    (∃ old value, db.get key = some (kind.wrap old) ∧ method old = .ok (value, reply) ∧
      db' = db.store key (kind.wrap value)) := by
  rw [execOn] at returned
  split at returned
  · rename_i absent
    split at returned
    · rename_i creating
      obtain ⟨⟨value, answer⟩, called, result⟩ := bind_eq_ok.mp returned
      cases result
      exact Or.inr (Or.inl ⟨get_eq_none_iff.mp absent, creating, value, called, rfl⟩)
    · cases returned
      exact Or.inl ⟨rfl, rfl⟩
  · rename_i object found
    split at returned
    · cases returned
      exact Or.inl ⟨rfl, rfl⟩
    · rename_i old unwrapped
      obtain ⟨⟨value, answer⟩, called, result⟩ := bind_eq_ok.mp returned
      cases result
      rw [kind.unwrap_eq_some.mp unwrapped] at found
      exact Or.inr (Or.inr ⟨old, value, found, called, rfl⟩)

theorem number_of_execOn {α : Type} {db db' : Db} {kind : ObjectKind α} {key : Bytes}
    {creates : Bool} {method : α → Except Fault (α × Reply)} {reply : Reply}
    (returned : db.execOn kind key creates method = .ok (db', reply)) :
    db'.number = db.number := by
  rcases execOn_cases returned with ⟨rfl, -⟩ | ⟨-, -, value, -, rfl⟩ | ⟨old, value, -, -, rfl⟩
  all_goals rfl

end Db

namespace StrCommand

def exec (c : StrCommand) (db : Db) : Except Fault (Db × Reply) :=
  db.execOn .str c.objName (c.command == .set) (onStr c)

end StrCommand

namespace ListCommand

def exec (c : ListCommand) (db : Db) : Except Fault (Db × Reply) :=
  db.execOn .list c.objName (c.command == .lpushf || c.command == .lpushb) (onList c)

end ListCommand

namespace HashCommand

def exec (c : HashCommand) (db : Db) : Except Fault (Db × Reply) :=
  db.execOn .hash c.objName (c.command == .hset) (onHash c)

end HashCommand

namespace SetCommand

def exec (random : Nat) (c : SetCommand) (db : Db) : Except Fault (Db × Reply) :=
  db.execOn .set c.objName (c.command == .sadd) (onSet random db.get c)

end SetCommand

namespace ZSetCommand

def exec (c : ZSetCommand) (db : Db) : Except Fault (Db × Reply) :=
  db.execOn .zset c.objName (c.command == .zadd) (onZSet c)

end ZSetCommand

namespace DbCommand

/-- `DEL`, `EXPIRE` and `WHEN`; `REWRITE` is the server's. -/
def exec (now : UInt64) (c : DbCommand) (db : Db) :
    Except Fault (Db × Reply × Option ExpireTimer) :=
  match c.command with
  | .del =>
      let (db, n) := db.del c.objName
      .ok (db, [toStringSize n], none)
  | .expire => do
      let value ← optionalValue c.value
      let time ← redisStrToSize value
      match time with
      | none => return (db, refused, none)
      | some time =>
          let (db, timer) := db.expireAt c.objName time
          return (db, okReply, timer)
  | .when => .ok (db, [db.whenExpire c.objName now], none)
  | .rewrite => .ok (db, okReply, none)

theorem exec_cases {now : UInt64} {c : DbCommand} {db db' : Db} {reply : Reply}
    {timer : Option ExpireTimer} (returned : exec now c db = .ok (db', reply, timer)) :
    (db' = db ∧ timer = none) ∨
    (c.command = .del ∧ db' = (db.del c.objName).1 ∧ timer = none) ∨
    (c.command = .expire ∧ ∃ time, (db', timer) = db.expireAt c.objName time) := by
  unfold exec at returned
  split at returned
  · rename_i name
    cases returned
    exact Or.inr (Or.inl ⟨name, rfl, rfl⟩)
  · rename_i name
    obtain ⟨value, -, returned⟩ := bind_eq_ok.mp returned
    obtain ⟨time, -, returned⟩ := bind_eq_ok.mp returned
    split at returned
    · cases returned
      exact Or.inl ⟨rfl, rfl⟩
    · cases returned
      exact Or.inr (Or.inr ⟨name, _, rfl⟩)
  · cases returned
    exact Or.inl ⟨rfl, rfl⟩
  · cases returned
    exact Or.inl ⟨rfl, rfl⟩

end DbCommand

end ForkRedis
