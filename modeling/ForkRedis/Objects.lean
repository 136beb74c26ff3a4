import ForkRedis.ZSetLinks
import ForkRedis.Lib.Keyed

set_option autoImplicit false

/- The containers `List`, `Set` and `Hash`, and the objects a key can hold. -/
namespace ForkRedis

open Wire Decimal Lists

/-- `std::size_t` to `int`. -/
def toInt (p : UInt64) : Int32 := p.toUInt32.toInt32

/- `List`. -/
namespace StrList

def pushFront (l : List Str) (str : Str) : List Str := str :: l

def pushBack (l : List Str) (str : Str) : List Str := l ++ [str]

/-- An empty list gives a value-initialised `Str`. -/
def popFront : List Str → List Str × Str
  | [] => ([], Str.empty)
  | first :: rest => (rest, first)

def popBack (l : List Str) : List Str × Str :=
  match l.getLast? with
  | none => ([], Str.empty)
  | some last => (l.dropLast, last)

/-- The node `std::advance(begin(), idx)` designates. -/
def node (l : List Str) (idx : Int32) : Except Fault Nat :=
  if 0 ≤ idx ∧ idx.toInt.toNat < l.length then .ok idx.toInt.toNat else .error .undefined

def index (l : List Str) (idx : Int32) : Except Fault Str :=
  if l = [] then .ok Str.empty
  else do
    let p ← node l (toInt (legalRange (UInt64.ofNat l.length) idx))
    return l.getD p Str.empty

def len (l : List Str) : Nat := l.length

/-- The loop of `Rem` from the front: `n` more occurrences are to be erased. -/
def remForward (value : Str) : Nat → List Str → Except Fault (List Str)
  | 0, l => .ok l
  | _ + 1, [] => .error .undefined
  | n + 1, first :: rest =>
      if first.data = value.data then
        if rest = [] then .ok [] else remForward value n rest
      else do
        let kept ← remForward value (n + 1) rest
        return first :: kept

/-- The guard `!cnt == 0` holds when `value` does occur, so whenever one of the loops is
reached there is nothing for it to erase. -/
def rem (l : List Str) (count : Int32) (value : Str) : Except Fault (List Str × Nat) :=
  if l = [] then .ok (l, 0)
  else
    let abs := if count < 0 then (-count).toInt.toNat else count.toInt.toNat
    let cnt := l.countP fun str => str.data == value.data
    if cnt ≠ 0 then .ok (l, 0)
    else
      let n := min cnt abs
      if 0 < count then do
        let kept ← remForward value n l
        return (kept, n)
      else do
        let kept ← remForward value n l.reverse
        return (kept.reverse, n)

/-- `Trim` erases what is between the two positions. -/
def trim (l : List Str) (begin end_ : Int32) : Except Fault (List Str × Bool) :=
  if l = [] then .ok (l, false)
  else
    let b := toInt (legalRange (UInt64.ofNat l.length) begin)
    let e := toInt (legalRange (UInt64.ofNat l.length) end_)
    if e < b then .ok (l, false)
    else if 0 ≤ b ∧ e.toInt.toNat < l.length then
      .ok (l.take b.toInt.toNat ++ l.drop (e.toInt.toNat + 1), true)
    else .error .undefined

def set (l : List Str) (index : Int32) (value : Str) : Except Fault (List Str × Bool) :=
  if l = [] then .ok (l, false)
  else do
    let p ← node l (toInt (legalRange (UInt64.ofNat l.length) index))
    return (l.set p value, true)

def encodeValue (conf : DumpConf) (l : List Str) : Except Fault Bytes :=
  encodeAll (Str.encodeValue conf) l

def decodeValue (lz : Lzfse) (_ : List Str) : Source (List Str) := do
  let len ← peekSize
  loop (fun l => do
    let s ← Str.decodeValue lz
    return pushBack l s) len.toNat []

end StrList

/-- `std::unordered_set<Str>`: strings are compared by contents. -/
abbrev StrSet := Keyed Str.data

namespace StrSet

def add (s : StrSet) (data : Str) : StrSet × Bool := (s.insert data, s.find data.data == none)

def card (s : StrSet) : Nat := s.items.length

def isMember (s : StrSet) (m : Str) : Bool := s.find m.data != none

def members (s : StrSet) : List Str := s.items

/-- `random` is what `std::rand()` returned. -/
def randMember (s : StrSet) (random : Nat) : Str :=
  s.items.getD (random % s.items.length) Str.empty

/-- `Pop` erases the first element of the table and then returns what has become
the first. -/
def pop (s : StrSet) : Except Fault (StrSet × Str) :=
  match s.items with
  | [] => .ok (s, Str.empty)
  | first :: rest =>
      match rest with
      | [] => .error .undefined
      | second :: _ => .ok (s.erase first.data, second)

def rem (s : StrSet) (m : Str) : StrSet × Bool := (s.erase m.data, s.find m.data != none)

/-- `sameObject` is `this == &s`. -/
def diff (this s : StrSet) (sameObject : Bool) : List Str :=
  if sameObject then [] else this.items.filter fun str => s.find str.data == none

def inter (this s : StrSet) (sameObject : Bool) : List Str :=
  if sameObject then this.items else this.items.filter fun str => s.find str.data != none

def encodeValue (conf : DumpConf) (s : StrSet) : Except Fault Bytes :=
  encodeAll (Str.encodeValue conf) s.items

def decodeValue (lz : Lzfse) (_ : StrSet) : Source StrSet := do
  let len ← peekSize
  loop (fun s => do
    let str ← Str.decodeValue lz
    return s.insert str) len.toNat Keyed.empty

end StrSet

/-- `std::unordered_map<Str, Str>`. -/
abbrev StrHash := Keyed fun field : Str × Str => field.1.data

namespace StrHash

def get (h : StrHash) (key : Str) : Str :=
  match h.find key.data with
  | none => Str.empty
  | some field => field.2

def exist (h : StrHash) (key : Str) : Bool := h.find key.data != none

def del (h : StrHash) (key : Str) : StrHash := h.erase key.data

def len (h : StrHash) : Nat := h.items.length

def getAll (h : StrHash) : List (Str × Str) := h.items

/-- The value of a field that is there is overwritten, its key object stays. -/
def put (h : StrHash) (key : Str) (value : Str) : StrHash :=
  h.modify key.data (fun field => (field.1, value)) fun _ => rfl

def set (h : StrHash) (key : Str) (value : Str) : StrHash :=
  match h.find key.data with
  | some _ => h.put key value
  | none => h.insert (key, value)

def incrBy (h : StrHash) (key : Str) (delta : Int32) : Except Fault (StrHash × Bytes) :=
  match h.find key.data with
  | none => .ok (h, [])
  | some field => do
      let (value, text) ← field.2.incrBy delta
      return (h.put key value, text)

def decrBy (h : StrHash) (key : Str) (delta : Int32) : Except Fault (StrHash × Bytes) :=
  match h.find key.data with
  | none => .ok (h, [])
  | some field => do
      let (value, text) ← field.2.decrBy delta
      return (h.put key value, text)

def encodeField (conf : DumpConf) (field : Str × Str) : Except Fault Bytes := do
  let key ← field.1.encodeValue conf
  let value ← field.2.encodeValue conf
  return key ++ value

def encodeValue (conf : DumpConf) (h : StrHash) : Except Fault Bytes :=
  encodeAll (encodeField conf) h.items

/-- `DecodeValue` does not clear the table. -/
def decodeValue (lz : Lzfse) (h : StrHash) : Source StrHash := do
  let len ← peekSize
  loop (fun h => do
    let k ← Str.decodeValue lz
    let v ← Str.decodeValue lz
    return h.insert (k, v)) len.toNat h

end StrHash

/-- A `ZSet` whose indexes are linked, as every `ZSet` of the server is. -/
abbrev LinkedZSet := { z : ZSet // z.Linked }

namespace LinkedZSet

def empty : LinkedZSet := ⟨ZSet.empty, ZSet.empty_linked⟩

def add (z : LinkedZSet) (score : Int32) (member : Str) : LinkedZSet × Bool :=
  (⟨(z.1.add score member).1, ZSet.add_linked z.2 score member⟩, (z.1.add score member).2)

/-- The result of a `ZSet` method that returned, with the proof that it is linked. -/
def attach {β : Type} (result : Except Fault (ZSet × β))
    (keeps : ∀ r, result = .ok r → r.1.Linked) : Except Fault (LinkedZSet × β) :=
  match result, keeps with
  | .error fault, _ => .error fault
  | .ok r, keeps => .ok (⟨r.1, keeps r rfl⟩, r.2)

def rem (z : LinkedZSet) (score : Int32) (member : Str) : Except Fault (LinkedZSet × Bool) :=
  attach (z.1.rem score member) fun _ returned => ZSet.rem_keeps z.2 returned

def incrBy (z : LinkedZSet) (delta : Int32) (member : Str) : Except Fault (LinkedZSet × Bytes) :=
  attach (z.1.incrBy delta member) fun _ returned => ZSet.incrBy_keeps z.2 returned

def decrBy (z : LinkedZSet) (delta : Int32) (member : Str) : Except Fault (LinkedZSet × Bytes) :=
  z.incrBy (-delta) member

/-- `DecodeValue` on a fresh object. -/
def decodeValue (lz : Lzfse) : Source LinkedZSet := fun source =>
  attach ((ZSet.decodeValue lz ZSet.empty).run source) fun _ returned =>
    ZSet.decodeValue_linked returned

end LinkedZSet

/-- `ObjectType` without `OBJ`, which no object has, and `UNKNOWN`. -/
inductive ObjectType where
  | str
  | list
  | hash
  | set
  | zset
  | expireEntry
  deriving DecidableEq, Repr

def objectTypeToChar : ObjectType → UInt8
  | .str => 1
  | .list => 2
  | .hash => 3
  | .set => 4
  | .zset => 5
  | .expireEntry => 6

/-- `none` is `OBJ` or `UNKNOWN`: no object is built for either. -/
def charToObjectType (c : UInt8) : Option ObjectType :=
  if c = 1 then some .str
  else if c = 2 then some .list
  else if c = 3 then some .hash
  else if c = 4 then some .set
  else if c = 5 then some .zset
  else if c = 6 then some .expireEntry
  else none

theorem charToObjectType_toChar (otyp : ObjectType) :
    charToObjectType (objectTypeToChar otyp) = some otyp := by
  cases otyp <;> rfl

/-- What a key can hold. -/
inductive Object where
  | str (s : Str)
  | list (l : List Str)
  | hash (h : StrHash)
  | set (s : StrSet)
  | zset (z : LinkedZSet)
  deriving DecidableEq

namespace Object

def getObjectType : Object → ObjectType
  | .str _ => .str
  | .list _ => .list
  | .hash _ => .hash
  | .set _ => .set
  | .zset _ => .zset

theorem getObjectType_ne_expireEntry (object : Object) :
    object.getObjectType ≠ .expireEntry := by
  cases object <;> exact nofun

def encodeValue (conf : DumpConf) : Object → Except Fault Bytes
  | .str s => s.encodeValue conf
  | .list l => StrList.encodeValue conf l
  | .hash h => StrHash.encodeValue conf h
  | .set s => StrSet.encodeValue conf s
  | .zset z => z.1.encodeValue conf

/-- The object of a type, built fresh and filled; nothing for the other characters. -/
def decodeValue (lz : Lzfse) : Option ObjectType → Source (Option Object)
  | some .str => do
      let s ← Str.decodeValue lz
      return some (.str s)
  | some .list => do
      let l ← StrList.decodeValue lz []
      return some (.list l)
  | some .hash => do
      let h ← StrHash.decodeValue lz Keyed.empty
      return some (.hash h)
  | some .set => do
      let s ← StrSet.decodeValue lz Keyed.empty
      return some (.set s)
  | some .zset => do
      let z ← LinkedZSet.decodeValue lz
      return some (.zset z)
  | _ => return none

end Object

end ForkRedis
