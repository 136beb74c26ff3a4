import ForkRedis.Str

set_option autoImplicit false

/- `ZSet`: one set of members held in three containers that point at each other.
An iterator is the address of the node it designates, and reading through an
address that designates no node is undefined behaviour. -/
namespace ForkRedis

open Wire Decimal

/-- A node of `sequence_list_`: the address of the member's key, and the score. -/
structure SeqNode where
  addr : Nat
  member : Nat
  score : Int32
  deriving DecidableEq

/-- A node of `member_map_`: the key, and an iterator into `sequence_list_`. -/
structure MemberNode where
  addr : Nat
  key : Str
  pos : Nat
  deriving DecidableEq

/-- A node of `rank_map_`: the score, and an iterator into `member_map_`. -/
structure RankNode where
  score : Int32
  pos : Nat
  deriving DecidableEq

/-- `member_map_` is listed in key order and `rank_map_` in score order, as their
iterators visit them. `next` is the first address never used for a node. -/
structure ZSet where
  sequenceList : List SeqNode
  memberMap : List MemberNode
  rankMap : List RankNode
  next : Nat
  deriving DecidableEq

/-- `std::map::insert` of a key that is not there. -/
def insertMember (node : MemberNode) : List MemberNode → List MemberNode
  | [] => [node]
  | first :: rest =>
      if node.key.data < first.key.data then node :: first :: rest
      else first :: insertMember node rest

/-- `std::multimap::insert`: behind every entry with the same score. -/
def insertRank (node : RankNode) : List RankNode → List RankNode
  | [] => [node]
  | first :: rest =>
      if node.score < first.score then node :: first :: rest
      else first :: insertRank node rest

/-- `while (it->second != pos) it++` followed by `rank_map_.erase(it)`, from the
entry at the front of the list on. -/
def eraseRank (pos : Nat) : List RankNode → Except Fault (List RankNode)
  | [] => .error .undefined
  | first :: rest =>
      if first.pos ≠ pos then do
        let erased ← eraseRank pos rest
        return first :: erased
      else .ok rest

/-- The search and the erasure begin at the first entry that `below` rejects. -/
def eraseRankFrom (below : RankNode → Bool) (pos : Nat) (rank : List RankNode) :
    Except Fault (List RankNode) := do
  let erased ← eraseRank pos (rank.dropWhile below)
  return rank.takeWhile below ++ erased

/-- The normalisation of an index that `List` and `ZSet` share. The arithmetic is that
of `std::size_t`, and a negative index passes back through `int`. -/
def legalRange (size : UInt64) (r : Int32) : UInt64 :=
  if 0 ≤ r then r.toInt64.toUInt64 % size
  else
    let shifted := r.toInt64.toUInt64 + ((-r).toInt64.toUInt64 / size + 1) * size
    shifted.toUInt32.toInt32.toInt64.toUInt64

namespace ZSet

def empty : ZSet := ⟨[], [], [], 0⟩

/-- `member_map_.find(member)`. -/
def find (z : ZSet) (member : Str) : Option MemberNode :=
  z.memberMap.find? fun node => node.key.data == member.data

/-- The sequence node an iterator designates. -/
def seqAt (z : ZSet) (addr : Nat) : Except Fault SeqNode :=
  match z.sequenceList.find? fun node => node.addr == addr with
  | some node => .ok node
  | none => .error .undefined

/-- The member node an address designates. -/
def memberAt (z : ZSet) (addr : Nat) : Except Fault MemberNode :=
  match z.memberMap.find? fun node => node.addr == addr with
  | some node => .ok node
  | none => .error .undefined

/-- A member that is already there is left as it is. -/
def add (z : ZSet) (score : Int32) (member : Str) : ZSet × Bool :=
  match z.find member with
  | some _ => (z, false)
  | none =>
      let entry := z.next
      let pos := z.next + 1
      ({ sequenceList := z.sequenceList ++ [⟨pos, entry, score⟩]
         memberMap := insertMember ⟨entry, member, pos⟩ z.memberMap
         rankMap := insertRank ⟨score, entry⟩ z.rankMap
         next := z.next + 2 }, true)

def card (z : ZSet) : Nat := z.sequenceList.length

/-- The search starts at `rank_map_.upper_bound(score - 1)`. -/
def rem (z : ZSet) (score : Int32) (member : Str) : Except Fault (ZSet × Bool) :=
  match z.find member with
  | none => .ok (z, false)
  | some entry => do
      let node ← z.seqAt entry.pos
      if node.score ≠ score then return (z, false)
      else
        let rankMap ← eraseRankFrom (fun rank => rank.score ≤ score - 1) entry.addr z.rankMap
        return ({ z with
          sequenceList := z.sequenceList.eraseP fun node => node.addr == entry.pos
          memberMap := z.memberMap.eraseP fun node => node.addr == entry.addr
          rankMap := rankMap }, true)

def count (z : ZSet) (scoreLow scoreHigh : Int32) : Nat :=
  if scoreHigh < scoreLow then 0
  else ((z.rankMap.dropWhile fun rank => rank.score < scoreLow).takeWhile
    fun rank => rank.score ≤ scoreHigh).length

def lexCount (z : ZSet) (memberLow memberHigh : Str) : Nat :=
  if memberHigh.data < memberLow.data then 0
  else ((z.memberMap.dropWhile fun node => node.key.data < memberLow.data).takeWhile
    fun node => node.key.data ≤ memberHigh.data).length

/-- The search starts at `rank_map_.lower_bound` of the member's own score. -/
def incrBy (z : ZSet) (deltaScore : Int32) (member : Str) : Except Fault (ZSet × Bytes) :=
  match z.find member with
  | none => .ok (z, [])
  | some entry => do
      let node ← z.seqAt entry.pos
      let erased ← eraseRankFrom (fun rank => rank.score < node.score) entry.addr z.rankMap
      let score := node.score + deltaScore
      return ({ z with
        sequenceList := z.sequenceList.map fun node =>
          if node.addr = entry.pos then { node with score := score } else node
        rankMap := insertRank ⟨score, entry.addr⟩ erased }, toStringInt score)

def decrBy (z : ZSet) (deltaScore : Int32) (member : Str) : Except Fault (ZSet × Bytes) :=
  z.incrBy (-deltaScore) member

/-- `lend + 1` steps from the beginning have to stay inside the list. -/
def range (z : ZSet) (begin end_ : Int32) : Except Fault (List (Str × Int32)) :=
  if z.sequenceList = [] then .ok []
  else
    let size := UInt64.ofNat z.sequenceList.length
    let lbeg := legalRange size begin
    let lend := legalRange size end_
    if lend ≤ lbeg then .ok []
    else if z.sequenceList.length ≤ lend.toNat then .error .undefined
    else ((z.sequenceList.take (lend.toNat + 1)).drop lbeg.toNat).mapM fun node => do
      let entry ← z.memberAt node.member
      return (entry.key, node.score)

def rangeByScore (z : ZSet) (scoreLow scoreHigh : Int32) : Except Fault (List (Str × Int32)) :=
  if scoreHigh < scoreLow then .ok []
  else ((z.rankMap.dropWhile fun rank => rank.score < scoreLow).takeWhile
    fun rank => rank.score ≤ scoreHigh).mapM fun rank => do
      let entry ← z.memberAt rank.pos
      return (entry.key, rank.score)

def rangeByLex (z : ZSet) (memberLow memberHigh : Str) : Except Fault (List (Str × Int32)) :=
  if memberHigh.data < memberLow.data then .ok []
  else ((z.memberMap.dropWhile fun node => node.key.data < memberLow.data).takeWhile
    fun node => node.key.data ≤ memberHigh.data).mapM fun entry => do
      let node ← z.seqAt entry.pos
      return (entry.key, node.score)

/-- `rank_map_.find` designates the first entry with the member's score. -/
def rank (z : ZSet) (member : Str) : Except Fault Bytes :=
  match z.find member with
  | none => .ok []
  | some entry => do
      let node ← z.seqAt entry.pos
      return toStringSize (z.rankMap.takeWhile fun rank => rank.score < node.score).length

def score (z : ZSet) (member : Str) : Except Fault Bytes :=
  match z.find member with
  | none => .ok []
  | some entry => do
      let node ← z.seqAt entry.pos
      return toStringInt node.score

/-- The (member, score) pairs in sequence order, read through the member pointers. -/
def entries (z : ZSet) : Except Fault (List (Str × Int32)) :=
  z.sequenceList.mapM fun node => do
    let entry ← z.memberAt node.member
    return (entry.key, node.score)

def encodeNode (conf : DumpConf) (z : ZSet) (node : SeqNode) : Except Fault Bytes := do
  let entry ← z.memberAt node.member
  let code ← entry.key.encodeValue conf
  return bitsToStringInt node.score ++ code

def encodeValue (conf : DumpConf) (z : ZSet) : Except Fault Bytes :=
  encodeAll (z.encodeNode conf) z.sequenceList

/-- `DecodeValue` clears `member_map_` only, so it needs a fresh object. -/
def decodeValue (lz : Lzfse) (z : ZSet) : Source ZSet := do
  let len ← peekSize
  loop (fun z => do
    let score ← peekInt
    let member ← Str.decodeValue lz
    return (z.add score member).1) len.toNat { z with memberMap := [] }

end ZSet

end ForkRedis
