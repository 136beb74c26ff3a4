import ForkRedis.ZSetLinks

set_option autoImplicit false

/- Whole runs of mutations on one `ZSet`. -/
namespace ForkRedis

open Wire Decimal Fallible

/-- The mutations of a `ZSet`. -/
inductive ZSetOp where
  | add (score : Int32) (member : Str)
  | rem (score : Int32) (member : Str)
  | incrBy (delta : Int32) (member : Str)
  | decrBy (delta : Int32) (member : Str)
  deriving DecidableEq

namespace ZSetOp

/-- The score or delta an operation is called with. -/
def argument : ZSetOp → Int32
  | .add score _ => score
  | .rem score _ => score
  | .incrBy delta _ => delta
  | .decrBy delta _ => delta

/-- The arguments `RedisStrToInt` can produce. -/
def InRange (op : ZSetOp) : Prop := -2147483647 ≤ op.argument ∧ op.argument ≤ 2147483647

instance (op : ZSetOp) : Decidable op.InRange := inferInstanceAs (Decidable (_ ∧ _))

def apply (z : ZSet) : ZSetOp → Except Fault ZSet
  | .add score member => .ok (z.add score member).1
  | .rem score member => do
      let result ← z.rem score member
      return result.1
  | .incrBy delta member => do
      let result ← z.incrBy delta member
      return result.1
  | .decrBy delta member => do
      let result ← z.decrBy delta member
      return result.1

def run (z : ZSet) (ops : List ZSetOp) : Except Fault ZSet := ops.foldlM apply z

/-- One step keeps the containers linked, and returns. -/
theorem apply_linked {z : ZSet} (linked : z.Linked) {op : ZSetOp} (ranged : op.InRange) :
    ∃ z', apply z op = .ok z' ∧ z'.Linked := by
  cases op with
  | add score member => exact ⟨_, rfl, ZSet.add_linked linked score member⟩
  | rem score member =>
      have above : score ≠ Int32.minValue := by
        rintro rfl
        exact absurd ranged.1 (by decide : ¬ (-2147483647 : Int32) ≤ Int32.minValue)
      obtain ⟨z', removed, returned, linked'⟩ := ZSet.rem_linked linked above member
      exact ⟨z', by simp only [apply, returned, ok_bind, pure_eq_ok], linked'⟩
  | incrBy delta member =>
      obtain ⟨z', text, returned, linked'⟩ := ZSet.incrBy_linked linked delta member
      exact ⟨z', by simp only [apply, returned, ok_bind, pure_eq_ok], linked'⟩
  | decrBy delta member =>
      obtain ⟨z', text, returned, linked'⟩ := ZSet.incrBy_linked linked (-delta) member
      exact ⟨z', by simp only [apply, ZSet.decrBy, returned, ok_bind, pure_eq_ok], linked'⟩

theorem run_linked {z : ZSet} (linked : z.Linked) {ops : List ZSetOp}
    (ranged : ∀ op ∈ ops, op.InRange) : ∃ z', run z ops = .ok z' ∧ z'.Linked := by
  induction ops generalizing z with
  | nil => exact ⟨z, rfl, linked⟩
  | cons op ops ih =>
      obtain ⟨z₁, first, linked₁⟩ := apply_linked linked (ranged op List.mem_cons_self)
      obtain ⟨z₂, rest, linked₂⟩ := ih linked₁ fun later member =>
        ranged later (List.mem_cons_of_mem op member)
      refine ⟨z₂, ?_, linked₂⟩
      rw [run, List.foldlM_cons, first, ok_bind]
      exact rest

/-- Whatever an operation is called with, the containers are linked if it returns. -/
theorem apply_keeps {z z' : ZSet} (linked : z.Linked) {op : ZSetOp}
    (returned : apply z op = .ok z') : z'.Linked := by
  cases op with
  | add score member =>
      cases returned
      exact ZSet.add_linked linked score member
  | rem score member =>
      obtain ⟨result, removed, same⟩ := bind_eq_ok.mp returned
      cases same
      exact ZSet.rem_keeps linked removed
  | incrBy delta member =>
      obtain ⟨result, incremented, same⟩ := bind_eq_ok.mp returned
      cases same
      exact ZSet.incrBy_keeps linked incremented
  | decrBy delta member =>
      obtain ⟨result, decremented, same⟩ := bind_eq_ok.mp returned
      cases same
      exact ZSet.incrBy_keeps linked decremented

theorem run_keeps {z z' : ZSet} (linked : z.Linked) {ops : List ZSetOp}
    (returned : run z ops = .ok z') : z'.Linked := by
  induction ops generalizing z with
  | nil =>
      cases returned
      exact linked
  | cons op ops ih =>
      rw [run, List.foldlM_cons] at returned
      obtain ⟨z₁, first, rest⟩ := bind_eq_ok.mp returned
      exact ih (apply_keeps linked first) rest

end ZSetOp

namespace ZSet

/-- The (member, score) pairs of `member_map_`, through its iterators. -/
def memberEntries (z : ZSet) : Except Fault (List (Str × Int32)) :=
  z.memberMap.mapM fun entry => do
    let node ← z.seqAt entry.pos
    return (entry.key, node.score)

/-- The (member, score) pairs of `rank_map_`, through its iterators. -/
def rankEntries (z : ZSet) : Except Fault (List (Str × Int32)) :=
  z.rankMap.mapM fun rank => do
    let entry ← z.memberAt rank.pos
    return (entry.key, rank.score)

/-- The three indexes agree: they hold the same pairs, no member occurs twice, every
pointer leads to the entry's own node, and `rank_map_` files each member under its
current score, in score order. -/
structure InStep (z : ZSet) : Prop where
  samePairs : ∃ seq members ranks, z.entries = .ok seq ∧ z.memberEntries = .ok members ∧
    z.rankEntries = .ok ranks ∧ members.Perm seq ∧ ranks.Perm seq
  memberOnce : (z.memberMap.map fun entry => entry.key.data).Nodup
  sequenceOnce : (z.sequenceList.map SeqNode.member).Nodup
  rankOnce : (z.rankMap.map RankNode.pos).Nodup
  memberPointer : ∀ entry ∈ z.memberMap, ∃ node ∈ z.sequenceList,
    node.addr = entry.pos ∧ node.member = entry.addr
  rankPointer : ∀ rank ∈ z.rankMap, ∃ entry ∈ z.memberMap, entry.addr = rank.pos ∧
    ∃ node ∈ z.sequenceList, node.addr = entry.pos ∧ node.score = rank.score
  rankSorted : z.rankMap.Pairwise fun a b => a.score ≤ b.score

namespace Rep

variable {z : ZSet} {es : List ZEntry}

theorem memberEntries_perm (rep : Rep z es) :
    ∃ members, z.memberEntries = .ok members ∧
      members.Perm (es.map fun e => (e.key, e.score)) := by
  let score : MemberNode → Int32 := fun entry =>
    match z.seqAt entry.pos with
    | .ok node => node.score
    | .error _ => 0
  refine ⟨z.memberMap.map fun entry => (entry.key, score entry), ?_, ?_⟩
  · rw [memberEntries, mapM_eq_ok, List.forall₂_map_right_iff, List.forall₂_same]
    intro entry inMap
    obtain ⟨e, he, rfl⟩ := rep.mem_memberMap inMap
    simp only [score, ZEntry.memberNode, rep.seqAt_of_mem he, ok_bind, pure_eq_ok]
  · apply (rep.members.map _).trans
    rw [List.map_map, List.map_congr_left]
    intro e he
    simp only [score, Function.comp_apply, ZEntry.memberNode, rep.seqAt_of_mem he, ZEntry.seqNode]

theorem rankEntries_perm (rep : Rep z es) :
    ∃ ranks, z.rankEntries = .ok ranks ∧ ranks.Perm (es.map fun e => (e.key, e.score)) := by
  let key : RankNode → Str := fun rank =>
    match z.memberAt rank.pos with
    | .ok entry => entry.key
    | .error _ => Str.empty
  refine ⟨z.rankMap.map fun rank => (key rank, rank.score), ?_, ?_⟩
  · rw [rankEntries, mapM_eq_ok, List.forall₂_map_right_iff, List.forall₂_same]
    intro rank inMap
    obtain ⟨e, he, rfl⟩ := List.mem_map.mp (rep.ranks.mem_iff.mp inMap)
    simp only [key, ZEntry.rankNode, rep.memberAt_of_mem he, ok_bind, pure_eq_ok]
  · apply (rep.ranks.map _).trans
    rw [List.map_map, List.map_congr_left]
    intro e he
    simp only [key, Function.comp_apply, ZEntry.rankNode, rep.memberAt_of_mem he,
      ZEntry.memberNode]

theorem inStep (rep : Rep z es) : z.InStep := by
  obtain ⟨members, listed, memberPerm⟩ := rep.memberEntries_perm
  obtain ⟨ranks, ranked, rankPerm⟩ := rep.rankEntries_perm
  constructor
  · exact ⟨_, members, ranks, rep.entries_eq, listed, ranked, memberPerm, rankPerm⟩
  · exact List.pairwise_map.mpr (rep.memberOrder.imp Std.ne_of_lt)
  · rw [rep.seq, List.map_map]
    exact rep.memberDistinct
  · have perm := rep.ranks.map RankNode.pos
    rw [List.map_map] at perm
    exact perm.nodup_iff.mpr rep.memberDistinct
  · intro entry inMap
    obtain ⟨e, he, rfl⟩ := rep.mem_memberMap inMap
    exact ⟨e.seqNode, rep.seq ▸ List.mem_map_of_mem he, rfl, rfl⟩
  · intro rank inMap
    obtain ⟨e, he, rfl⟩ := List.mem_map.mp (rep.ranks.mem_iff.mp inMap)
    exact ⟨e.memberNode, rep.members.mem_iff.mpr (List.mem_map_of_mem he), rfl,
      e.seqNode, rep.seq ▸ List.mem_map_of_mem he, rfl, rfl⟩
  · exact rep.rankOrder

end Rep

/-- A `ZSet` as a run may find it: new, or new and filled by `DecodeValue`. -/
inductive Fresh : ZSet → Prop where
  | empty : Fresh ZSet.empty
  | decoded {lz : Lzfse} {source rest : Bytes} {z : ZSet}
      (decoded : (decodeValue lz ZSet.empty).run source = .ok (z, rest)) : Fresh z

theorem Fresh.linked {start : ZSet} (fresh : start.Fresh) : start.Linked := by
  cases fresh with
  | empty => exact empty_linked
  | decoded decoded => exact decodeValue_linked decoded

/-- A `ZSet` that some run of mutations leaves, whatever their arguments. -/
def Reached (z : ZSet) : Prop := ∃ start ops, Fresh start ∧ ZSetOp.run start ops = .ok z

theorem Reached.of_run {ops : List ZSetOp} {z : ZSet} (returned : ZSetOp.run empty ops = .ok z) :
    z.Reached :=
  ⟨empty, ops, Fresh.empty, returned⟩

theorem Reached.linked {z : ZSet} (reached : z.Reached) : z.Linked := by
  obtain ⟨start, ops, fresh, returned⟩ := reached
  exact ZSetOp.run_keeps fresh.linked returned

/-- Every run of `Add`, `Rem`, `IncrBy` and `DecrBy` returns, no search of `rank_map_`
having passed its end, and leaves the three indexes in step. A run is any prefix of
a longer one, so this holds after each operation. -/
theorem run_inStep {start : ZSet} (fresh : start.Fresh) {ops : List ZSetOp}
    (ranged : ∀ op ∈ ops, op.InRange) : ∃ z, ZSetOp.run start ops = .ok z ∧ z.InStep := by
  obtain ⟨z, returned, es, rep⟩ := ZSetOp.run_linked fresh.linked ranged
  exact ⟨z, returned, rep.inStep⟩

/-- Two members with one score, the first of which is then removed. -/
theorem run_inStep_ties :
    ∃ z, ZSetOp.run empty [.add 1 (Str.ofData [97]), .add 1 (Str.ofData [98]),
      .decrBy 5 (Str.ofData [98]), .incrBy 5 (Str.ofData [98]), .rem 1 (Str.ofData [97])] = .ok z ∧
      z.InStep :=
  run_inStep Fresh.empty (by decide)

end ZSet

end ForkRedis
