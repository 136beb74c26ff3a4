import ForkRedis.Util
import ForkRedis.Lib.Keyed
import ForkRedis.Lib.Fallible

set_option autoImplicit false

/- `LRU`, as one thread runs it: a list of keys with their sizes, the most recent first, a
map from keys to the nodes of the list, and a counter of bytes. -/
namespace ForkRedis

open Lists Fallible

/-- A node of `rank_`; iterators to it are its address. -/
structure LruNode where
  address : Nat
  key : Bytes
  size : UInt64
  deriving DecidableEq, Repr

def LruNode.entry (node : LruNode) : Bytes × UInt64 := (node.key, node.size)

/-- `fresh` is the address of the next node. -/
structure Lru where
  rank : List LruNode
  map : Keyed (Prod.fst : Bytes × Nat → Bytes)
  size : UInt32
  fresh : Nat

namespace Lru

/-- The constructor does not set `size_`, and the declaration has no initialiser: the counter
of a new LRU is what was in its memory. -/
def constructed (size : UInt32) : Lru := ⟨[], .empty, size, 0⟩

/-- What an iterator points at; nothing when its node is gone. -/
def nodeAt (lru : Lru) (address : Nat) : Option LruNode :=
  lru.rank.find? (·.address == address)

def eraseNode (rank : List LruNode) (address : Nat) : List LruNode :=
  rank.filter (·.address != address)

def pushFront (lru : Lru) (key : Bytes) (size : UInt64) : Lru :=
  { lru with rank := ⟨lru.fresh, key, size⟩ :: lru.rank, fresh := lru.fresh + 1 }

/-- The mutex of the entry is locked before `it` is compared with `end()`, so that a miss
locks what is behind the end of the map. -/
def access (lru : Lru) (key : Bytes) (size : UInt64) : Except Fault (Lru × UInt32) :=
  match lru.map.find key with
  | none => .error .undefined
  | some (_, itr) =>
      match lru.nodeAt itr with
      | none => .error .undefined
      | some node =>
          let total := lru.size - node.size.toUInt32 + size.toUInt32
          let front := pushFront { lru with rank := eraseNode lru.rank itr } node.key size
          .ok ({ front with
            map := lru.map.modify key (fun entry => (entry.1, lru.fresh)) (fun _ => rfl)
            size := total }, total)

/-- What `Access` goes on to on a miss, if the guard lets it: the pair that is inserted has
its iterator set, and its key left empty. -/
def accessMiss (lru : Lru) (key : Bytes) (size : UInt64) : Lru :=
  let front := pushFront lru key size
  { front with map := lru.map.insert ([], lru.fresh), size := lru.size + size.toUInt32 }

/-- What `Remove` does when it finds its key, up to the end of its guard. -/
def removeFound (lru : Lru) (key : Bytes) (itr : Nat) : Except Fault Lru :=
  match lru.nodeAt itr with
  | none => .error .undefined
  | some node => .ok { lru with
      size := lru.size - node.size.toUInt32
      rank := eraseNode lru.rank itr
      map := lru.map.erase key }

/-- The guard of a key that is found is on the mutex of its entry. The entry is erased, mutex
and all, before the guard unlocks it. -/
def remove (lru : Lru) (key : Bytes) : Except Fault Lru :=
  match lru.map.find key with
  | none => .ok lru
  | some (_, itr) => do
      let _ ← lru.removeFound key itr
      .error .undefined

/-- The counter is not brought down. -/
def evict (lru : Lru) : Except Fault (Lru × Bytes) :=
  match lru.rank.getLast? with
  | none => .error .undefined
  | some node => .ok ({ lru with
      map := lru.map.erase node.key
      rank := lru.rank.dropLast }, node.key)

inductive Operation where
  | access (key : Bytes) (size : UInt64)
  | remove (key : Bytes)
  | evict
  deriving DecidableEq, Repr

/-- An operation with the key it returns, if it returns one. -/
def perform (lru : Lru) : Operation → Except Fault (Lru × Option Bytes)
  | .access key size => (lru.access key size).map fun done => (done.1, none)
  | .remove key => (lru.remove key).map fun done => (done, none)
  | .evict => lru.evict.map fun done => (done.1, some done.2)

end Lru

/-- What an `LRU` keeps: keys with their sizes, from the most to the least recently
accessed. -/
abbrev Recency := List (Bytes × UInt64)

namespace Recency

def without (entries : Recency) (key : Bytes) : Recency := entries.filter (·.1 != key)

/-- What an operation should do: an access brings its key to the front, an eviction drops
and returns the last key. -/
def expected (entries : Recency) : Lru.Operation → Recency × Option Bytes
  | .access key size => ((key, size) :: entries.without key, none)
  | .remove key => (entries.without key, none)
  | .evict => (entries.dropLast, entries.getLast?.map Prod.fst)

def total (entries : Recency) : Nat := (entries.map (·.2.toNat)).sum

/-- Evictions happen only while something is kept. -/
def Admissible : Recency → List Lru.Operation → Prop
  | _, [] => True
  | entries, operation :: operations =>
      (operation = .evict → entries ≠ []) ∧ Admissible (entries.expected operation).1 operations

end Recency

namespace Lru

/-- The list, the map and the counter are in step: `map_` has the keys of `rank_`, each
once, with the node of that key, and `size_` is the sum of the sizes. -/
structure Represents (lru : Lru) (entries : Recency) : Prop where
  rank : lru.rank.map LruNode.entry = entries
  distinct : (lru.rank.map LruNode.key).Nodup
  map : ∀ key itr, lru.map.find key = some (key, itr) ↔
    ∃ node ∈ lru.rank, node.key = key ∧ node.address = itr
  size : lru.size = UInt32.ofNat entries.total
  apart : (lru.rank.map LruNode.address).Nodup
  allocated : ∀ node ∈ lru.rank, node.address < lru.fresh

/-- Each operation returns, with the right key, and leaves everything in step. -/
def Follows : Lru → Recency → List Operation → Prop
  | lru, entries, [] => lru.Represents entries
  | lru, entries, operation :: operations =>
      lru.Represents entries ∧
        ∃ after, lru.perform operation = .ok (after, (entries.expected operation).2) ∧
          Follows after (entries.expected operation).1 operations

variable {lru : Lru} {entries : Recency}
  {key : Bytes} {node other : LruNode} {operation : Operation} {operations : List Operation}

theorem Represents.find_node (represents : lru.Represents entries) (ranked : node ∈ lru.rank) :
    lru.map.find node.key = some (node.key, node.address) :=
  (represents.map node.key node.address).mpr ⟨node, ranked, rfl, rfl⟩

theorem Represents.eq_of_address (represents : lru.Represents entries) (ranked : node ∈ lru.rank)
    (ranked' : other ∈ lru.rank) (same : node.address = other.address) : node = other :=
  List.inj_on_of_nodup_map represents.apart ranked ranked' same

theorem Represents.eq_of_key (represents : lru.Represents entries) (ranked : node ∈ lru.rank)
    (ranked' : other ∈ lru.rank) (same : node.key = other.key) : node = other :=
  List.inj_on_of_nodup_map represents.distinct ranked ranked' same

theorem Represents.nodeAt_address (represents : lru.Represents entries) (ranked : node ∈ lru.rank) :
    lru.nodeAt node.address = some node := by
  unfold nodeAt
  cases found : lru.rank.find? (·.address == node.address) with
  | none =>
      have missing := List.find?_eq_none.mp found node ranked
      simp at missing
  | some other =>
      have same : other.address = node.address := by simpa using List.find?_some found
      rw [represents.eq_of_address (List.mem_of_find?_eq_some found) ranked same]

/-- A key that is found has its node in the list. -/
theorem Represents.found (represents : lru.Represents entries) {entry : Bytes × Nat}
    (found : lru.map.find key = some entry) :
    ∃ node ∈ lru.rank, node.key = key ∧ entry = (key, node.address) := by
  obtain ⟨first, itr⟩ := entry
  have same : first = key := ((lru.map.find_eq_some_iff).mp found).2
  subst same
  obtain ⟨node, ranked, keyed, rfl⟩ := (represents.map first itr).mp found
  exact ⟨node, ranked, keyed, rfl⟩

theorem Represents.find_eq_none_iff (represents : lru.Represents entries) :
    lru.map.find key = none ↔ key ∉ entries.map Prod.fst := by
  have keys : entries.map Prod.fst = lru.rank.map LruNode.key := by
    rw [← represents.rank, List.map_map]
    rfl
  rw [keys]
  constructor
  · intro missing listed
    obtain ⟨node, ranked, rfl⟩ := List.mem_map.mp listed
    rw [represents.find_node ranked] at missing
    cases missing
  · intro unlisted
    cases found : lru.map.find key with
    | none => rfl
    | some entry =>
        obtain ⟨node, ranked, keyed, _⟩ := represents.found found
        exact absurd (keyed ▸ List.mem_map_of_mem ranked) unlisted

/-- Erasing the node of a key leaves the nodes of the other keys. -/
theorem Represents.eraseNode_eq (represents : lru.Represents entries) (ranked : node ∈ lru.rank) :
    eraseNode lru.rank node.address = lru.rank.filter (·.key != node.key) := by
  apply List.filter_congr
  intro other ranked'
  rw [Bool.eq_iff_iff, bne_iff_ne, bne_iff_ne, not_iff_not]
  constructor
  · exact fun same => congrArg LruNode.key (represents.eq_of_address ranked' ranked same)
  · exact fun same => congrArg LruNode.address (represents.eq_of_key ranked' ranked same)

theorem map_entry_filter (rank : List LruNode) (key : Bytes) :
    (rank.filter (·.key != key)).map LruNode.entry =
      Recency.without (rank.map LruNode.entry) key := by
  rw [Recency.without, List.filter_map]
  rfl

/-- The sizes are those of one node and of the others. -/
theorem Represents.total_eq (represents : lru.Represents entries) (ranked : node ∈ lru.rank) :
    entries.total = node.size.toNat + (entries.without node.key).total := by
  have split : lru.rank.Perm (node :: lru.rank.filter (·.key != node.key)) := by
    have same : lru.rank.filter (·.key != node.key) = lru.rank.erase node := by
      rw [represents.distinct.of_map.erase_eq_filter]
      apply List.filter_congr
      intro other ranked'
      rw [Bool.eq_iff_iff, bne_iff_ne, bne_iff_ne, not_iff_not]
      exact ⟨represents.eq_of_key ranked' ranked, congrArg LruNode.key⟩
    rw [same]
    exact List.perm_cons_erase ranked
  rw [← represents.rank, ← map_entry_filter, Recency.total, Recency.total]
  exact ((split.map LruNode.entry).map (fun entry => entry.2.toNat)).sum_nat

theorem toUInt32_eq_ofNat (size : UInt64) : size.toUInt32 = UInt32.ofNat size.toNat :=
  UInt32.toNat.inj (by simp)

/-- An LRU without one of its nodes and the entry of that. -/
theorem Represents.dropped (represents : lru.Represents entries) (ranked : node ∈ lru.rank) :
    Represents { lru with
      size := lru.size - node.size.toUInt32
      rank := eraseNode lru.rank node.address
      map := lru.map.erase node.key } (entries.without node.key) where
  rank := by
    rw [represents.eraseNode_eq ranked, map_entry_filter, represents.rank]
  distinct := represents.distinct.sublist (List.filter_sublist.map _)
  map key itr := by
    rw [Keyed.find_erase, represents.eraseNode_eq ranked]
    simp only [List.mem_filter, bne_iff_ne]
    split
    · rename_i same
      refine iff_of_false (Option.some_ne_none _).symm ?_
      rintro ⟨other, ⟨_, differs⟩, keyed, _⟩
      exact differs (keyed.trans same.symm)
    · rename_i differs
      rw [represents.map]
      constructor
      · rintro ⟨other, ranked', keyed, there⟩
        exact ⟨other, ⟨ranked', fun same => differs (same.symm.trans keyed)⟩, keyed, there⟩
      · rintro ⟨other, ⟨ranked', _⟩, keyed, there⟩
        exact ⟨other, ranked', keyed, there⟩
  size := by
    rw [represents.size, represents.total_eq ranked, toUInt32_eq_ofNat, UInt32.ofNat_add]
    rw [UInt32.add_comm, UInt32.add_sub_cancel]
  apart := represents.apart.sublist (List.filter_sublist.map _)
  allocated other ranked' := represents.allocated other (List.mem_of_mem_filter ranked')

theorem Represents.key_ne_of_missing (represents : lru.Represents entries)
    (missing : lru.map.find key = none) (ranked : node ∈ lru.rank) : node.key ≠ key := by
  intro keyed
  have found := represents.find_node ranked
  rw [keyed, missing] at found
  cases found

/-- An LRU with a node more, at the front, and an entry for it. -/
theorem Represents.pushed (represents : lru.Represents entries) {key : Bytes}
    (missing : lru.map.find key = none) (size : UInt64)
    {map : Keyed (Prod.fst : Bytes × Nat → Bytes)}
    (maps : ∀ other, map.find other = if key = other then some (key, lru.fresh)
      else lru.map.find other) :
    Represents { lru.pushFront key size with map := map, size := lru.size + size.toUInt32 }
      ((key, size) :: entries) where
  rank := by
    rw [← represents.rank]
    rfl
  distinct := by
    refine List.nodup_cons.mpr ⟨fun listed => ?_, represents.distinct⟩
    obtain ⟨node, ranked, keyed⟩ := List.mem_map.mp listed
    exact represents.key_ne_of_missing missing ranked keyed
  map other itr := by
    rw [maps]
    split
    · rename_i same
      subst same
      constructor
      · intro found
        cases found
        exact ⟨_, List.mem_cons_self, rfl, rfl⟩
      · rintro ⟨node, ranked, keyed, rfl⟩
        rcases List.mem_cons.mp ranked with rfl | ranked
        · rfl
        · exact absurd keyed (represents.key_ne_of_missing missing ranked)
    · rename_i differs
      rw [represents.map]
      constructor
      · rintro ⟨node, ranked, there⟩
        exact ⟨node, List.mem_cons_of_mem _ ranked, there⟩
      · rintro ⟨node, ranked, keyed, there⟩
        rcases List.mem_cons.mp ranked with rfl | ranked
        · exact absurd keyed differs
        · exact ⟨node, ranked, keyed, there⟩
  size := by
    rw [represents.size, toUInt32_eq_ofNat, ← UInt32.ofNat_add, Recency.total, Recency.total,
      List.map_cons, List.sum_cons, Nat.add_comm]
  apart := by
    refine List.nodup_cons.mpr ⟨fun listed => ?_, represents.apart⟩
    obtain ⟨node, ranked, there⟩ := List.mem_map.mp listed
    exact absurd (represents.allocated node ranked) (by rw [there]; exact Nat.lt_irrefl _)
  allocated node ranked := by
    rcases List.mem_cons.mp ranked with rfl | ranked
    · exact Nat.lt_succ_self lru.fresh
    · exact Nat.lt_succ_of_lt (represents.allocated node ranked)

theorem Represents.listed_iff (represents : lru.Represents entries) :
    key ∈ entries.map Prod.fst ↔ ∃ node ∈ lru.rank, node.key = key := by
  rw [← represents.rank, List.map_map]
  exact List.mem_map

/-- An access that finds its key brings it to the front. -/
theorem Represents.access_hit (represents : lru.Represents entries)
    (listed : key ∈ entries.map Prod.fst) (size : UInt64) :
    ∃ after total, lru.access key size = .ok (after, total) ∧
      after.Represents ((key, size) :: entries.without key) := by
  obtain ⟨node, ranked, rfl⟩ := represents.listed_iff.mp listed
  have dropped := represents.dropped ranked
  have missing : (lru.map.erase node.key).find node.key = none := by
    rw [Keyed.find_erase, if_pos rfl]
  have maps (other : Bytes) :
      (lru.map.modify node.key (fun entry => (entry.1, lru.fresh)) (fun _ => rfl)).find other =
        if node.key = other then some (node.key, lru.fresh)
        else (lru.map.erase node.key).find other := by
    rw [Keyed.find_modify]
    split
    · rename_i same
      rw [← same, represents.find_node ranked]
      rfl
    · rename_i differs
      rw [Keyed.find_erase, if_neg differs]
  have accessed := dropped.pushed missing size maps
  refine ⟨_, lru.size - node.size.toUInt32 + size.toUInt32, ?_, accessed⟩
  simp only [access, represents.find_node ranked, represents.nodeAt_address ranked]
  rfl

theorem Represents.access_miss (represents : lru.Represents entries)
    (unlisted : key ∉ entries.map Prod.fst) (size : UInt64) :
    lru.access key size = .error .undefined := by
  simp only [access, represents.find_eq_none_iff.mpr unlisted]

theorem Represents.remove_miss (represents : lru.Represents entries)
    (unlisted : key ∉ entries.map Prod.fst) : lru.remove key = .ok lru := by
  simp only [remove, represents.find_eq_none_iff.mpr unlisted]

theorem Represents.remove_hit (represents : lru.Represents entries)
    (listed : key ∈ entries.map Prod.fst) : lru.remove key = .error .undefined := by
  obtain ⟨node, ranked, rfl⟩ := represents.listed_iff.mp listed
  simp only [remove, removeFound, represents.find_node ranked, represents.nodeAt_address ranked]
  rfl

theorem without_unlisted (unlisted : key ∉ entries.map Prod.fst) :
    entries.without key = entries := by
  apply List.filter_eq_self.mpr
  intro entry kept
  rw [bne_iff_ne]
  exact fun same => unlisted (same ▸ List.mem_map_of_mem kept)

theorem total_concat (entries : Recency) (last : Bytes × UInt64) :
    Recency.total (entries ++ [last]) = entries.total + last.2.toNat := by
  rw [Recency.total, Recency.total, List.map_append, List.sum_append, List.map_singleton,
    List.sum_singleton]

theorem ofNat_add_eq_iff (total size : Nat) :
    UInt32.ofNat (total + size) = UInt32.ofNat total ↔ size % 2 ^ 32 = 0 := by
  rw [← UInt32.toNat_inj, UInt32.toNat_ofNat', UInt32.toNat_ofNat']
  omega

/-- An eviction returns the last key. It leaves the size of that in the counter, which is
then right only if that is a multiple of what the counter holds. -/
theorem Represents.evict_iff {last : Bytes × UInt64}
    (represents : lru.Represents (entries ++ [last])) :
    ∃ after, lru.evict = .ok (after, last.1) ∧
      (after.Represents entries ↔ last.2.toNat % 2 ^ 32 = 0) := by
  obtain ⟨nodes, lasts, ranks, mapped, single⟩ := List.map_eq_append_iff.mp represents.rank
  obtain ⟨node, rfl, rfl⟩ := List.map_eq_singleton_iff.mp single
  have ranked : node ∈ lru.rank := by
    rw [ranks]
    exact List.mem_append_right _ List.mem_cons_self
  have erased : eraseNode lru.rank node.address = nodes := by
    have apart := represents.apart
    rw [ranks, List.map_append, List.map_singleton, List.nodup_append] at apart
    rw [eraseNode, ranks, List.filter_append, List.filter_eq_self.mpr]
    · simp
    · intro other kept
      rw [bne_iff_ne]
      exact apart.2.2 _ (List.mem_map_of_mem kept) _ (List.mem_singleton.mpr rfl)
  -- all but the counter is as if the node had been removed
  have dropped := represents.dropped ranked
  rw [erased] at dropped
  rw [show Recency.without (entries ++ [node.entry]) node.key = entries from
    dropped.rank.symm.trans mapped] at dropped
  refine ⟨{ lru with map := lru.map.erase node.key, rank := nodes }, ?_, ?_⟩
  · simp only [evict, ranks, List.getLast?_concat, List.dropLast_concat]
    rfl
  · have counted : lru.size = UInt32.ofNat (entries.total + node.size.toNat) := by
      rw [represents.size, total_concat]
      rfl
    show _ ↔ node.size.toNat % 2 ^ 32 = 0
    rw [← ofNat_add_eq_iff entries.total, ← counted]
    exact ⟨fun right => right.size, fun size => { dropped with size := size }⟩

/-- The operations that keep an LRU in step: an access to a key that is there, a removal of
one that is not, and an eviction of a size the counter does not see. -/
def Keeps (entries : Recency) : Operation → Prop
  | .access key _ => key ∈ entries.map Prod.fst
  | .remove key => key ∉ entries.map Prod.fst
  | .evict => ∀ last ∈ entries.getLast?, last.2.toNat % 2 ^ 32 = 0

/-- One operation on an LRU that is in step. -/
theorem Represents.perform_iff (represents : lru.Represents entries)
    (admissible : operation = .evict → entries ≠ []) :
    (∃ after, lru.perform operation = .ok (after, (entries.expected operation).2) ∧
      after.Represents (entries.expected operation).1) ↔ Keeps entries operation := by
  cases operation with
  | access key size =>
      constructor
      · rintro ⟨after, performed, _⟩
        by_contra unlisted
        rw [perform, represents.access_miss unlisted] at performed
        cases performed
      · intro listed
        obtain ⟨after, total, accessed, right⟩ := represents.access_hit listed size
        refine ⟨after, ?_, right⟩
        rw [perform, accessed]
        rfl
  | remove key =>
      constructor
      · rintro ⟨after, performed, _⟩ listed
        rw [perform, represents.remove_hit listed] at performed
        cases performed
      · intro unlisted
        rw [perform, represents.remove_miss unlisted, Recency.expected, without_unlisted unlisted]
        exact ⟨lru, rfl, represents⟩
  | evict =>
      obtain ⟨kept, last, shape⟩ := (List.eq_nil_or_concat entries).resolve_left (admissible rfl)
      rw [List.concat_eq_append] at shape
      subst shape
      obtain ⟨after, evicted, right_iff⟩ := represents.evict_iff
      have expected : Recency.expected (kept ++ [last]) .evict = (kept, some last.1) := by
        rw [Recency.expected, List.dropLast_concat, List.getLast?_concat]
        rfl
      have performed : lru.perform .evict = .ok (after, some last.1) := by
        rw [perform, evicted]
        rfl
      have keeps : Keeps (kept ++ [last]) .evict ↔ last.2.toNat % 2 ^ 32 = 0 := by
        simp only [Keeps, List.getLast?_concat, Option.mem_some_iff, forall_eq']
      rw [expected, performed, keeps, ← right_iff]
      constructor
      · rintro ⟨other, same, right⟩
        cases same
        exact right
      · exact fun right => ⟨after, rfl, right⟩

/-- Every operation of a sequence keeps an LRU in step. -/
def KeepsAll : Recency → List Operation → Prop
  | _, [] => True
  | entries, operation :: operations =>
      Keeps entries operation ∧ KeepsAll (entries.expected operation).1 operations

theorem Follows.represents (follows : lru.Follows entries operations) : lru.Represents entries := by
  cases operations with
  | nil => exact follows
  | cons operation operations => exact follows.1

theorem Represents.follows_iff (represents : lru.Represents entries)
    (admissible : entries.Admissible operations) :
    lru.Follows entries operations ↔ KeepsAll entries operations := by
  induction operations generalizing lru entries with
  | nil => exact iff_of_true represents trivial
  | cons operation operations ih =>
      have one := represents.perform_iff admissible.1
      constructor
      · rintro ⟨_, after, performed, later⟩
        have right := later.represents
        exact ⟨one.mp ⟨after, performed, right⟩, (ih right admissible.2).mp later⟩
      · rintro ⟨keeps, later⟩
        obtain ⟨after, performed, right⟩ := one.mpr keeps
        exact ⟨represents, after, performed, (ih right admissible.2).mpr later⟩

theorem constructed_represents_iff {size : UInt32} :
    (constructed size).Represents [] ↔ size = 0 := by
  refine ⟨Represents.size, ?_⟩
  rintro rfl
  exact {
    rank := rfl
    distinct := List.nodup_nil
    map := fun key itr => iff_of_false (Option.some_ne_none _).symm (by simp [constructed])
    size := rfl
    apart := List.nodup_nil
    allocated := fun _ ranked => absurd ranked List.not_mem_nil }

/-- Without an access nothing is ever kept, and an access to what is not kept does not
return. -/
theorem keepsAll_empty_iff (admissible : Recency.Admissible [] operations) :
    KeepsAll [] operations ↔ ∀ key size, Operation.access key size ∉ operations := by
  induction operations with
  | nil => exact iff_of_true trivial fun _ _ => List.not_mem_nil
  | cons operation operations ih =>
      cases operation with
      | access key size =>
          refine iff_of_false (fun keeps => ?_) (fun none => none key size List.mem_cons_self)
          exact List.not_mem_nil keeps.1
      | remove key =>
          have later := ih admissible.2
          simpa [KeepsAll, Keeps, Recency.expected, Recency.without] using later
      | evict => exact absurd rfl (admissible.1 rfl)

/-- From a new LRU, with evictions only while something is kept, list, map and counter are in
step at the start and behind each operation exactly if the counter was 0 by chance and there
is no access. -/
theorem follows_constructed_iff {size : UInt32} {operations : List Operation}
    (admissible : Recency.Admissible [] operations) :
    (constructed size).Follows [] operations ↔
      size = 0 ∧ ∀ key bytes, Operation.access key bytes ∉ operations := by
  rw [← constructed_represents_iff, ← keepsAll_empty_iff admissible]
  constructor
  · intro follows
    exact ⟨follows.represents, (follows.represents.follows_iff admissible).mp follows⟩
  · rintro ⟨represents, keeps⟩
    exact (represents.follows_iff admissible).mpr keeps

theorem follows_constructed_removals :
    Recency.Admissible [] [.remove [107], .remove []] ∧
      (constructed 0).Follows [] [.remove [107], .remove []] ∧
      ¬ (constructed 1).Follows [] [.remove [107], .remove []] := by
  have admissible : Recency.Admissible [] [.remove [107], .remove []] := by
    simp [Recency.Admissible]
  refine ⟨admissible, (follows_constructed_iff admissible).mpr (by simp), fun follows => ?_⟩
  exact absurd ((follows_constructed_iff admissible).mp follows).1 (by decide)

/-- The first access of all, whatever the counter is, and a counter that is not 0 behind the
first removal. -/
theorem first_operations_fail :
    Recency.Admissible [] [.access [107] 1] ∧
      (∀ size, (constructed size).perform (.access [107] 1) = .error .undefined ∧
        ¬ (constructed size).Follows [] [.access [107] 1]) ∧
      Recency.Admissible [] [.remove [107]] ∧
      (constructed 1).perform (.remove [107]) = .ok (constructed 1, none) ∧
      ¬ (constructed 1).Represents [] := by
  refine ⟨by simp [Recency.Admissible], fun size => ⟨rfl, ?_⟩, by simp [Recency.Admissible], rfl,
    fun represents => ?_⟩
  · rintro ⟨_, after, performed, _⟩
    cases performed
  · exact absurd (constructed_represents_iff.mp represents) (by decide)

/-- But for the end of its guard, `Remove` is right. -/
theorem Represents.removeFound_represents (represents : lru.Represents entries)
    {entry : Bytes × Nat} (found : lru.map.find key = some entry) :
    ∃ after, lru.removeFound key entry.2 = .ok after ∧ after.Represents (entries.without key) := by
  obtain ⟨node, ranked, rfl, rfl⟩ := represents.found found
  refine ⟨_, ?_, represents.dropped ranked⟩
  simp only [removeFound, represents.nodeAt_address ranked]

/-- Without the guard a miss would go wrong all the same: the entry of a new node is under
the empty key. -/
theorem Represents.accessMiss_iff (represents : lru.Represents entries)
    (unlisted : key ∉ entries.map Prod.fst) (size : UInt64) :
    (lru.accessMiss key size).Represents ((key, size) :: entries) ↔ key = [] := by
  have missing := represents.find_eq_none_iff.mpr unlisted
  constructor
  · intro right
    by_contra filled
    have found := right.find_node (List.mem_cons_self : ⟨lru.fresh, key, size⟩ ∈ _ :: lru.rank)
    have absent : (lru.map.insert ([], lru.fresh)).find key = none := by
      rw [Keyed.find_insert, if_neg (Ne.symm filled), missing]
    exact absurd (absent.symm.trans found) (Option.some_ne_none _).symm
  · rintro rfl
    refine represents.pushed missing size fun other => ?_
    rw [Keyed.find_insert]
    split
    · rename_i same
      rw [← same, missing]
      rfl
    · rfl

end Lru

end ForkRedis
