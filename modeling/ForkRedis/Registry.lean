import ForkRedis.Startup
import Mathlib.Data.Fintype.Card

set_option autoImplicit false

/- `num_hash` against the databases there are. `RDBLoad` lets the constructor mark a number
for each database, and `Load` then writes the number of the file over it. -/
namespace ForkRedis

open Lists Fallible

/-- Equal below the width of an `int`. -/
theorem int32_ofNat_inj {a b : Nat} (ha : a < 2 ^ 32) (hb : b < 2 ^ 32)
    (same : Int32.ofNat a = Int32.ofNat b) : a = b := by
  have bits := congrArg (fun n : Int32 => n.toBitVec.toNat) same
  simp only [Int32.toBitVec_ofNat', BitVec.toNat_ofNat] at bits
  omega

/-- There are no more numbers than that. -/
theorem length_le_of_distinct {numbers : List Int32} (distinct : numbers.Nodup) :
    numbers.length ≤ 2 ^ 32 := by
  have injective : Function.Injective fun n : Int32 => n.toBitVec.toFin := by
    intro a b same
    exact Int32.toBitVec_inj.mp (BitVec.toFin_inj.mp same)
  have mapped := (distinct.map injective).length_le_card
  rwa [List.length_map, Fintype.card_fin] at mapped

/-- The numbers `0`, `1`, … that a fresh process gives out. -/
def firstNumbers (count : Nat) : List Int32 := (List.range count).map Int32.ofNat

theorem firstNumbers_succ (count : Nat) :
    firstNumbers (count + 1) = firstNumbers count ++ [Int32.ofNat count] := by
  rw [firstNumbers, List.range_succ, List.map_append]
  rfl

theorem registered_succ {count : Nat} (few : count < 2 ^ 32) :
    registered (count + 1) = ((firstNumbers (count + 1)).reverse, Int32.ofNat count) := by
  induction count with
  | zero => rfl
  | succ count ih =>
      have fresh : Int32.ofNat (count + 1) ∉ (firstNumbers (count + 1)).reverse := by
        rw [List.mem_reverse, firstNumbers]
        intro member
        obtain ⟨other, small, same⟩ := List.mem_map.mp member
        rw [List.mem_range] at small
        have := int32_ofNat_inj (by omega) few same
        omega
      have used : Int32.ofNat count ∈ (firstNumbers (count + 1)).reverse := by
        rw [List.mem_reverse]
        exact List.mem_map_of_mem (List.mem_range.mpr (Nat.lt_succ_self count))
      have next : Int32.ofNat count + 1 = Int32.ofNat (count + 1) := by
        rw [Int32.ofNat_add]
        rfl
      rw [registered, ih (by omega)]
      simp only [unusedNumber, if_pos used, next, Server.unusedNumber_of_unused fresh]
      rw [firstNumbers_succ (count + 1), List.reverse_append]
      rfl

theorem registered_perm {count : Nat} (few : count ≤ 2 ^ 32) :
    (registered count).1.Perm (firstNumbers count) := by
  cases count with
  | zero => exact List.Perm.refl []
  | succ count =>
      rw [registered_succ few]
      exact List.reverse_perm _

namespace Server

/-- The numbers of the databases are distinct, a number is marked exactly if a database has
it, and `SuGetDB` comes back with a database of the number it was asked for. -/
structure Faithful (server : Server) : Prop where
  distinct : (server.databases.map Store.number).Nodup
  marked : ∀ number, number ∈ server.numHash ↔ number ∈ server.databases.map Store.number
  found : ∀ number, ∃ db, (server.suGetDb number).1.databases[(server.suGetDb number).2.1]? = some db ∧
    db.number = number

theorem Numbered.faithful {server : Server} (numbered : server.Numbered) : server.Faithful :=
  ⟨numbered.distinct, fun _ => numbered.marked.mem_iff,
    fun number => (suGetDb_databases numbered number).2.2⟩

/-- A client comes and is brought into the first database, or it has a `SELECT`, with or
without a password, a `CREATE` or a `SHOW` executed. -/
inductive CliStep : Server → Server → Prop where
  | connect {server : Server} (client : Nat) :
      CliStep server (server.attach client 0 server.filled)
  | command {server : Server} (env : Env) (client : Nat) (c : CliCommand) {outcome : Outcome}
      (executed : server.execCli env client c = .ok outcome) : CliStep server outcome.server

theorem CliStep.numbered {server server' : Server} (step : CliStep server server')
    (numbered : server.Numbered) : server'.Numbered := by
  cases step with
  | connect client => exact ⟨numbered.distinct, numbered.marked⟩
  | command env client c executed => exact numbered.execCli executed

theorem started_numbers {databases : List Db} (some_ : databases ≠ []) :
    (started databases).databases = databases ∧
      (started databases).numHash = (registered databases.length).1 := by
  cases databases with
  | nil => exact absurd rfl some_
  | cons db rest => exact ⟨rfl, rfl⟩

/-- The constructor has marked the numbers of the file exactly if they are the first ones. -/
theorem started_numbered {databases : List Db} (distinct : (databases.map Store.number).Nodup)
    (first : databases.map Store.number ⊆ firstNumbers databases.length) :
    (started databases).Numbered := by
  by_cases none_ : databases = []
  · subst none_
    exact initial_sound.numbered
  · obtain ⟨listed, marked⟩ := started_numbers none_
    have few : databases.length ≤ 2 ^ 32 := by
      have bounded := length_le_of_distinct distinct
      rwa [List.length_map] at bounded
    have all : (databases.map Store.number).Perm (firstNumbers databases.length) := by
      refine (List.subperm_of_subset distinct first).perm_of_length_le ?_
      rw [firstNumbers, List.length_map, List.length_map, List.length_range]
    refine ⟨?_, ?_⟩
    · rw [listed]
      exact distinct
    · rw [listed, marked]
      exact (registered_perm few).trans all.symm

theorem Faithful.first {databases : List Db} (faithful : (started databases).Faithful) :
    (databases.map Store.number).Nodup ∧
      databases.map Store.number ⊆ firstNumbers databases.length := by
  by_cases none_ : databases = []
  · subst none_
    exact ⟨List.nodup_nil, List.nil_subset _⟩
  · obtain ⟨listed, marked⟩ := started_numbers none_
    have distinct := faithful.distinct
    rw [listed] at distinct
    have few : databases.length ≤ 2 ^ 32 := by
      have bounded := length_le_of_distinct distinct
      rwa [List.length_map] at bounded
    refine ⟨distinct, fun number member => ?_⟩
    have hashed := (faithful.marked number).mpr (listed.symm ▸ member)
    rw [marked] at hashed
    exact (registered_perm few).mem_iff.mp hashed

/-- A server that loads a dump keeps its registry, whatever databases are selected and
created from then on, exactly if the databases of the dump are numbered `0`, `1`, … -/
theorem registry_faithful_iff {conf : DumpConf} (lawful : conf.lz.Lawful) {written : List Db}
    (storable : ∀ db ∈ written, db.Storable) {sources : List Bytes}
    (saved : databaseSave conf written = .ok sources) {databases : List Db}
    (loaded : rdbLoad conf.lz (rdbSave sources) = .ok (databases.map Db.loaded)) :
    (∀ server, Relation.ReflTransGen CliStep (started databases) server → server.Faithful) ↔
      ((keyed written).map Store.number).Nodup ∧
        (keyed written).map Store.number ⊆ firstNumbers (keyed written).length := by
  rw [rdbLoad_save lawful storable saved, Except.ok.injEq] at loaded
  have count : (keyed written).length = databases.length := by
    have lengths := congrArg List.length loaded
    rwa [List.length_map, List.length_map] at lengths
  have numbers : (keyed written).map Store.number = databases.map Store.number := by
    have same := congrArg (List.map Store.number) loaded
    rw [List.map_map, List.map_map] at same
    exact same
  rw [numbers, count]
  constructor
  · intro faithful
    exact (faithful _ Relation.ReflTransGen.refl).first
  · rintro ⟨distinct, first⟩ server reached
    have numbered : server.Numbered := by
      induction reached with
      | refl => exact started_numbered distinct first
      | tail _ step ih => exact step.numbered ih
    exact numbered.faithful

/-- A dump of the databases `1` and `0`. -/
theorem registry_faithful_of_first_two :
    ∃ sources, databaseSave ⟨Lzfse.storedBlocks, false⟩ [Db.single 1, Db.single 0] = .ok sources ∧
      rdbLoad Lzfse.storedBlocks (rdbSave sources) = .ok ([Db.single 1, Db.single 0].map Db.loaded) ∧
      ∀ server, Relation.ReflTransGen CliStep (started [Db.single 1, Db.single 0]) server →
        server.Faithful := by
  obtain ⟨sources, saved, loads⟩ : ∃ sources,
      databaseSave ⟨Lzfse.storedBlocks, false⟩ [Db.single 1, Db.single 0] = .ok sources ∧
      rdbLoad Lzfse.storedBlocks (rdbSave sources) = .ok ([Db.single 1, Db.single 0].map Db.loaded) :=
    ok_checked (by decide +kernel)
  refine ⟨sources, saved, loads, ?_⟩
  refine (registry_faithful_iff Lzfse.storedBlocks_lawful ?_ saved loads).mpr (by decide)
  intro db member
  rcases List.mem_cons.mp member with rfl | rest
  · exact Db.single_storable 1
  · rw [List.mem_singleton.mp rest]
    exact Db.single_storable 0

/-- A client selects database `7` and sets a key there. The dump of that server loads as one
database with the number `7`, with `0` marked as used; `SuGetDB(0)` then makes a database
with the number `1`. -/
theorem registry_not_faithful :
    ∃ server sources databases, oneClient.serve quietEnv 0
        [[bytes "SELECT", bytes "7", bytes "secret"], [bytes "SET", bytes "k", bytes "v"]] =
          .ok server ∧
      databaseSave ⟨Lzfse.storedBlocks, false⟩ server.databases = .ok sources ∧
      rdbLoad Lzfse.storedBlocks (rdbSave sources) = .ok (databases.map Db.loaded) ∧
      (started databases).databases.map Store.number = [7] ∧ (started databases).numHash = [0] ∧
      ((started databases).suGetDb 0).1.databases.map Store.number = [7, 1] ∧
      ¬ (started databases).Faithful := by
  obtain ⟨server, served, saves⟩ : ∃ server, oneClient.serve quietEnv 0
      [[bytes "SELECT", bytes "7", bytes "secret"], [bytes "SET", bytes "k", bytes "v"]] =
        .ok server ∧ ((databaseSave ⟨Lzfse.storedBlocks, false⟩ server.databases).toOption.any
          fun sources => decide (rdbLoad Lzfse.storedBlocks (rdbSave sources) =
            .ok ([Db.single 7].map Db.loaded))) = true := ok_checked (by decide +kernel)
  obtain ⟨sources, saved, loads⟩ := ok_checked saves
  refine ⟨server, sources, [Db.single 7], served, saved, loads, rfl, rfl, rfl, fun faithful => ?_⟩
  have used : (7 : Int32) ∈ (started [Db.single 7]).numHash :=
    (faithful.marked 7).mpr List.mem_cons_self
  exact absurd used (by decide)

end Server

end ForkRedis
