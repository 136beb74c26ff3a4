import ForkRedis.Reach

set_option autoImplicit false

/- RDB persistence of the states a server reaches. -/
namespace ForkRedis

open Decimal Lists Fallible

namespace Db

/-- The containers of a database have sizes, as every C++ container has: a string is
shorter than `stringLimit`, and the number of elements of the others is a
`std::size_t`. -/
structure Addressable (db : Db) : Prop where
  sized : db.keyValueMap.items.length < 2 ^ 64
  values : ∀ kv ∈ db.keyValueMap.items, kv.value.size < 2 ^ 64
  strings : ∀ s ∈ db.strings, s.Fits

theorem storable_of_filled {db : Db} (addressable : db.Addressable) (filled : db.Filled) :
    db.Storable := by
  have string : ∀ s ∈ db.strings, s.Storable := fun s inside =>
    ⟨addressable.strings s inside, fun _ => strings_of_filled filled s inside⟩
  refine ⟨addressable.sized, fun kv member => ⟨string _ (mem_strings_key member), ?_⟩⟩
  exact ⟨addressable.values kv member, fun s inside => string s (mem_strings_value member inside)⟩

end Db

namespace Server

/-- A dump of a reachable server loses nothing exactly when every stored string that is
tagged `INT` is the decimal `std::to_string` writes for a 32-bit integer. -/
theorem dump_lossless_iff {server : Server} (reached : server.Reachable)
    (addressable : ∀ db ∈ server.databases, db.Addressable) (conf : DumpConf)
    (lawful : conf.lz.Lawful) :
    Lossless conf server.databases ↔ ∀ db ∈ server.databases, ∀ s ∈ db.strings, s.Canonical := by
  have sound := reached.sound
  apply lossless_iff_canonical lawful
  · exact fun db member => Db.storable_of_filled (addressable db member) (sound.filled db member)
  · exact sound.distinct

end Server

/-- The environment of a run that reads neither the clock nor the network. -/
def quietEnv : Env := ⟨0, 0, bytes "secret", false, .done, 0⟩

namespace Server

/-- A client of a fresh server. -/
def oneClient : Server := initial.attach 0 0 initial.filled

theorem oneClient_reachable : oneClient.Reachable :=
  Relation.ReflTransGen.single (.connect 0 rfl)

/-- A run of that client, with the proof that it ends in a reachable state. -/
theorem oneClient_serves {requests : List Request} {holds : Server → Prop} (server : Server)
    (served : oneClient.serve quietEnv 0 requests = .ok server)
    (proof : server.Reachable → holds server) :
    ∃ server, oneClient.serve quietEnv 0 requests = .ok server ∧ holds server :=
  ⟨server, served, proof (oneClient_reachable.serve served)⟩

/-- Leading zeros do not come back, and digits beyond 32 bits stop the dump. -/
theorem dump_not_lossless :
    (∃ server, oneClient.serve quietEnv 0 [[bytes "SET", bytes "k", bytes "007"]] = .ok server ∧
      server.Reachable ∧ ¬ Lossless ⟨Lzfse.storedBlocks, false⟩ server.databases) ∧
    (∃ server, oneClient.serve quietEnv 0 [[bytes "SET", bytes "k", bytes "2147483648"]] = .ok server ∧
      server.Reachable ∧
      databaseSave ⟨Lzfse.storedBlocks, false⟩ server.databases = .error .outOfRange) := by
  constructor
  · refine oneClient_serves _ rfl fun reached => ⟨reached, ?_⟩
    rw [lossless_iff_canonical Lzfse.storedBlocks_lawful]
    · decide
    · intro db member
      cases List.mem_singleton.mp member
      exact ⟨by decide, by decide⟩
    · decide
  · exact oneClient_serves _ rfl fun reached => ⟨reached, rfl⟩

/-- A compressed string, a list with a negative integer and a sorted set come back. -/
theorem dump_lossless_iff_small :
    ∃ server, oneClient.serve quietEnv 0 [[bytes "SET", bytes "k", bytes "a b"],
        [bytes "LPUSHB", bytes "l", bytes "-7", bytes "x"],
        [bytes "ZADD", bytes "z", bytes "5", bytes "12"],
        [bytes "EXPIRE", bytes "k", bytes "99"]] = .ok server ∧
      Lossless ⟨Lzfse.storedBlocks, true⟩ server.databases := by
  refine oneClient_serves _ rfl fun reached => ?_
  apply (dump_lossless_iff reached ?_ _ Lzfse.storedBlocks_lawful).mpr
  · decide
  · intro db member
    cases List.mem_singleton.mp member
    exact ⟨by decide, by decide, by decide⟩

end Server

end ForkRedis
