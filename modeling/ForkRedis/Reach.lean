import ForkRedis.Filled
import ForkRedis.Server
import Mathlib.Logic.Relation
import Mathlib.Data.List.Perm.Subperm
import Mathlib.Data.Option.Defs

set_option autoImplicit false

/- The states a server reaches, and what holds in all of them: no stored string is
empty, and databases have distinct numbers. -/
namespace ForkRedis

open Lists Fallible

variable {env : Env} {server server' after : Server} {client : Nat} {command : Command}
  {outcome : Outcome} {db db' : Db}

/- The iteration order of a hash container may change at any time. -/

inductive Object.Reordered : Object → Object → Prop where
  | str (s : Str) : Reordered (.str s) (.str s)
  | list (l : List Str) : Reordered (.list l) (.list l)
  | hash {h h' : StrHash} (perm : h.items.Perm h'.items) : Reordered (.hash h) (.hash h')
  | set {s s' : StrSet} (perm : s.items.Perm s'.items) : Reordered (.set s) (.set s')
  | zset (z : LinkedZSet) : Reordered (.zset z) (.zset z)

structure KeyValue.Reordered (kv kv' : KeyValue) : Prop where
  key : kv'.key = kv.key
  value : kv.value.Reordered kv'.value
  expiry : kv'.expireTimeUs = kv.expireTimeUs

structure Db.Reordered (db db' : Db) : Prop where
  number : db'.number = db.number
  entries : ∀ key, Option.Rel KeyValue.Reordered (db.keyValueMap.find key)
    (db'.keyValueMap.find key)

namespace Server

/-- A step of the server: a client comes, goes or has a request executed, a timer
deletes a key, or a hash container is reordered. -/
inductive Step : Server → Server → Prop where
  | connect {server : Server} (client : Nat) (new : server.clients client = none) :
      Step server (server.attach client 0 server.filled)
  | disconnect {server : Server} (client : Nat) : Step server (server.detach client)
  | request {server : Server} (env : Env) (client : Nat) {request : Request} {command : Command}
      {outcome : Outcome} (parsed : requestToCommandExec request = .ok (some command))
      (executed : command.exec env server client = .ok outcome) : Step server outcome.server
  | expire {server : Server} {index : Nat} {db : Db} (there : server.databases[index]? = some db)
      (key : Bytes) : Step server (server.setDatabase index (db.del key).1)
  | rehash {server : Server} {index : Nat} {db db' : Db}
      (there : server.databases[index]? = some db) (same : db.Reordered db') :
      Step server (server.setDatabase index db')

def Reachable (server : Server) : Prop := Relation.ReflTransGen Step initial server

/-- Requests of one client lead from reachable states to reachable states. -/
theorem Reachable.serve (reached : server.Reachable) {requests : List Request}
    (returned : server.serve env client requests = .ok server') : server'.Reachable := by
  induction requests generalizing server with
  | nil =>
      cases returned
      exact reached
  | cons request requests ih =>
      rw [Server.serve, List.foldlM_cons] at returned
      obtain ⟨next, handled, rest⟩ := bind_eq_ok.mp returned
      refine ih ?_ rest
      obtain ⟨parsed, translated, executed⟩ := bind_eq_ok.mp handled
      cases parsed with
      | none =>
          cases executed
          exact reached
      | some command =>
          obtain ⟨outcome, run, result⟩ := bind_eq_ok.mp executed
          cases result
          exact reached.tail (.request env client translated run)

/- What one command can do to the databases. -/

theorem onClientDb_cases {run : Db → Except Fault (Db × Reply × Option ExpireTimer)}
    (returned : server.onClientDb client run = .ok outcome) :
    (server.clients client = none ∧ outcome = ⟨server, none, []⟩) ∨
    ∃ index db db' reply timer, server.clients client = some index ∧
      server.databases[index]? = some db ∧ run db = .ok (db', reply, timer) ∧
      outcome = ⟨server.setDatabase index db', some reply,
        timer.toList.map (Timer.expire index)⟩ := by
  rw [onClientDb] at returned
  split at returned
  · rename_i gone
    cases returned
    exact Or.inl ⟨gone, rfl⟩
  · rename_i index attached
    split at returned
    · cases returned
    · rename_i db there
      obtain ⟨⟨db', reply, timer⟩, ran, result⟩ := bind_eq_ok.mp returned
      cases result
      exact Or.inr ⟨index, db, db', reply, timer, attached, there, ran, rfl⟩

theorem createDb_some {number : Int32} (created : server.createDb = some (after, number)) :
    server.databases.length < 16 ∧ after = server.addDatabase number number ∧
      number = unusedNumber server.numHash (server.numHash.length + 1) server.numberSource := by
  rw [createDb] at created
  split at created
  · cases created
  · rename_i few
    cases created
    exact ⟨Nat.lt_of_not_le few, rfl, rfl⟩

/-- A command on the connection does nothing, as it is refused or its client gone, or it puts
its client into a database, or it makes one. -/
theorem execCli_cases {c : CliCommand} (returned : server.execCli env client c = .ok outcome) :
    (∃ reply, (server.clients client ≠ none → reply ≠ none) ∧ outcome = ⟨server, reply, []⟩) ∨
    (∃ number index, server.clients client = some index ∧
      let target := server.select env.password number c.pswd
      outcome = ⟨target.1.attach client target.2.1 target.2.2,
        some [bytes "Select: " ++ target.1.numberAt target.2.1], []⟩) ∨
    ∃ after number, server.createDb = some (after, number) ∧
      outcome = ⟨after, some (if number = -1 then refused else [toStringInt number]), []⟩ := by
  have absent (gone : server.clients client = none) : server.clients client ≠ none →
      (none : Option Reply) ≠ none := fun there => absurd gone there
  unfold execCli at returned
  split at returned
  · cases returned
    exact Or.inl ⟨_, fun _ => Option.some_ne_none _, rfl⟩
  split at returned
  · obtain ⟨intval, -, returned⟩ := bind_eq_ok.mp returned
    split at returned
    · cases returned
      exact Or.inl ⟨_, fun _ => Option.some_ne_none _, rfl⟩
    · rename_i number
      split at returned
      · rename_i gone
        cases returned
        exact Or.inl ⟨none, absent gone, rfl⟩
      · rename_i index there
        cases returned
        exact Or.inr (Or.inl ⟨number, index, there, rfl⟩)
  · split at returned
    · rename_i gone
      cases returned
      exact Or.inl ⟨none, absent gone, rfl⟩
    · cases returned
      exact Or.inl ⟨_, fun _ => Option.some_ne_none _, rfl⟩
  · split at returned
    · rename_i gone
      cases returned
      exact Or.inl ⟨none, absent gone, rfl⟩
    · split at returned
      · cases returned
        exact Or.inl ⟨_, fun _ => Option.some_ne_none _, rfl⟩
      · rename_i created
        cases returned
        exact Or.inr (Or.inr ⟨_, _, created, rfl⟩)

/-- A command on the server leaves it as it is, or lets its client go. -/
theorem execServer_cases (env : Env) (server : Server) (client : Nat) (c : ServerCommand) :
    ∃ reply, (server.clients client ≠ none → reply ≠ none) ∧
      (server.execServer env client c = ⟨server, reply, []⟩ ∨
        server.clients client ≠ none ∧ c.command = some .endForking ∧
          server.execServer env client c = ⟨server.detach client, reply, []⟩) := by
  unfold execServer
  split
  · rename_i gone
    exact ⟨none, fun there => absurd gone there, Or.inl rfl⟩
  · rename_i there
    split
    · dsimp only
      split <;> exact ⟨_, fun _ => Option.some_ne_none _, Or.inl rfl⟩
    · rename_i name
      refine ⟨_, fun _ => Option.some_ne_none _, Or.inr ⟨?_, name, rfl⟩⟩
      rw [there]
      exact Option.some_ne_none _
    · exact ⟨_, fun _ => Option.some_ne_none _, Or.inl rfl⟩

/-- What holds in every reachable state. The numbers marked as used are those of the
databases there are. -/
structure Sound (server : Server) : Prop where
  filled : ∀ db ∈ server.databases, db.Filled
  distinct : (server.databases.map Store.number).Nodup
  marked : server.numHash.Perm (server.databases.map Store.number)

theorem initial_sound : initial.Sound where
  filled := by
    intro db member
    cases List.mem_singleton.mp member
    exact Db.filled_iff_all.mpr (Db.empty_all 0)
  distinct := List.nodup_singleton 0
  marked := List.Perm.refl [0]

theorem Sound.attach (sound : server.Sound) (client index : Nat)
    (inside : index < server.databases.length) : (server.attach client index inside).Sound :=
  ⟨sound.filled, sound.distinct, sound.marked⟩

theorem Sound.detach (sound : server.Sound) (client : Nat) : (server.detach client).Sound :=
  ⟨sound.filled, sound.distinct, sound.marked⟩

theorem numbers_setDatabase {index : Nat} (there : server.databases[index]? = some db)
    (number : db'.number = db.number) :
    (server.setDatabase index db').databases.map Store.number =
      server.databases.map Store.number := by
  rw [Server.setDatabase, List.map_set, number]
  apply List.ext_getElem?
  intro i
  rw [List.getElem?_set]
  split
  · rename_i same
    subst same
    rw [List.getElem?_map, there]
    split
    · rfl
    · rename_i outside
      rw [List.length_map] at outside
      exact absurd (List.getElem?_eq_some_iff.mp there).1 outside
  · rfl

/-- Replacing a database by one with the same number. -/
theorem Sound.setDatabase (sound : server.Sound) {index : Nat}
    (there : server.databases[index]? = some db) (number : db'.number = db.number)
    (filled : db.Filled → db'.Filled) : (server.setDatabase index db').Sound := by
  have inside := List.mem_of_getElem? there
  have numbers := numbers_setDatabase there number
  constructor
  · intro other member
    rcases List.mem_or_eq_of_mem_set member with old | rfl
    · exact sound.filled other old
    · exact filled (sound.filled db inside)
  · exact numbers ▸ sound.distinct
  · exact numbers ▸ sound.marked

/-- The numbers marked as used are those of the databases, and no two databases share one. -/
structure Numbered (server : Server) : Prop where
  distinct : (server.databases.map Store.number).Nodup
  marked : server.numHash.Perm (server.databases.map Store.number)

theorem Sound.numbered (sound : server.Sound) : server.Numbered :=
  ⟨sound.distinct, sound.marked⟩

theorem Numbered.addDatabase (numbered : server.Numbered) {number : Int32}
    (unused : number ∉ server.numHash) (source : Int32) :
    (server.addDatabase number source).Numbered := by
  have listed : (server.addDatabase number source).databases.map Store.number =
      server.databases.map Store.number ++ [number] := List.map_append
  constructor
  · rw [listed, List.nodup_append]
    refine ⟨numbered.distinct, List.nodup_singleton number, ?_⟩
    intro n old m new same
    rw [List.mem_singleton.mp new] at same
    exact unused (numbered.marked.mem_iff.mpr (same ▸ old))
  · rw [listed]
    exact (numbered.marked.cons number).trans (List.perm_append_singleton _ _).symm

theorem unusedNumber_of_unused {numHash : List Int32} {n : Int32} (unused : n ∉ numHash)
    (rounds : Nat) : unusedNumber numHash rounds n = n := by
  cases rounds with
  | zero => rfl
  | succ rounds => rw [unusedNumber, if_neg unused]

theorem add_ofNat_succ (n : Int32) (k : Nat) : n + 1 + Int32.ofNat k = n + Int32.ofNat (k + 1) := by
  rw [Int32.ofNat_add, Int32.add_assoc, Int32.add_comm 1]
  rfl

/-- The loop ends at an unmarked number, or every number it passed was marked. -/
theorem unusedNumber_cases (numHash : List Int32) (rounds : Nat) (n : Int32) :
    unusedNumber numHash rounds n ∉ numHash ∨
      ∀ k < rounds, n + Int32.ofNat k ∈ numHash := by
  induction rounds generalizing n with
  | zero => exact Or.inr fun k small => absurd small (Nat.not_lt_zero k)
  | succ rounds ih =>
      by_cases marked : n ∈ numHash
      · rw [unusedNumber, if_pos marked]
        rcases ih (n + 1) with found | passed
        · exact Or.inl found
        · refine Or.inr fun k small => ?_
          cases k with
          | zero =>
              have same : n + Int32.ofNat 0 = n := by
                change n + 0 = n
                rw [Int32.add_zero]
              rwa [same]
          | succ k =>
              have next := passed k (by omega)
              rwa [add_ofNat_succ] at next
      · rw [unusedNumber, if_neg marked]
        exact Or.inl marked

/-- The numbers the loop passes are different ones, as long as it does not come round. -/
theorem offsets_nodup (n : Int32) {rounds : Nat} (few : rounds ≤ 2 ^ 32) :
    ((List.range rounds).map fun k => n + Int32.ofNat k).Nodup := by
  apply List.Nodup.map_on _ List.nodup_range
  intro a ha b hb same
  rw [List.mem_range] at ha hb
  have equal : Int32.ofNat a = Int32.ofNat b := by
    have cancelled := congrArg (fun x => -n + x) same
    simpa only [← Int32.add_assoc, Int32.add_left_neg, Int32.zero_add] using cancelled
  have values := congrArg (fun x => x.toUInt32.toNat) equal
  simp only [Int32.toUInt32_ofNat', UInt32.toNat_ofNat'] at values
  omega

theorem unusedNumber_unmarked {numHash : List Int32} (few : numHash.length < 2 ^ 32) (n : Int32) :
    unusedNumber numHash (numHash.length + 1) n ∉ numHash := by
  rcases unusedNumber_cases numHash (numHash.length + 1) n with found | passed
  · exact found
  · -- more numbers than the list has elements would be in it
    have inside : ((List.range (numHash.length + 1)).map fun k => n + Int32.ofNat k) ⊆ numHash := by
      intro m member
      obtain ⟨k, small, rfl⟩ := List.mem_map.mp member
      exact passed k (List.mem_range.mp small)
    have counted := (List.subperm_of_subset (offsets_nodup n few) inside).length_le
    rw [List.length_map, List.length_range] at counted
    omega

theorem unusedNumber_unused {numHash : List Int32} (few : numHash.length < 2 ^ 16) (n : Int32) :
    unusedNumber numHash (numHash.length + 1) n ∉ numHash :=
  unusedNumber_unmarked (Nat.lt_trans few (by decide)) n

theorem find_eq_none_iff {number : Int32} :
    server.find number = none ↔ number ∉ server.databases.map Store.number := by
  rw [find, List.findIdx?_eq_none_iff]
  simp only [beq_eq_false_iff_ne, ne_eq, List.mem_map, not_exists, not_and]

theorem Numbered.suGetDb (numbered : server.Numbered) (number : Int32) :
    (server.suGetDb number).1.Numbered := by
  rw [Server.suGetDb]
  split
  · exact numbered
  · rename_i missing
    have unused : number ∉ server.numHash := by
      rw [numbered.marked.mem_iff]
      exact find_eq_none_iff.mp missing
    change (server.addDatabase (unusedNumber server.numHash _ number) _).Numbered
    rw [unusedNumber_of_unused unused]
    exact numbered.addDatabase unused _

theorem suGetDb_databases (numbered : server.Numbered) (number : Int32) :
    ((server.suGetDb number).1.databases = server.databases ∨
      number ∉ server.databases.map Store.number ∧
        (server.suGetDb number).1.databases = server.databases ++ [⟨number, Keyed.empty⟩]) ∧
    (server.suGetDb number).1.clients = server.clients ∧
    ∃ db, (server.suGetDb number).1.databases[(server.suGetDb number).2.1]? = some db ∧
      db.number = number := by
  rw [suGetDb]
  split
  · rename_i index found
    refine ⟨Or.inl rfl, rfl, ?_⟩
    rw [find, List.findIdx?_eq_some_iff_getElem] at found
    obtain ⟨inside, named, -⟩ := found
    exact ⟨server.databases[index], List.getElem?_eq_getElem inside, beq_iff_eq.mp named⟩
  · rename_i missing
    have absent := find_eq_none_iff.mp missing
    have unused : number ∉ server.numHash :=
      fun marked => absent (numbered.marked.mem_iff.mp marked)
    refine ⟨Or.inr ⟨absent, ?_⟩, rfl, ⟨number, Keyed.empty⟩, ?_, rfl⟩
    · simp only [addDatabase, unusedNumber_of_unused unused]
    · simp only [addDatabase, unusedNumber_of_unused unused, List.getElem?_concat_length]

theorem Numbered.select (numbered : server.Numbered) (password : Bytes) (number : Int32)
    (pswd : Option Bytes) : (server.select password number pswd).1.Numbered := by
  rw [Server.select]
  split
  · exact numbered.suGetDb number
  · exact numbered

theorem Numbered.createDb (numbered : server.Numbered) {number : Int32}
    (created : server.createDb = some (server', number)) : server'.Numbered := by
  obtain ⟨few, rfl, rfl⟩ := createDb_some created
  apply numbered.addDatabase
  apply unusedNumber_unused
  have marked := numbered.marked.length_eq
  rw [List.length_map] at marked
  omega

theorem Numbered.execCli (numbered : server.Numbered) {c : CliCommand}
    (returned : server.execCli env client c = .ok outcome) : outcome.server.Numbered := by
  rcases execCli_cases returned with ⟨reply, -, rfl⟩ | ⟨number, index, -, rfl⟩ |
    ⟨after, number, created, rfl⟩
  · exact numbered
  · have selected := numbered.select env.password number c.pswd
    exact ⟨selected.distinct, selected.marked⟩
  · exact numbered.createDb created

/-- A database of the later server was there before, or is new and empty. -/
def Grows (before after : Server) : Prop :=
  ∀ (index : Nat) (db : Db), after.databases[index]? = some db →
    before.databases[index]? = some db ∨ db.keyValueMap = Keyed.empty

theorem Grows.refl (server : Server) : Grows server server := fun _ _ there => Or.inl there

theorem addDatabase_grows (server : Server) (number source : Int32) :
    Grows server (server.addDatabase number source) := by
  intro index db there
  have split : (server.databases ++ [(⟨number, Keyed.empty⟩ : Db)])[index]? = some db := there
  by_cases old : index < server.databases.length
  · rw [List.getElem?_append_left old] at split
    exact Or.inl split
  · rw [List.getElem?_append_right (Nat.le_of_not_lt old)] at split
    rw [List.mem_singleton.mp (List.mem_of_getElem? split)]
    exact Or.inr rfl

theorem select_grows (server : Server) (password : Bytes) (number : Int32) (pswd : Option Bytes) :
    Grows server (server.select password number pswd).1 := by
  rw [select]
  split
  · rw [suGetDb]
    split
    · exact Grows.refl server
    · exact addDatabase_grows server _ _
  · exact Grows.refl server

theorem execCli_grows {c : CliCommand} (returned : server.execCli env client c = .ok outcome) :
    Grows server outcome.server := by
  rcases execCli_cases returned with ⟨reply, -, rfl⟩ | ⟨number, index, -, rfl⟩ |
    ⟨after, number, created, rfl⟩
  · exact Grows.refl server
  · exact server.select_grows env.password number c.pswd
  · obtain ⟨-, rfl, -⟩ := createDb_some created
    exact addDatabase_grows server _ _

theorem Sound.execCli (sound : server.Sound) {c : CliCommand}
    (returned : server.execCli env client c = .ok outcome) : outcome.server.Sound := by
  have numbered := sound.numbered.execCli returned
  refine ⟨fun db member => ?_, numbered.distinct, numbered.marked⟩
  obtain ⟨index, there⟩ := List.mem_iff_getElem?.mp member
  rcases execCli_grows returned index db there with old | new
  · exact sound.filled db (List.mem_of_getElem? old)
  · obtain ⟨number, keyValueMap⟩ := db
    subst new
    exact Db.filled_iff_all.mpr (Db.empty_all number)

theorem Sound.execServer (sound : server.Sound) (env : Env) (client : Nat) (c : ServerCommand) :
    (server.execServer env client c).server.Sound := by
  obtain ⟨reply, -, same | ⟨-, -, left⟩⟩ := server.execServer_cases env client c
  · exact same ▸ sound
  · exact left ▸ sound.detach client

end Server

theorem untimed_eq_ok {result : Except Fault (Db × Reply)} {reply : Reply}
    {timer : Option ExpireTimer} (returned : untimed result = .ok (db, reply, timer)) :
    result = .ok (db, reply) ∧ timer = none := by
  cases result with
  | error fault => cases returned
  | ok pair =>
      cases returned
      exact ⟨rfl, rfl⟩

namespace Command

/-- What `Exec` can come to: a command on the server or on the client, one that does nothing,
as its client is gone or it is not valid or rewrites the log, or one on the database its client
is in. -/
theorem exec_cases (returned : command.exec env server client = .ok outcome) :
    (∃ c, command = .server c ∧ outcome = server.execServer env client c) ∨
    (∃ c, command = .cli c ∧ server.execCli env client c = .ok outcome) ∨
    (outcome.server = server ∧ (server.clients client ≠ none → outcome.reply ≠ none) ∧
      (outcome.timers = [] ∨ (∃ c, command = .db c ∧ c.command = .rewrite) ∧
        outcome.reply = some okReply ∧ outcome.timers = server.rewriteTimers env)) ∨
    (command.valid = true ∧ ∃ index db db' reply timer, server.clients client = some index ∧
      server.databases[index]? = some db ∧ command.onDb env db = .ok (db', reply, timer) ∧
      outcome = ⟨server.setDatabase index db', some reply,
        timer.toList.map (Timer.expire index)⟩) := by
  have onData (valid : server.execValid client command.valid (command.onDb env) = .ok outcome) :
      (outcome.server = server ∧ (server.clients client ≠ none → outcome.reply ≠ none) ∧
        outcome.timers = []) ∨
      (command.valid = true ∧ ∃ index db db' reply timer, server.clients client = some index ∧
        server.databases[index]? = some db ∧ command.onDb env db = .ok (db', reply, timer) ∧
        outcome = ⟨server.setDatabase index db', some reply,
          timer.toList.map (Timer.expire index)⟩) := by
    rw [Server.execValid] at valid
    split at valid
    · rename_i accepted
      rcases Server.onClientDb_cases valid with ⟨gone, rfl⟩ | ran
      · exact Or.inl ⟨rfl, fun there => absurd gone there, rfl⟩
      · exact Or.inr ⟨accepted, ran⟩
    · cases valid
      exact Or.inl ⟨rfl, fun _ => Option.some_ne_none _, rfl⟩
  cases command with
  | server c =>
      cases returned
      exact Or.inl ⟨c, rfl, rfl⟩
  | cli c => exact Or.inr (Or.inl ⟨c, rfl, returned⟩)
  | db c =>
      rw [Command.exec] at returned
      split at returned
      · rename_i named
        split at returned
        · rename_i gone
          cases returned
          exact Or.inr (Or.inr (Or.inl ⟨rfl, fun there => absurd gone there, Or.inl rfl⟩))
        · cases returned
          exact Or.inr (Or.inr (Or.inl ⟨rfl, fun _ => Option.some_ne_none _,
            Or.inr ⟨⟨c, rfl, named⟩, rfl, rfl⟩⟩))
      · exact Or.inr (Or.inr ((onData returned).imp_left (And.imp_right (And.imp_right Or.inl))))
  | str c | list c | hash c | set c | zset c =>
      exact Or.inr (Or.inr ((onData returned).imp_left (And.imp_right (And.imp_right Or.inl))))

/-- A command on a database keeps its number. -/
theorem number_onDb {reply : Reply} {timer : Option ExpireTimer}
    (returned : command.onDb env db = .ok (db', reply, timer)) : db'.number = db.number := by
  cases command with
  | server c | cli c =>
      cases returned
      rfl
  | db c =>
      rcases DbCommand.exec_cases returned with ⟨rfl, -⟩ | ⟨-, rfl, -⟩ | ⟨-, time, result⟩
      · rfl
      · rfl
      · rw [(Prod.mk.inj result).1]
        exact Db.number_expireAt db _ time
  | str c | list c | hash c | set c | zset c =>
      exact Db.number_of_execOn (untimed_eq_ok returned).1

theorem onDb_all {P : Str → Prop} (kept : Str.Kept P) (args : command.Filled)
    (valid : command.valid = true) {reply : Reply} {timer : Option ExpireTimer}
    (returned : command.onDb env db = .ok (db', reply, timer)) (all : db.All P) : db'.All P := by
  cases command with
  | server c | cli c =>
      cases returned
      exact all
  | db c =>
      rcases DbCommand.exec_cases returned with ⟨rfl, -⟩ | ⟨-, rfl, -⟩ | ⟨-, time, result⟩
      · exact all
      · exact Db.del_all all _
      · rw [(Prod.mk.inj result).1]
        exact Db.expireAt_all all _ time
  | str c => exact StrCommand.exec_all kept args valid all (untimed_eq_ok returned).1
  | list c => exact ListCommand.exec_all kept.given args valid all (untimed_eq_ok returned).1
  | hash c => exact HashCommand.exec_all kept args valid all (untimed_eq_ok returned).1
  | set c => exact SetCommand.exec_all kept.given args valid all (untimed_eq_ok returned).1
  | zset c => exact ZSetCommand.exec_all kept.given args valid all (untimed_eq_ok returned).1

end Command

namespace Server

theorem Sound.exec (sound : server.Sound) (args : command.Filled)
    (returned : command.exec env server client = .ok outcome) : outcome.server.Sound := by
  rcases Command.exec_cases returned with ⟨c, -, rfl⟩ | ⟨c, -, returned⟩ | ⟨same, -⟩ |
    ⟨valid, index, db, db', reply, timer, -, there, ran, rfl⟩
  · exact sound.execServer env client c
  · exact sound.execCli returned
  · exact same ▸ sound
  · exact sound.setDatabase there (Command.number_onDb ran)
      (Command.onDb_all Str.filled_kept args valid ran)

end Server

theorem Object.Reordered.mem_strings {object object' : Object} (same : object.Reordered object')
    {s : Str} : s ∈ object'.strings ↔ s ∈ object.strings := by
  cases same with
  | str s | list l | zset z => rfl
  | hash perm => exact (perm.flatMap_right _).symm.mem_iff
  | set perm => exact perm.symm.mem_iff

theorem Db.Reordered.all {P : Str → Prop} (same : db.Reordered db') (all : db.All P) :
    db'.All P := by
  intro key kv' found
  have related := same.entries key
  rw [found] at related
  cases before : db.keyValueMap.find key with
  | none =>
      rw [before] at related
      cases related
  | some kv =>
      rw [before] at related
      cases related with
      | some entry =>
          obtain ⟨named, value⟩ := all key kv before
          exact ⟨entry.key ▸ named, fun s member => value s (entry.value.mem_strings.mp member)⟩

namespace Server

theorem Step.sound (step : Step server server') (sound : server.Sound) : server'.Sound := by
  cases step with
  | connect client new => exact sound.attach client 0 _
  | disconnect client => exact sound.detach client
  | request env client parsed executed =>
      exact sound.exec (requestToCommandExec_filled parsed) executed
  | expire there key =>
      exact sound.setDatabase there rfl fun filled => Db.del_all (Db.filled_iff_all.mp filled) key
  | rehash there same =>
      exact sound.setDatabase there same.number fun filled => same.all (Db.filled_iff_all.mp filled)

theorem Reachable.sound (reached : server.Reachable) : server.Sound := by
  induction reached with
  | refl => exact initial_sound
  | tail _ step ih => exact step.sound ih

end Server

end ForkRedis
