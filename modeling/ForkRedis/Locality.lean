import ForkRedis.Persistence
import ForkRedis.Lib.Footprint

set_option autoImplicit false

/- Commands on a key: what they leave alone, what their replies and results depend on, and
that commands on different keys commute. -/
namespace ForkRedis

open Lists Fallible Footprint

namespace Command

/-- The commands on one key, without `SRANDMEMBER`, which asks `std::rand()`. -/
def isKeyed : Command → Bool
  | .str _ | .list _ | .hash _ | .zset _ => true
  | .set c => c.command != .srandmember
  | .db c => c.command == .del
  | .server _ | .cli _ => false

def objName : Command → Bytes
  | .str c => c.objName
  | .list c => c.objName
  | .hash c => c.objName
  | .set c => c.objName
  | .zset c => c.objName
  | .db c => c.objName
  | .cli c => c.objName
  | .server _ => []

/-- The second key of `SINTER` and `SDIFF`. -/
def secondKey : Command → List Bytes
  | .set c =>
      if c.command = .sinter ∨ c.command = .sdiff then (c.values.take 1).map Str.data else []
  | _ => []

def keys (command : Command) : List Bytes := command.objName :: command.secondKey

theorem objName_mem_keys (command : Command) : command.objName ∈ command.keys := List.mem_cons_self

end Command

namespace Db

variable {α : Type} {kind : ObjectKind α} {key : Bytes} {creates : Bool}

theorem execOn_frame {db db' : Db} {method : α → Except Fault (α × Reply)} {reply : Reply}
    (returned : db.execOn kind key creates method = .ok (db', reply)) {k : Bytes} (other : k ≠ key) :
    db'.keyValueMap.find k = db.keyValueMap.find k := by
  rcases execOn_cases returned with ⟨rfl, -⟩ | ⟨absent, -, value, -, rfl⟩ | ⟨old, value, -, -, rfl⟩
  · rfl
  · rw [find_store_newObject absent, if_neg (Ne.symm other)]
  · rw [find_store, if_neg (Ne.symm other)]

/-- The frame on two databases that hold the same under the key. -/
theorem execOn_depends {db db' other : Db} {method method' : α → Except Fault (α × Reply)}
    {reply : Reply} (same : db.keyValueMap.find key = other.keyValueMap.find key)
    (methods : ∀ value, method' value = method value)
    (returned : db.execOn kind key creates method = .ok (db', reply)) :
    ∃ other', other.execOn kind key creates method' = .ok (other', reply) ∧
      other'.keyValueMap.find key = db'.keyValueMap.find key := by
  have held : other.get key = db.get key := by rw [get, get, same]
  obtain rfl : method' = method := funext methods
  rw [execOn] at returned ⊢
  rw [held]
  cases found : db.get key with
  | none =>
      rw [found] at returned
      have absent := get_eq_none_iff.mp found
      dsimp only at returned ⊢
      split at returned
      · rename_i creating
        obtain ⟨⟨value, answer⟩, called, result⟩ := bind_eq_ok.mp returned
        cases result
        rw [if_pos creating, called]
        refine ⟨_, rfl, ?_⟩
        rw [find_store_newObject absent, find_store_newObject (same ▸ absent), if_pos rfl,
          if_pos rfl]
      · rename_i refusing
        cases returned
        rw [if_neg refusing]
        exact ⟨other, rfl, same.symm⟩
  | some object =>
      rw [found] at returned
      dsimp only at returned ⊢
      cases unwrapped : kind.unwrap object with
      | none =>
          rw [unwrapped] at returned
          cases returned
          exact ⟨other, rfl, same.symm⟩
      | some old =>
          rw [unwrapped] at returned
          obtain ⟨⟨value, answer⟩, called, result⟩ := bind_eq_ok.mp returned
          cases result
          dsimp only
          rw [called]
          refine ⟨_, rfl, ?_⟩
          rw [find_store, find_store, if_pos rfl, if_pos rfl, same]

end Db

namespace SetCommand

/-- Of the other keys, `Exec` asks for the second one only. -/
theorem onSet_depends {c : SetCommand} (fixed : c.command ≠ .srandmember) (random random' : Nat)
    {get get' : Bytes → Option Object}
    (same : ∀ key ∈ Command.secondKey (.set c), get' key = get key) (st : StrSet) :
    onSet random' get' c st = onSet random get c st := by
  have combined (method : StrSet → StrSet → Bool → List Str)
      (name : c.command = .sinter ∨ c.command = .sdiff) :
      combine method get' c st = combine method get c st := by
    rw [Command.secondKey, if_pos name] at same
    rw [combine, combine]
    cases given : valueAt c.values 0 with
    | error fault => rfl
    | ok another =>
        have listed : another ∈ c.values.take 1 := by
          have first := valueAt_eq_ok.mp given
          rw [← List.head?_eq_getElem?] at first
          cases named : c.values with
          | nil => rw [named] at first; cases first
          | cons value rest =>
              rw [named] at first
              cases first
              exact List.mem_cons_self
        simp only [ok_bind, same _ (List.mem_map_of_mem listed)]
  rw [onSet, onSet]
  split
  case h_5 name => exact absurd name fixed
  case h_8 name => exact combined _ (Or.inl name)
  case h_9 name => exact combined _ (Or.inr name)
  all_goals rfl

end SetCommand

namespace Command

/-- A command on a key changes nothing under another key, and hands no timer over. -/
theorem onDb_frame {env : Env} {command : Command} (keyed : command.isKeyed = true) {db db' : Db}
    {reply : Reply} {timer : Option ExpireTimer}
    (returned : command.onDb env db = .ok (db', reply, timer)) :
    timer = none ∧ ∀ k ≠ command.objName, db'.keyValueMap.find k = db.keyValueMap.find k := by
  cases command with
  | server c | cli c => cases keyed
  | db c =>
      have named : c.command = .del := beq_iff_eq.mp keyed
      rcases DbCommand.exec_cases returned with ⟨rfl, rfl⟩ | ⟨-, rfl, rfl⟩ | ⟨expiring, -⟩
      · exact ⟨rfl, fun _ _ => rfl⟩
      · refine ⟨rfl, fun k other => ?_⟩
        exact (Keyed.find_erase _ _ k).trans (if_neg (Ne.symm other))
      · rw [named] at expiring
        cases expiring
  | str c | list c | hash c | set c | zset c =>
      obtain ⟨executed, untimed⟩ := untimed_eq_ok returned
      exact ⟨untimed, fun _ other => Db.execOn_frame executed other⟩

/-- On databases that hold the same under its keys, a command on a key gives the same reply
and leaves the same under its own, whatever the time and `std::rand()`. -/
theorem onDb_depends (env env' : Env) {command : Command} (keyed : command.isKeyed = true)
    {db db' other : Db} {reply : Reply} {timer : Option ExpireTimer}
    (same : ∀ key ∈ command.keys, db.keyValueMap.find key = other.keyValueMap.find key)
    (returned : command.onDb env db = .ok (db', reply, timer)) :
    ∃ other', command.onDb env' other = .ok (other', reply, timer) ∧
      other'.keyValueMap.find command.objName = db'.keyValueMap.find command.objName := by
  have own := same command.objName command.objName_mem_keys
  cases command with
  | server c | cli c => cases keyed
  | db c =>
      have named : c.command = .del := beq_iff_eq.mp keyed
      have own : db.keyValueMap.find c.objName = other.keyValueMap.find c.objName := own
      simp only [onDb, DbCommand.exec, named, Db.del, own, Except.ok.injEq, Prod.mk.injEq]
        at returned ⊢
      obtain ⟨rfl, rfl, rfl⟩ := returned
      refine ⟨_, ⟨rfl, rfl, rfl⟩, ?_⟩
      change (other.keyValueMap.erase c.objName).find c.objName =
        (db.keyValueMap.erase c.objName).find c.objName
      rw [Keyed.find_erase, Keyed.find_erase, if_pos rfl, if_pos rfl]
  | str c | list c | hash c | zset c =>
      obtain ⟨executed, rfl⟩ := untimed_eq_ok returned
      obtain ⟨other', executed', entry⟩ := Db.execOn_depends own (fun _ => rfl) executed
      exact ⟨other', congrArg untimed executed', entry⟩
  | set c =>
      obtain ⟨executed, rfl⟩ := untimed_eq_ok returned
      have second : ∀ key ∈ secondKey (.set c), other.get key = db.get key := by
        intro key member
        rw [Db.get, Db.get, same key (List.mem_cons_of_mem _ member)]
      obtain ⟨other', executed', entry⟩ := Db.execOn_depends own
        (SetCommand.onSet_depends (bne_iff_ne.mp keyed) env.random env'.random second) executed
      exact ⟨other', congrArg untimed executed', entry⟩

theorem exec_keyed (env : Env) {command : Command} (keyed : command.isKeyed = true)
    (server : Server) (client : Nat) :
    command.exec env server client =
      server.execValid client command.valid (command.onDb env) := by
  cases command with
  | server c | cli c => cases keyed
  | db c =>
      have named : c.command = .del := beq_iff_eq.mp keyed
      rw [exec, if_neg (by rw [named]; decide)]
  | str c | list c | hash c | set c | zset c => rfl

/-- `Exec` of a command on a key, for a client that is in a database. -/
theorem exec_attached (env : Env) {command : Command} (keyed : command.isKeyed = true)
    {server : Server} {client index : Nat} {db : Db} (attached : server.clients client = some index)
    (there : server.databases[index]? = some db) :
    command.exec env server client =
      if command.valid then (command.onDb env db).map fun (db', reply, timer) =>
        ⟨server.setDatabase index db', some reply, timer.toList.map (Timer.expire index)⟩
      else .ok ⟨server, some refused, []⟩ := by
  rw [exec_keyed env keyed, Server.execValid]
  split
  · rw [Server.onClientDb, attached]
    dsimp only
    rw [there]
    dsimp only
    cases command.onDb env db with
    | error fault => rfl
    | ok result => rfl
  · rfl

theorem exec_detached (env : Env) {command : Command} (keyed : command.isKeyed = true)
    {server : Server} {client : Nat} (gone : server.clients client = none) :
    command.exec env server client =
      .ok ⟨server, if command.valid then none else some refused, []⟩ := by
  rw [exec_keyed env keyed, Server.execValid]
  split
  · rw [Server.onClientDb, gone]
  · rfl

end Command

namespace Server

/-- The entry under a key of the database at a position. -/
def entry (server : Server) (index : Nat) (key : Bytes) : Option KeyValue :=
  server.databases[index]?.bind fun db => db.keyValueMap.find key

theorem entry_eq {server : Server} {index : Nat} {db : Db}
    (there : server.databases[index]? = some db) (key : Bytes) :
    server.entry index key = db.keyValueMap.find key := by
  rw [entry, there, Option.bind_some]

theorem entry_setDatabase {server : Server} {index : Nat} {db : Db}
    (there : server.databases[index]? = some db) (db' : Db) (i : Nat) (key : Bytes) :
    (server.setDatabase index db').entry i key =
      if index = i then db'.keyValueMap.find key else server.entry i key := by
  have inside := (List.getElem?_eq_some_iff.mp there).1
  rw [entry, setDatabase, List.getElem?_set]
  rw [if_pos inside]
  split
  · rfl
  · rfl

/-- Two servers that differ in the entries of their databases at most. -/
structure Beside (server other : Server) : Prop where
  clients : other.clients = server.clients
  numHash : other.numHash = server.numHash
  numberSource : other.numberSource = server.numberSource
  numbers : other.databases.map Store.number = server.databases.map Store.number

theorem Beside.refl (server : Server) : server.Beside server := ⟨rfl, rfl, rfl, rfl⟩

theorem Beside.symm {server other : Server} (beside : server.Beside other) : other.Beside server :=
  ⟨beside.clients.symm, beside.numHash.symm, beside.numberSource.symm, beside.numbers.symm⟩

theorem Beside.trans {server next last : Server} (beside : server.Beside next)
    (beside' : next.Beside last) : server.Beside last :=
  ⟨beside'.clients.trans beside.clients, beside'.numHash.trans beside.numHash,
    beside'.numberSource.trans beside.numberSource, beside'.numbers.trans beside.numbers⟩

/-- Two servers with the same clients and the same databases, whatever the order in which the
tables hold their keys. -/
structure SameEntries (server other : Server) : Prop extends Beside server other where
  entries : ∀ index key, other.entry index key = server.entry index key

theorem attached_there {server : Server} {client index : Nat}
    (attached : server.clients client = some index) : ∃ db, server.databases[index]? = some db :=
  ⟨_, List.getElem?_eq_getElem (server.attached client index attached)⟩

end Server

namespace Command

variable {env : Env} {command : Command} {server server' : Server} {client client' : Nat}
  {outcome : Outcome}

theorem exec_frame (keyed : command.isKeyed = true)
    (executed : command.exec env server client = .ok outcome) :
    outcome.timers = [] ∧ server.Beside outcome.server ∧ ∀ index key,
      ¬ (server.clients client = some index ∧ key = command.objName) →
        outcome.server.entry index key = server.entry index key := by
  rcases exec_cases executed with ⟨c, rfl, -⟩ | ⟨c, rfl, -⟩ | ⟨same, -, quiet⟩ |
    ⟨-, index, db, db', reply, timer, attached, there, run, rfl⟩
  · cases keyed
  · cases keyed
  · rw [same]
    refine ⟨quiet.resolve_right ?_, Server.Beside.refl server, fun _ _ _ => rfl⟩
    rintro ⟨⟨c, rfl, rewriting⟩, -⟩
    have deleting : c.command = .del := beq_iff_eq.mp keyed
    rw [rewriting] at deleting
    cases deleting
  · obtain ⟨rfl, frame⟩ := onDb_frame keyed run
    refine ⟨rfl, ⟨rfl, rfl, rfl, Server.numbers_setDatabase there (number_onDb run)⟩, ?_⟩
    intro i key elsewhere
    rw [Server.entry_setDatabase there]
    split
    · rename_i here
      subst here
      rw [frame key fun own => elsewhere ⟨attached, own⟩, Server.entry_eq there]
    · rfl

theorem exec_depends (env' : Env) (keyed : command.isKeyed = true) {index index' : Nat}
    (attached : server.clients client = some index)
    (attached' : server'.clients client' = some index')
    (same : ∀ key ∈ command.keys, server.entry index key = server'.entry index' key)
    (executed : command.exec env server client = .ok outcome) :
    ∃ outcome', command.exec env' server' client' = .ok outcome' ∧
      outcome'.reply = outcome.reply ∧
      outcome'.server.entry index' command.objName =
        outcome.server.entry index command.objName := by
  obtain ⟨db, there⟩ := Server.attached_there attached
  obtain ⟨db', there'⟩ := Server.attached_there attached'
  rw [exec_attached env keyed attached there] at executed
  rw [exec_attached env' keyed attached' there']
  split at executed
  · rename_i valid
    rw [if_pos valid]
    obtain ⟨⟨after, reply, timer⟩, run, rfl⟩ := map_eq_ok.mp executed
    have shared : ∀ key ∈ command.keys, db.keyValueMap.find key = db'.keyValueMap.find key := by
      intro key member
      rw [← Server.entry_eq there, ← Server.entry_eq there', same key member]
    obtain ⟨after', run', entry⟩ := onDb_depends env env' keyed shared run
    refine ⟨_, map_eq_ok.mpr ⟨_, run', rfl⟩, rfl, ?_⟩
    dsimp only
    rw [Server.entry_setDatabase there, Server.entry_setDatabase there', if_pos rfl, if_pos rfl]
    exact entry
  · rename_i invalid
    cases executed
    rw [if_neg invalid]
    exact ⟨_, rfl, rfl, (same _ command.objName_mem_keys).symm⟩

/-- The place a client's command on a key writes to. -/
def writes (command : Command) (server : Server) (client : Nat) : Set (Nat × Bytes) :=
  { place | server.clients client = some place.1 ∧ place.2 = command.objName }

/-- The places it reads. -/
def reads (command : Command) (server : Server) (client : Nat) : Set (Nat × Bytes) :=
  { place | server.clients client = some place.1 ∧ place.2 ∈ command.keys }

/-- `Exec` as an operation on the server that answers. -/
def perform (command : Command) (env : Env) (client : Nat) (server : Server) :
    Except Fault (Server × Option Reply) :=
  (command.exec env server client).map fun outcome => (outcome.server, outcome.reply)

theorem perform_within (keyed : command.isKeyed = true) (base : Server) :
    Within { server | base.Beside server } (fun server place => server.entry place.1 place.2)
      (command.reads base client) (command.writes base client) (command.perform env client) where
  covered := by
    rintro ⟨index, key⟩ ⟨attached, rfl⟩
    exact ⟨attached, command.objName_mem_keys⟩
  stays := by
    intro server server' reply beside performed
    obtain ⟨outcome, executed, same⟩ := map_eq_ok.mp performed
    cases same
    exact beside.trans (exec_frame keyed executed).2.1
  frame := by
    rintro server server' reply beside performed ⟨index, key⟩ outside
    obtain ⟨outcome, executed, same⟩ := map_eq_ok.mp performed
    cases same
    refine (exec_frame keyed executed).2.2 index key ?_
    rw [beside.clients]
    exact outside
  depends := by
    intro server other after reply beside beside' same performed
    obtain ⟨outcome, executed, result⟩ := map_eq_ok.mp performed
    cases result
    cases attached : base.clients client with
    | none =>
        rw [exec_detached env keyed (beside.clients ▸ attached)] at executed
        cases executed
        refine ⟨other, ?_, fun place written => absurd written.1 (by rw [attached]; exact nofun)⟩
        rw [perform, exec_detached env keyed (beside'.clients ▸ attached)]
        rfl
    | some index =>
        obtain ⟨outcome', executed', reply, entry⟩ := exec_depends env keyed
          (beside.clients ▸ attached) (beside'.clients ▸ attached)
          (fun key member => same (index, key) ⟨attached, member⟩) executed
        refine ⟨outcome'.server, map_eq_ok.mpr ⟨outcome', executed', by rw [reply]⟩, ?_⟩
        rintro ⟨i, key⟩ ⟨here, rfl⟩
        rw [attached] at here
        cases here
        exact entry

/-- A command is local to its key. -/
structure Local (command : Command) : Prop where
  /-- The other keys of the client's database and the other databases stay as they are. -/
  frame : ∀ {env server client outcome}, command.exec env server client = .ok outcome →
    outcome.timers = [] ∧ server.Beside outcome.server ∧ ∀ index key,
      ¬ (server.clients client = some index ∧ key = command.objName) →
        outcome.server.entry index key = server.entry index key
  /-- Two runs, of any clients of any servers at any time, that find the same under the keys
  of the command. -/
  depends : ∀ {env env' server server' client client' index index' outcome},
    server.clients client = some index → server'.clients client' = some index' →
    (∀ key ∈ command.keys, server.entry index key = server'.entry index' key) →
    command.exec env server client = .ok outcome →
      ∃ outcome', command.exec env' server' client' = .ok outcome' ∧
        outcome'.reply = outcome.reply ∧
        outcome'.server.entry index' command.objName =
          outcome.server.entry index command.objName
  /-- Commands of any two clients that are in different databases or name different keys can be
  exchanged. -/
  commutes : ∀ {other : Command} {env env' server client client' outcome outcome'},
    other.isKeyed = true →
    (server.clients client = server.clients client' → command.keys.Disjoint other.keys) →
    command.exec env server client = .ok outcome →
    other.exec env' outcome.server client' = .ok outcome' →
      ∃ early late, other.exec env' server client' = .ok early ∧
        command.exec env early.server client = .ok late ∧
        early.reply = outcome'.reply ∧ late.reply = outcome.reply ∧
        late.server.SameEntries outcome'.server

theorem writes_disjoint_reads {other : Command}
    (apart : server.clients client = server.clients client' → command.keys.Disjoint other.keys) :
    Disjoint (command.writes server client) (other.reads server client') := by
  rw [Set.disjoint_left]
  rintro ⟨index, key⟩ ⟨attached, rfl⟩ ⟨attached', member⟩
  exact apart (attached.trans attached'.symm) command.objName_mem_keys member

/-- Every command on a key but `SRANDMEMBER` is local to it. -/
theorem keyed_local (keyed : command.isKeyed = true) : command.Local where
  frame := exec_frame keyed
  depends := exec_depends _ keyed
  commutes := by
    intro other env env' server client client' outcome outcome' keyed' apart ran ran'
    have apart' : server.clients client' = server.clients client →
        other.keys.Disjoint command.keys := fun together => List.disjoint_symm (apart together.symm)
    obtain ⟨early, late, first, second, beside, beside', entries⟩ :=
      (perform_within keyed server).commute (perform_within keyed' server)
        (writes_disjoint_reads apart) (writes_disjoint_reads apart') (Server.Beside.refl server)
        (map_eq_ok.mpr ⟨outcome, ran, rfl⟩) (map_eq_ok.mpr ⟨outcome', ran', rfl⟩)
    obtain ⟨first', executed, same⟩ := map_eq_ok.mp first
    obtain ⟨rfl, reply⟩ := Prod.mk.inj same
    obtain ⟨second', executed', same'⟩ := map_eq_ok.mp second
    obtain ⟨rfl, reply'⟩ := Prod.mk.inj same'
    exact ⟨first', second', executed, executed', reply, reply', beside.symm.trans beside',
      fun index key => (entries (index, key)).symm⟩

/-- `SINTER` of two keys. -/
def sinter : Command := .set ⟨true, .sinter, bytes "a", [Str.ofData (bytes "b")]⟩

/-- `DEL` of a third. -/
def delete : Command := .db ⟨true, .del, bytes "c", none⟩

theorem keyed_local_sinter :
    requestToCommandExec [bytes "SINTER", bytes "a", bytes "b"] = .ok (some sinter) ∧
    requestToCommandExec [bytes "DEL", bytes "c"] = .ok (some delete) ∧ sinter.Local ∧
    ∃ server early late, Server.oneClient.serve quietEnv 0 [[bytes "SADD", bytes "a", bytes "x"],
        [bytes "SADD", bytes "b", bytes "x", bytes "y"], [bytes "SET", bytes "c", bytes "v"]] =
          .ok server ∧
      delete.exec quietEnv server 0 = .ok early ∧ sinter.exec quietEnv early.server 0 = .ok late ∧
      early.reply = some [bytes "1"] ∧ late.reply = some [bytes "x"] := by
  have sintering : sinter.Local := keyed_local rfl
  have listed : ∀ key ∈ [bytes "a", bytes "b"], key ∉ [bytes "c"] := by decide
  have apart : sinter.keys.Disjoint delete.keys := fun key => listed key
  obtain ⟨server, served, run⟩ : ∃ server,
      Server.oneClient.serve quietEnv 0 [[bytes "SADD", bytes "a", bytes "x"],
        [bytes "SADD", bytes "b", bytes "x", bytes "y"], [bytes "SET", bytes "c", bytes "v"]] =
          .ok server ∧
      ((sinter.exec quietEnv server 0).toOption.any fun outcome =>
        decide (outcome.reply = some [bytes "x"] ∧
          ((delete.exec quietEnv outcome.server 0).toOption.any fun outcome' =>
            decide (outcome'.reply = some [bytes "1"])) = true)) = true :=
    ok_checked (by decide +kernel)
  obtain ⟨outcome, ran, answer, run'⟩ := ok_checked run
  obtain ⟨outcome', ran', answer'⟩ := ok_checked run'
  obtain ⟨early, late, first, second, reply, reply', -⟩ :=
    sintering.commutes rfl (fun _ => apart) ran ran'
  exact ⟨rfl, rfl, sintering, server, early, late, served, first, second, reply.trans answer',
    reply'.trans answer⟩

end Command

end ForkRedis
