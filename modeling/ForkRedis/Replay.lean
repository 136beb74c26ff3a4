import ForkRedis.Hazards
import ForkRedis.Words

set_option autoImplicit false

/- Requests of one client executed one after the other, seen from the database the client
is in: a request that only concerns this database does there what it does to the
database alone. -/
namespace ForkRedis

open Decimal Lists Fallible

variable {env : Env} {server server' : Server} {client index : Nat} {request : Request}
  {db db' : Db}

theorem redisStrToInt_toStringInt {n : Int32} (sign : 0 ≤ n) :
    redisStrToInt (toStringInt n) = .ok (some n) := by
  have above : n ≠ Int32.minValue := by
    rintro rfl
    exact absurd sign (by decide)
  rw [redisStrToInt_some (Str.intShaped_toStringInt n) (mt oversized_toStringInt.mp above),
    intOf_toStringInt]

/-- The command a request names. -/
def commandOf (request : Request) : Option CommandName :=
  commandName ((request.headD []).map toUpper)

theorem requestToCommandExec_eq (request : Request) :
    requestToCommandExec request =
      match commandOf request with
      | none => .ok none
      | some name => do
          let command ← toCommand (request.head?.toList.map (List.map toUpper) ++ request.tail) name
          return some command := by
  cases request <;> rfl

/-- The commands that leave everything but one database as it is. -/
def CommandName.local : CommandName → Bool
  | .server _ => false
  | .cli .showAll => true
  | .cli _ => false
  | _ => true

/-- A request that names no command has no effect at all. -/
def Request.local (request : Request) : Bool := (commandOf request).all CommandName.local

namespace Command

/-- What is left of the database a command works on. -/
def result (env : Env) (command : Command) (db : Db) : Except Fault Db :=
  if command.valid then (command.onDb env db).map Prod.fst else .ok db

theorem result_cases {command : Command} (returned : command.result env db = .ok db') :
    db' = db ∨ command.valid = true ∧
      ∃ reply timer, command.onDb env db = .ok (db', reply, timer) := by
  rw [result] at returned
  split at returned
  · rename_i valid
    cases ran : command.onDb env db with
    | error fault =>
        rw [ran] at returned
        cases returned
    | ok result =>
        rw [ran] at returned
        cases returned
        exact Or.inr ⟨valid, _, _, rfl⟩
  · cases returned
    exact Or.inl rfl

/-- The family and the name of a command. -/
def isLocal : Command → Bool
  | .server _ => false
  | .cli c => c.command == .showAll
  | _ => true

theorem isLocal_of_toCommand {name : CommandName} {command : Command} (lone : name.local = true)
    (made : toCommand request name = .ok command) : command.isLocal = true := by
  cases name with
  | server name => cases lone
  | cli name =>
      cases made
      cases name with
      | showAll => rfl
      | select | create => cases lone
  | db name | str name | list name | hash name | set name | zset name =>
      cases made
      rfl

end Command

namespace Db

/-- A request executed on the database of its client. -/
def handle (env : Env) (db : Db) (request : Request) : Except Fault Db := do
  match ← requestToCommandExec request with
  | none => return db
  | some command => command.result env db

def serve (env : Env) (db : Db) (requests : List Request) : Except Fault Db :=
  requests.foldlM (handle env) db

theorem number_handle (handled : db.handle env request = .ok db') : db'.number = db.number := by
  obtain ⟨parsed, -, executed⟩ := bind_eq_ok.mp handled
  cases parsed with
  | none =>
      cases executed
      rfl
  | some command =>
      rcases Command.result_cases executed with rfl | ⟨-, reply, timer, ran⟩
      · rfl
      · exact Command.number_onDb ran

theorem number_serve {requests : List Request} (served : db.serve env requests = .ok db') :
    db'.number = db.number := by
  induction requests generalizing db with
  | nil =>
      cases served
      rfl
  | cons request requests ih =>
      obtain ⟨next, handled, rest⟩ := bind_eq_ok.mp served
      rw [ih rest, number_handle handled]

theorem serve_append (env : Env) (db : Db) (first second : List Request) :
    db.serve env (first ++ second) = db.serve env first >>= fun db => db.serve env second :=
  List.foldlM_append

end Db

namespace Server

theorem execValid_server (attached : server.clients client = some index)
    (there : server.databases[index]? = some db) (valid : Bool)
    (run : Db → Except Fault (Db × Reply × Option ExpireTimer)) :
    (server.execValid client valid run).map Outcome.server =
      (if valid then (run db).map Prod.fst else .ok db).map (server.setDatabase index) := by
  cases valid with
  | false => exact congrArg Except.ok (setDatabase_same there).symm
  | true =>
      simp only [execValid, ↓reduceIte, onClientDb, attached, there]
      cases run db with
      | error fault => rfl
      | ok result => rfl

theorem exec_local (env : Env) {server : Server} {client index : Nat} {db : Db}
    (attached : server.clients client = some index)
    (there : server.databases[index]? = some db) {command : Command}
    (lone : command.isLocal = true) :
    (command.exec env server client).map Outcome.server =
      (command.result env db).map (server.setDatabase index) := by
  have same := setDatabase_same there
  cases command with
  | server c => cases lone
  | cli c =>
      have name : c.command = .showAll := beq_iff_eq.mp lone
      have unchanged : (Command.cli c).result env db = .ok db := ite_self _
      rw [unchanged]
      refine Eq.trans ?_ (congrArg Except.ok same.symm)
      rw [Command.exec, execCli]
      split
      · rfl
      · simp only [name, attached, Except.map]
  | db c =>
      rw [Command.exec]
      split
      · rename_i name
        have unchanged : (Command.db c).result env db = .ok db := by
          simp only [Command.result, Command.onDb, DbCommand.exec, name, Except.map, ite_self]
        rw [unchanged, attached]
        exact congrArg Except.ok same.symm
      · exact execValid_server attached there _ _
  | str c | list c | hash c | set c | zset c => exact execValid_server attached there _ _

/-- A local request, from the server's side and from the database's. -/
theorem handle_local (attached : server.clients client = some index)
    (there : server.databases[index]? = some db) (lone : request.local = true) :
    server.handle env client request = (db.handle env request).map (server.setDatabase index) := by
  have unchanged : Except.ok server = (Except.ok db).map (server.setDatabase index) :=
    congrArg (Except.ok (ε := Fault)) (setDatabase_same there).symm
  rw [handle, Db.handle, requestToCommandExec_eq]
  rw [Request.local] at lone
  cases named : commandOf request with
  | none => exact unchanged
  | some name =>
      rw [named] at lone
      dsimp only
      cases made : toCommand (request.head?.toList.map (List.map toUpper) ++ request.tail) name with
      | error fault => rfl
      | ok command =>
          have executed := exec_local env attached there
            (Command.isLocal_of_toCommand lone made)
          simp only [ok_bind, pure_eq_ok]
          rw [← executed]
          cases command.exec env server client with
          | error fault => rfl
          | ok outcome => rfl

theorem serve_local (env : Env) (attached : server.clients client = some index)
    (there : server.databases[index]? = some db) {requests : List Request}
    (lone : ∀ request ∈ requests, Request.local request = true) :
    server.serve env client requests = (db.serve env requests).map (server.setDatabase index) := by
  induction requests generalizing server db with
  | nil => exact congrArg Except.ok (setDatabase_same there).symm
  | cons request requests ih =>
      have inside := (List.getElem?_eq_some_iff.mp there).1
      rw [serve, Db.serve, List.foldlM_cons, List.foldlM_cons,
        handle_local attached there (lone request List.mem_cons_self)]
      cases db.handle env request with
      | error fault => rfl
      | ok next =>
          have moved : (server.setDatabase index next).databases[index]? = some next :=
            List.getElem?_set_self inside
          have stays : (server.setDatabase index next).clients client = some index := attached
          have rest := ih stays moved fun other member => lone other (List.mem_cons_of_mem _ member)
          rw [serve, Db.serve] at rest
          simp only [Except.map, ok_bind]
          rw [rest]
          cases List.foldlM (Db.handle env) next requests with
          | error fault => rfl
          | ok last => exact congrArg Except.ok (setDatabase_setDatabase server index next last)

/-- The database with a number; one that is not there is as good as empty. -/
def dbOf (server : Server) (number : Int32) : Db :=
  (server.databases.find? fun db => db.number == number).getD ⟨number, Keyed.empty⟩

theorem dbOf_of_getElem (distinct : (server.databases.map Store.number).Nodup)
    (there : server.databases[index]? = some db) : server.dbOf db.number = db := by
  have member := List.mem_of_getElem? there
  have found : (server.databases.find? fun other => other.number == db.number) = some db := by
    refine find?_unique member ?_ ?_
    · exact beq_self_eq_true db.number
    intro other listed same
    exact List.inj_on_of_nodup_map distinct listed member (beq_iff_eq.mp same)
  rw [dbOf, found]
  rfl

theorem dbOf_of_missing {number : Int32} (missing : number ∉ server.databases.map Store.number) :
    server.dbOf number = ⟨number, Keyed.empty⟩ := by
  have none_found : (server.databases.find? fun db => db.number == number) = none := by
    rw [List.find?_eq_none]
    intro db member same
    exact missing (List.mem_map.mpr ⟨db, member, beq_iff_eq.mp same⟩)
  rw [dbOf, none_found]
  rfl

theorem dbOf_setDatabase (distinct : (server.databases.map Store.number).Nodup)
    (there : server.databases[index]? = some db) (number : db'.number = db.number) (other : Int32) :
    (server.setDatabase index db').dbOf other =
      if other = db.number then db' else server.dbOf other := by
  have inside := (List.getElem?_eq_some_iff.mp there).1
  have numbers := numbers_setDatabase there number
  have kept : ((server.setDatabase index db').databases.map Store.number).Nodup :=
    numbers ▸ distinct
  by_cases same : other = db.number
  · rw [if_pos same, same, ← number]
    exact dbOf_of_getElem kept (List.getElem?_set_self inside)
  · rw [if_neg same]
    by_cases listed : other ∈ server.databases.map Store.number
    · obtain ⟨held, member, rfl⟩ := List.mem_map.mp listed
      obtain ⟨position, found⟩ := List.getElem?_of_mem member
      have apart : index ≠ position := by
        rintro rfl
        rw [there] at found
        cases found
        exact same rfl
      have still : (server.setDatabase index db').databases[position]? = some held := by
        rw [setDatabase, List.getElem?_set_ne apart, found]
      rw [dbOf_of_getElem kept still, dbOf_of_getElem distinct found]
    · rw [dbOf_of_missing listed, dbOf_of_missing (numbers ▸ listed)]

/-- What `SELECT` can do: its client is moved, and a database may have been added. -/
structure Selects (server : Server) (client : Nat) (server' : Server) : Prop where
  databases : server'.databases = server.databases ∨ ∃ number,
    number ∉ server.databases.map Store.number ∧
      server'.databases = server.databases ++ [⟨number, Keyed.empty⟩]
  others : ∀ other, other ≠ client → server'.clients other = server.clients other
  attached : server'.clients client ≠ none

theorem Selects.dbOf (selects : server.Selects client server') (number : Int32) :
    server'.dbOf number = server.dbOf number := by
  rcases selects.databases with same | ⟨fresh, -, grown⟩
  · rw [Server.dbOf, Server.dbOf, same]
  · rw [Server.dbOf, Server.dbOf, grown, List.find?_append]
    cases server.databases.find? fun db => db.number == number with
    | some db => rfl
    | none =>
        rw [Option.none_or, List.find?_singleton]
        split
        · rename_i named
          rw [← beq_iff_eq.mp named]
          rfl
        · rfl

theorem Selects.refl (attached : server.clients client ≠ none) : server.Selects client server :=
  ⟨Or.inl rfl, fun _ _ => rfl, attached⟩

theorem select_selects (sound : server.Sound) (password : Bytes) (number : Int32)
    (pswd : Option Bytes) (client : Nat) :
    server.Selects client ((server.select password number pswd).1.attach client
      (server.select password number pswd).2.1 (server.select password number pswd).2.2) := by
  obtain ⟨databases, clients⟩ : ((server.select password number pswd).1.databases =
      server.databases ∨ ∃ fresh, fresh ∉ server.databases.map Store.number ∧
        (server.select password number pswd).1.databases =
          server.databases ++ [⟨fresh, Keyed.empty⟩]) ∧
      (server.select password number pswd).1.clients = server.clients := by
    rw [select]
    split
    · obtain ⟨databases, clients, -⟩ := suGetDb_databases sound.numbered number
      exact ⟨databases.imp_right fun grown => ⟨number, grown⟩, clients⟩
    · exact ⟨Or.inl rfl, rfl⟩
  refine ⟨databases, ?_, ?_⟩
  · intro other apart
    exact (Function.update_of_ne apart _ _).trans (congrFun clients other)
  · change Function.update (server.select password number pswd).1.clients client
      (some (server.select password number pswd).2.1) client ≠ none
    rw [Function.update_self]
    exact Option.some_ne_none _

theorem handle_cli {name : CliName} (named : commandOf request = some (.cli name)) :
    server.handle env client request = (server.execCli env client (jsonToCliCommand name
      (request.head?.toList.map (List.map toUpper) ++ request.tail))).map Outcome.server := by
  rw [handle, requestToCommandExec_eq, named]
  change (server.execCli env client _ >>= fun outcome => .ok outcome.server) = _
  cases server.execCli env client _ <;> rfl

/-- A `SELECT` that returns. -/
theorem handle_select (sound : server.Sound) (attached : server.clients client = some index)
    (named : commandOf request = some (.cli .select))
    (handled : server.handle env client request = .ok server') : server.Selects client server' := by
  have stays : server.clients client ≠ none := by
    rw [attached]
    exact nofun
  rw [handle_cli named] at handled
  cases executed : server.execCli env client (jsonToCliCommand .select
      (request.head?.toList.map (List.map toUpper) ++ request.tail)) with
  | error fault =>
      rw [executed] at handled
      cases handled
  | ok outcome =>
      rw [executed] at handled
      cases handled
      rw [execCli, jsonToCliCommand_command] at executed
      split at executed
      · cases executed
        exact Selects.refl stays
      · obtain ⟨intval, -, returned⟩ := bind_eq_ok.mp executed
        cases intval with
        | none =>
            cases returned
            exact Selects.refl stays
        | some number =>
            simp only [attached] at returned
            cases returned
            exact select_selects sound _ _ _ _

theorem select_returns (env : Env) (server : Server) (client : Nat)
    (named : commandOf request = some (.cli .select))
    (fits : ∀ number ∈ request[1]?, ¬ Oversized number) :
    ∃ server', server.handle env client request = .ok server' := by
  rw [handle_cli named, ← not_raises_iff, raises_map, execCli_select_raises]
  rintro ⟨number, second, oversized⟩
  cases request with
  | nil => cases second
  | cons first rest => exact fits number second oversized

/-- The request that `ExportAOF` and `Fork` begin with brings the client into the database
with the number. -/
theorem handle_selectRequest (word : Word env.password) (sound : server.Sound)
    (attached : server.clients client = some index) {number : Int32} (unsigned : 0 ≤ number) :
    ∃ server', server.handle env client (selectRequest number env.password) = .ok server' ∧
      server.Selects client server' ∧ ∃ index db, server'.clients client = some index ∧
        server'.databases[index]? = some db ∧ db.number = number := by
  have words : selectRequest number env.password =
      [bytes "SELECT", toStringInt number, env.password] := by
    have shape : bytes "SELECT " = bytes "SELECT" ++ [space] := rfl
    rw [selectRequest, shape, List.append_assoc, List.singleton_append,
      rawCommandToRequest_word_separator (by decide) isTokenMember_space,
      rawCommandToRequest_word_separator (word_toStringInt unsigned) isTokenMember_space,
      rawCommandToRequest_word word]
  have taken : server.select env.password number (some env.password) = server.suGetDb number :=
    if_pos rfl
  have handled : server.handle env client (selectRequest number env.password) =
      .ok ((server.suGetDb number).1.attach client (server.suGetDb number).2.1
        (server.suGetDb number).2.2) := by
    rw [words, handle_cli rfl]
    change Except.map _ (redisStrToInt (toStringInt number) >>= _) = _
    rw [redisStrToInt_toStringInt unsigned, ok_bind]
    simp only [attached]
    rw [← taken]
    rfl
  obtain ⟨-, -, db, there, named⟩ := suGetDb_databases sound.numbered number
  refine ⟨_, handled, ?_, (server.suGetDb number).2.1, db, ?_, there, named⟩
  · rw [← taken]
    exact select_selects sound _ _ _ _
  · exact Function.update_self _ _ _

end Server

/- The clock and `std::rand()` only show in replies. -/

namespace Db

theorem execOn_fst {α : Type} (db : Db) (kind : ObjectKind α) (key : Bytes) (creates : Bool)
    {method method' : α → Except Fault (α × Reply)}
    (same : ∀ value, (method value).map Prod.fst = (method' value).map Prod.fst) :
    (db.execOn kind key creates method).map Prod.fst =
      (db.execOn kind key creates method').map Prod.fst := by
  have written (store : α → Db) (value : α) :
      (method value >>= fun result => (.ok (store result.1, result.2) :
        Except Fault (Db × Reply))).map Prod.fst =
      (method' value >>= fun result => (.ok (store result.1, result.2) :
        Except Fault (Db × Reply))).map Prod.fst := by
    have result := same value
    cases first : method value with
    | error fault =>
        cases second : method' value with
        | error other =>
            rw [first, second] at result
            cases result
            rfl
        | ok pair =>
            rw [first, second] at result
            cases result
    | ok pair =>
        cases second : method' value with
        | error other =>
            rw [first, second] at result
            cases result
        | ok pair' =>
            rw [first, second] at result
            exact congrArg (fun value => Except.ok (store value)) (Except.ok.inj result)
  rw [execOn, execOn]
  cases db.get key with
  | none =>
      cases creates with
      | true =>
          exact written (fun value => (db.newObject key (kind.wrap kind.fresh)).store key
            (kind.wrap value)) kind.fresh
      | false => rfl
  | some object =>
      dsimp only
      cases kind.unwrap object with
      | none => rfl
      | some value => exact written (fun value => db.store key (kind.wrap value)) value

end Db

theorem SetCommand.onSet_fst (random random' : Nat) (get : Bytes → Option Object) (c : SetCommand)
    (st : StrSet) :
    (onSet random get c st).map Prod.fst = (onSet random' get c st).map Prod.fst := by
  unfold onSet
  cases c.command <;> rfl

theorem Command.result_env (env env' : Env) (command : Command) (db : Db) :
    command.result env db = command.result env' db := by
  have same : (command.onDb env db).map Prod.fst = (command.onDb env' db).map Prod.fst := by
    cases command with
    | server c | cli c | str c | list c | hash c | zset c => rfl
    | set c =>
        refine (untimed_fst _).trans (Eq.trans ?_ (untimed_fst _).symm)
        exact db.execOn_fst .set _ _ fun st => SetCommand.onSet_fst _ _ _ c st
    | db c =>
        simp only [onDb, DbCommand.exec]
        cases c.command <;> rfl
  rw [result, result, same]

theorem Db.handle_env (env env' : Env) (db : Db) (request : Request) :
    db.handle env request = db.handle env' request := by
  simp only [Db.handle, Command.result_env env env']

end ForkRedis
