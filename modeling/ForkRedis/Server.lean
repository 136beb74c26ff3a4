import ForkRedis.Exec
import ForkRedis.Fork

set_option autoImplicit false

/- The server: its databases, the clients attached to them, and `Exec` of every
command. -/
namespace ForkRedis

open Decimal Lists

/-- How the system calls of `FORK` end. -/
inductive Network where
  | noSocket
  | noConnection
  | noWrite
  | done
  deriving DecidableEq, Repr

/-- What a command reads of the world: the clock, `std::rand()`, the configuration, the
network, and whatever an unassigned `port_` holds. -/
structure Env where
  now : UInt64
  random : Nat
  password : Bytes
  enableAof : Bool
  network : Network
  unassigned : Int16

inductive Timer where
  | expire (database : Nat) (timer : ExpireTimer)
  | rewrite (cache : Bytes)
  deriving DecidableEq

/-- A `Db *` is the position in `databases_`, which only grows at its end. `num_hash` is
kept as the numbers it marks. A client that is gone has no database. -/
structure Server where
  databases : List Db
  numHash : List Int32
  numberSource : Int32
  clients : Nat → Option Nat
  filled : 0 < databases.length
  attached : ∀ client index, clients client = some index → index < databases.length

/-- The first number from `n` on that is not marked. -/
def unusedNumber (numHash : List Int32) : Nat → Int32 → Int32
  | 0, n => n
  | rounds + 1, n => if n ∈ numHash then unusedNumber numHash rounds (n + 1) else n

namespace Server

def initial : Server where
  databases := [⟨0, Keyed.empty⟩]
  numHash := [0]
  numberSource := 0
  clients := fun _ => none
  filled := Nat.one_pos
  attached := fun _ _ absent => nomatch absent

/-- A client's next event finds it without a database, and `Run` gives it the first. -/
def attach (server : Server) (client index : Nat) (inside : index < server.databases.length) :
    Server where
  databases := server.databases
  numHash := server.numHash
  numberSource := server.numberSource
  clients := Function.update server.clients client (some index)
  filled := server.filled
  attached := by
    intro other position
    rw [Function.update_apply]
    split
    · intro same
      cases same
      exact inside
    · exact server.attached other position

/-- `RemoveCli`. -/
def detach (server : Server) (client : Nat) : Server where
  databases := server.databases
  numHash := server.numHash
  numberSource := server.numberSource
  clients := Function.update server.clients client none
  filled := server.filled
  attached := by
    intro other position
    rw [Function.update_apply]
    split
    · intro absent
      cases absent
    · exact server.attached other position

def setDatabase (server : Server) (index : Nat) (db : Db) : Server where
  databases := server.databases.set index db
  numHash := server.numHash
  numberSource := server.numberSource
  clients := server.clients
  filled := by
    rw [List.length_set]
    exact server.filled
  attached := by
    intro client position attached
    rw [List.length_set]
    exact server.attached client position attached

theorem setDatabase_same {server : Server} {index : Nat} {db : Db}
    (there : server.databases[index]? = some db) : server.setDatabase index db = server := by
  have same : server.databases.set index db = server.databases := by
    obtain ⟨inside, rfl⟩ := List.getElem?_eq_some_iff.mp there
    exact List.set_getElem_self inside
  cases server
  simp only [setDatabase] at same ⊢
  simp only [same]

theorem setDatabase_setDatabase (server : Server) (index : Nat) (first second : Db) :
    (server.setDatabase index first).setDatabase index second = server.setDatabase index second := by
  simp only [setDatabase, List.set_set]

/-- A new database at the end of the list, and its number marked. -/
def addDatabase (server : Server) (number numberSource : Int32) : Server where
  databases := server.databases ++ [⟨number, Keyed.empty⟩]
  numHash := number :: server.numHash
  numberSource := numberSource
  clients := server.clients
  filled := by
    rw [List.length_append]
    exact Nat.add_pos_left server.filled 1
  attached := by
    intro client position attached
    rw [List.length_append]
    exact Nat.lt_add_right 1 (server.attached client position attached)

/-- The position of the database with a number. -/
def find (server : Server) (number : Int32) : Option Nat :=
  server.databases.findIdx? fun db => db.number == number

theorem find_lt {server : Server} {number : Int32} {index : Nat}
    (found : server.find number = some index) : index < server.databases.length := by
  rw [find, List.findIdx?_eq_some_iff_getElem] at found
  exact found.1

/-- `GetDB` falls back to the first database. -/
def getDb (server : Server) (number : Int32) : { index // index < server.databases.length } :=
  match found : server.find number with
  | some index => ⟨index, find_lt found⟩
  | none => ⟨0, server.filled⟩

/-- `SuGetDB` creates the database that is missing. -/
def suGetDb (server : Server) (number : Int32) :
    (server : Server) × { index // index < server.databases.length } :=
  match found : server.find number with
  | some index => ⟨server, index, find_lt found⟩
  | none =>
      let unused := unusedNumber server.numHash (server.numHash.length + 1) number
      ⟨server.addDatabase unused server.numberSource, server.databases.length, by
        rw [addDatabase, List.length_append]
        exact Nat.lt_add_one _⟩

/-- The database `SELECT` brings a client into. -/
def select (password : Bytes) (server : Server) (number : Int32) (pswd : Option Bytes) :
    (server : Server) × { index // index < server.databases.length } :=
  if pswd = some password then server.suGetDb number else ⟨server, server.getDb number⟩

/-- The number of a new database, unless there are sixteen already. -/
def createDb (server : Server) : Option (Server × Int32) :=
  if 16 ≤ server.databases.length then none
  else
    let unused := unusedNumber server.numHash (server.numHash.length + 1) server.numberSource
    some (server.addDatabase unused unused, unused)

def showDb (server : Server) : Bytes :=
  server.databases.flatMap fun db => toStringInt db.number ++ bytes "|"

def numberAt (server : Server) (index : Nat) : Bytes :=
  match server.databases[index]? with
  | none => []
  | some db => toStringInt db.number

end Server

/-- What `Exec` leaves behind: the server, the reply, and the timers handed to the
timer queue. No reply is sent to a client that is gone. -/
structure Outcome where
  server : Server
  reply : Option Reply
  timers : List Timer

namespace Server

/-- A command on the database its client is in. -/
def onClientDb (server : Server) (client : Nat)
    (run : Db → Except Fault (Db × Reply × Option ExpireTimer)) : Except Fault Outcome :=
  match server.clients client with
  | none => .ok ⟨server, none, []⟩
  | some index =>
      match server.databases[index]? with
      | none => .error .undefined
      | some db => do
          let (db, reply, timer) ← run db
          return ⟨server.setDatabase index db, some reply, timer.toList.map (Timer.expire index)⟩

def execCli (env : Env) (server : Server) (client : Nat) (c : CliCommand) :
    Except Fault Outcome :=
  if !c.valid then .ok ⟨server, some refused, []⟩
  else
    match c.command with
    | .select => do
        let intval ← redisStrToInt c.objName
        match intval with
        | none => return ⟨server, some refused, []⟩
        | some number =>
            match server.clients client with
            | none => return ⟨server, none, []⟩
            | some _ =>
                let target := server.select env.password number c.pswd
                return ⟨target.1.attach client target.2.1 target.2.2,
                  some [bytes "Select: " ++ target.1.numberAt target.2.1], []⟩
    | .showAll =>
        match server.clients client with
        | none => .ok ⟨server, none, []⟩
        | some index => .ok ⟨server, some [server.numberAt index, server.showDb], []⟩
    | .create =>
        match server.clients client with
        | none => .ok ⟨server, none, []⟩
        | some _ =>
            match server.createDb with
            | none => .ok ⟨server, some refused, []⟩
            | some (server, number) =>
                .ok ⟨server, some (if number = -1 then refused else [toStringInt number]), []⟩

def execServer (env : Env) (server : Server) (client : Nat) (c : ServerCommand) : Outcome :=
  match server.clients client with
  | none => ⟨server, none, []⟩
  | some _ =>
      match c.command with
      | some .fork =>
          let address := c.ip ++ (colon :: toStringInt (c.port.getD env.unassigned).toInt32)
          match env.network with
          | .noSocket => ⟨server, some refused, []⟩
          | .noConnection => ⟨server, some [bytes "Connect faied: " ++ address], []⟩
          | .noWrite => ⟨server, some [bytes "Write Error"], []⟩
          | .done => ⟨server, some okReply, []⟩
      | some .endForking => ⟨server.detach client, some refused, []⟩
      | none => ⟨server, some okReply, []⟩

/-- `DatabaseForkAll` for the rewrite timer, if there is a log at all. -/
def rewriteTimers (env : Env) (server : Server) : List Timer :=
  if env.enableAof then
    [.rewrite (bytes "AOF" ++ databaseForkAll env.password server.databases)]
  else []

/-- The five `Exec` on objects, and those of `DbCommand` on one database. -/
def execValid (server : Server) (client : Nat) (valid : Bool)
    (run : Db → Except Fault (Db × Reply × Option ExpireTimer)) : Except Fault Outcome :=
  if valid then server.onClientDb client run else .ok ⟨server, some refused, []⟩

end Server

/-- A result without a timer. -/
def untimed (result : Except Fault (Db × Reply)) : Except Fault (Db × Reply × Option ExpireTimer) :=
  result.map fun (db, reply) => (db, reply, none)

theorem untimed_fst (result : Except Fault (Db × Reply)) :
    (untimed result).map Prod.fst = result.map Prod.fst := by
  cases result <;> rfl

namespace Command

/-- What a command does to the one database it works on. -/
def onDb (env : Env) : Command → Db → Except Fault (Db × Reply × Option ExpireTimer)
  | .db c => DbCommand.exec env.now c
  | .str c => fun db => untimed (StrCommand.exec c db)
  | .list c => fun db => untimed (ListCommand.exec c db)
  | .hash c => fun db => untimed (HashCommand.exec c db)
  | .set c => fun db => untimed (SetCommand.exec env.random c db)
  | .zset c => fun db => untimed (ZSetCommand.exec c db)
  | .server _ | .cli _ => fun db => .ok (db, [], none)

/-- `valid_`, of the commands that look at it. -/
def valid : Command → Bool
  | .server _ => true
  | .cli c => c.valid
  | .db c => c.valid
  | .str c => c.valid
  | .list c => c.valid
  | .hash c => c.valid
  | .set c => c.valid
  | .zset c => c.valid

/-- `Exec`. -/
def exec (env : Env) (server : Server) (client : Nat) (command : Command) :
    Except Fault Outcome :=
  match command with
  | .server c => .ok (server.execServer env client c)
  | .cli c => server.execCli env client c
  | .db c =>
      if c.command = .rewrite then
        match server.clients client with
        | none => .ok ⟨server, none, []⟩
        | some _ => .ok ⟨server, some okReply, server.rewriteTimers env⟩
      else server.execValid client command.valid (command.onDb env)
  | .str _ | .list _ | .hash _ | .set _ | .zset _ =>
      server.execValid client command.valid (command.onDb env)

end Command

namespace Server

/-- A request read from a client and executed. -/
def handle (env : Env) (client : Nat) (server : Server) (request : Request) :
    Except Fault Server := do
  match ← requestToCommandExec request with
  | none => return server
  | some command =>
      let outcome ← command.exec env server client
      return outcome.server

/-- Requests of one client, executed in order. -/
def serve (env : Env) (client : Nat) (server : Server) (requests : List Request) :
    Except Fault Server :=
  requests.foldlM (handle env client) server

end Server

end ForkRedis
