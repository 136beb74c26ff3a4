import ForkRedis.Handler

set_option autoImplicit false

/- Requests wait in a queue between the thread that reads them and the thread that
executes them. Each comes to its turn once and in order, and it takes effect if its client
is still there. -/
namespace ForkRedis

open Lists Fallible Machine Json11

variable {env : Env} {server base ideal : Server} {client : Nat} {outcome : Outcome}
  {h after : Handler}

namespace Server

/-- What `Exec` does to the clients: its own is answered if it is there, stays unless it
leaves, and does not come back if it is gone; no other client is touched. -/
structure Serves (server : Server) (client : Nat) (leaves : Bool) (outcome : Outcome) :
    Prop where
  others : ∀ other, other ≠ client → outcome.server.clients other = server.clients other
  gone : server.clients client = none → outcome.server.clients client = none
  stays : leaves = false → server.clients client ≠ none → outcome.server.clients client ≠ none
  answered : server.clients client ≠ none → outcome.reply ≠ none

theorem Serves.same {server after : Server} (same : after.clients = server.clients) (leaves : Bool)
    {reply : Option Reply} (answered : server.clients client ≠ none → reply ≠ none)
    (timers : List Timer) : server.Serves client leaves ⟨after, reply, timers⟩ := by
  refine ⟨fun other _ => ?_, fun gone => ?_, fun _ there => ?_, answered⟩
  · rw [same]
  · rw [same]
    exact gone
  · rw [same]
    exact there

theorem Serves.absent {server : Server} {client : Nat} (absent : server.clients client = none)
    (leaves : Bool) (timers : List Timer) :
    server.Serves client leaves ⟨server, none, timers⟩ :=
  .same rfl leaves (fun there => absurd absent there) timers

theorem Serves.replied {server after : Server} (client : Nat) (leaves : Bool) (reply : Reply)
    (timers : List Timer) (same : after.clients = server.clients) :
    server.Serves client leaves ⟨after, some reply, timers⟩ :=
  .same same leaves (fun _ => Option.some_ne_none reply) timers

theorem select_clients (server : Server) (password : Bytes) (number : Int32)
    (pswd : Option Bytes) : (server.select password number pswd).1.clients = server.clients := by
  rw [select]
  split
  · rw [suGetDb]
    split <;> rfl
  · rfl

theorem execCli_serves {c : CliCommand} (executed : server.execCli env client c = .ok outcome) :
    server.Serves client false outcome := by
  rcases execCli_cases executed with ⟨reply, answered, rfl⟩ | ⟨number, index, there, rfl⟩ |
    ⟨after, number, created, rfl⟩
  · exact .same rfl false answered []
  · refine ⟨fun other differs => ?_, fun gone => ?_, fun _ _ => ?_, fun _ =>
      Option.some_ne_none _⟩
    · rw [← server.select_clients env.password number c.pswd]
      exact Function.update_of_ne differs ..
    · rw [there] at gone
      cases gone
    · simp only [attach, Function.update_self]
      exact Option.some_ne_none _
  · obtain ⟨-, rfl, -⟩ := createDb_some created
    exact .replied client false _ _ rfl

end Server

/-- `ENDFORKING`. -/
def ServerCommand.leaves (c : ServerCommand) : Bool := c.command == some .endForking

def Command.leaves : Command → Bool
  | .server c => c.leaves
  | _ => false

namespace Server

theorem execServer_serves (env : Env) (server : Server) (client : Nat) (c : ServerCommand) :
    server.Serves client c.leaves (server.execServer env client c) := by
  obtain ⟨reply, answered, same | ⟨there, name, left⟩⟩ := server.execServer_cases env client c
  · exact same ▸ .same rfl c.leaves answered []
  · rw [left]
    refine ⟨fun other differs => Function.update_of_ne differs .., fun gone => absurd gone there,
      fun stays => ?_, answered⟩
    rw [ServerCommand.leaves, name] at stays
    cases stays

theorem exec_serves {command : Command} (executed : command.exec env server client = .ok outcome) :
    server.Serves client command.leaves outcome := by
  rcases Command.exec_cases executed with ⟨c, rfl, rfl⟩ | ⟨c, rfl, returned⟩ | ⟨same, answered, -⟩ |
    ⟨-, index, db, db', reply, timer, -, -, -, rfl⟩
  · exact server.execServer_serves env client c
  · exact execCli_serves returned
  · exact .same (congrArg Server.clients same) command.leaves answered outcome.timers
  · exact .replied client command.leaves _ _ rfl

theorem update_clients (server : Server) (u : Nat × Update) :
    (server.update u).clients = server.clients := by
  rw [update]
  split <;> rfl

/-- The same databases and the same numbers in use; the clients may differ. -/
structure SameData (server server' : Server) : Prop where
  databases : server.databases = server'.databases
  numHash : server.numHash = server'.numHash
  numberSource : server.numberSource = server'.numberSource

theorem getDb_val (server : Server) (number : Int32) :
    (server.getDb number).1 = (server.find number).getD 0 := by
  rw [getDb]
  split
  · rename_i found
    simp only [found, Option.getD_some]
  · rename_i missing
    simp only [missing, Option.getD_none]

theorem suGetDb_found {number : Int32} {index : Nat} (found : server.find number = some index) :
    (server.suGetDb number).1 = server ∧ (server.suGetDb number).2.1 = index := by
  unfold suGetDb
  split
  · rename_i other there
    cases found.symm.trans there
    exact ⟨rfl, rfl⟩
  · rename_i missing
    cases found.symm.trans missing

theorem suGetDb_missing {number : Int32} (missing : server.find number = none) :
    (server.suGetDb number).1 = server.addDatabase
        (unusedNumber server.numHash (server.numHash.length + 1) number) server.numberSource ∧
      (server.suGetDb number).2.1 = server.databases.length := by
  unfold suGetDb
  split
  · rename_i found
    cases missing.symm.trans found
  · exact ⟨rfl, rfl⟩

namespace SameData

variable {server server' : Server}

theorem find (same : SameData server server') (number : Int32) :
    server.find number = server'.find number := by
  rw [Server.find, Server.find, same.databases]

theorem setDatabase (same : SameData server server') (index : Nat) (db : Db) :
    SameData (server.setDatabase index db) (server'.setDatabase index db) := by
  refine ⟨?_, same.numHash, same.numberSource⟩
  simp only [Server.setDatabase, same.databases]

theorem addDatabase (same : SameData server server') (number source : Int32) :
    SameData (server.addDatabase number source) (server'.addDatabase number source) := by
  refine ⟨?_, ?_, rfl⟩
  · simp only [Server.addDatabase, same.databases]
  · simp only [Server.addDatabase, same.numHash]

theorem update (same : SameData server server') (u : Nat × Update) :
    SameData (server.update u) (server'.update u) := by
  rw [Server.update, Server.update, same.databases]
  cases server'.databases[u.1]? with
  | none => exact same
  | some db => exact same.setDatabase u.1 (u.2.apply db)

theorem suGetDb (same : SameData server server') (number : Int32) :
    SameData (server.suGetDb number).1 (server'.suGetDb number).1 ∧
      (server.suGetDb number).2.1 = (server'.suGetDb number).2.1 := by
  cases found : server.find number with
  | none =>
      obtain ⟨added, position⟩ := suGetDb_missing found
      obtain ⟨added', position'⟩ := suGetDb_missing ((same.find number).symm.trans found)
      constructor
      · rw [added, added', same.numHash, same.numberSource]
        exact same.addDatabase _ _
      · rw [position, position', same.databases]
  | some index =>
      obtain ⟨kept, position⟩ := suGetDb_found found
      obtain ⟨kept', position'⟩ := suGetDb_found ((same.find number).symm.trans found)
      constructor
      · rw [kept, kept']
        exact same
      · rw [position, position']

theorem select (same : SameData server server') (password : Bytes) (number : Int32)
    (pswd : Option Bytes) :
    SameData (server.select password number pswd).1 (server'.select password number pswd).1 ∧
      (server.select password number pswd).2.1 = (server'.select password number pswd).2.1 := by
  by_cases known : pswd = some password
  · have creates (server : Server) : server.select password number pswd = server.suGetDb number :=
      if_pos known
    rw [creates, creates]
    exact same.suGetDb number
  · have looks (server : Server) :
        server.select password number pswd = ⟨server, server.getDb number⟩ := if_neg known
    rw [looks, looks]
    refine ⟨same, ?_⟩
    rw [getDb_val, getDb_val, same.find]

end SameData

/-- The same data, and a client that is in the same place. -/
structure Agrees (client : Nat) (server server' : Server) : Prop extends
    SameData server server' where
  place : server.clients client = server'.clients client

namespace Agrees

variable {client : Nat} {server server' : Server}

theorem execValid (agrees : Agrees client server server') {valid : Bool}
    {run : Db → Except Fault (Db × Reply × Option ExpireTimer)} {outcome' : Outcome}
    (executed : server'.execValid client valid run = .ok outcome') :
    ∃ outcome, server.execValid client valid run = .ok outcome ∧
      Agrees client outcome.server outcome'.server := by
  rw [Server.execValid] at executed ⊢
  split at executed
  · rename_i accepted
    rw [if_pos accepted]
    rcases onClientDb_cases executed with
      ⟨gone, rfl⟩ | ⟨index, db, db', reply, timer, there, found, ran, rfl⟩
    · refine ⟨⟨server, none, []⟩, ?_, agrees⟩
      simp only [onClientDb, agrees.place, gone]
    · refine ⟨⟨server.setDatabase index db', some reply, timer.toList.map (Timer.expire index)⟩, ?_,
        agrees.setDatabase index db', agrees.place⟩
      simp only [onClientDb, agrees.place, there, agrees.databases, found, ran, ok_bind, pure_eq_ok]
  · rename_i rejected
    cases executed
    rw [if_neg rejected]
    exact ⟨_, rfl, agrees⟩

theorem execCli (agrees : Agrees client server server') {c : CliCommand} {outcome' : Outcome}
    (executed : server'.execCli env client c = .ok outcome') :
    ∃ outcome, server.execCli env client c = .ok outcome ∧
      Agrees client outcome.server outcome'.server := by
  unfold Server.execCli at executed ⊢
  by_cases rejected : (!c.valid) = true
  · simp only [rejected, ↓reduceIte] at executed ⊢
    cases executed
    exact ⟨_, rfl, agrees⟩
  simp only [rejected, Bool.false_eq_true, ↓reduceIte, agrees.place] at executed ⊢
  cases name : c.command with
  | select =>
      simp only [name] at executed ⊢
      obtain ⟨intval, converted, executed⟩ := bind_eq_ok.mp executed
      simp only [converted, ok_bind]
      cases intval with
      | none =>
          cases executed
          exact ⟨_, rfl, agrees⟩
      | some number =>
          cases place : server'.clients client with
          | none =>
              simp only [place] at executed ⊢
              cases executed
              exact ⟨_, rfl, agrees⟩
          | some index =>
              simp only [place] at executed ⊢
              cases executed
              obtain ⟨data, position⟩ := agrees.select env.password number c.pswd
              refine ⟨_, rfl, ⟨data.databases, data.numHash, data.numberSource⟩, ?_⟩
              simp only [attach, Function.update_self, position]
  | showAll =>
      simp only [name] at executed ⊢
      cases place : server'.clients client with
      | none | some index =>
          simp only [place] at executed ⊢
          cases executed
          exact ⟨_, rfl, agrees⟩
  | create =>
      simp only [name] at executed ⊢
      cases place : server'.clients client with
      | none =>
          simp only [place] at executed ⊢
          cases executed
          exact ⟨_, rfl, agrees⟩
      | some index =>
          by_cases full : 16 ≤ server'.databases.length
          · simp only [place, createDb, agrees.databases, full, ↓reduceIte] at executed ⊢
            cases executed
            exact ⟨_, rfl, agrees⟩
          · simp only [place, createDb, agrees.databases, agrees.numHash, agrees.numberSource, full,
              ↓reduceIte] at executed ⊢
            cases executed
            exact ⟨_, rfl, agrees.addDatabase _ _, agrees.place⟩

theorem execServer (agrees : Agrees client server server') (env : Env) (c : ServerCommand) :
    Agrees client (server.execServer env client c).server
      (server'.execServer env client c).server := by
  unfold Server.execServer
  rw [agrees.place]
  cases server'.clients client with
  | none => exact agrees
  | some index =>
      cases c.command with
      | none => exact agrees
      | some name =>
          cases name with
          | fork =>
              dsimp only
              cases env.network <;> exact agrees
          | endForking =>
              refine ⟨⟨agrees.databases, agrees.numHash, agrees.numberSource⟩, ?_⟩
              simp only [detach, Function.update_self]

/-- A command of a client that is in the same place does the same. -/
theorem exec (agrees : Agrees client server server') {command : Command} {outcome' : Outcome}
    (executed : command.exec env server' client = .ok outcome') :
    ∃ outcome, command.exec env server client = .ok outcome ∧
      Agrees client outcome.server outcome'.server := by
  cases command with
  | server c =>
      cases executed
      exact ⟨_, rfl, agrees.execServer env c⟩
  | cli c => exact agrees.execCli executed
  | db c =>
      rw [Command.exec] at executed ⊢
      by_cases rewriting : c.command = .rewrite
      · simp only [rewriting, ↓reduceIte, agrees.place] at executed ⊢
        cases place : server'.clients client with
        | none | some index =>
            simp only [place] at executed ⊢
            cases executed
            exact ⟨_, rfl, agrees⟩
      · simp only [rewriting, ↓reduceIte] at executed ⊢
        exact agrees.execValid executed
  | str c | list c | hash c | set c | zset c => exact agrees.execValid executed

end Agrees

end Server

/-- The command a message is turned into, with its client. -/
def recognised (message : Nat × Request) : Option (Nat × Command) :=
  match requestToCommandExec message.2 with
  | .ok (some command) => some (message.1, command)
  | _ => none

def Turn.command : Turn → Option (Nat × Command)
  | .request _ client command _ => some (client, command)
  | .connect _ | .expire _ _ => none

/-- The command that was popped and is not executed yet. -/
def CmdPhase.inHand : CmdPhase → List (Nat × Command)
  | .popped client command => [(client, command)]
  | .idle | .executed _ _ | .appended _ => []

/-- The messages that were exported and are not pushed yet. -/
def IoPhase.unpushed : IoPhase → List (Nat × Request)
  | .pushing client requests => requests.map (Prod.mk client)
  | .idle | .sent _ _ | .enabling _ => []

namespace Server

/-- A turn as it is meant to be: the command of a client is executed whether the client is
there or not. `FORK` and `ENDFORKING` do not touch the databases. -/
def turn (server : Server) : Turn → Except Fault Server
  | .connect client => .ok (server.attach client 0 server.filled)
  | .request _ _ (.server _) _ => .ok server
  | .request env client command _ => (command.exec env server client).map Outcome.server
  | .expire index key => .ok (server.update (index, .erase key))

def intended (server : Server) (turns : List Turn) : Except Fault Server :=
  turns.foldlM turn server

theorem intended_append {server ideal next : Server} {turns : List Turn} {last : Turn}
    (reached : server.intended turns = .ok ideal) (turned : ideal.turn last = .ok next) :
    server.intended (turns ++ [last]) = .ok next := by
  rw [intended] at reached ⊢
  rw [List.foldlM_append, reached, ok_bind, List.foldlM_cons, turned]
  rfl

theorem turn_request {command : Command} (data : ∀ c, command ≠ .server c)
    (executed : command.exec env server client = .ok outcome) (reply : Option Reply) :
    server.turn (.request env client command reply) = .ok outcome.server := by
  rw [turn, executed]
  · rfl
  · exact data

end Server

namespace Handler

/-- The commands that have had their turn. -/
def performed (h : Handler) : List (Nat × Command) := h.turns.filterMap Turn.command

/-- Every recognised message is performed, in the hands of a thread or in the queue, once
and in the order of the messages. -/
def Accounted (h : Handler) : Prop :=
  h.exported.filterMap recognised =
    h.performed ++ (h.cmd.inHand ++ (h.cmdQue ++ h.io.unpushed.filterMap recognised))

theorem start_accounted (server : Server) : (start server).Accounted := rfl

theorem performed_append (h : Handler) (turn : Turn) :
    (h.turns ++ [turn]).filterMap Turn.command = h.performed ++ turn.command.toList := by
  rw [List.filterMap_append, performed]
  cases turn <;> rfl

/-- The messages of a client go from its buffer into the hands of the io thread. -/
theorem Accounted.exportOf (accounted : h.Accounted) (free : h.io = .idle) (client : Nat) :
    (h.exportOf client).Accounted := by
  unfold Accounted at accounted ⊢
  rw [free] at accounted
  change (h.exported ++ (exportMessages (h.connections client).recvBuffer).1.map
    (Prod.mk client)).filterMap recognised = h.performed ++ (h.cmd.inHand ++ (h.cmdQue ++
      ((exportMessages (h.connections client).recvBuffer).1.map (Prod.mk client)).filterMap
        recognised))
  rw [List.filterMap_append, accounted]
  simp only [IoPhase.unpushed, List.filterMap_nil, List.append_nil, List.append_assoc]

theorem next_accounted {event : Event} (accounted : h.Accounted)
    (stepped : h.next event = some after) : after.Accounted := by
  cases next_step stepped with
  | connect =>
      have same : h.accept.performed = h.performed ++ [] := h.performed_append (.connect h.clients)
      rw [List.append_nil] at same
      rw [Accounted, same]
      exact accounted
  | sendNothing thread client sending free live drained
  | sendSome thread client count free live waiting
  | sendFails thread client errno free live alive
  | sendBreaks thread client free live waiting =>
      rw [Accounted, free] at accounted
      exact accounted
  | checkDrained thread client at_ drained calm | checkOther thread client at_ other =>
      rw [Accounted, at_] at accounted
      exact accounted
  | enableRead client at_ | pushEnd client at_ =>
      rw [Accounted, at_] at accounted
      exact accounted
  | readShort thread client data free live =>
      exact Accounted.exportOf (h := h.receive client data) accounted free client
  | readFails thread client data errno free live =>
      exact Accounted.exportOf (h := (h.receive client data).setErrno thread errno) accounted free
        client
  | readClosed thread client data free live | readAgain thread client data free live =>
      exact accounted
  | pushUnknown client request rest at_ parsed =>
      rw [Accounted, at_, IoPhase.unpushed, List.map_cons, List.filterMap_cons_none] at accounted
      · exact accounted
      · simp only [recognised, parsed]
  | push client request rest command at_ parsed =>
      have known : recognised (client, request) = some (client, command) := by
        simp only [recognised, parsed]
      rw [Accounted, at_, IoPhase.unpushed, List.map_cons, List.filterMap_cons_some known,
        ← List.singleton_append, ← List.append_assoc h.cmdQue] at accounted
      exact accounted
  | pop client command rest free queued =>
      rw [Accounted, free, queued] at accounted
      exact accounted
  | exec env client command outcome at_ executed =>
      have more : (h.answer env client command outcome).performed =
          h.performed ++ [(client, command)] :=
        h.performed_append (.request env client command outcome.reply)
      have free : (h.answer env client command outcome).cmd.inHand = [] := by
        rw [answer]
        cases outcome.reply <;> rfl
      rw [Accounted, at_] at accounted
      rw [Accounted, more, free, List.append_assoc]
      exact accounted
  | append client reply at_ live | appendGone client reply at_ gone =>
      rw [Accounted, at_] at accounted
      exact accounted
  | enableSend client at_ =>
      rw [Accounted, at_] at accounted
      exact accounted
  | expire index key inside =>
      have same := h.performed_append (.expire index key)
      rw [Turn.command, Option.toList_none, List.append_nil] at same
      rw [Accounted, performed]
      simp only [same]
      exact accounted

/-- The clients of the requests that wait behind the one that is executed. -/
def behind (h : Handler) : List Nat := h.cmdQue.map Prod.fst ++ h.io.unpushed.map Prod.fst

/-- The clients with a request that has not had its turn. -/
def waiting (h : Handler) : List Nat := h.cmd.inHand.map Prod.fst ++ h.behind

/-- A client does not go while a request of it waits. It goes when `recv` returns 0, when
`send` breaks, and by `ENDFORKING`. -/
def Patient (h : Handler) : Event → Prop
  | .send _ client (.failed .pipe) => client ∉ h.waiting
  | .read _ client _ .closed => client ∉ h.waiting
  | .exec _ => ∀ entry ∈ h.cmd.inHand, entry.2.leaves = true → entry.1 ∉ h.behind
  | _ => True

instance (h : Handler) (event : Event) : Decidable (h.Patient event) := by
  unfold Patient
  split <;> infer_instance

/-- The server that has executed every turn for a client that is still there. -/
structure Tracked (base : Server) (h : Handler) (ideal : Server) : Prop where
  reached : base.intended h.turns = .ok ideal
  data : ideal.SameData h.server
  places : ∀ client, h.server.clients client ≠ none →
    ideal.clients client = h.server.clients client
  present : ∀ client ∈ h.waiting, h.server.clients client ≠ none

theorem start_tracked (base : Server) : Tracked base.alone (start base) base.alone where
  reached := rfl
  data := ⟨rfl, rfl, rfl⟩
  places := fun _ _ => rfl
  present := fun _ member => absurd member List.not_mem_nil

theorem Tracked.frame (tracked : Tracked base h ideal) (server : after.server = h.server)
    (turns : after.turns = h.turns)
    (waits : ∀ client ∈ after.waiting, h.server.clients client ≠ none) :
    Tracked base after ideal := by
  refine ⟨turns ▸ tracked.reached, server ▸ tracked.data, ?_, ?_⟩
  · rw [server]
    exact tracked.places
  · rw [server]
    exact waits

/-- A step that leaves server and turns alone, and no more clients waiting. -/
theorem Tracked.fewer (tracked : Tracked base h ideal) (server : after.server = h.server)
    (turns : after.turns = h.turns) (fewer : ∀ client ∈ after.waiting, client ∈ h.waiting) :
    ∃ ideal', Tracked base after ideal' :=
  ⟨ideal, tracked.frame server turns fun client member =>
    tracked.present client (fewer client member)⟩

theorem Tracked.accept (tracked : Tracked base h ideal) :
    Tracked base h.accept (ideal.attach h.clients 0 ideal.filled) := by
  refine ⟨Server.intended_append tracked.reached rfl,
    ⟨tracked.data.databases, tracked.data.numHash, tracked.data.numberSource⟩, ?_, ?_⟩
  · intro client there
    by_cases new : client = h.clients
    · simp only [Handler.accept, Server.attach, new, Function.update_self]
    · simp only [Handler.accept, Server.attach, Function.update_of_ne new] at there ⊢
      exact tracked.places client there
  · intro client member
    by_cases new : client = h.clients
    · simp only [Handler.accept, Server.attach, new, Function.update_self]
      exact Option.some_ne_none 0
    · simp only [Handler.accept, Server.attach, Function.update_of_ne new]
      exact tracked.present client member

theorem Tracked.logout (tracked : Tracked base h ideal) (idle : client ∉ h.waiting) :
    Tracked base (h.logout client) ideal := by
  have kept : ∀ other, other ≠ client →
      (h.logout client).server.clients other = h.server.clients other :=
    fun other differs => Function.update_of_ne differs ..
  have out : (h.logout client).server.clients client = none := Function.update_self ..
  refine ⟨tracked.reached, ⟨tracked.data.databases, tracked.data.numHash,
    tracked.data.numberSource⟩, fun other there => ?_, fun other member => ?_⟩
  · have differs : other ≠ client := by
      rintro rfl
      exact there out
    rw [kept other differs] at there ⊢
    exact tracked.places other there
  · have differs : other ≠ client := by
      rintro rfl
      exact idle member
    rw [kept other differs]
    exact tracked.present other member

theorem mem_waiting :
    client ∈ h.waiting ↔ client ∈ h.cmd.inHand.map Prod.fst ∨ client ∈ h.cmdQue.map Prod.fst ∨
      client ∈ h.io.unpushed.map Prod.fst := by
  simp only [waiting, behind, List.mem_append]

/-- The messages in the hands of the io thread are those of a client that is there. -/
theorem Tracked.exportOf (tracked : Tracked base h ideal) (live : h.connected client = true) :
    Tracked base (h.exportOf client) ideal := by
  refine tracked.frame rfl rfl fun other member => ?_
  rcases mem_waiting.mp member with hand | queued | pushing
  · exact tracked.present other (mem_waiting.mpr (Or.inl hand))
  · exact tracked.present other (mem_waiting.mpr (Or.inr (Or.inl queued)))
  · obtain ⟨message, listed, rfl⟩ := List.mem_map.mp pushing
    obtain ⟨request, -, rfl⟩ := List.mem_map.mp listed
    exact Option.isSome_iff_ne_none.mp live

/-- A turn of the command thread. -/
theorem Tracked.exec (tracked : Tracked base h ideal) {command : Command}
    (at_ : h.cmd = .popped client command)
    (executed : command.exec env h.server client = .ok outcome)
    (patient : command.leaves = true → client ∉ h.behind) :
    ∃ ideal', Tracked base (h.answer env client command outcome) ideal' := by
  have there : h.server.clients client ≠ none := by
    apply tracked.present
    rw [mem_waiting, at_]
    exact Or.inl List.mem_cons_self
  have free : (h.answer env client command outcome).cmd.inHand = [] := by
    rw [answer]
    cases outcome.reply <;> rfl
  have waits : ∀ other ∈ (h.answer env client command outcome).waiting, other ∈ h.behind := by
    intro other member
    rw [waiting, free] at member
    exact member
  have present : ∀ other ∈ h.behind, h.server.clients other ≠ none :=
    fun other member => tracked.present other (List.mem_append_right _ member)
  have serves := Server.exec_serves executed
  have stays : ∀ other ∈ h.behind, outcome.server.clients other ≠ none := by
    intro other member
    by_cases same : other = client
    · subst same
      refine serves.stays ?_ there
      exact Bool.eq_false_iff.mpr fun leaves => patient leaves member
    · rw [serves.others other same]
      exact present other member
  by_cases data : ∀ c, command ≠ .server c
  · have agrees : Server.Agrees client ideal h.server := ⟨tracked.data, tracked.places client there⟩
    obtain ⟨outcome', executed', agrees'⟩ := agrees.exec executed
    have serves' := Server.exec_serves executed'
    refine ⟨outcome'.server, Server.intended_append tracked.reached
      (Server.turn_request data executed' outcome.reply), agrees'.toSameData, ?_,
      fun other member => stays other (waits other member)⟩
    intro other attached
    by_cases same : other = client
    · rw [same]
      exact agrees'.place
    · have before : outcome.server.clients other = h.server.clients other :=
        serves.others other same
      change outcome.server.clients other ≠ none at attached
      rw [before] at attached
      change outcome'.server.clients other = outcome.server.clients other
      rw [serves'.others other same, before]
      exact tracked.places other attached
  · push Not at data
    obtain ⟨c, rfl⟩ := data
    cases executed
    have turned : base.intended (h.answer env client (.server c)
        (h.server.execServer env client c)).turns = .ok ideal :=
      Server.intended_append tracked.reached rfl
    -- the databases stay as they are, and the client stays in its place or leaves
    obtain ⟨reply, -, same | ⟨-, -, left⟩⟩ := h.server.execServer_cases env client c
    · have after : (h.answer env client (.server c) (h.server.execServer env client c)).server =
        h.server := congrArg Outcome.server same
      refine ⟨ideal, turned, ?_, ?_, fun other member => stays other (waits other member)⟩
      · rw [after]
        exact tracked.data
      · rw [after]
        exact tracked.places
    · have after : (h.answer env client (.server c) (h.server.execServer env client c)).server =
        h.server.detach client := congrArg Outcome.server left
      refine ⟨ideal, turned, ?_, ?_, fun other member => stays other (waits other member)⟩
      · rw [after]
        exact ⟨tracked.data.databases, tracked.data.numHash, tracked.data.numberSource⟩
      · rw [after]
        intro other attached
        have differs : other ≠ client := by
          rintro rfl
          exact attached (Function.update_self ..)
        simp only [Server.detach, Function.update_of_ne differs] at attached ⊢
        exact tracked.places other attached

theorem next_tracked {event : Event} (tracked : Tracked base h ideal) (patient : h.Patient event)
    (stepped : h.next event = some after) : ∃ ideal', Tracked base after ideal' := by
  cases next_step stepped with
  | connect => exact ⟨_, tracked.accept⟩
  | sendNothing thread client sending free live drained
  | sendSome thread client count free live filled
  | sendFails thread client errno free live alive =>
      refine tracked.fewer rfl rfl fun other member => ?_
      rw [waiting, behind, free]
      exact member
  | sendBreaks thread client free live filled =>
      have same : ((h.setErrno thread .pipe).atIo (.sent thread client)).waiting = h.waiting := by
        rw [waiting, waiting, behind, behind, free]
        rfl
      have sent : Tracked base ((h.setErrno thread .pipe).atIo (.sent thread client)) ideal :=
        tracked.frame rfl rfl (same ▸ tracked.present)
      exact ⟨ideal, sent.logout (same ▸ patient)⟩
  | checkDrained thread client at_ drained calm | checkOther thread client at_ other =>
      refine tracked.fewer rfl rfl fun other member => ?_
      rw [waiting, behind, at_]
      exact member
  | enableRead client at_ | pushEnd client at_ =>
      refine tracked.fewer rfl rfl fun other member => ?_
      rw [waiting, behind, at_]
      exact member
  | readShort thread client data free live =>
      have received : Tracked base (h.receive client data) ideal :=
        tracked.frame rfl rfl tracked.present
      exact ⟨ideal, received.exportOf live⟩
  | readFails thread client data errno free live =>
      have received : Tracked base ((h.receive client data).setErrno thread errno) ideal :=
        tracked.frame rfl rfl tracked.present
      exact ⟨ideal, received.exportOf live⟩
  | readClosed thread client data free live =>
      have received : Tracked base (h.receive client data) ideal :=
        tracked.frame rfl rfl tracked.present
      exact ⟨ideal, received.logout patient⟩
  | readAgain thread client data free live =>
      exact ⟨ideal, tracked.frame rfl rfl tracked.present⟩
  | pushUnknown client request rest at_ parsed =>
      refine tracked.fewer rfl rfl fun other member => ?_
      rw [mem_waiting] at member ⊢
      rw [at_]
      exact member.imp_right (Or.imp_right (List.mem_cons_of_mem client))
  | push client request rest command at_ parsed =>
      refine tracked.fewer rfl rfl fun other member => ?_
      rw [mem_waiting] at member ⊢
      rw [at_]
      rcases member with hand | queued | pushing
      · exact Or.inl hand
      · rw [List.map_append] at queued
        rcases List.mem_append.mp queued with old | new
        · exact Or.inr (Or.inl old)
        · rw [List.mem_singleton.mp new]
          exact Or.inr (Or.inr List.mem_cons_self)
      · exact Or.inr (Or.inr (List.mem_cons_of_mem client pushing))
  | pop client command rest free queued =>
      refine tracked.fewer rfl rfl fun other member => ?_
      rw [waiting, behind, free, queued]
      exact member
  | exec env client command outcome at_ executed =>
      simp only [Patient, at_] at patient
      exact tracked.exec at_ executed (patient (client, command) List.mem_cons_self)
  | append client reply at_ live | appendGone client reply at_ gone =>
      refine tracked.fewer rfl rfl fun other member => ?_
      rw [waiting, at_]
      exact member
  | enableSend client at_ =>
      refine tracked.fewer rfl rfl fun other member => ?_
      rw [waiting, at_]
      exact member
  | expire index key inside =>
      have kept := h.server.update_clients (index, .erase key)
      refine ⟨ideal.update (index, .erase key), Server.intended_append tracked.reached rfl,
        tracked.data.update _, ?_, ?_⟩
      · rw [ideal.update_clients, kept]
        exact tracked.places
      · rw [kept]
        exact tracked.present

/-- In a run in which no client goes while a request of it waits, the requests that were
accepted have their turn once and in order, and the databases are those that executing
each of them leaves. -/
theorem turns_take_effect (server : Server) (events : List Event) {h : Handler}
    (patient : Meets next Patient (start server) events)
    (ran : run next (start server) events = some h) :
    h.Accounted ∧ ∃ ideal, server.alone.intended h.turns = .ok ideal ∧
      h.server.databases = ideal.databases := by
  have accounted : h.Accounted :=
    run_keeps Accounted (fun _ _ _ kept _ => next_accounted kept) (start_accounted server) patient ran
  have tracked : ∃ ideal, Tracked server.alone h ideal :=
    run_keeps (fun h => ∃ ideal, Tracked server.alone h ideal)
      (fun _ _ _ ⟨_, kept⟩ => next_tracked kept) ⟨_, start_tracked server⟩ patient ran
  obtain ⟨ideal, tracked⟩ := tracked
  exact ⟨accounted, ideal, tracked.reached, tracked.data.databases.symm⟩

/-- A client connects, and its request is read and queued. -/
def queueSet : List Event :=
  [.connect, .read 0 0 (dump [bytes "SET", bytes "k", bytes "v"]) .short, .push, .push]

/-- The keys the databases hold. -/
def keys (databases : List Db) : List (List Bytes) :=
  databases.map fun db => db.keyValueMap.items.map Entry.name

theorem turns_take_effect_before_close :
    ∃ h ideal, run next (start Server.initial)
        (queueSet ++ [.pop, .exec quietEnv, .read 0 0 [] .closed]) = some h ∧
      h.connected 0 = false ∧ Server.initial.alone.intended h.turns = .ok ideal ∧
      keys h.server.databases = [[bytes "k"]] ∧ h.server.databases = ideal.databases := by
  obtain ⟨h, ran, gone, stored⟩ : ∃ h, run next (start Server.initial)
      (queueSet ++ [.pop, .exec quietEnv, .read 0 0 [] .closed]) = some h ∧
      h.connected 0 = false ∧ keys h.server.databases = [[bytes "k"]] :=
    run_checked (by decide +kernel)
  obtain ⟨-, ideal, reached, same⟩ :=
    turns_take_effect Server.initial _ (by decide +kernel) ran
  exact ⟨h, ideal, ran, gone, reached, stored, same⟩

/-- A client that goes before the turn of its request: the command is popped, finds the
client gone and does nothing. -/
theorem turn_without_effect :
    ∃ h ideal, run next (start Server.initial)
        (queueSet ++ [.read 0 0 [] .closed, .pop, .exec quietEnv]) = some h ∧
      h.cmdQue = [] ∧ h.performed.length = 1 ∧ keys h.server.databases = [[]] ∧
      Server.initial.alone.intended h.turns = .ok ideal ∧ keys ideal.databases = [[bytes "k"]] ∧
      h.server.databases ≠ ideal.databases := by
  obtain ⟨h, ran, done, once, lost, checked⟩ : ∃ h, run next (start Server.initial)
      (queueSet ++ [.read 0 0 [] .closed, .pop, .exec quietEnv]) = some h ∧ h.cmdQue = [] ∧
      h.performed.length = 1 ∧ keys h.server.databases = [[]] ∧
      ((Server.initial.alone.intended h.turns).toOption.any fun ideal =>
        decide (keys ideal.databases = [[bytes "k"]])) = true := run_checked (by decide +kernel)
  obtain ⟨ideal, reached, stored⟩ := ok_checked checked
  refine ⟨h, ideal, ran, done, once, lost, reached, stored, fun same => ?_⟩
  rw [same, stored] at lost
  cases lost

end Handler

end ForkRedis
