import ForkRedis.Timers

set_option autoImplicit false

/- `Handler`: the io threads, of which the one that holds `cli_mtx_` is at work, and the
command thread. Both use the client's buffers and its registration with epoll. -/
namespace ForkRedis

open Lists Fallible Machine Json11

/-- The values of `errno` that are told apart. -/
inductive Errno where
  | again
  | pipe
  | other
  deriving DecidableEq, Repr

/-- `EPOLLIN` or `EPOLLOUT`. -/
inductive Interest where
  | input
  | output
  deriving DecidableEq, Repr

/-- The buffers of a `ClientInfo` and the event it is registered for. `sent` is a record
of what `send` has taken so far. -/
structure Connection where
  recvBuffer : Bytes
  sendBuffer : Bytes
  interest : Interest
  sent : Bytes

/-- What `send` returns: the number of bytes it took, or -1 with an `errno`. -/
inductive Sending where
  | wrote (count : Nat)
  | failed (errno : Errno)

/-- How the calls of `recv` in `Read` end: with a short count, with 0, or with -1. -/
inductive Reading where
  | short
  | closed
  | failed (errno : Errno)

/-- Where the io thread is in `ioClient`: between two events, behind `Send`, behind the
check that calls for `EnableRead`, or with requests that it has still to push. -/
inductive IoPhase where
  | idle
  | sent (thread client : Nat)
  | enabling (client : Nat)
  | pushing (client : Nat) (requests : List Request)

/-- Where the command thread is in `ExecCommand`. -/
inductive CmdPhase where
  | idle
  | popped (client : Nat) (command : Command)
  | executed (client : Nat) (reply : Reply)
  | appended (client : Nat)

/-- What has happened to the databases and to who works on them, in order. -/
inductive Turn where
  | connect (client : Nat)
  | request (env : Env) (client : Nat) (command : Command) (reply : Option Reply)
  | expire (index : Nat) (key : Bytes)

/-- A client is connected while the server has a database for it. Clients are numbered as
they are accepted. `exported` and `turns` are a record of what has happened. -/
structure Handler where
  server : Server
  connections : Nat → Connection
  clients : Nat
  errno : Nat → Errno
  io : IoPhase
  cmdQue : List (Nat × Command)
  cmd : CmdPhase
  exported : List (Nat × Request)
  turns : List Turn

namespace Connection

def fresh : Connection := ⟨[], [], .input, []⟩

/-- `Send` erases what `send` took. -/
def take (count : Nat) (connection : Connection) : Connection :=
  { connection with
    sendBuffer := connection.sendBuffer.drop count
    sent := connection.sent ++ connection.sendBuffer.take count }

/-- `Append`. -/
def append (reply : Reply) (connection : Connection) : Connection :=
  { connection with sendBuffer := connection.sendBuffer ++ dump reply }

/-- `EnableRead` and `EnableSend`. -/
def watch (interest : Interest) (connection : Connection) : Connection :=
  { connection with interest := interest }

def setRecvBuffer (buffer : Bytes) (connection : Connection) : Connection :=
  { connection with recvBuffer := buffer }

/-- The part of a client that has to do with output. -/
def output (connection : Connection) : Interest × Bytes × Bytes :=
  (connection.interest, connection.sendBuffer, connection.sent)

end Connection

/-- A server that no client is connected to. -/
def Server.alone (server : Server) : Server where
  databases := server.databases
  numHash := server.numHash
  numberSource := server.numberSource
  clients := fun _ => none
  filled := server.filled
  attached := fun _ _ absent => absurd absent (Option.some_ne_none _).symm

namespace Handler

inductive Event where
  | connect
  | send (thread client : Nat) (sending : Sending)
  | check
  | enableRead
  | read (thread client : Nat) (data : Bytes) (reading : Reading)
  | push
  | pop
  | exec (env : Env)
  | append
  | enableSend
  | expire (index : Nat) (key : Bytes)

def start (server : Server) : Handler where
  server := server.alone
  connections := fun _ => Connection.fresh
  clients := 0
  errno := fun _ => .other
  io := .idle
  cmdQue := []
  cmd := .idle
  exported := []
  turns := []

def connected (h : Handler) (client : Nat) : Bool := (h.server.clients client).isSome

def modify (h : Handler) (client : Nat) (change : Connection → Connection) : Handler :=
  { h with connections := Function.update h.connections client (change (h.connections client)) }

theorem modify_self (h : Handler) (client : Nat) (change : Connection → Connection) :
    (h.modify client change).connections client = change (h.connections client) :=
  Function.update_self ..

theorem modify_other (h : Handler) {client other : Nat} (differs : other ≠ client)
    (change : Connection → Connection) :
    (h.modify client change).connections other = h.connections other :=
  Function.update_of_ne differs ..

theorem modify_output (h : Handler) (client : Nat) {change : Connection → Connection}
    (keeps : ∀ connection, (change connection).output = connection.output) (other : Nat) :
    ((h.modify client change).connections other).output = (h.connections other).output := by
  by_cases same : other = client
  · rw [same, modify_self, keeps]
  · rw [modify_other h same]

def setErrno (h : Handler) (thread : Nat) (errno : Errno) : Handler :=
  { h with errno := Function.update h.errno thread errno }

/-- `Logout`. The client object goes with the last pointer to it, which is taken to happen
at once. -/
def logout (h : Handler) (client : Nat) : Handler := { h with server := h.server.detach client }

def atIo (h : Handler) (io : IoPhase) : Handler := { h with io := io }

def atCmd (h : Handler) (cmd : CmdPhase) : Handler := { h with cmd := cmd }

/-- `ExportMessages`, and the requests are in the hands of the io thread. -/
def exportOf (h : Handler) (client : Nat) : Handler :=
  let exported := exportMessages (h.connections client).recvBuffer
  { h.modify client (Connection.setRecvBuffer exported.2) with
    io := .pushing client exported.1
    exported := h.exported ++ exported.1.map (Prod.mk client) }

/-- `Accept`, up to the first event of the client, which gives it a database. -/
def accept (h : Handler) : Handler :=
  { h with
    server := h.server.attach h.clients 0 h.server.filled
    connections := Function.update h.connections h.clients Connection.fresh
    clients := h.clients + 1
    turns := h.turns ++ [.connect h.clients] }

/-- `Send` does not call `send` on an empty buffer. -/
def send (h : Handler) (thread client : Nat) (sending : Sending) : Option Handler :=
  if (h.connections client).sendBuffer = [] then some (h.atIo (.sent thread client))
  else
    match sending with
    | .wrote count =>
        if count ≤ (h.connections client).sendBuffer.length then
          some ((h.modify client (Connection.take count)).atIo (.sent thread client))
        else none
    | .failed errno =>
        let h := (h.setErrno thread errno).atIo (.sent thread client)
        some (if errno = .pipe then h.logout client else h)

/-- What `recv` gave is in the buffer whatever `Read` returns. -/
def receive (h : Handler) (client : Nat) (data : Bytes) : Handler :=
  h.modify client fun connection => connection.setRecvBuffer (connection.recvBuffer ++ data)

theorem receive_output (h : Handler) (client : Nat) (data : Bytes) (other : Nat) :
    ((h.receive client data).connections other).output = (h.connections other).output := by
  apply modify_output
  intro connection
  rfl

theorem exportOf_output (h : Handler) (client other : Nat) :
    ((h.exportOf client).connections other).output = (h.connections other).output := by
  apply modify_output h client
  intro connection
  rfl

def read (h : Handler) (thread client : Nat) (data : Bytes) (reading : Reading) : Handler :=
  let h := h.receive client data
  match reading with
  | .short => h.exportOf client
  | .closed => h.logout client
  | .failed errno =>
      let h := h.setErrno thread errno
      if errno = .again then h else h.exportOf client

/-- What the command thread does with the result of `Exec`. -/
def answer (h : Handler) (env : Env) (client : Nat) (command : Command) (outcome : Outcome) :
    Handler :=
  { h with
    server := outcome.server
    cmd := outcome.reply.elim .idle (CmdPhase.executed client)
    turns := h.turns ++ [.request env client command outcome.reply] }

def next (h : Handler) : Event → Option Handler
  | .connect => some h.accept
  | .send thread client sending =>
      match h.io, h.connected client with
      | .idle, true => h.send thread client sending
      | _, _ => none
  | .check =>
      match h.io with
      | .sent thread client =>
          if (h.connections client).sendBuffer = [] ∧ h.errno thread ≠ .again then
            some (h.atIo (.enabling client))
          else some (h.atIo .idle)
      | _ => none
  | .enableRead =>
      match h.io with
      | .enabling client => some ((h.modify client (Connection.watch .input)).atIo .idle)
      | _ => none
  | .read thread client data reading =>
      match h.io, h.connected client with
      | .idle, true => some (h.read thread client data reading)
      | _, _ => none
  | .push =>
      match h.io with
      | .pushing _ [] => some (h.atIo .idle)
      | .pushing client (request :: rest) =>
          match requestToCommandExec request with
          | .error _ => none
          | .ok none => some (h.atIo (.pushing client rest))
          | .ok (some command) =>
              some { h.atIo (.pushing client rest) with cmdQue := h.cmdQue ++ [(client, command)] }
      | _ => none
  | .pop =>
      match h.cmd, h.cmdQue with
      | .idle, (client, command) :: rest =>
          some { h.atCmd (.popped client command) with cmdQue := rest }
      | _, _ => none
  | .exec env =>
      match h.cmd with
      | .popped client command =>
          match command.exec env h.server client with
          | .error _ => none
          | .ok outcome => some (h.answer env client command outcome)
      | _ => none
  | .append =>
      match h.cmd with
      | .executed client reply =>
          if h.connected client then
            some ((h.modify client (Connection.append reply)).atCmd (.appended client))
          else some (h.atCmd .idle)
      | _ => none
  | .enableSend =>
      match h.cmd with
      | .appended client => some ((h.modify client (Connection.watch .output)).atCmd .idle)
      | _ => none
  | .expire index key =>
      if index < h.server.databases.length then
        some { h with
          server := h.server.update (index, .erase key)
          turns := h.turns ++ [.expire index key] }
      else none

/-- Everything an event can do, branch by branch. -/
inductive Step (h : Handler) : Event → Handler → Prop where
  | connect : Step h .connect h.accept
  | sendNothing (thread client : Nat) (sending : Sending) (free : h.io = .idle)
      (live : h.connected client = true) (drained : (h.connections client).sendBuffer = []) :
      Step h (.send thread client sending) (h.atIo (.sent thread client))
  | sendSome (thread client count : Nat) (free : h.io = .idle) (live : h.connected client = true)
      (waiting : (h.connections client).sendBuffer ≠ []) :
      Step h (.send thread client (.wrote count))
        ((h.modify client (Connection.take count)).atIo (.sent thread client))
  | sendFails (thread client : Nat) (errno : Errno) (free : h.io = .idle)
      (live : h.connected client = true) (alive : errno ≠ .pipe) :
      Step h (.send thread client (.failed errno))
        ((h.setErrno thread errno).atIo (.sent thread client))
  | sendBreaks (thread client : Nat) (free : h.io = .idle) (live : h.connected client = true)
      (waiting : (h.connections client).sendBuffer ≠ []) :
      Step h (.send thread client (.failed .pipe))
        (((h.setErrno thread .pipe).atIo (.sent thread client)).logout client)
  | checkDrained (thread client : Nat) (at_ : h.io = .sent thread client)
      (drained : (h.connections client).sendBuffer = []) (calm : h.errno thread ≠ .again) :
      Step h .check (h.atIo (.enabling client))
  | checkOther (thread client : Nat) (at_ : h.io = .sent thread client)
      (other : (h.connections client).sendBuffer = [] → h.errno thread = .again) :
      Step h .check (h.atIo .idle)
  | enableRead (client : Nat) (at_ : h.io = .enabling client) :
      Step h .enableRead ((h.modify client (Connection.watch .input)).atIo .idle)
  | readShort (thread client : Nat) (data : Bytes) (free : h.io = .idle)
      (live : h.connected client = true) :
      Step h (.read thread client data .short) ((h.receive client data).exportOf client)
  | readClosed (thread client : Nat) (data : Bytes) (free : h.io = .idle)
      (live : h.connected client = true) :
      Step h (.read thread client data .closed) ((h.receive client data).logout client)
  | readAgain (thread client : Nat) (data : Bytes) (free : h.io = .idle)
      (live : h.connected client = true) :
      Step h (.read thread client data (.failed .again))
        ((h.receive client data).setErrno thread .again)
  | readFails (thread client : Nat) (data : Bytes) (errno : Errno) (free : h.io = .idle)
      (live : h.connected client = true) :
      Step h (.read thread client data (.failed errno))
        (((h.receive client data).setErrno thread errno).exportOf client)
  | pushEnd (client : Nat) (at_ : h.io = .pushing client []) : Step h .push (h.atIo .idle)
  | pushUnknown (client : Nat) (request : Request) (rest : List Request)
      (at_ : h.io = .pushing client (request :: rest))
      (parsed : requestToCommandExec request = .ok none) :
      Step h .push (h.atIo (.pushing client rest))
  | push (client : Nat) (request : Request) (rest : List Request) (command : Command)
      (at_ : h.io = .pushing client (request :: rest))
      (parsed : requestToCommandExec request = .ok (some command)) :
      Step h .push
        { h.atIo (.pushing client rest) with cmdQue := h.cmdQue ++ [(client, command)] }
  | pop (client : Nat) (command : Command) (rest : List (Nat × Command)) (free : h.cmd = .idle)
      (queued : h.cmdQue = (client, command) :: rest) :
      Step h .pop { h.atCmd (.popped client command) with cmdQue := rest }
  | exec (env : Env) (client : Nat) (command : Command) (outcome : Outcome)
      (at_ : h.cmd = .popped client command)
      (executed : command.exec env h.server client = .ok outcome) :
      Step h (.exec env) (h.answer env client command outcome)
  | append (client : Nat) (reply : Reply) (at_ : h.cmd = .executed client reply)
      (live : h.connected client = true) :
      Step h .append ((h.modify client (Connection.append reply)).atCmd (.appended client))
  | appendGone (client : Nat) (reply : Reply) (at_ : h.cmd = .executed client reply)
      (gone : h.connected client = false) : Step h .append (h.atCmd .idle)
  | enableSend (client : Nat) (at_ : h.cmd = .appended client) :
      Step h .enableSend ((h.modify client (Connection.watch .output)).atCmd .idle)
  | expire (index : Nat) (key : Bytes) (inside : index < h.server.databases.length) :
      Step h (.expire index key)
        { h with
          server := h.server.update (index, .erase key)
          turns := h.turns ++ [.expire index key] }

theorem next_step {h after : Handler} {event : Event} (stepped : h.next event = some after) :
    h.Step event after := by
  cases event with
  | connect =>
      cases stepped
      exact .connect
  | send thread client sending =>
      simp only [next] at stepped
      split at stepped
      · rename_i free live
        unfold send at stepped
        split at stepped
        · rename_i drained
          cases stepped
          exact .sendNothing thread client sending free live drained
        · rename_i waiting
          split at stepped
          · split at stepped
            · cases stepped
              exact .sendSome thread client _ free live waiting
            · cases stepped
          · rename_i errno
            cases stepped
            split
            · rename_i broken
              subst broken
              exact .sendBreaks thread client free live waiting
            · rename_i alive
              exact .sendFails thread client errno free live alive
      · cases stepped
  | check =>
      simp only [next] at stepped
      split at stepped
      · rename_i thread client at_
        split at stepped
        · rename_i drained
          cases stepped
          exact .checkDrained thread client at_ drained.1 drained.2
        · rename_i other
          cases stepped
          exact .checkOther thread client at_ fun drained =>
            Decidable.byContradiction fun calm => other ⟨drained, calm⟩
      · cases stepped
  | enableRead =>
      simp only [next] at stepped
      split at stepped
      · rename_i client at_
        cases stepped
        exact .enableRead client at_
      · cases stepped
  | read thread client data reading =>
      simp only [next] at stepped
      split at stepped
      · rename_i free live
        cases stepped
        cases reading with
        | short => exact .readShort thread client data free live
        | closed => exact .readClosed thread client data free live
        | failed errno =>
            simp only [read]
            split
            · rename_i again
              subst again
              exact .readAgain thread client data free live
            · exact .readFails thread client data errno free live
      · cases stepped
  | push =>
      simp only [next] at stepped
      split at stepped
      · rename_i client at_
        cases stepped
        exact .pushEnd client at_
      · rename_i client request rest at_
        split at stepped
        · cases stepped
        · rename_i parsed
          cases stepped
          exact .pushUnknown client request rest at_ parsed
        · rename_i command parsed
          cases stepped
          exact .push client request rest command at_ parsed
      · cases stepped
  | pop =>
      simp only [next] at stepped
      split at stepped
      · rename_i client command rest free queued
        cases stepped
        exact .pop client command rest free queued
      · cases stepped
  | exec env =>
      simp only [next] at stepped
      split at stepped
      · rename_i client command at_
        split at stepped
        · cases stepped
        · rename_i outcome executed
          cases stepped
          exact .exec env client command outcome at_ executed
      · cases stepped
  | append =>
      simp only [next] at stepped
      split at stepped
      · rename_i client reply at_
        split at stepped
        · rename_i live
          cases stepped
          exact .append client reply at_ live
        · rename_i gone
          cases stepped
          exact .appendGone client reply at_ (Bool.eq_false_iff.mpr gone)
      · cases stepped
  | enableSend =>
      simp only [next] at stepped
      split at stepped
      · rename_i client at_
        cases stepped
        exact .enableSend client at_
      · cases stepped
  | expire index key =>
      simp only [next] at stepped
      split at stepped
      · rename_i inside
        cases stepped
        exact .expire index key inside
      · cases stepped

end Handler

end ForkRedis
