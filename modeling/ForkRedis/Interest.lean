import ForkRedis.Handler

set_option autoImplicit false

/- What a client is registered for with epoll, and whether there is something to send. -/
namespace ForkRedis

open Machine Json11

variable {h after : Handler} {client : Nat}

/-- The io thread has called `Send` for a client and has not looked at the result. -/
def IoPhase.behindSend (client : Nat) : IoPhase → Bool
  | .sent _ other => other == client
  | _ => false

/-- The io thread has found the buffer of a client drained and will call `EnableRead`. -/
def IoPhase.behindCheck (client : Nat) : IoPhase → Bool
  | .enabling other => other == client
  | _ => false

/-- The command thread has called `Append` for a client and will call `EnableSend`. -/
def CmdPhase.behindAppend (client : Nat) : CmdPhase → Bool
  | .appended other => other == client
  | _ => false

namespace Connection

/-- Registered for output exactly when there is some. -/
def Matched (connection : Connection) : Prop :=
  connection.interest = .output ↔ connection.sendBuffer ≠ []

instance (connection : Connection) : Decidable connection.Matched :=
  inferInstanceAs (Decidable (_ ↔ _))

/-- What holds of a client wherever the two threads are: behind `Send` no output is
unwatched, behind the check there is none, and otherwise the two match. While a reply is
appended and not announced, nothing has to hold. -/
structure Watched (io : IoPhase) (client : Nat) (connection : Connection) : Prop where
  behindSend : io.behindSend client = true → connection.sendBuffer ≠ [] →
    connection.interest = .output
  behindCheck : io.behindCheck client = true → connection.sendBuffer = []
  matched : io.behindSend client = false → io.behindCheck client = false → connection.Matched

theorem fresh_matched : fresh.Matched := by decide

theorem Matched.watched {connection : Connection} (matched : connection.Matched) {io : IoPhase}
    (before : io.behindCheck client = false) : connection.Watched io client where
  behindSend := fun _ => matched.mpr
  behindCheck := fun behind => absurd (before.symm.trans behind) Bool.false_ne_true
  matched := fun _ _ => matched

/-- The io thread moves, and does not work for this client before or after. -/
theorem Watched.elsewhere {connection : Connection} {io io' : IoPhase}
    (watched : connection.Watched io client) (send : io.behindSend client = false)
    (check : io.behindCheck client = false) (check' : io'.behindCheck client = false) :
    connection.Watched io' client :=
  (watched.matched send check).watched check'

/-- What is received does not matter. -/
theorem Watched.congr {connection connection' : Connection} {io : IoPhase}
    (watched : connection.Watched io client) (same : connection'.output = connection.output) :
    connection'.Watched io client := by
  obtain ⟨interest, sending⟩ := Prod.mk.inj same
  obtain ⟨buffer, -⟩ := Prod.mk.inj sending
  constructor
  · rw [interest, buffer]
    exact watched.behindSend
  · rw [buffer]
    exact watched.behindCheck
  · rw [Matched, interest, buffer]
    exact watched.matched

end Connection

namespace Handler

/-- No thread is at work on what is sent to a client. -/
def Quiet (h : Handler) (client : Nat) : Prop :=
  h.io.behindSend client = false ∧ h.io.behindCheck client = false ∧
    h.cmd.behindAppend client = false

instance (h : Handler) (client : Nat) : Decidable (h.Quiet client) :=
  inferInstanceAs (Decidable (_ ∧ _))

/-- The two threads keep out of each other's way: when the io thread checks a drained
buffer, no `EAGAIN` is left from before, and when the command thread announces a reply,
the io thread is not about to withdraw the registration, nor has it sent the reply and
left. -/
def Undisturbed (h : Handler) : Event → Prop
  | .check =>
      match h.io with
      | .sent thread client => (h.connections client).sendBuffer = [] → h.errno thread ≠ .again
      | _ => True
  | .enableSend =>
      match h.cmd with
      | .appended client => h.io.behindSend client = false →
          ((h.connections client).sendBuffer = [] ↔ h.io.behindCheck client = true)
      | _ => True
  | _ => True

instance (h : Handler) (event : Event) : Decidable (h.Undisturbed event) := by
  unfold Undisturbed
  split <;> try split
  all_goals infer_instance

/-- The invariant of a run that is undisturbed. -/
def Watchful (h : Handler) : Prop :=
  ∀ client, h.cmd.behindAppend client = false → (h.connections client).Watched h.io client

theorem start_watchful (server : Server) : (start server).Watchful :=
  fun _ _ => Connection.fresh_matched.watched rfl

/-- A step of the io thread on the output of one client. -/
theorem Watchful.io_step {h after : Handler} (watchful : h.Watchful) (client : Nat)
    (cmd : after.cmd = h.cmd)
    (elsewhere : ∀ other, other ≠ client → h.io.behindSend other = false ∧
      h.io.behindCheck other = false ∧ after.io.behindCheck other = false ∧
      after.connections other = h.connections other)
    (own : (h.connections client).Watched h.io client →
      (after.connections client).Watched after.io client) : after.Watchful := by
  intro other settled
  rw [cmd] at settled
  by_cases same : other = client
  · subst same
    exact own (watchful other settled)
  · obtain ⟨send, check, check', kept⟩ := elsewhere other same
    rw [kept]
    exact (watchful other settled).elsewhere send check check'

/-- A step of the command thread that concerns at most one client. -/
theorem Watchful.cmd_step {h after : Handler} (watchful : h.Watchful) (client : Nat)
    (io : after.io = h.io)
    (elsewhere : ∀ other, other ≠ client → h.cmd.behindAppend other = false ∧
      after.connections other = h.connections other)
    (own : after.cmd.behindAppend client = false →
      (after.connections client).Watched h.io client) : after.Watchful := by
  intro other settled
  rw [io]
  by_cases same : other = client
  · subst same
    exact own settled
  · obtain ⟨idle, kept⟩ := elsewhere other same
    rw [kept]
    exact watchful other idle

end Handler

theorem IoPhase.behindSend_other {thread client other : Nat} (differs : other ≠ client) :
    (IoPhase.sent thread client).behindSend other = false :=
  beq_eq_false_iff_ne.mpr differs.symm

theorem IoPhase.behindCheck_other {client other : Nat} (differs : other ≠ client) :
    (IoPhase.enabling client).behindCheck other = false :=
  beq_eq_false_iff_ne.mpr differs.symm

namespace Handler

/-- `Send` leaves the registration as it is, and output only if there was some. -/
theorem Watchful.sent {h after : Handler} (watchful : h.Watchful) (free : h.io = .idle)
    {thread client : Nat} (io : after.io = .sent thread client) (cmd : after.cmd = h.cmd)
    (others : ∀ other, other ≠ client → after.connections other = h.connections other)
    (interest : (after.connections client).interest = (h.connections client).interest)
    (shrinks : (after.connections client).sendBuffer ≠ [] →
      (h.connections client).sendBuffer ≠ []) : after.Watchful := by
  refine watchful.io_step client cmd ?_ ?_
  · intro other differs
    rw [free, io]
    exact ⟨rfl, rfl, rfl, others other differs⟩
  · intro watched
    rw [free] at watched
    have matched := watched.matched rfl rfl
    have behind : (IoPhase.sent thread client).behindSend client = true := beq_self_eq_true client
    rw [io]
    constructor
    · intro _ filled
      rw [interest]
      exact matched.mpr (shrinks filled)
    · intro check
      cases check
    · intro away
      exact absurd (away.symm.trans behind) Bool.false_ne_true

/-- Steps of the io thread that have nothing to do with output. -/
theorem Watchful.reading (watchful : h.Watchful)
    (before : ∀ client, h.io.behindSend client = false ∧ h.io.behindCheck client = false)
    (behind : ∀ client, after.io.behindCheck client = false) (cmd : after.cmd = h.cmd)
    (output : ∀ client, (after.connections client).output = (h.connections client).output) :
    after.Watchful := by
  intro client settled
  rw [cmd] at settled
  have watched := (watchful client settled).elsewhere (before client).1 (before client).2
    (behind client)
  exact watched.congr (output client)

/-- Steps of the command thread before it appends a reply, or without one. -/
theorem Watchful.executing (watchful : h.Watchful)
    (before : ∀ client, h.cmd.behindAppend client = false) (io : after.io = h.io)
    (connections : after.connections = h.connections) : after.Watchful := by
  intro client _
  rw [io, connections]
  exact watchful client (before client)

theorem Watchful.accept (watchful : h.Watchful) : h.accept.Watchful := by
  intro client settled
  by_cases new : client = h.clients
  · have reset : h.accept.connections client = Connection.fresh := by
      rw [new]
      exact Function.update_self ..
    rw [reset]
    exact ⟨fun _ filled => absurd rfl filled, fun _ => rfl, fun _ _ => Connection.fresh_matched⟩
  · have kept : h.accept.connections client = h.connections client :=
      Function.update_of_ne new ..
    rw [kept]
    exact watchful client settled

theorem Watchful.checkDrained (watchful : h.Watchful) {thread client : Nat}
    (at_ : h.io = .sent thread client) (drained : (h.connections client).sendBuffer = []) :
    (h.atIo (.enabling client)).Watchful := by
  refine watchful.io_step client rfl ?_ ?_
  · intro other differs
    rw [at_]
    exact ⟨IoPhase.behindSend_other differs, rfl, IoPhase.behindCheck_other differs, rfl⟩
  · intro _
    have behind : (IoPhase.enabling client).behindCheck client = true := beq_self_eq_true client
    refine ⟨fun send => ?_, fun _ => drained, fun _ away => ?_⟩
    · cases send
    · exact absurd (away.symm.trans behind) Bool.false_ne_true

/-- What is left behind a `Send` is watched for. -/
theorem Watchful.checkFilled (watchful : h.Watchful) {thread client : Nat}
    (at_ : h.io = .sent thread client) (filled : (h.connections client).sendBuffer ≠ []) :
    (h.atIo .idle).Watchful := by
  refine watchful.io_step client rfl ?_ ?_
  · intro other differs
    rw [at_]
    exact ⟨IoPhase.behindSend_other differs, rfl, rfl, rfl⟩
  · intro watched
    rw [at_] at watched
    have output := watched.behindSend (beq_self_eq_true client) filled
    exact Connection.Matched.watched ⟨fun _ => filled, fun _ => output⟩ rfl

theorem Watchful.enableRead (watchful : h.Watchful) (at_ : h.io = .enabling client) :
    ((h.modify client (Connection.watch .input)).atIo .idle).Watchful := by
  refine watchful.io_step client rfl ?_ ?_
  · intro other differs
    rw [at_]
    exact ⟨rfl, IoPhase.behindCheck_other differs, rfl, modify_other h differs _⟩
  · intro watched
    rw [at_] at watched
    have drained := watched.behindCheck (beq_self_eq_true client)
    rw [atIo, modify_self]
    refine Connection.Matched.watched ⟨fun output => ?_, fun filled => ?_⟩ rfl
    · cases output
    · exact absurd drained filled

theorem Watchful.enableSend {h : Handler} (watchful : h.Watchful) {client : Nat}
    (at_ : h.cmd = .appended client)
    (undisturbed : h.io.behindSend client = false →
      ((h.connections client).sendBuffer = [] ↔ h.io.behindCheck client = true)) :
    ((h.modify client (Connection.watch .output)).atCmd .idle).Watchful := by
  refine watchful.cmd_step client rfl (fun other differs => ⟨?_, modify_other h differs _⟩)
    fun _ => ?_
  · rw [at_]
    exact beq_eq_false_iff_ne.mpr differs.symm
  · rw [atCmd, modify_self]
    refine ⟨fun _ _ => rfl, fun check => ?_, fun send check => ⟨fun _ => ?_, fun _ => rfl⟩⟩
    · have away : h.io.behindSend client = false := by
        cases phase : h.io with
        | sent thread other =>
            rw [phase] at check
            cases check
        | idle | enabling | pushing => rfl
      exact (undisturbed away).mpr check
    · intro drained
      exact absurd (check.symm.trans ((undisturbed send).mp drained)) Bool.false_ne_true

theorem behind_idle (free : h.io = .idle) (client : Nat) :
    h.io.behindSend client = false ∧ h.io.behindCheck client = false := by
  rw [free]
  exact ⟨rfl, rfl⟩

theorem next_watchful {event : Event} (watchful : h.Watchful) (undisturbed : h.Undisturbed event)
    (stepped : h.next event = some after) : after.Watchful := by
  cases next_step stepped with
  | connect => exact watchful.accept
  | sendNothing thread client sending free live drained =>
      exact watchful.sent free rfl rfl (fun _ _ => rfl) rfl id
  | sendSome thread client count free live waiting =>
      refine watchful.sent free rfl rfl (fun other differs => modify_other h differs _) ?_
        fun _ => waiting
      rw [atIo, modify_self, Connection.take]
  | sendFails thread client errno free live alive =>
      exact watchful.sent free rfl rfl (fun _ _ => rfl) rfl id
  | sendBreaks thread client free live waiting =>
      exact watchful.sent free rfl rfl (fun _ _ => rfl) rfl id
  | checkDrained thread client at_ drained calm => exact watchful.checkDrained at_ drained
  | checkOther thread client at_ other =>
      -- a drained buffer would have been noticed
      simp only [Undisturbed, at_] at undisturbed
      exact watchful.checkFilled at_ fun drained => undisturbed drained (other drained)
  | enableRead client at_ => exact watchful.enableRead at_
  | readShort thread client data free live =>
      refine watchful.reading (behind_idle free) (fun _ => rfl) rfl fun other => ?_
      rw [exportOf_output, receive_output]
  | readClosed thread client data free live | readAgain thread client data free live =>
      exact watchful.reading (behind_idle free) (fun other => (behind_idle free other).2) rfl
        (h.receive_output client data)
  | readFails thread client data errno free live =>
      refine watchful.reading (behind_idle free) (fun _ => rfl) rfl fun other => ?_
      rw [exportOf_output]
      exact h.receive_output client data other
  | pushEnd client at_ | pushUnknown client request rest at_ parsed
  | push client request rest command at_ parsed =>
      refine watchful.reading (fun other => ?_) (fun _ => rfl) rfl fun _ => rfl
      rw [at_]
      exact ⟨rfl, rfl⟩
  | pop client command rest free queued =>
      refine watchful.executing (fun other => ?_) rfl rfl
      rw [free]
      rfl
  | exec env client command outcome at_ executed =>
      refine watchful.executing (fun other => ?_) rfl rfl
      rw [at_]
      rfl
  | append client reply at_ live =>
      refine watchful.cmd_step client rfl (fun other differs => ⟨?_, modify_other h differs _⟩)
        fun settled => ?_
      · rw [at_]
        rfl
      · have behind : (CmdPhase.appended client).behindAppend client = true := beq_self_eq_true client
        exact absurd (settled.symm.trans behind) Bool.false_ne_true
  | appendGone client reply at_ gone =>
      refine watchful.executing (fun other => ?_) rfl rfl
      rw [at_]
      rfl
  | enableSend client at_ =>
      simp only [Undisturbed, at_] at undisturbed
      exact watchful.enableSend at_ undisturbed
  | expire index key inside => exact watchful

/-- In a run in which no `EnableSend` falls between the check of a drained buffer and its
`EnableRead`, or behind the sending of what it announces, and no drained buffer is checked
under a stale `EAGAIN`, a client that no thread is at work on is registered for output
exactly when there is some. -/
theorem interest_matches (server : Server) (events : List Event) {h : Handler}
    (undisturbed : Meets next Undisturbed (start server) events)
    (ran : run next (start server) events = some h) (client : Nat) (quiet : h.Quiet client) :
    (h.connections client).Matched :=
  (run_keeps Watchful (fun _ _ _ => next_watchful) (start_watchful server) undisturbed ran client
    quiet.2.2).matched quiet.1 quiet.2.1

/-- A client asks for a key that is not there, twice in one write. -/
def askTwice : Bytes := dump [bytes "GET", bytes "k"] ++ dump [bytes "GET", bytes "k"]

/-- A client connects, and both requests are read and queued. -/
def readTwo : List Event := [.connect, .read 0 0 askTwice .short, .push, .push, .push]

/-- The next request in the queue is answered. -/
def answerOne : List Event := [.pop, .exec quietEnv, .append, .enableSend]

theorem interest_matches_between :
    ∃ h, run next (start Server.initial)
        (readTwo ++ answerOne ++ [.send 0 0 (.wrote 5), .check, .enableRead] ++ answerOne) = some h ∧
      h.Quiet 0 ∧ (h.connections 0).interest = .output ∧
      (h.connections 0).sendBuffer = dump refused ∧ (h.connections 0).Matched := by
  obtain ⟨h, ran, quiet, interest, buffer⟩ : ∃ h, run next (start Server.initial)
      (readTwo ++ answerOne ++ [.send 0 0 (.wrote 5), .check, .enableRead] ++ answerOne) = some h ∧
      h.Quiet 0 ∧ (h.connections 0).interest = .output ∧
      (h.connections 0).sendBuffer = dump refused := run_checked (by decide +kernel)
  exact ⟨h, ran, quiet, interest, buffer,
    interest_matches Server.initial _ (by decide +kernel) ran 0 quiet⟩

/-- The second reply is announced while the io thread, which has sent the first, is about
to call `EnableRead`: the reply stays in the buffer of a client that is only read from.
And with an `EAGAIN` left from an earlier `recv`, a drained client is not read from. -/
theorem interest_mismatched :
    (∃ h, run next (start Server.initial)
        (readTwo ++ answerOne ++ [.send 0 0 (.wrote 5), .check] ++ answerOne ++ [.enableRead]) =
          some h ∧
      h.connected 0 = true ∧ h.Quiet 0 ∧ (h.connections 0).interest = .input ∧
      (h.connections 0).sendBuffer = dump refused ∧ ¬ (h.connections 0).Matched) ∧
    ∃ h, run next (start Server.initial)
        (readTwo ++ [.read 0 0 [] (.failed .again)] ++ answerOne ++
          [.send 0 0 (.wrote 5), .check]) = some h ∧
      h.connected 0 = true ∧ h.Quiet 0 ∧ (h.connections 0).interest = .output ∧
      (h.connections 0).sendBuffer = [] ∧ ¬ (h.connections 0).Matched :=
  ⟨run_checked (by decide +kernel), run_checked (by decide +kernel)⟩

end Handler

end ForkRedis
