import ForkRedis.Turns

set_option autoImplicit false

/- What a client is sent: the replies to its requests, each once and in order. -/
namespace ForkRedis

open Lists Fallible Machine Json11

/-- A turn of a client: the command and what it was answered. -/
def Turn.answer (client : Nat) : Turn → Option (Command × Option Reply)
  | .request _ other command reply => if other = client then some (command, reply) else none
  | .connect _ | .expire _ _ => none

/-- The turn is what `Exec` made of the popped command in this step: its reply is the one that
`Exec` returned for the server there was, and the server behind the step the one it left. -/
def Turn.Executed (turn : Turn) : Handler × Handler.Event × Handler → Prop
  | (before, event, after) => ∃ env client command timers reply,
      turn = .request env client command reply ∧ event = .exec env ∧
        before.cmd = .popped client command ∧
        command.exec env before.server client = .ok ⟨after.server, reply, timers⟩

/-- The reply that was given to a client and is not in its buffer yet. -/
def CmdPhase.unsent (client : Nat) : CmdPhase → Bytes
  | .executed other reply => if other = client then dump reply else []
  | .idle | .popped _ _ | .appended _ => []

/-- What has been sent and what is in the buffer. -/
def Connection.stream (connection : Connection) : Bytes := connection.sent ++ connection.sendBuffer

theorem Connection.stream_append (reply : Reply) (connection : Connection) :
    (connection.append reply).stream = connection.stream ++ dump reply := by
  rw [append, stream, stream, List.append_assoc]

/-- The commands of one client. -/
def ownCommand (client : Nat) (entry : Nat × Command) : Option Command :=
  if entry.1 = client then some entry.2 else none

namespace Handler

variable {h after : Handler} {client : Nat}

def answers (h : Handler) (client : Nat) : List (Command × Option Reply) :=
  h.turns.filterMap (Turn.answer client)

/-- Every request of a client that was executed has a reply, and the replies are what was
sent to it, what is in its buffer and what is on its way there. -/
def Answered (h : Handler) (client : Nat) (replies : List Reply) : Prop :=
  (h.answers client).map Prod.snd = replies.map some ∧
    (h.connections client).stream ++ h.cmd.unsent client = replies.flatMap dump

theorem answers_append (h : Handler) (client : Nat) (turn : Turn) :
    (h.turns ++ [turn]).filterMap (Turn.answer client) =
      h.answers client ++ (turn.answer client).toList := by
  rw [List.filterMap_append, answers]
  cases turned : turn.answer client with
  | none => rw [List.filterMap_cons_none turned]; rfl
  | some answer => rw [List.filterMap_cons_some turned]; rfl

theorem ownCommand_command (client : Nat) (turn : Turn) :
    turn.command.bind (ownCommand client) = (turn.answer client).map Prod.fst := by
  cases turn with
  | connect | expire => rfl
  | request env other command reply =>
      rw [Turn.command, Turn.answer, Option.bind_some, ownCommand]
      split <;> rfl

/-- The commands that were answered are those of the client that were performed. -/
theorem answers_commands (h : Handler) (client : Nat) :
    (h.answers client).map Prod.fst = h.performed.filterMap (ownCommand client) := by
  rw [answers, performed, List.filterMap_filterMap, List.map_filterMap]
  congr 1
  funext turn
  exact (ownCommand_command client turn).symm

/-- Numbers are given in the order in which clients are accepted. -/
structure Known (h : Handler) : Prop where
  connected : ∀ client, h.connected client = true → client < h.clients
  exported : ∀ message ∈ h.exported, message.1 < h.clients
  executed : ∀ client reply, h.cmd = .executed client reply → client < h.clients

/-- A command that is not pushed any more stems from a message. -/
theorem Known.performed (known : h.Known) (accounted : h.Accounted) {entry : Nat × Command}
    (member : entry ∈ h.performed ++ h.cmd.inHand) : entry.1 < h.clients := by
  have listed : entry ∈ h.exported.filterMap recognised := by
    rw [Accounted.eq_1] at accounted
    rw [accounted, ← List.append_assoc]
    exact List.mem_append_left _ member
  obtain ⟨message, exported, turned⟩ := List.mem_filterMap.mp listed
  have same : message.1 = entry.1 := by
    rw [recognised] at turned
    split at turned
    · cases turned
      rfl
    · cases turned
  rw [← same]
  exact known.exported message exported

theorem Known.frame {h after : Handler} (known : h.Known)
    (connected : ∀ client, after.connected client = true → h.connected client = true)
    (clients : after.clients = h.clients) (exported : after.exported = h.exported)
    (executed : ∀ client reply, after.cmd = .executed client reply →
      h.cmd = .executed client reply) : after.Known := by
  refine ⟨fun client there => ?_, fun message member => ?_, fun client reply ran => ?_⟩
  · rw [clients]
    exact known.connected client (connected client there)
  · rw [clients]
    exact known.exported message (exported ▸ member)
  · rw [clients]
    exact known.executed client reply (executed client reply ran)

theorem Known.exportOf (known : h.Known) (live : h.connected client = true) :
    (h.exportOf client).Known := by
  refine ⟨known.connected, fun message member => ?_, known.executed⟩
  rcases List.mem_append.mp member with old | new
  · exact known.exported message old
  · obtain ⟨request, -, rfl⟩ := List.mem_map.mp new
    exact known.connected client live

/-- A client that has not been accepted has been answered nothing. -/
theorem Known.answers (known : h.Known) (accounted : h.Accounted) (later : h.clients ≤ client) :
    h.answers client = [] := by
  have none : h.performed.filterMap (ownCommand client) = [] := by
    rw [List.filterMap_eq_nil_iff]
    intro entry member
    have earlier := known.performed accounted (List.mem_append_left _ member)
    exact if_neg (by omega)
  rw [← List.map_eq_nil_iff (f := Prod.fst), answers_commands, none]

theorem Answered.frame {replies : List Reply} (answered : h.Answered client replies)
    (turns : after.answers client = h.answers client)
    (unsent : after.cmd.unsent client = h.cmd.unsent client)
    (stream : (after.connections client).stream = (h.connections client).stream) :
    after.Answered client replies := by
  rw [Answered, turns, unsent, stream]
  exact answered

/-- The command thread has a reply for the client of the command. -/
theorem Answered.exec {env : Env} {client other : Nat} {command : Command} {outcome : Outcome}
    {replies : List Reply} (answered : h.Answered other replies)
    (at_ : h.cmd = .popped client command)
    (executed : command.exec env h.server client = .ok outcome)
    (there : (h.answer env client command outcome).connected other = true) :
    ∃ replies', (h.answer env client command outcome).Answered other replies' := by
  have serves := Server.exec_serves executed
  rw [Answered, at_] at answered
  obtain ⟨paired, streamed⟩ := answered
  have more : (h.answer env client command outcome).answers other =
      h.answers other ++ ((Turn.request env client command outcome.reply).answer other).toList :=
    h.answers_append other (.request env client command outcome.reply)
  by_cases same : client = other
  · subst same
    have present : h.server.clients client ≠ none := by
      intro gone
      rw [connected, answer, serves.gone gone] at there
      cases there
    obtain ⟨reply, given⟩ := Option.ne_none_iff_exists'.mp (serves.answered present)
    refine ⟨replies ++ [reply], ?_, ?_⟩
    · rw [more, Turn.answer, if_pos rfl, List.map_append, paired, given, List.map_append]
      rfl
    · rw [CmdPhase.unsent, List.append_nil] at streamed
      simp only [answer, given, Option.elim_some, CmdPhase.unsent, ↓reduceIte, streamed,
        List.flatMap_append, List.flatMap_cons, List.flatMap_nil, List.append_nil]
  · refine ⟨replies, ?_, ?_⟩
    · rw [more, Turn.answer, if_neg same]
      exact (congrArg _ (List.append_nil _)).trans paired
    · have quiet : (h.answer env client command outcome).cmd.unsent other = [] := by
        rw [answer]
        cases outcome.reply with
        | none => rfl
        | some reply => exact if_neg same
      rw [quiet]
      exact streamed

/-- A reply that was held by the command thread is in the buffer. -/
theorem Answered.append {client other : Nat} {reply : Reply} {replies : List Reply}
    (answered : h.Answered client replies) (at_ : h.cmd = .executed other reply) :
    ((h.modify other (Connection.append reply)).atCmd (.appended other)).Answered client replies := by
  obtain ⟨paired, streamed⟩ := answered
  refine ⟨paired, ?_⟩
  rw [at_] at streamed
  by_cases same : client = other
  · subst same
    rw [CmdPhase.unsent, if_pos rfl] at streamed
    change ((h.modify client (Connection.append reply)).connections client).stream ++ [] = _
    rw [modify_self, Connection.stream_append, List.append_nil]
    exact streamed
  · rw [CmdPhase.unsent, if_neg (Ne.symm same)] at streamed
    change ((h.modify other (Connection.append reply)).connections client).stream ++ [] = _
    rw [modify_other h same]
    exact streamed

end Handler

end ForkRedis
