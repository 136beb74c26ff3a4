import ForkRedis.Replay

set_option autoImplicit false

/- Requests whose parser sets `valid_` to false: what `Exec` still does with them. Seven of
the eight families ask for `valid_` first; `ServerCommand::Exec` does not. -/
namespace ForkRedis

open Decimal Fallible

/-- The request as the parsers see it: its first element in capitals. -/
def capitalised (request : Request) : Request :=
  request.head?.toList.map (List.map toUpper) ++ request.tail

/-- `valid_` as `JsonToServerCommand` leaves it. An address without a colon is marked, but
`command_` is already set. -/
def serverValid (name : ServerName) (source : Request) : Bool :=
  if name = .endForking then true
  else
    match jsonToBase source with
    | none => false
    | some info => colon ∈ info

/-- `valid_` as the parser of a family leaves it. -/
def parsedValid (source : Request) : CommandName → Bool
  | .server name => serverValid name source
  | .cli name => (jsonToCliCommand name source).valid
  | .db name => (jsonToDbCommand name source).valid
  | .str name => (jsonToStrCommand name source).valid
  | .list name => (jsonToListCommand name source).valid
  | .hash name => (jsonToHashCommand name source).valid
  | .set name => (jsonToSetCommand name source).valid
  | .zset name => (jsonToZSetCommand name source).valid

/-- The parser that `RequestToCommandExec` selects marks the command invalid. -/
def Rejected (request : Request) : Prop :=
  ∃ name, commandOf request = some name ∧ parsedValid (capitalised request) name = false

/-- The address that `connect()` is called with, if it is called at all. -/
def ServerCommand.connection (env : Env) (server : Server) (client : Nat) (c : ServerCommand) :
    Option Bytes :=
  match server.clients client, c.command with
  | some _, some .fork =>
      if env.network = .noSocket then none
      else some (c.ip ++ (colon :: toStringInt (c.port.getD env.unassigned).toInt32))
  | _, _ => none

/-- Only `FORK` reaches for another server. -/
def Command.connection (env : Env) (server : Server) (client : Nat) : Command → Option Bytes
  | .server c => c.connection env server client
  | _ => none

/-- The error reply and nothing else: the server stays as it is, no timer is handed out and
nobody is called. -/
def Command.DoesNothing (env : Env) (server : Server) (client : Nat) (command : Command) : Prop :=
  command.exec env server client = .ok ⟨server, some refused, []⟩ ∧
    command.connection env server client = none

namespace Command

variable {env : Env} {server : Server} {client : Nat}

theorem doesNothing_execValid {command : Command}
    (looks : command.exec env server client =
      server.execValid client command.valid (command.onDb env))
    (calls : command.connection env server client = none) (invalid : command.valid = false) :
    command.DoesNothing env server client := by
  refine ⟨?_, calls⟩
  rw [looks, Server.execValid, invalid, if_neg Bool.false_ne_true]

theorem doesNothing_cli {c : CliCommand} (invalid : c.valid = false) :
    (Command.cli c).DoesNothing env server client := by
  refine ⟨?_, rfl⟩
  rw [exec, Server.execCli, invalid]
  rfl

theorem doesNothing_db {name : DbName} {source : Request}
    (invalid : (jsonToDbCommand name source).valid = false) :
    (Command.db (jsonToDbCommand name source)).DoesNothing env server client := by
  have other : name ≠ .rewrite := by
    rintro rfl
    cases invalid
  have named : (jsonToDbCommand name source).command ≠ .rewrite := by
    rw [jsonToDbCommand, if_neg other, jsonToKeyCommand_command]
    exact other
  exact doesNothing_execValid (if_neg named) rfl invalid

/-- Without a `command_` the reply is `OK`, or nothing for a client that is gone. -/
theorem not_doesNothing_unnamed (ip : Bytes) (port : Option Int16) :
    ¬ (Command.server ⟨none, ip, port⟩).DoesNothing env server client := by
  rintro ⟨returned, -⟩
  rw [exec, Server.execServer] at returned
  cases attached : server.clients client with
  | none =>
      rw [attached] at returned
      cases returned
  | some index =>
      rw [attached] at returned
      have same : okReply = refused := by
        injection returned with outcome
        injection outcome with _ reply
        exact Option.some.inj reply
      exact absurd same (by decide)

theorem doesNothing_fork_iff (ip : Bytes) (port : Option Int16) :
    (Command.server ⟨some .fork, ip, port⟩).DoesNothing env server client ↔
      server.clients client ≠ none ∧ env.network = .noSocket := by
  rw [DoesNothing, exec, connection, Server.execServer, ServerCommand.connection]
  cases attached : server.clients client with
  | none =>
      refine ⟨fun nothing => ?_, fun met => absurd rfl met.1⟩
      cases nothing.1
  | some index =>
      by_cases failed : env.network = .noSocket
      · simp only [failed, ↓reduceIte, ne_eq, reduceCtorEq, not_false_eq_true, and_self]
      · simp only [failed, ↓reduceIte, reduceCtorEq, and_false]

end Command

/-- The request is not `FORK`; or it is `FORK` with an address, from a client that is still
there, and the server gets no socket to call out with. -/
def Spared (env : Env) (server : Server) (client : Nat) (request : Request) : Prop :=
  commandOf request = some (.server .fork) →
    2 ≤ request.length ∧ [] ∉ request ∧ server.clients client ≠ none ∧ env.network = .noSocket

theorem jsonToBase_isSome_iff (source : Request) :
    (jsonToBase source).isSome ↔ 2 ≤ source.length ∧ [] ∉ source := by
  match source with
  | [] | [_] => simp [jsonToBase]
  | first :: key :: args =>
      have nonempty : ((first :: key :: args).any List.isEmpty = true) ↔
          [] ∈ first :: key :: args := by
        simp only [List.any_eq_true, List.isEmpty_iff, exists_eq_right]
      rw [jsonToBase_cons]
      by_cases empty : (first :: key :: args).any List.isEmpty = true
      · simp [empty, nonempty.mp empty]
      · simp [empty, mt nonempty.mpr empty]

theorem capitalised_base (request : Request) :
    (2 ≤ (capitalised request).length ∧ [] ∉ capitalised request) ↔
      2 ≤ request.length ∧ [] ∉ request := by
  cases request with
  | nil => exact Iff.rfl
  | cons first rest => simp [capitalised]

/-- What is left of a rejected `FORK`: its name, if there is an address at all. -/
theorem toCommand_fork {source : Request} (invalid : serverValid .fork source = false) :
    toCommand source (.server .fork) =
      .ok (.server ⟨if (jsonToBase source).isSome then some .fork else none, [], none⟩) := by
  rw [serverValid, if_neg (by decide)] at invalid
  rw [toCommand, jsonToServerCommand, if_neg (by decide)]
  cases base : jsonToBase source with
  | none => rfl
  | some info =>
      rw [base] at invalid
      dsimp only
      rw [if_pos (of_decide_eq_false invalid)]
      rfl

theorem fork_doesNothing_iff {env : Env} {server : Server} {client : Nat} {source : Request}
    (invalid : serverValid .fork source = false) :
    (∃ command, toCommand source (.server .fork) = .ok command ∧
      command.DoesNothing env server client) ↔
      (jsonToBase source).isSome ∧ server.clients client ≠ none ∧ env.network = .noSocket := by
  simp only [toCommand_fork invalid, Except.ok.injEq, exists_eq_left']
  cases jsonToBase source with
  | none =>
      refine iff_of_false (Command.not_doesNothing_unnamed [] none) fun met => ?_
      exact Bool.false_ne_true met.1
  | some info => exact (Command.doesNothing_fork_iff [] none).trans (and_iff_right rfl).symm

/-- A rejected request has no effect and gets the error reply unless it is `FORK`, of which
only what fails at `socket()` goes unnoticed. -/
theorem Rejected.doesNothing_iff {request : Request} (rejected : Rejected request) (env : Env)
    (server : Server) (client : Nat) :
    (∃ command, requestToCommandExec request = .ok (some command) ∧
      command.DoesNothing env server client) ↔ Spared env server client request := by
  obtain ⟨name, named, invalid⟩ := rejected
  have parsed (command : Command) : requestToCommandExec request = .ok (some command) ↔
      toCommand (capitalised request) name = .ok command := by
    rw [requestToCommandExec_eq, named]
    refine bind_eq_ok.trans ⟨?_, fun built => ⟨command, built, rfl⟩⟩
    rintro ⟨other, built, returned⟩
    cases returned
    exact built
  simp only [parsed]
  -- away from `FORK` both sides hold
  have spared {command : Command} (built : toCommand (capitalised request) name = .ok command)
      (nothing : command.DoesNothing env server client) (other : name ≠ .server .fork) :
      (∃ command, toCommand (capitalised request) name = .ok command ∧
        command.DoesNothing env server client) ↔ Spared env server client request := by
    refine iff_of_true ⟨command, built, nothing⟩ fun fork => ?_
    exact absurd (Option.some.inj (named.symm.trans fork)) other
  cases name with
  | cli name => exact spared rfl (Command.doesNothing_cli invalid) (by simp)
  | db name => exact spared rfl (Command.doesNothing_db invalid) (by simp)
  | str name => exact spared rfl (Command.doesNothing_execValid rfl rfl invalid) (by simp)
  | list name => exact spared rfl (Command.doesNothing_execValid rfl rfl invalid) (by simp)
  | hash name => exact spared rfl (Command.doesNothing_execValid rfl rfl invalid) (by simp)
  | set name => exact spared rfl (Command.doesNothing_execValid rfl rfl invalid) (by simp)
  | zset name => exact spared rfl (Command.doesNothing_execValid rfl rfl invalid) (by simp)
  | server name =>
      cases name with
      | endForking => cases invalid
      | fork =>
          rw [fork_doesNothing_iff invalid, jsonToBase_isSome_iff, capitalised_base, Spared,
            named, and_assoc]
          exact ⟨fun met _ => met, fun met => met rfl⟩

/-- A `SET` without a value. -/
theorem Rejected.doesNothing_iff_set :
    Rejected [bytes "SET", bytes "k"] ∧
      ∃ command, requestToCommandExec [bytes "SET", bytes "k"] = .ok (some command) ∧
        command.DoesNothing quietEnv Server.oneClient 0 := by
  have rejected : Rejected [bytes "SET", bytes "k"] :=
    ⟨.str .set, by decide +kernel, by decide +kernel⟩
  have other : commandOf [bytes "SET", bytes "k"] ≠ some (.server .fork) := by decide +kernel
  exact ⟨rejected, (rejected.doesNothing_iff quietEnv Server.oneClient 0).mpr
    fun fork => absurd fork other⟩

/-- `FORK` alone is answered with `OK`. `FORK x` calls an address made of an empty host and
whatever the port holds. -/
theorem Rejected.not_doesNothing :
    Server.oneClient.Reachable ∧ Rejected [bytes "FORK"] ∧ Rejected [bytes "FORK", bytes "x"] ∧
    (∃ command, requestToCommandExec [bytes "FORK"] = .ok (some command) ∧
      (command.exec quietEnv Server.oneClient 0).toOption.map Outcome.reply =
        some (some okReply) ∧
      ¬ command.DoesNothing quietEnv Server.oneClient 0) ∧
    ∃ command, requestToCommandExec [bytes "FORK", bytes "x"] = .ok (some command) ∧
      command.connection quietEnv Server.oneClient 0 = some (bytes ":0") ∧
      ¬ command.DoesNothing quietEnv Server.oneClient 0 := by
  refine ⟨Server.oneClient_reachable, ⟨.server .fork, by decide +kernel, by decide +kernel⟩,
    ⟨.server .fork, by decide +kernel, by decide +kernel⟩, ?_, ?_⟩
  · exact ⟨.server ⟨none, [], none⟩, by decide +kernel, by decide +kernel,
      Command.not_doesNothing_unnamed [] none⟩
  · refine ⟨.server ⟨some .fork, [], none⟩, by decide +kernel, by decide +kernel, ?_⟩
    rw [Command.doesNothing_fork_iff]
    exact fun met => absurd met.2 (by decide)

end ForkRedis
