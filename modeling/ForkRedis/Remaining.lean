import ForkRedis.Expiry
import ForkRedis.Persistence

set_option autoImplicit false

/- `WHEN`: how much time a key has left, in runs of commands and timers. -/
namespace ForkRedis.Timed

open Lists Fallible Machine

/-- A client asks `WHEN` for a key of its database that is there and expires. -/
def Asks (state : Timed) (client : Nat) (request : Request) (time : UInt64) : Prop :=
  ∃ (c : DbCommand) (index : Nat) (db : Db) (kv : KeyValue),
    requestToCommandExec request = .ok (some (.db c)) ∧ c.command = .when ∧ c.valid = true ∧
    state.server.clients client = some index ∧ state.server.databases[index]? = some db ∧
    db.keyValueMap.find c.objName = some kv ∧ kv.expireTimeUs = some time

/-- The reply to a request that a state would give. -/
def replyTo (state : Timed) (env : Env) (client : Nat) (request : Request) :
    Except Fault (Option Reply) := do
  match ← requestToCommandExec request with
  | none => return none
  | some command => return (← command.exec env state.server client).reply

/-- If the event is a `WHEN` for a key that expires, it is answered with the time that is
left, in units of 990000 microseconds, and the difference it is computed from does not
wrap. -/
def TellsTime (state : Timed) : Event → Prop
  | .start env client request => ∀ time, state.Asks client request time →
      state.replyTo env client request =
          .ok (some [toStringSize ((time.toNat - env.now.toNat) / 990000)]) ∧
        (time - env.now).toNat + env.now.toNat = time.toNat
  | _ => True

/-- If the event is a `WHEN` for a key that expires, the clock has not passed its time. -/
def InTime (state : Timed) : Event → Prop
  | .start env client request => ∀ time, state.Asks client request time → env.now ≤ time
  | _ => True

theorem Asks.replyTo_eq {state : Timed} {client : Nat} {request : Request} {time : UInt64}
    (asks : state.Asks client request time) (env : Env) :
    state.replyTo env client request =
      .ok (some [toStringSize ((time - env.now) / 990000).toNat]) := by
  obtain ⟨⟨valid, name, key, value⟩, index, db, kv, parsed, rfl, rfl, inside, there, found,
    expires⟩ := asks
  have answered : db.whenExpire key env.now = toStringSize ((time - env.now) / 990000).toNat := by
    simp only [Db.whenExpire, found, expires]
  have executed : Command.exec env state.server client (.db ⟨true, .when, key, value⟩) =
      .ok ⟨state.server.setDatabase index db, some [db.whenExpire key env.now], []⟩ := by
    simp only [Command.exec, Server.execValid, Command.valid, Server.onClientDb, inside, there,
      Command.onDb, DbCommand.exec]
    rfl
  rw [replyTo, parsed, ok_bind]
  dsimp only
  rw [executed, ok_bind, answered]
  rfl

/-- The subtraction is exact when it is from the larger number. -/
theorem sub_exact_iff (time now : UInt64) :
    (time - now).toNat + now.toNat = time.toNat ↔ now ≤ time := by
  constructor
  · intro exact
    exact UInt64.le_iff_toNat_le.mpr (by omega)
  · intro ordered
    have below := UInt64.le_iff_toNat_le.mp ordered
    rw [UInt64.toNat_sub_of_le _ _ ordered, Nat.sub_add_cancel below]

theorem tellsTime_iff (state : Timed) (event : Event) :
    state.TellsTime event ↔ state.InTime event := by
  cases event with
  | start env client request =>
      constructor
      · exact fun tells time asks => (sub_exact_iff time env.now).mp (tells time asks).2
      · intro inTime time asks
        have ordered := inTime time asks
        refine ⟨?_, (sub_exact_iff time env.now).mpr ordered⟩
        rw [asks.replyTo_eq env, UInt64.toNat_div, UInt64.toNat_sub_of_le _ _ ordered]
        rfl
  | _ => exact Iff.rfl

/-- In a run of commands and timers each `WHEN` tells the time that is left, by a difference
that does not wrap, exactly when none is executed after the time of its key. -/
theorem when_tells_time_iff (server : Server) (now : UInt64) (events : List Event) :
    Meets next TellsTime (idle server now) events ↔ Meets next InTime (idle server now) events :=
  meets_congr tellsTime_iff (idle server now) events

/-- A key is set, and is given a time that has passed. The timer is not popped yet. -/
def expired : List Event :=
  let env := { quietEnv with now := 5000000 }
  [.start env 0 [bytes "SET", bytes "k", bytes "v"], .update, .update,
    .start env 0 [bytes "EXPIRE", bytes "k", bytes "1"], .update, .push]

/-- The answer is more than half a million years. -/
theorem when_wraps :
    ∃ state, run next (idle Server.oneClient 5000000) expired = some state ∧
      state.queue = [(0, ⟨bytes "k", 1⟩)] ∧
      state.replyTo { quietEnv with now := 5000000 } 0 [bytes "WHEN", bytes "k"] =
        .ok (some [bytes "18633074821923"]) ∧
      ¬ state.TellsTime (.start { quietEnv with now := 5000000 } 0 [bytes "WHEN", bytes "k"]) := by
  obtain ⟨state, ran, queue, inside, expires⟩ : ∃ state,
      run next (idle Server.oneClient 5000000) expired = some state ∧
      state.queue = [(0, ⟨bytes "k", 1⟩)] ∧ state.server.clients 0 = some 0 ∧
      (state.server.databases[0]?.bind fun db => (db.keyValueMap.find (bytes "k")).bind
        (·.expireTimeUs)) = some 1 := run_checked (by decide +kernel)
  obtain ⟨db, there, found⟩ := Option.bind_eq_some_iff.mp expires
  obtain ⟨kv, found, expires⟩ := Option.bind_eq_some_iff.mp found
  have asks : state.Asks 0 [bytes "WHEN", bytes "k"] 1 := by
    refine ⟨⟨true, .when, bytes "k", none⟩, 0, db, kv, ?_, rfl, rfl, inside, there, found, expires⟩
    decide +kernel
  refine ⟨state, ran, queue, ?_, fun tells => ?_⟩
  · rw [asks.replyTo_eq]
    decide +kernel
  · have late := (tellsTime_iff state _).mp tells 1 asks
    revert late
    decide

end ForkRedis.Timed
