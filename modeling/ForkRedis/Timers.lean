import ForkRedis.Persistence
import ForkRedis.Updates
import ForkRedis.Lib.Machine

set_option autoImplicit false

/- The command thread and the timer thread. A `DbExpireTimer` remembers a key and no more,
so what it deletes is whatever is stored under the key by then. -/
namespace ForkRedis

open Lists Fallible Machine

namespace Server

/-- A command as the command thread begins it: what concerns the server happens at once,
and the updates of a database are still to be made. -/
def begin (env : Env) (server : Server) (client : Nat) (command : Command) :
    Except Fault (Server × List (Nat × Update)) :=
  match command with
  | .server _ | .cli _ => do
      let outcome ← command.exec env server client
      return (outcome.server, [])
  | .db _ | .str _ | .list _ | .hash _ | .set _ | .zset _ =>
      if command.valid then
        match server.clients client with
        | none => .ok (server, [])
        | some index =>
            match server.databases[index]? with
            | none => .error .undefined
            | some db => do
                let updates ← command.updates env db
                return (server, updates.map (Prod.mk index))
      else .ok (server, [])

/-- An update of the database at a position. -/
def update (server : Server) (u : Nat × Update) : Server :=
  match server.databases[u.1]? with
  | none => server
  | some db => server.setDatabase u.1 (u.2.apply db)

theorem foldl_update {server : Server} {index : Nat} {db : Db}
    (there : server.databases[index]? = some db) (updates : List Update) :
    (updates.map (Prod.mk index)).foldl update server =
      server.setDatabase index (updates.foldl Update.apply db) := by
  induction updates generalizing server db with
  | nil => exact (setDatabase_same there).symm
  | cons u updates ih =>
      have inside := (List.getElem?_eq_some_iff.mp there).1
      have step : server.update (index, u) = server.setDatabase index (u.apply db) := by
        simp only [update, there]
      have next : (server.setDatabase index (u.apply db)).databases[index]? = some (u.apply db) :=
        List.getElem?_set_self inside
      rw [List.map_cons, List.foldl_cons, step, ih next, setDatabase_setDatabase, List.foldl_cons]

/-- If no other thread comes in between, a command that was begun ends as `Exec` says. -/
theorem begin_exec {env : Env} {server server' : Server} {client : Nat} {command : Command}
    {updates : List (Nat × Update)}
    (begun : server.begin env client command = .ok (server', updates)) :
    ∃ outcome, command.exec env server client = .ok outcome ∧
      outcome.server = updates.foldl update server' := by
  have onData (data : (if command.valid then
        match server.clients client with
        | none => .ok (server, [])
        | some index =>
            match server.databases[index]? with
            | none => .error .undefined
            | some db => do
                let updates ← command.updates env db
                return (server, updates.map (Prod.mk index))
      else .ok (server, []) : Except Fault (Server × List (Nat × Update))) = .ok (server', updates)) :
      ∃ outcome, server.execValid client command.valid (command.onDb env) = .ok outcome ∧
        outcome.server = updates.foldl update server' := by
    rw [execValid]
    split at data
    · rename_i valid
      rw [if_pos valid, onClientDb]
      cases attached : server.clients client with
      | none =>
          simp only [attached] at data
          cases data
          exact ⟨_, rfl, rfl⟩
      | some index =>
          simp only [attached] at data
          cases there : server.databases[index]? with
          | none =>
              simp only [there] at data
              cases data
          | some db =>
              simp only [there] at data
              obtain ⟨made, traced, result⟩ := bind_eq_ok.mp data
              cases result
              have ends := command.updates_onDb env db
              rw [traced] at ends
              cases ran : command.onDb env db with
              | error fault =>
                  rw [ran] at ends
                  cases ends
              | ok answer =>
                  rw [ran] at ends
                  simp only [there, ran, ok_bind, pure_eq_ok]
                  have last : made.foldl Update.apply db = answer.1 := Except.ok.inj ends
                  exact ⟨_, rfl, by rw [foldl_update there, last]⟩
    · rename_i invalid
      cases data
      rw [if_neg invalid]
      exact ⟨_, rfl, rfl⟩
  cases command with
  | server c | cli c =>
      obtain ⟨outcome, executed, result⟩ := bind_eq_ok.mp begun
      cases result
      exact ⟨outcome, executed, rfl⟩
  | db c =>
      rw [Command.exec]
      split
      · -- `REWRITE` leaves the databases alone, as a command without updates does
        rename_i rewriting
        obtain ⟨outcome, executed, ends⟩ := onData begun
        have same : outcome.server = server := by
          rw [execValid] at executed
          split at executed
          · rcases onClientDb_cases executed with ⟨-, rfl⟩ | ⟨index, db, db', reply, timer, -, there, ran, rfl⟩
            · rfl
            · simp only [Command.onDb, DbCommand.exec, rewriting] at ran
              cases ran
              exact setDatabase_same there
          · cases executed
            rfl
        rw [← ends, same]
        split
        · exact ⟨_, rfl, rfl⟩
        · exact ⟨_, rfl, rfl⟩
      · exact onData begun
  | str c | list c | hash c | set c | zset c => exact onData begun

theorem execServer_grows (env : Env) (server : Server) (client : Nat) (c : ServerCommand) :
    Grows server (server.execServer env client c).server := by
  obtain ⟨reply, -, same | ⟨-, -, left⟩⟩ := server.execServer_cases env client c
  · exact same ▸ Grows.refl server
  · exact left ▸ Grows.refl server

theorem begin_grows {env : Env} {server server' : Server} {client : Nat} {command : Command}
    {updates : List (Nat × Update)}
    (returned : server.begin env client command = .ok (server', updates)) :
    Grows server server' := by
  unfold begin at returned
  split at returned
  · obtain ⟨outcome, executed, result⟩ := bind_eq_ok.mp returned
    cases result
    cases executed
    exact execServer_grows env server client _
  · obtain ⟨outcome, executed, result⟩ := bind_eq_ok.mp returned
    cases result
    exact execCli_grows executed
  all_goals
    split at returned
    · split at returned
      · cases returned
        exact Grows.refl server
      · split at returned
        · cases returned
        · obtain ⟨made, -, result⟩ := bind_eq_ok.mp returned
          cases result
          exact Grows.refl server
    · cases returned
      exact Grows.refl server

end Server

/-- The entries an update leaves: those that were there with the expiry they had, the one
it creates, and the one whose expiry it sets. -/
theorem Update.find_apply {db : Db} {u : Update} {name : Bytes} {kv : KeyValue}
    (found : (u.apply db).keyValueMap.find name = some kv) :
    (∃ before, db.keyValueMap.find name = some before ∧ kv.expireTimeUs = before.expireTimeUs) ∨
    (∃ object, u = .insert name object ∧ kv.expireTimeUs = none) ∨
    (∃ time, u = .expire name time ∧ kv.expireTimeUs = some time) := by
  cases u with
  | insert key object =>
      rw [apply, Db.newObject, Keyed.find_insert] at found
      by_cases same : key = name
      · have named : Entry.name (⟨Str.ofData key, object, none⟩ : KeyValue) = name := same
        rw [if_pos named, Option.some.injEq] at found
        cases there : db.keyValueMap.find name with
        | some before =>
            rw [there, Option.getD_some] at found
            exact Or.inl ⟨before, rfl, by rw [found]⟩
        | none =>
            rw [there, Option.getD_none] at found
            exact Or.inr (Or.inl ⟨object, by rw [same], by rw [← found]⟩)
      · have differs : Entry.name (⟨Str.ofData key, object, none⟩ : KeyValue) ≠ name := same
        rw [if_neg differs] at found
        exact Or.inl ⟨kv, found, rfl⟩
  | write key object =>
      rw [apply, Db.find_store] at found
      split at found
      · obtain ⟨before, there, rfl⟩ := Option.map_eq_some_iff.mp found
        exact Or.inl ⟨before, there, rfl⟩
      · exact Or.inl ⟨kv, found, rfl⟩
  | erase key =>
      rw [apply, Db.del, Keyed.find_erase] at found
      split at found
      · cases found
      · exact Or.inl ⟨kv, found, rfl⟩
  | expire key time =>
      rw [apply, Db.find_makeExpireAt] at found
      split at found
      · rename_i same
        obtain ⟨before, there, rfl⟩ := Option.map_eq_some_iff.mp found
        exact Or.inr (Or.inr ⟨time, by rw [same], rfl⟩)
      · exact Or.inl ⟨kv, found, rfl⟩

/-- A timer and the position of its database. -/
abbrev KeyTimer := Nat × ExpireTimer

/-- The command thread is in the middle of a command while `running` lists updates it has
still to make, or `ExpireAt` has handed it a timer that is not in the queue yet. The timer
thread holds the timer it popped. -/
structure Timed where
  server : Server
  now : UInt64
  running : List (Nat × Update)
  handed : Option KeyTimer
  queue : List KeyTimer
  popped : Option KeyTimer

namespace Timed

inductive Event where
  | tick (now : UInt64)
  | connect (client : Nat)
  | disconnect (client : Nat)
  | start (env : Env) (client : Nat) (request : Request)
  | update
  | push
  | pop (position : Nat)
  | fire

/-- No timer is there and no command runs. -/
def idle (server : Server) (now : UInt64) : Timed := ⟨server, now, [], none, [], none⟩

/-- The timer `ExpireAt` returns for an update that sets an expiry. -/
def timerOf (index : Nat) (db : Db) : Update → Option KeyTimer
  | .expire key time => (db.expireAt key time).2.map (Prod.mk index)
  | _ => none

def next (state : Timed) : Event → Option Timed
  | .tick now => if state.now ≤ now then some { state with now := now } else none
  | .connect client =>
      match state.server.clients client with
      | none => some { state with server := state.server.attach client 0 state.server.filled }
      | some _ => none
  | .disconnect client => some { state with server := state.server.detach client }
  | .start env client request =>
      if state.running.isEmpty && state.handed.isNone then
        match requestToCommandExec request with
        | .ok (some command) =>
            match state.server.begin env client command with
            | .ok (server, updates) => some { state with server := server, running := updates }
            | .error _ => none
        | _ => none
      else none
  | .update =>
      match state.running, state.handed with
      | (index, u) :: rest, none =>
          match state.server.databases[index]? with
          | none => none
          | some db => some { state with
              server := state.server.setDatabase index (u.apply db)
              running := rest
              handed := timerOf index db u }
      | _, _ => none
  | .push =>
      match state.handed with
      | none => none
      | some timer => some { state with handed := none, queue := timer :: state.queue }
  | .pop position =>
      match state.popped, state.queue[position]? with
      | none, some timer =>
          -- the top of the priority queue, once its time has come
          if timer.2.expireTimeUs ≤ state.now &&
              state.queue.all (fun other => timer.2.expireTimeUs ≤ other.2.expireTimeUs) then
            some { state with queue := state.queue.eraseIdx position, popped := some timer }
          else none
      | _, _ => none
  | .fire =>
      match state.popped with
      | none => none
      | some timer =>
          match state.server.databases[timer.1]? with
          | none => none
          | some db => some { state with
              server := state.server.setDatabase timer.1 (db.del timer.2.objName).1
              popped := none }

/-- Everything an event can do. -/
inductive Step (state : Timed) : Event → Timed → Prop where
  | tick (now : UInt64) (later : state.now ≤ now) : Step state (.tick now) { state with now := now }
  | connect (client : Nat) (new : state.server.clients client = none) :
      Step state (.connect client)
        { state with server := state.server.attach client 0 state.server.filled }
  | disconnect (client : Nat) :
      Step state (.disconnect client) { state with server := state.server.detach client }
  | start (env : Env) (client : Nat) (request : Request) (command : Command) (server : Server)
      (updates : List (Nat × Update)) (free : state.handed = none)
      (parsed : requestToCommandExec request = .ok (some command))
      (begun : state.server.begin env client command = .ok (server, updates)) :
      Step state (.start env client request) { state with server := server, running := updates }
  | update (index : Nat) (u : Update) (rest : List (Nat × Update)) (db : Db)
      (running : state.running = (index, u) :: rest) (free : state.handed = none)
      (there : state.server.databases[index]? = some db) :
      Step state .update { state with
        server := state.server.setDatabase index (u.apply db)
        running := rest
        handed := timerOf index db u }
  | push (timer : KeyTimer) (handed : state.handed = some timer) :
      Step state .push { state with handed := none, queue := timer :: state.queue }
  | pop (position : Nat) (timer : KeyTimer) (free : state.popped = none)
      (chosen : state.queue[position]? = some timer) (due : timer.2.expireTimeUs ≤ state.now) :
      Step state (.pop position)
        { state with queue := state.queue.eraseIdx position, popped := some timer }
  | fire (timer : KeyTimer) (db : Db) (popped : state.popped = some timer)
      (there : state.server.databases[timer.1]? = some db) :
      Step state .fire { state with
        server := state.server.setDatabase timer.1 (db.del timer.2.objName).1
        popped := none }

theorem next_step {state after : Timed} {event : Event} (stepped : state.next event = some after) :
    state.Step event after := by
  cases event with
  | tick now =>
      rw [next] at stepped
      split at stepped
      · rename_i later
        cases stepped
        exact .tick now later
      · cases stepped
  | connect client =>
      rw [next] at stepped
      split at stepped
      · rename_i new
        cases stepped
        exact .connect client new
      · cases stepped
  | disconnect client =>
      cases stepped
      exact .disconnect client
  | start env client request =>
      simp only [next] at stepped
      split at stepped
      · rename_i free
        split at stepped
        · rename_i command parsed
          split at stepped
          · rename_i server updates begun
            cases stepped
            have idle := Option.isNone_iff_eq_none.mp (Bool.and_eq_true_iff.mp free).2
            exact .start env client request command server updates idle parsed begun
          · cases stepped
        · cases stepped
      · cases stepped
  | update =>
      simp only [next] at stepped
      split at stepped
      · rename_i index u rest running free
        split at stepped
        · cases stepped
        · rename_i db there
          cases stepped
          exact .update index u rest db running free there
      · cases stepped
  | push =>
      simp only [next] at stepped
      split at stepped
      · cases stepped
      · rename_i timer handed
        cases stepped
        exact .push timer handed
  | pop position =>
      simp only [next] at stepped
      split at stepped
      · rename_i timer free chosen
        split at stepped
        · rename_i top
          cases stepped
          exact .pop position timer free chosen (of_decide_eq_true (Bool.and_eq_true_iff.mp top).1)
        · cases stepped
      · cases stepped
  | fire =>
      simp only [next] at stepped
      split at stepped
      · cases stepped
      · rename_i timer popped
        split at stepped
        · cases stepped
        · rename_i db there
          cases stepped
          exact .fire timer db popped there

/-- The timers that have not fired yet. -/
def outstanding (state : Timed) : List KeyTimer :=
  state.handed.toList ++ (state.popped.toList ++ state.queue)

/-- An update that no outstanding timer can come in the way of: a key is not created while
a timer waits for its name, and an expiry is not put off beyond a timer that is set. -/
def Harmless (state : Timed) (index : Nat) : Update → Prop
  | .insert key _ => ∀ timer ∈ state.outstanding, timer.1 = index → timer.2.objName ≠ key
  | .expire key time => ∀ timer ∈ state.outstanding, timer.1 = index → timer.2.objName = key →
      time ≤ timer.2.expireTimeUs
  | .write _ _ | .erase _ => True

/-- The next update of the command thread is harmless. -/
def Careful (state : Timed) : Event → Prop
  | .update => ∀ index u, state.running.head? = some (index, u) → state.Harmless index u
  | _ => True

/-- The entry under the name of a timer, if there is one, expires at the time of the timer
at the latest. -/
def Covered (databases : List Db) (timer : KeyTimer) : Prop :=
  ∀ db kv, databases[timer.1]? = some db → db.keyValueMap.find timer.2.objName = some kv →
    ∃ time, kv.expireTimeUs = some time ∧ time ≤ timer.2.expireTimeUs

/-- The entry that the popped timer is about to delete has expired. -/
def Lapsed (state : Timed) : Prop :=
  ∀ timer db kv, state.popped = some timer → state.server.databases[timer.1]? = some db →
    db.keyValueMap.find timer.2.objName = some kv →
    ∃ time, kv.expireTimeUs = some time ∧ time ≤ state.now

structure Invariant (state : Timed) : Prop where
  covered : ∀ timer ∈ state.outstanding, Covered state.server.databases timer
  due : ∀ timer, state.popped = some timer → timer.2.expireTimeUs ≤ state.now

theorem idle_invariant (server : Server) (now : UInt64) : (idle server now).Invariant :=
  ⟨fun _ member => absurd member List.not_mem_nil, nofun⟩

theorem Invariant.lapsed {state : Timed} (invariant : state.Invariant) : state.Lapsed := by
  intro timer db kv popped there found
  have member : timer ∈ state.outstanding := by
    rw [outstanding, popped]
    exact List.mem_append_right _ (List.mem_append_left _ List.mem_cons_self)
  obtain ⟨time, expires, early⟩ := invariant.covered timer member db kv there found
  exact ⟨time, expires, UInt64.le_trans early (invariant.due timer popped)⟩

theorem Covered.grows {before after : Server} (grows : before.Grows after) {timer : KeyTimer}
    (covered : Covered before.databases timer) : Covered after.databases timer := by
  intro db kv there found
  rcases grows timer.1 db there with old | new
  · exact covered db kv old found
  · rw [new] at found
    cases found

/-- Another database in its place: what has to be shown is about the entry of the timer. -/
theorem Covered.set {databases : List Db} {index : Nat} {db' : Db} {timer : KeyTimer}
    (covered : Covered databases timer)
    (entry : timer.1 = index → ∀ kv, db'.keyValueMap.find timer.2.objName = some kv →
      ∃ time, kv.expireTimeUs = some time ∧ time ≤ timer.2.expireTimeUs) :
    Covered (databases.set index db') timer := by
  intro db kv there found
  by_cases same : timer.1 = index
  · rw [same, List.getElem?_set, if_pos rfl] at there
    split at there
    · cases there
      exact entry same kv found
    · cases there
  · rw [List.getElem?_set_ne (Ne.symm same)] at there
    exact covered db kv there found

theorem mem_outstanding {state : Timed} {timer : KeyTimer} :
    timer ∈ state.outstanding ↔
      state.handed = some timer ∨ state.popped = some timer ∨ timer ∈ state.queue := by
  simp only [outstanding, List.mem_append, Option.mem_toList]

/-- A harmless update keeps every timer covered, and the timer it may hand over is. -/
theorem Invariant.update {state : Timed} (invariant : state.Invariant) {index : Nat} {u : Update}
    (harmless : state.Harmless index u) {db : Db} (there : state.server.databases[index]? = some db)
    (rest : List (Nat × Update)) :
    Invariant { state with
      server := state.server.setDatabase index (u.apply db)
      running := rest
      handed := timerOf index db u } := by
  refine ⟨?_, invariant.due⟩
  have kept : ∀ timer ∈ state.outstanding,
      Covered (state.server.databases.set index (u.apply db)) timer := by
    intro timer member
    refine (invariant.covered timer member).set ?_
    intro same kv found
    rcases Update.find_apply found with
      ⟨before, old, expiry⟩ | ⟨object, rfl, -⟩ | ⟨time, rfl, expiry⟩
    · rw [expiry]
      exact invariant.covered timer member db before (same ▸ there) old
    · exact absurd rfl (harmless timer member same)
    · exact ⟨time, expiry, harmless timer member same rfl⟩
  intro timer member
  rcases mem_outstanding.mp member with new | old
  · -- the timer that was just handed over is the one of the expiry that was just set
    cases u with
    | insert | write | erase => cases new
    | expire key time =>
        obtain ⟨made, handed, rfl⟩ := Option.map_eq_some_iff.mp new
        have named : made = ⟨key, time⟩ := by
          rw [Db.expireAt] at handed
          split at handed
          · cases handed
          · exact (Option.some.inj handed).symm
        subst named
        intro db' kv located found
        have replaced : (state.server.databases.set index (Update.apply db (.expire key time)))[index]? =
            some db' := located
        rw [List.getElem?_set, if_pos rfl] at replaced
        split at replaced
        · cases replaced
          change (db.makeExpireAt key time).keyValueMap.find key = some kv at found
          rw [Db.find_makeExpireAt, if_pos rfl] at found
          obtain ⟨before, -, rfl⟩ := Option.map_eq_some_iff.mp found
          exact ⟨time, rfl, UInt64.le_refl time⟩
        · cases replaced
  · exact kept timer (mem_outstanding.mpr (Or.inr old))

theorem next_keeps {state after : Timed} {event : Event} (invariant : state.Invariant)
    (careful : state.Careful event) (stepped : state.next event = some after) :
    after.Invariant := by
  cases next_step stepped with
  | tick now later =>
      exact ⟨invariant.covered, fun timer popped =>
        UInt64.le_trans (invariant.due timer popped) later⟩
  | connect client new => exact ⟨invariant.covered, invariant.due⟩
  | disconnect client => exact ⟨invariant.covered, invariant.due⟩
  | start env client request command server updates free parsed begun =>
      exact ⟨fun timer member => (invariant.covered timer member).grows
        (Server.begin_grows begun), invariant.due⟩
  | update index u rest db running free there =>
      exact invariant.update (careful index u (by rw [running, List.head?_cons])) there rest
  | push timer handed =>
      refine ⟨fun other member => invariant.covered other ?_, invariant.due⟩
      rw [mem_outstanding] at member ⊢
      rcases member with none_left | popped | queued
      · cases none_left
      · exact Or.inr (Or.inl popped)
      · rcases List.mem_cons.mp queued with rfl | old
        · exact Or.inl handed
        · exact Or.inr (Or.inr old)
  | pop position timer free chosen due =>
      refine ⟨fun other member => invariant.covered other ?_, ?_⟩
      · rw [mem_outstanding] at member ⊢
        rcases member with handed | popped | queued
        · exact Or.inl handed
        · cases popped
          exact Or.inr (Or.inr (List.mem_of_getElem? chosen))
        · exact Or.inr (Or.inr (List.mem_of_mem_eraseIdx queued))
      · intro other popped
        cases popped
        exact due
  | fire timer db popped there =>
      refine ⟨fun other member => ?_, nofun⟩
      have was : other ∈ state.outstanding := by
        rw [mem_outstanding] at member ⊢
        rcases member with handed | gone | queued
        · exact Or.inl handed
        · cases gone
        · exact Or.inr (Or.inr queued)
      refine (invariant.covered other was).set ?_
      intro same kv found
      rw [Db.del, Keyed.find_erase] at found
      split at found
      · cases found
      · exact invariant.covered other was db kv (same ▸ there) found

/-- In a run that creates no key while a timer waits for its name, and puts no expiry off
beyond a timer that is set, a timer that fires deletes an entry that has expired, or none. -/
theorem fires_on_lapsed (server : Server) (now : UInt64) (events : List Event) {state : Timed}
    (careful : Meets next Careful (idle server now) events)
    (ran : run next (idle server now) events = some state) : state.Lapsed :=
  (run_keeps Invariant (fun _ _ _ => next_keeps) (idle_invariant server now) careful ran).lapsed

/-- A client gives a key an expiry and then an earlier one. -/
def expiresEarlier : List Event :=
  [.connect 0, .start quietEnv 0 [bytes "SET", bytes "k", bytes "v"], .update, .update,
    .start quietEnv 0 [bytes "EXPIRE", bytes "k", bytes "5"], .update, .push,
    .start quietEnv 0 [bytes "EXPIRE", bytes "k", bytes "3"], .update, .push,
    .tick 4, .pop 0]

theorem fires_on_lapsed_earlier :
    ∃ state kv, run next (idle Server.initial 0) expiresEarlier = some state ∧
      state.popped = some (0, ⟨bytes "k", 3⟩) ∧
      (state.server.databases.map fun db => db.keyValueMap.find (bytes "k")) = [some kv] ∧
      kv.expireTimeUs = some 3 ∧ state.Lapsed := by
  refine ⟨_, ⟨Str.ofData (bytes "k"), .str (Str.ofData (bytes "v")), some 3⟩, rfl, rfl, rfl, rfl,
    fires_on_lapsed Server.initial 0 expiresEarlier ?_ rfl⟩
  refine meets_cons trivial rfl (meets_cons trivial rfl (meets_cons ?_ rfl (meets_cons ?_ rfl
    (meets_cons trivial rfl (meets_cons ?_ rfl (meets_cons trivial rfl (meets_cons trivial rfl
      (meets_cons ?_ rfl (meets_cons trivial rfl (meets_cons trivial rfl
        (meets_cons trivial rfl trivial)))))))))))
  · intro index u head
    cases head
    exact nofun
  · intro index u head
    cases head
    trivial
  · intro index u head
    cases head
    exact nofun
  · intro index u head
    cases head
    intro timer member _ _
    have first : timer = (0, ⟨bytes "k", 5⟩) := List.mem_singleton.mp member
    rw [first]
    exact (by decide : (3 : UInt64) ≤ 5)

/-- A client deletes a key with an expiry and sets it again without one. The timer of the
first key is still there, and it deletes the second. -/
theorem fires_on_live_key :
    ∃ state after kv, run next (idle Server.initial 0)
        [.connect 0, .start quietEnv 0 [bytes "SET", bytes "k", bytes "v"], .update, .update,
          .start quietEnv 0 [bytes "EXPIRE", bytes "k", bytes "5"], .update, .push,
          .start quietEnv 0 [bytes "DEL", bytes "k"], .update,
          .start quietEnv 0 [bytes "SET", bytes "k", bytes "w"], .update, .update,
          .tick 5, .pop 0] = some state ∧
      state.popped = some (0, ⟨bytes "k", 5⟩) ∧
      (state.server.databases.map fun db => db.keyValueMap.find (bytes "k")) = [some kv] ∧
      kv.expireTimeUs = none ∧ next state .fire = some after ∧
      (after.server.databases.map fun db => db.keyValueMap.find (bytes "k")) = [none] ∧
      ¬ state.Lapsed := by
  refine ⟨_, _, ⟨Str.ofData (bytes "k"), .str (Str.ofData (bytes "w")), none⟩, rfl, rfl, rfl, rfl, rfl,
    rfl, ?_⟩
  intro lapsed
  obtain ⟨time, expires, -⟩ := lapsed _ _ _ rfl rfl rfl
  cases expires

end Timed

end ForkRedis
