import ForkRedis.Aof

set_option autoImplicit false

/- How the log gets to the disk. The io thread puts requests into the caches of the databases.
The timer thread executes an `AofTimer`, which takes what is in the caches, one database after
the other, and then writes to the file what it took. The other threads go on meanwhile. -/
namespace ForkRedis

open Machine Json11

structure AofTimer where
  expireTimeUs : UInt64
  after : UInt64
  everySec : Bool
  deriving DecidableEq, Repr

/-- `aof_timer_` as `CheckAOFLoad` sets it by the configured mode. The last branch leaves
`after_` as it is. -/
def aofTimer (aofMode : Bytes) (now unassigned : UInt64) : AofTimer :=
  if aofMode = bytes "every_sec" then ⟨now + 1000000, 1000000, true⟩
  else if aofMode = bytes "always" then ⟨now + 1000, 1000, true⟩
  else ⟨0, unassigned, false⟩

/-- What `AofTimer::Exec` hands to the queue when it is through. -/
def AofTimer.again (timer : AofTimer) (now : UInt64) : List AofTimer :=
  if timer.everySec then [{ timer with expireTimeUs := now + timer.after }] else []

/-- The requests that a step logs for each database. -/
def Aof.adds (state : Aof) : LogEvent → Nat → List Request
  | .read client request =>
      match state.server.clients client with
      | none => fun _ => []
      | some index => Function.update (fun _ => []) index [request]
  | _ => fun _ => []

namespace Flushing

/-- Where the timer thread is with an `AofTimer`: in `DatabaseAppend`, which has come to the
database at a position, or in `AOFSave`, which has still to write some sources. -/
inductive Phase where
  | idle
  | exporting (timer : AofTimer) (index : Nat) (sources : List Bytes)
  | saving (timer : AofTimer) (sources : List Bytes)

namespace Phase

/-- `DatabaseAppend` holds `db_mtx_`. -/
def locks : Phase → Bool
  | .exporting _ _ _ => true
  | _ => false

def isIdle : Phase → Bool
  | .idle => true
  | _ => false

/-- What is still to be written. -/
def sources : Phase → List Bytes
  | .idle => []
  | .exporting _ _ sources | .saving _ sources => sources

end Phase

/-- `aof` has the file as it is on the disk, and `que` the timers of this kind in the queue.
`appended` says that the io thread is between `AppendAOF` and the `Push` behind it. `logged` is
no data of the program: it records what has been logged for each database. -/
structure State where
  aof : Aof
  appended : Bool
  que : List AofTimer
  phase : Phase
  logged : Nat → List Request

/-- The steps of the log, and those of an `AofTimer`. -/
inductive Event where
  | log (event : LogEvent)
  | push
  | pop (position : Nat)
  | exportAof
  | save
  | write
  | finish (now : UInt64)

/-- Behind `CheckAOFLoad`. -/
def start (timer : AofTimer) : State := ⟨Aof.start, false, [timer], .idle, fun _ => []⟩

namespace State

/-- Whether a step of the log can be made now. A new database and a new client wait for
`db_mtx_`, a rewritten file waits for the timer thread, and the io thread is one at a time. An
export is a step of its own. -/
def allows (state : State) (after : Aof) : LogEvent → Bool
  | .connect _ => !state.phase.locks
  | .disconnect _ => true
  | .read _ _ => !state.appended
  | .exec _ => !state.phase.locks ||
      after.server.databases.length == state.aof.server.databases.length
  | .flush _ => false
  | .fire _ => state.phase.isIdle

/-- The log with what is still to be written at the end of its file. -/
def view (state : State) : Aof :=
  { state.aof with file := state.aof.file ++ state.phase.sources.flatten }

end State

def isRead : LogEvent → Bool
  | .read _ _ => true
  | _ => false

/-- The timer that is popped may be any. -/
def next (password aofMode : Bytes) (timer : AofTimer) (state : State) : Event → Option State
  | .log event =>
      match state.aof.next password event with
      | none => none
      | some after =>
          if state.allows after event then
            some { state with
              aof := after
              appended := state.appended || isRead event && aofMode == bytes "no"
              logged := fun index => state.logged index ++ state.aof.adds event index }
          else none
  | .push =>
      if state.appended then some { state with appended := false, que := state.que ++ [timer] }
      else none
  | .pop position =>
      match state.phase, state.que[position]? with
      | .idle, some popped => some { state with
          que := state.que.eraseIdx position, phase := .exporting popped 0 [] }
      | _, _ => none
  | .exportAof =>
      match state.phase with
      | .exporting popped index sources =>
          match state.aof.server.databases[index]? with
          | none => none
          | some db => some { state with
              aof := { state.aof with caches := Function.update state.aof.caches index [] }
              phase := .exporting popped (index + 1)
                (sources ++ [ForkRedis.exportAof password db.number (state.aof.caches index)]) }
      | _ => none
  | .save =>
      match state.phase with
      | .exporting popped index sources =>
          if index = state.aof.server.databases.length then
            some { state with phase := .saving popped sources }
          else none
      | _ => none
  | .write =>
      match state.phase with
      | .saving popped (source :: sources) => some { state with
          aof := { state.aof with file := state.aof.file ++ source }
          phase := .saving popped sources }
      | _ => none
  | .finish now =>
      match state.phase with
      | .saving popped [] =>
          some { state with phase := .idle, que := state.que ++ popped.again now }
      | _ => none

variable {password aofMode : Bytes} {timer : AofTimer}

/-- The steps that `next` takes, with what it asks for. -/
inductive Step (password aofMode : Bytes) (timer : AofTimer) (state : State) :
    Event → State → Prop where
  | log (event : LogEvent) (after : Aof) (stepped : state.aof.next password event = some after)
      (allowed : state.allows after event = true) :
      Step password aofMode timer state (.log event) { state with
        aof := after
        appended := state.appended || isRead event && aofMode == bytes "no"
        logged := fun index => state.logged index ++ state.aof.adds event index }
  | push (due : state.appended = true) :
      Step password aofMode timer state .push
        { state with appended := false, que := state.que ++ [timer] }
  | pop (position : Nat) (popped : AofTimer) (idle : state.phase = .idle)
      (there : state.que[position]? = some popped) :
      Step password aofMode timer state (.pop position) { state with
        que := state.que.eraseIdx position, phase := .exporting popped 0 [] }
  | exportAof (popped : AofTimer) (index : Nat) (sources : List Bytes) (db : Db)
      (come : state.phase = .exporting popped index sources)
      (there : state.aof.server.databases[index]? = some db) :
      Step password aofMode timer state .exportAof { state with
        aof := { state.aof with caches := Function.update state.aof.caches index [] }
        phase := .exporting popped (index + 1)
          (sources ++ [ForkRedis.exportAof password db.number (state.aof.caches index)]) }
  | save (popped : AofTimer) (sources : List Bytes)
      (come : state.phase = .exporting popped state.aof.server.databases.length sources) :
      Step password aofMode timer state .save { state with phase := .saving popped sources }
  | write (popped : AofTimer) (source : Bytes) (sources : List Bytes)
      (come : state.phase = .saving popped (source :: sources)) :
      Step password aofMode timer state .write { state with
        aof := { state.aof with file := state.aof.file ++ source }
        phase := .saving popped sources }
  | finish (now : UInt64) (popped : AofTimer) (come : state.phase = .saving popped []) :
      Step password aofMode timer state (.finish now)
        { state with phase := .idle, que := state.que ++ popped.again now }

theorem next_step {state after : State} {event : Event}
    (stepped : next password aofMode timer state event = some after) :
    Step password aofMode timer state event after := by
  cases event with
  | log event =>
      simp only [next] at stepped
      split at stepped
      · cases stepped
      · split at stepped
        · cases stepped
          exact .log event _ ‹_› ‹_›
        · cases stepped
  | push =>
      simp only [next] at stepped
      split at stepped
      · cases stepped
        exact .push ‹_›
      · cases stepped
  | pop position =>
      simp only [next] at stepped
      split at stepped
      · cases stepped
        exact .pop position _ ‹_› ‹_›
      · cases stepped
  | exportAof =>
      simp only [next] at stepped
      split at stepped
      · split at stepped
        · cases stepped
        · cases stepped
          exact .exportAof _ _ _ _ ‹_› ‹_›
      · cases stepped
  | save =>
      simp only [next] at stepped
      split at stepped
      · rename_i come
        split at stepped
        · rename_i last
          cases stepped
          exact .save _ _ (last ▸ come)
        · cases stepped
      · cases stepped
  | write =>
      simp only [next] at stepped
      split at stepped
      · cases stepped
        exact .write _ _ _ ‹_›
      · cases stepped
  | finish now =>
      simp only [next] at stepped
      split at stepped
      · cases stepped
        exact .finish now _ ‹_›
      · cases stepped

end Flushing

namespace Server

theorem select_databases (server : Server) (password : Bytes) (number : Int32)
    (pswd : Option Bytes) : server.databases <+: (server.select password number pswd).1.databases := by
  rw [select]
  split
  · rw [suGetDb]
    split
    · exact List.prefix_rfl
    · exact List.prefix_append _ _
  · exact List.prefix_rfl

theorem execCli_databases {env : Env} {server : Server} {client : Nat} {c : CliCommand}
    {outcome : Outcome} (returned : server.execCli env client c = .ok outcome) :
    server.databases <+: outcome.server.databases := by
  rcases execCli_cases returned with ⟨reply, -, rfl⟩ | ⟨number, index, -, rfl⟩ |
    ⟨after, number, created, rfl⟩
  · exact List.prefix_rfl
  · exact server.select_databases env.password number c.pswd
  · obtain ⟨-, rfl, -⟩ := createDb_some created
    exact List.prefix_append _ _

theorem execServer_databases (env : Env) (server : Server) (client : Nat) (c : ServerCommand) :
    (server.execServer env client c).server.databases = server.databases := by
  obtain ⟨reply, -, same | ⟨-, -, left⟩⟩ := server.execServer_cases env client c
  · rw [same]
  · rw [left]
    rfl

/-- A database keeps its place and its number. -/
theorem perform_numbers {env : Env} {server : Server} {client : Nat} {request : Request}
    {outcome : Outcome} (performed : server.perform env client request = .ok outcome) :
    server.databases.map Store.number <+: outcome.server.databases.map Store.number := by
  obtain ⟨parsed, -, executed⟩ := Fallible.bind_eq_ok.mp performed
  cases parsed with
  | none =>
      cases executed
      exact List.prefix_rfl
  | some command =>
      rcases Command.exec_cases executed with ⟨c, -, rfl⟩ | ⟨c, -, returned⟩ | ⟨same, -⟩ |
        ⟨-, index, db, db', reply, timer, -, there, ran, rfl⟩
      · exact (execServer_databases env server client c).symm ▸ List.prefix_rfl
      · exact (execCli_databases returned).map Store.number
      · exact same.symm ▸ List.prefix_rfl
      · exact (numbers_setDatabase there (Command.number_onDb ran)) ▸ List.prefix_rfl

end Server

namespace Aof

variable {password : Bytes} {state after : Aof} {event : LogEvent}

theorem next_read {client : Nat} {request : Request}
    (stepped : state.next password (.read client request) = some after) :
    ∃ index parsed, state.server.clients client = some index ∧
      requestToCommandExec request = .ok parsed ∧ after = { state with
        caches := Function.update state.caches index (state.caches index ++ dump request)
        queue := state.queue ++ parsed.toList.map fun _ => (client, request) } := by
  simp only [next] at stepped
  split at stepped
  · cases stepped
  · split at stepped
    · cases stepped
    · cases stepped
      exact ⟨_, _, ‹_›, ‹_›, rfl⟩

theorem next_exec {env : Env} (stepped : state.next password (.exec env) = some after) :
    ∃ client request rest outcome, state.queue = (client, request) :: rest ∧
      state.server.perform (logging password env) client request = .ok outcome ∧
      after = { state with
        server := outcome.server
        queue := rest
        rewrites := state.rewrites ++ outcome.timers.filterMap Timer.cache } := by
  simp only [next] at stepped
  split at stepped
  · cases stepped
  · split at stepped
    · cases stepped
    · cases stepped
      exact ⟨_, _, _, _, ‹_›, ‹_›, rfl⟩

/-- Only an export and a rewritten file touch the file, and no other step looks at it. -/
theorem next_file (stepped : state.next password event = some after)
    (apart : ∀ index, event ≠ .flush index) (unfired : ∀ position, event ≠ .fire position)
    (file : Bytes) :
    after.file = state.file ∧
      next password { state with file := file } event = some { after with file := file } := by
  cases event with
  | connect client =>
      simp only [next] at stepped ⊢
      cases gone : state.server.clients client with
      | some index =>
          rw [gone] at stepped
          cases stepped
      | none =>
          rw [gone] at stepped
          cases stepped
          exact ⟨rfl, rfl⟩
  | disconnect client =>
      cases stepped
      exact ⟨rfl, rfl⟩
  | read client request =>
      obtain ⟨index, parsed, place, translated, rfl⟩ := next_read stepped
      simp only [next, place, translated, and_self]
  | exec env =>
      obtain ⟨client, request, rest, outcome, queue, performed, rfl⟩ := next_exec stepped
      simp only [next, queue, performed, and_self]
  | flush index => exact absurd rfl (apart index)
  | fire position => exact absurd rfl (unfired position)

/-- What is read goes to the end of its cache, and nothing else but an export touches one. -/
theorem next_caches (stepped : state.next password event = some after)
    (apart : ∀ index, event ≠ .flush index) (index : Nat) :
    after.caches index = state.caches index ++ (state.adds event index).flatMap dump := by
  cases event with
  | connect client =>
      simp only [next] at stepped
      split at stepped <;> cases stepped
      exact (List.append_nil _).symm
  | disconnect client =>
      cases stepped
      exact (List.append_nil _).symm
  | read client request =>
      obtain ⟨place, parsed, found, -, rfl⟩ := next_read stepped
      simp only [adds, found, Function.update_apply]
      split
      · rename_i same
        rw [same, List.flatMap_singleton]
      · exact (List.append_nil _).symm
  | exec env =>
      obtain ⟨client, request, rest, outcome, -, -, rfl⟩ := next_exec stepped
      exact (List.append_nil _).symm
  | flush index => exact absurd rfl (apart index)
  | fire position =>
      simp only [next] at stepped
      split at stepped <;> cases stepped
      exact (List.append_nil _).symm

theorem next_numbers (stepped : state.next password event = some after) :
    state.server.databases.map Store.number <+: after.server.databases.map Store.number := by
  cases event with
  | connect client =>
      simp only [next] at stepped
      split at stepped <;> cases stepped
      exact List.prefix_rfl
  | disconnect client =>
      cases stepped
      exact List.prefix_rfl
  | read client request =>
      obtain ⟨place, parsed, -, -, rfl⟩ := next_read stepped
      exact List.prefix_rfl
  | exec env =>
      obtain ⟨client, request, rest, outcome, -, performed, rfl⟩ := next_exec stepped
      exact Server.perform_numbers performed
  | flush index =>
      simp only [next] at stepped
      split at stepped <;> cases stepped
      exact List.prefix_rfl
  | fire position =>
      simp only [next] at stepped
      split at stepped <;> cases stepped
      exact List.prefix_rfl

end Aof

namespace Flushing

variable {password aofMode : Bytes} {timer : AofTimer}
  {state after : State} {event : Event} {popped : AofTimer} {env : Env}

/-- The steps of the log that a step of the threads is. -/
def State.label (state : State) : Event → List LogEvent
  | .log event => [event]
  | .exportAof =>
      match state.phase with
      | .exporting _ index _ => [.flush index]
      | _ => []
  | _ => []

theorem State.view_of_idle (idle : state.phase = .idle) : state.view = state.aof := by
  rw [view, idle, Phase.sources, List.flatten_nil, List.append_nil]

theorem allows_apart {after : Aof} {event : LogEvent} (allowed : state.allows after event = true)
    (index : Nat) : event ≠ .flush index := by
  rintro rfl
  cases allowed

/-- What the threads do is what the log does, if one takes as written what is going to be. -/
theorem view_step (stepped : next password aofMode timer state event = some after) :
    run (Aof.next password) state.view (state.label event) = some after.view := by
  cases next_step stepped with
  | log event after moved allowed =>
      have apart := allows_apart allowed
      change (Aof.next password state.view event).bind some = _
      by_cases fires : ∃ position, event = .fire position
      · obtain ⟨position, rfl⟩ := fires
        have idle : state.phase = .idle := by
          cases phase : state.phase with
          | idle => rfl
          | exporting popped index sources | saving popped sources =>
              simp [State.allows, phase, Phase.isIdle] at allowed
        rw [State.view_of_idle idle, moved, State.view_of_idle]
        · rfl
        · exact idle
      · obtain ⟨same, viewed⟩ := Aof.next_file moved apart
          (fun position named => fires ⟨position, named⟩)
          (state.aof.file ++ state.phase.sources.flatten)
        rw [State.view, viewed, State.view, same]
        rfl
  | push due => rfl
  | pop position popped idle there =>
      rw [State.view_of_idle idle]
      simp [State.label, run, State.view, Phase.sources]
  | exportAof popped index sources db come there =>
      simp only [State.label, come, run, Aof.next, State.view, there, Phase.sources,
        Option.bind_some, List.flatten_append, List.flatten_cons, List.flatten_nil,
        List.append_nil, List.append_assoc]
  | save popped sources come => simp only [State.label, run, State.view, come, Phase.sources]
  | write popped source sources come =>
      simp only [State.label, run, State.view, come, Phase.sources, List.flatten_cons,
        List.append_assoc]
  | finish now popped come =>
      simp only [State.label, run, State.view, come, Phase.sources]

def Event.shared : Event → Option LogEvent
  | .log event => some event
  | _ => none

def isFlush : LogEvent → Bool
  | .flush _ => true
  | _ => false

theorem label_shared (stepped : next password aofMode timer state event = some after) :
    (state.label event).filter (fun one => !isFlush one) = [event].filterMap Event.shared := by
  cases next_step stepped with
  | log event after moved allowed =>
      have apart : isFlush event = false := by
        cases event with
        | flush index => exact absurd rfl (allows_apart allowed index)
        | _ => rfl
      simp [State.label, Event.shared, apart]
  | exportAof popped index sources db come there =>
      simp [State.label, Event.shared, come, isFlush]
  | push due | pop position popped idle there | save popped sources come
  | write popped source sources come | finish now popped come => rfl

/-- A log that makes the same steps as the threads. -/
def Followed (password : Bytes) (past : List Event) (state : State) : Prop :=
  ∃ log, log.filter (fun one => !isFlush one) = past.filterMap Event.shared ∧
    run (Aof.next password) Aof.start log = some state.view

theorem Followed.step {past : List Event} (followed : Followed password past state)
    (stepped : next password aofMode timer state event = some after) :
    Followed password (past ++ [event]) after := by
  obtain ⟨log, same, viewed⟩ := followed
  refine ⟨log ++ state.label event, ?_, ?_⟩
  · rw [List.filter_append, same, label_shared stepped, List.filterMap_append]
  · rw [run_append, viewed]
    exact view_step stepped

/-- The threads refine the log. With what the timer thread has still to write at its end, the
file is the one of a log that makes the same steps in the same order and writes at once what it
exports, so that at any time the disk has the beginning of that file. -/
theorem refines_log {events : List Event} {state : State}
    (ran : run (next password aofMode timer) (start timer) events = some state) :
    ∃ log, log.filter (fun one => !isFlush one) = events.filterMap Event.shared ∧
      run (Aof.next password) Aof.start log = some state.view ∧
      state.aof.file <+: state.view.file := by
  have began : Followed password [] (start timer) := ⟨[], rfl, rfl⟩
  obtain ⟨log, same, viewed⟩ := run_traces (Followed password)
    (fun _ _ _ _ followed stepped => followed.step stepped) began ran
  exact ⟨log, same, viewed, List.prefix_append _ _⟩

/-- A crash between two databases: the first one's batch is on its way, not on the disk. -/
theorem refines_log_midway :
    ∃ state, run (next quietEnv.password (bytes "always") ⟨0, 0, true⟩) (start ⟨0, 0, true⟩)
        [.log (.connect 0), .log (.read 0 [bytes "SET", bytes "k", bytes "1"]), .pop 0,
          .exportAof, .log (.exec quietEnv)] = some state ∧
      state.aof.file = bytes "AOF" ∧
      ∃ log, log.filter (fun one => !isFlush one) =
          [.connect 0, .read 0 [bytes "SET", bytes "k", bytes "1"], .exec quietEnv] ∧
        run (Aof.next quietEnv.password) Aof.start log = some state.view ∧
        state.aof.file <+: state.view.file := by
  obtain ⟨state, ran, header⟩ : ∃ state,
      run (next quietEnv.password (bytes "always") ⟨0, 0, true⟩) (start ⟨0, 0, true⟩)
        [.log (.connect 0), .log (.read 0 [bytes "SET", bytes "k", bytes "1"]), .pop 0,
          .exportAof, .log (.exec quietEnv)] = some state ∧ state.aof.file = bytes "AOF" :=
    run_checked (by decide +kernel)
  exact ⟨state, ran, header, refines_log ran⟩

/-- How many databases have been exported, of those that are. -/
def Phase.taken (count : Nat) : Phase → Nat
  | .exporting _ index _ => index
  | _ => count

/-- What the databases give to the file when these are their caches. -/
def batchesOf (password : Bytes) (databases : List Db) (caches : Nat → Bytes) : Bytes :=
  databases.zipIdx.flatMap fun (db, index) => ForkRedis.exportAof password db.number (caches index)

theorem batchesOf_congr {databases : List Db} {caches other : Nat → Bytes}
    (same : ∀ index < databases.length, caches index = other index) :
    batchesOf password databases caches = batchesOf password databases other := by
  apply List.flatMap_congr
  rintro ⟨db, index⟩ member
  have inside := (List.mem_zipIdx member).2.1
  rw [Nat.zero_add] at inside
  simp only [same index inside]

theorem batchesOf_concat (databases : List Db) (db : Db) (caches : Nat → Bytes) :
    batchesOf password (databases ++ [db]) caches = batchesOf password databases caches ++
      ForkRedis.exportAof password db.number (caches databases.length) := by
  simp [batchesOf, List.zipIdx_append]

/-- While `DatabaseAppend` runs there are no new databases. -/
theorem allows_numbers {after : Aof} {event : LogEvent}
    (stepped : state.aof.next password event = some after)
    (allowed : state.allows after event = true) (locks : state.phase.locks = true) :
    after.server.databases.map Store.number = state.aof.server.databases.map Store.number := by
  have numbers := Aof.next_numbers stepped
  have length : after.server.databases.length = state.aof.server.databases.length := by
    cases event with
    | connect client => simp [State.allows, locks] at allowed
    | disconnect client =>
        cases stepped
        rfl
    | read client request =>
        obtain ⟨index, parsed, -, -, rfl⟩ := Aof.next_read stepped
        rfl
    | exec env => simpa [State.allows, locks] using allowed
    | flush index => cases allowed
    | fire position =>
        cases phase : state.phase <;> simp [State.allows, phase, Phase.isIdle, Phase.locks] at *
  exact (numbers.eq_of_length (by rw [List.length_map, List.length_map, length])).symm

/-- An execution that began in a state. Of what has been logged since then, `early` came before
the database was exported, and `late` after that. -/
structure Taking (password : Bytes) (base state : State) (early late : Nat → List Request) :
    Prop where
  busy : state.phase ≠ .idle
  logged : ∀ index, state.logged index = base.logged index ++ early index ++ late index
  untaken : ∀ index, state.phase.taken base.aof.server.databases.length ≤ index → late index = []
  caches : ∀ index, state.aof.caches index =
    if index < state.phase.taken base.aof.server.databases.length then (late index).flatMap dump
    else base.aof.caches index ++ (early index).flatMap dump
  file : state.aof.file ++ state.phase.sources.flatten = base.aof.file ++ batchesOf password
    (base.aof.server.databases.take (state.phase.taken base.aof.server.databases.length))
    fun index => base.aof.caches index ++ (early index).flatMap dump
  numbers : state.phase.locks = true →
    state.aof.server.databases.map Store.number = base.aof.server.databases.map Store.number

namespace Taking

variable {base state : State} {early late : Nat → List Request}

theorem log (taking : Taking password base state early late) {event : LogEvent} {after : Aof}
    (stepped : state.aof.next password event = some after)
    (allowed : state.allows after event = true) (appended : Bool) :
    ∃ early late, Taking password base { state with
      aof := after
      appended := appended
      logged := fun index => state.logged index ++ state.aof.adds event index } early late := by
  have apart := allows_apart allowed
  have unfired : ∀ position, event ≠ .fire position := by
    rintro position rfl
    have busy := taking.busy
    cases phase : state.phase <;> simp [State.allows, phase, Phase.isIdle] at allowed busy
  -- what comes in is late exactly for the databases that have been exported
  generalize exported : state.phase.taken base.aof.server.databases.length = taken
  refine ⟨fun index => early index ++ if index < taken then [] else state.aof.adds event index,
    fun index => late index ++ if index < taken then state.aof.adds event index else [],
    taking.busy, fun index => ?_, fun index beyond => ?_, fun index => ?_, ?_, fun locks => ?_⟩
  · have untaken := taking.untaken index
    rw [exported] at untaken
    change state.logged index ++ state.aof.adds event index = _
    rw [taking.logged]
    split
    · simp
    · simp [untaken (Nat.le_of_not_lt ‹_›)]
  · rw [exported] at beyond
    rw [taking.untaken index (exported ▸ beyond), if_neg (Nat.not_lt.mpr beyond), List.append_nil]
  · have caches := taking.caches index
    change after.caches index = _
    rw [Aof.next_caches stepped apart, caches, exported]
    split <;> simp
  · have same := (Aof.next_file stepped apart unfired []).1
    change after.file ++ state.phase.sources.flatten = _
    rw [same, taking.file, exported]
    congr 1
    apply batchesOf_congr
    intro index inside
    have below : index < taken := Nat.lt_of_lt_of_le inside (List.length_take_le _ _)
    rw [if_pos below, List.append_nil]
  · exact (allows_numbers stepped allowed locks).trans (taking.numbers locks)

theorem exportAof (taking : Taking password base state early late) {index : Nat}
    {sources : List Bytes} {db : Db} (come : state.phase = .exporting popped index sources)
    (there : state.aof.server.databases[index]? = some db) :
    Taking password base { state with
      aof := { state.aof with caches := Function.update state.aof.caches index [] }
      phase := .exporting popped (index + 1)
        (sources ++ [ForkRedis.exportAof password db.number (state.aof.caches index)]) }
      early late := by
  obtain ⟨busy, logged, untaken, caches, file, numbers⟩ := taking
  simp only [come, Phase.taken, Phase.sources] at untaken caches file
  have listed := numbers (come ▸ rfl)
  have named := congrArg (fun found => found[index]?) listed
  simp only [List.getElem?_map, there, Option.map_some] at named
  obtain ⟨first, before, same⟩ := Option.map_eq_some_iff.mp named.symm
  have inside := (List.getElem?_eq_some_iff.mp before).1
  refine ⟨nofun, logged, fun later beyond => untaken later (Nat.le_of_succ_le beyond),
    fun other => ?_, ?_, fun _ => listed⟩
  · change Function.update state.aof.caches index [] other = if other < index + 1 then _ else _
    by_cases here : other = index
    · rw [here, Function.update_self, if_pos (Nat.lt_succ_self index), untaken index (le_refl index)]
      rfl
    · rw [Function.update_of_ne here, caches]
      exact if_congr (by omega) rfl rfl
  · change state.aof.file ++ (sources ++ [_]).flatten =
      base.aof.file ++ batchesOf password (List.take (index + 1) _) _
    rw [List.flatten_append, List.flatten_singleton, ← List.append_assoc, file,
      List.take_add_one, before, Option.toList_some, batchesOf_concat, List.append_assoc,
      List.length_take_of_le (Nat.le_of_lt inside), same, caches index, if_neg (lt_irrefl index)]

theorem save (taking : Taking password base state early late) {sources : List Bytes}
    (come : state.phase = .exporting popped state.aof.server.databases.length sources) :
    Taking password base { state with phase := .saving popped sources } early late := by
  have listed := congrArg List.length (taking.numbers (come ▸ rfl))
  rw [List.length_map, List.length_map] at listed
  obtain ⟨busy, logged, untaken, caches, file, numbers⟩ := taking
  simp only [come, Phase.taken, Phase.sources, listed] at untaken caches file
  exact ⟨nofun, logged, untaken, caches, file, nofun⟩

theorem write (taking : Taking password base state early late) {source : Bytes}
    {sources : List Bytes} (come : state.phase = .saving popped (source :: sources)) :
    Taking password base { state with
      aof := { state.aof with file := state.aof.file ++ source }
      phase := .saving popped sources } early late := by
  obtain ⟨busy, logged, untaken, caches, file, numbers⟩ := taking
  simp only [come, Phase.taken, Phase.sources, List.flatten_cons] at untaken caches file
  refine ⟨nofun, logged, untaken, caches, ?_, nofun⟩
  rw [← List.append_assoc] at file
  exact file

theorem step (taking : Taking password base state early late)
    (stepped : next password aofMode timer state event = some after)
    (unfinished : ∀ now, event ≠ .finish now) :
    ∃ early late, Taking password base after early late := by
  cases next_step stepped with
  | log event after moved allowed => exact taking.log moved allowed _
  | push due => exact ⟨early, late, { taking with }⟩
  | pop position popped idle there => exact absurd idle taking.busy
  | exportAof popped index sources db come there =>
      exact ⟨early, late, taking.exportAof come there⟩
  | save popped sources come => exact ⟨early, late, taking.save come⟩
  | write popped source sources come => exact ⟨early, late, taking.write come⟩
  | finish now popped come => exact absurd rfl (unfinished now)

theorem run (taking : Taking password base state early late) {events : List Event}
    (ran : Machine.run (next password aofMode timer) state events = some after)
    (unfinished : ∀ now, .finish now ∉ events) :
    ∃ early late, Taking password base after early late := by
  induction events generalizing state early late with
  | nil =>
      cases ran
      exact ⟨early, late, taking⟩
  | cons event events ih =>
      obtain ⟨between, stepped, later⟩ := Option.bind_eq_some_iff.mp ran
      obtain ⟨early, late, taking⟩ := taking.step stepped fun now same =>
        unfinished now (same ▸ List.mem_cons_self)
      exact ih taking later fun now member => unfinished now (List.mem_cons_of_mem _ member)

end Taking

theorem taking_popped (base : State) (que : List AofTimer) (popped : AofTimer) : Taking password base
      { base with que := que, phase := .exporting popped 0 [] } (fun _ => []) (fun _ => []) where
  busy := nofun
  logged := fun index => by simp
  untaken := fun _ _ => rfl
  caches := fun index => by simp [Phase.taken]
  file := by simp [Phase.sources, Phase.taken, batchesOf]
  numbers := fun _ => rfl

/-- What a whole execution of an `AofTimer` comes to. -/
structure Executed (password : Bytes) (base after : State) (early late : Nat → List Request) :
    Prop where
  idle : after.phase = .idle
  logged : ∀ index, after.logged index = base.logged index ++ early index ++ late index
  file : after.aof.file = base.aof.file ++ batchesOf password base.aof.server.databases
    fun index => base.aof.caches index ++ (early index).flatMap dump
  caches : ∀ index, after.aof.caches index =
    if index < base.aof.server.databases.length then (late index).flatMap dump
    else base.aof.caches index ++ (early index ++ late index).flatMap dump

theorem Taking.finish {base state : State} {early late : Nat → List Request}
    (taking : Taking password base state early late) (come : state.phase = .saving popped [])
    (now : UInt64) :
    Executed password base { state with phase := .idle, que := state.que ++ popped.again now }
      early late := by
  obtain ⟨-, logged, untaken, caches, file, -⟩ := taking
  simp only [come, Phase.taken, Phase.sources, List.flatten_nil, List.append_nil,
    List.take_length] at untaken caches file
  refine ⟨rfl, logged, file, fun index => (caches index).trans ?_⟩
  split
  · rfl
  · rw [untaken index (Nat.le_of_not_lt ‹_›), List.append_nil]

theorem executed {base after : State} {position : Nat} {during : List Event} {now : UInt64}
    (ran : run (next password aofMode timer) base (.pop position :: (during ++ [.finish now])) =
      some after) (whole : ∀ now, .finish now ∉ during) :
    ∃ early late, Executed password base after early late := by
  obtain ⟨first, began, later⟩ := Option.bind_eq_some_iff.mp ran
  rw [run_append] at later
  obtain ⟨last, ran, ended⟩ := Option.bind_eq_some_iff.mp later
  obtain ⟨final, stepped, ended⟩ := Option.bind_eq_some_iff.mp ended
  cases ended
  have started : ∃ early late, Taking password base first early late := by
    cases next_step began with
    | pop position popped idle there => exact ⟨_, _, taking_popped base _ popped⟩
  obtain ⟨_, _, taking⟩ := started
  obtain ⟨early, late, taking⟩ := taking.run ran whole
  cases next_step stepped with
  | finish now popped come => exact ⟨early, late, taking.finish come now⟩

/-- One whole execution of an `AofTimer`, whatever the other threads do meanwhile. For each
database there goes to the file, in one batch, everything that had been logged for it and was
not yet there when the execution began, with what came in before its turn; what came in later is
in its cache. Nothing is lost or doubled. -/
theorem flush_writes {base after : State} {position : Nat} {during : List Event} {now : UInt64}
    (ran : run (next password aofMode timer) base (.pop position :: (during ++ [.finish now])) =
      some after) (whole : ∀ now, .finish now ∉ during) :
    ∃ early late : Nat → List Request,
      (∀ index, after.logged index = base.logged index ++ early index ++ late index) ∧
      after.aof.file = base.aof.file ++ batchesOf password base.aof.server.databases
        (fun index => base.aof.caches index ++ (early index).flatMap dump) ∧
      ∀ index, after.aof.caches index =
        if index < base.aof.server.databases.length then (late index).flatMap dump
        else base.aof.caches index ++ (early index ++ late index).flatMap dump := by
  obtain ⟨early, late, done⟩ := executed ran whole
  exact ⟨early, late, done.logged, done.file, done.caches⟩

/-- A request is read before its database is exported, and one after that. -/
def busyFlush : List Event :=
  [.log (.read 0 [bytes "SET", bytes "k", bytes "1"]), .exportAof,
    .log (.read 0 [bytes "SET", bytes "k", bytes "2"]), .save, .log (.exec quietEnv), .write]

theorem flush_writes_busy :
    let base : State := { start ⟨0, 0, true⟩ with aof := { Aof.start with server := Server.oneClient } }
    ∃ after, run (next (bytes "secret") (bytes "always") ⟨0, 0, true⟩) base
        (.pop 0 :: (busyFlush ++ [.finish 5])) = some after ∧
      after.aof.caches 0 = dump [bytes "SET", bytes "k", bytes "2"] ∧
      ∃ early late : Nat → List Request,
        (∀ index, after.logged index = base.logged index ++ early index ++ late index) ∧
        after.aof.file = base.aof.file ++ batchesOf (bytes "secret") base.aof.server.databases
          (fun index => base.aof.caches index ++ (early index).flatMap dump) ∧
        ∀ index, after.aof.caches index =
          if index < base.aof.server.databases.length then (late index).flatMap dump
          else base.aof.caches index ++ (early index ++ late index).flatMap dump := by
  intro base
  obtain ⟨after, ran, left⟩ : ∃ after,
      run (next (bytes "secret") (bytes "always") ⟨0, 0, true⟩) base
        (.pop 0 :: (busyFlush ++ [.finish 5])) = some after ∧
      after.aof.caches 0 = dump [bytes "SET", bytes "k", bytes "2"] :=
    run_checked (by decide +kernel)
  exact ⟨after, ran, left, flush_writes ran (by simp [busyFlush])⟩

/-- There is nothing in the cache of a database that is not there. -/
def Placed (state : State) : Prop :=
  ∀ index, state.aof.server.databases.length ≤ index → state.aof.caches index = []

theorem adds_beyond (state : Aof) (event : LogEvent) {index : Nat}
    (beyond : state.server.databases.length ≤ index) : state.adds event index = [] := by
  cases event with
  | read client request =>
      simp only [Aof.adds]
      cases found : state.server.clients client with
      | none => rfl
      | some place =>
          have inside := state.server.attached client place found
          exact Function.update_of_ne (by omega) _ _
  | _ => rfl

theorem next_length {state after : Aof} {event : LogEvent}
    (stepped : state.next password event = some after) :
    state.server.databases.length ≤ after.server.databases.length := by
  simpa using (Aof.next_numbers stepped).length_le

theorem Placed.step (placed : Placed state)
    (stepped : next password aofMode timer state event = some after) : Placed after := by
  cases next_step stepped with
  | log event after moved allowed =>
      intro index beyond
      have outside := Nat.le_trans (next_length moved) beyond
      change after.caches index = []
      rw [Aof.next_caches moved (allows_apart allowed), placed index outside,
        adds_beyond state.aof event outside]
      rfl
  | exportAof popped index sources db come there =>
      intro other beyond
      change Function.update state.aof.caches index [] other = []
      rw [Function.update_apply, placed other beyond, ite_self]
  | push due | pop position popped idle there | save popped sources come
  | write popped source sources come | finish now popped come => exact placed

/-- The threads keep what the log keeps: what they add at a step is a step of the log or
nothing. -/
theorem label_short (state : State) (event : Event) :
    state.label event = [] ∨ ∃ one, state.label event = [one] := by
  cases event with
  | log event => exact Or.inr ⟨event, rfl⟩
  | exportAof =>
      rw [State.label]
      split
      · exact Or.inr ⟨_, rfl⟩
      · exact Or.inl rfl
  | push | pop position | save | write | finish now => exact Or.inl rfl

/-- A step that is one of a steady log. -/
def Steady (state : State) (event : Event) : Prop :=
  ∀ one ∈ state.label event, state.view.Steady one

instance (state : State) (event : Event) : Decidable (Steady state event) :=
  inferInstanceAs (Decidable (∀ one ∈ state.label event, state.view.Steady one))

theorem journal_step {env : Env} {state after : State} {event : Event}
    (steady : Steady state event)
    (stepped : next env.password aofMode timer state event = some after)
    (kept : ∃ journal : Journal, journal.encode env.password = state.view ∧
      journal.rewrites = [] ∧
      journal.Invariant env Eq fun request => commandOf request ≠ some (.db .rewrite)) :
    ∃ journal : Journal, journal.encode env.password = after.view ∧ journal.rewrites = [] ∧
      journal.Invariant env Eq fun request => commandOf request ≠ some (.db .rewrite) := by
  have viewed := view_step stepped
  rcases label_short state event with none | ⟨one, same⟩
  · rw [none] at viewed
    rwa [← Option.some.inj viewed]
  · rw [same] at viewed
    obtain ⟨between, moved, rest⟩ := Option.bind_eq_some_iff.mp viewed
    cases rest
    exact Aof.steady_keeps (steady one (same ▸ List.mem_cons_self)) moved kept

def Event.reads : Event → Bool
  | .log event => isRead event
  | _ => false

theorem logged_step (unread : event.reads = false)
    (stepped : next password aofMode timer state event = some after) :
    after.logged = state.logged := by
  cases next_step stepped with
  | log event after moved allowed =>
      have nothing : state.aof.adds event = fun _ => [] := by
        cases event with
        | read client request => cases unread
        | _ => rfl
      simp only [nothing, List.append_nil]
  | push due | pop position popped idle there | exportAof popped index sources db come there
  | save popped sources come | write popped source sources come | finish now popped come => rfl

theorem logged_run {events : List Event} (unread : ∀ event ∈ events, event.reads = false)
    (ran : run (next password aofMode timer) state events = some after) :
    after.logged = state.logged := by
  induction events generalizing state with
  | nil =>
      cases ran
      rfl
  | cons event events ih =>
      obtain ⟨between, stepped, later⟩ := Option.bind_eq_some_iff.mp ran
      obtain ⟨first, rest⟩ := List.forall_mem_cons.mp unread
      exact (ih rest later).trans (logged_step first stepped)

/-- If no request is read while an `AofTimer` is executed, it leaves the caches empty. -/
theorem Executed.clears {base after : State} {early late : Nat → List Request}
    (done : Executed password base after early late) (placed : Placed base)
    (unlogged : after.logged = base.logged) (index : Nat) : after.aof.caches index = [] := by
  have nothing : early index ++ late index = [] := by
    have logged := done.logged index
    rwa [unlogged, List.append_assoc, List.self_eq_append_right] at logged
  rw [done.caches, nothing, (List.append_eq_nil_iff.mp nothing).2]
  split
  · rfl
  · rw [placed index (Nat.le_of_not_lt ‹_›)]
    rfl

/-- When an `AofTimer` has been executed, no request has been read meanwhile and all that were
read before are executed, the file on the disk rebuilds what the server holds. -/
theorem sweep_faithful (env : Env) (word : Word env.password) {before during : List Event}
    {position : Nat} {now : UInt64} {state : State}
    (steady : Meets (next env.password aofMode timer) Steady (start timer)
      (before ++ .pop position :: (during ++ [.finish now])))
    (ran : run (next env.password aofMode timer) (start timer)
      (before ++ .pop position :: (during ++ [.finish now])) = some state)
    (whole : ∀ now, .finish now ∉ during) (unread : ∀ event ∈ during, event.reads = false)
    (performed : state.aof.queue = []) : state.aof.Faithful env := by
  obtain ⟨journal, encoded, -, invariant⟩ := run_keeps
    (fun state => ∃ journal : Journal, journal.encode env.password = state.view ∧
      journal.rewrites = [] ∧
        journal.Invariant env Eq fun request => commandOf request ≠ some (.db .rewrite))
    (fun _ _ _ kept steady stepped => journal_step steady stepped kept)
    ⟨Journal.start, rfl, rfl, Journal.start_invariant (simulates_eq _)⟩ steady ran
  rw [run_append] at ran
  obtain ⟨base, reached, ran⟩ := Option.bind_eq_some_iff.mp ran
  have placed : Placed base :=
    run_preserves _ (fun _ _ _ placed stepped => placed.step stepped) (fun _ _ => rfl) reached
  obtain ⟨early, late, done⟩ := executed ran whole
  have unlogged : state.logged = base.logged := by
    refine logged_run (fun event member => ?_) ran
    rcases List.mem_cons.mp member with rfl | member
    · rfl
    · rcases List.mem_append.mp member with member | member
      · exact unread event member
      · rw [List.mem_singleton.mp member]
        rfl
  rw [State.view_of_idle done.idle] at encoded
  rw [← encoded]
  apply invariant.faithful word (simulates_eq _)
  rw [encoded]
  exact ⟨performed, fun index _ => done.clears placed unlogged index⟩

/-- A request is executed while the timer thread takes it from its cache. -/
def idleFlush : List Event := [.exportAof, .log (.exec quietEnv), .save, .write]

def always : AofTimer := aofTimer (bytes "always") 0 0

theorem sweep_faithful_always :
    ∃ state, run (next quietEnv.password (bytes "always") always) (start always)
        ([.log (.connect 0), .log (.read 0 [bytes "SET", bytes "k", bytes "1"])] ++
          .pop 0 :: (idleFlush ++ [.finish 5])) = some state ∧
      state.aof.queue = [] ∧ state.aof.Faithful quietEnv := by
  obtain ⟨state, ran, performed⟩ : ∃ state,
      run (next quietEnv.password (bytes "always") always) (start always)
        ([.log (.connect 0), .log (.read 0 [bytes "SET", bytes "k", bytes "1"])] ++
          .pop 0 :: (idleFlush ++ [.finish 5])) = some state ∧ state.aof.queue = [] :=
    run_checked (by decide +kernel)
  exact ⟨state, ran, performed, sweep_faithful quietEnv (by decide) (by decide +kernel) ran
    (by simp [idleFlush]) (by decide) performed⟩

end Flushing

end ForkRedis
