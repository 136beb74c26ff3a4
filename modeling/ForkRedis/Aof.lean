import ForkRedis.Journal

set_option autoImplicit false

/- The append-only file: requests are logged when they are read and executed later, the
caches are flushed by a timer, and the file is replayed as the stream of one client. -/
namespace ForkRedis

open Lists Fallible Machine Json11

/-- The server and its log. `aof_cache_` belongs to the database at each position. -/
structure Aof where
  server : Server
  caches : Nat → Bytes
  queue : List (Nat × Request)
  rewrites : List Bytes
  file : Bytes

/-- `ExportAOF`. -/
def exportAof (password : Bytes) (number : Int32) (cache : Bytes) : Bytes :=
  if cache = [] then [] else dump (selectRequest number password) ++ cache

namespace Aof

/-- A request is logged in the cache of the database its client is in when it is read,
before it is translated. Requests are arrays of strings here: other JSON is not modelled. -/
def next (password : Bytes) (state : Aof) : LogEvent → Option Aof
  | .connect client =>
      match state.server.clients client with
      | some _ => none
      | none => some { state with server := state.server.attach client 0 state.server.filled }
  | .disconnect client => some { state with server := state.server.detach client }
  | .read client request =>
      match state.server.clients client with
      | none => none
      | some index =>
          match requestToCommandExec request with
          | .error _ => none
          | .ok parsed => some { state with
              caches := Function.update state.caches index (state.caches index ++ dump request)
              queue := state.queue ++ parsed.toList.map fun _ => (client, request) }
  | .exec env =>
      match state.queue with
      | [] => none
      | (client, request) :: rest =>
          match state.server.perform (logging password env) client request with
          | .error _ => none
          | .ok outcome => some { state with
              server := outcome.server
              queue := rest
              rewrites := state.rewrites ++ outcome.timers.filterMap Timer.cache }
  | .flush index =>
      match state.server.databases[index]? with
      | none => none
      | some db => some { state with
          caches := Function.update state.caches index []
          file := state.file ++ exportAof password db.number (state.caches index) }
  | .fire position =>
      match state.rewrites[position]? with
      | none => none
      | some cache => some { state with
          rewrites := state.rewrites.eraseIdx position
          file := cache }

/-- A fresh server writes the header of the file. -/
def start : Aof := ⟨Server.initial, fun _ => [], [], [], bytes "AOF"⟩

/-- The file after its header, fed to a fresh server as the stream of one client. -/
def replayed (env : Env) (file : Bytes) : Except Fault Server :=
  Server.oneClient.serve env 0 (exportMessages (file.drop 3)).1

/-- Every request has been executed and every cache flushed. -/
structure Settled (state : Aof) : Prop where
  executed : state.queue = []
  flushed : ∀ index < state.server.databases.length, state.caches index = []

instance (state : Aof) : Decidable state.Settled :=
  decidable_of_iff (state.queue = [] ∧
      ∀ index < state.server.databases.length, state.caches index = [])
    ⟨fun ⟨executed, flushed⟩ => ⟨executed, flushed⟩, fun ⟨executed, flushed⟩ => ⟨executed, flushed⟩⟩

/-- The file rebuilds what every database of the server holds. -/
def Faithful (env : Env) (state : Aof) : Prop :=
  ∃ server, replayed env state.file = .ok server ∧
    ∀ number, (server.dbOf number).contents = (state.server.dbOf number).contents

end Aof

/- The bytes of a journal. -/

/-- The file of some batches. -/
def fileOf (password : Bytes) (batches : List Batch) : Bytes :=
  bytes "AOF" ++ (batches.flatMap (Batch.lines password)).flatMap dump

theorem databaseForkAll_snapshot (password : Bytes) (databases : List Db) :
    bytes "AOF" ++ databaseForkAll password databases =
      fileOf password (snapshot databases) := by
  rw [fileOf, databaseForkAll]
  congr 1
  induction databases with
  | nil => rfl
  | cons db databases ih =>
      have head : (Db.fork password db).flatten = (selectRequest db.number password ::
          db.keyValueMap.items.map KeyValue.request).flatMap dump := by
        rw [Db.fork, List.flatMap_cons, List.flatten_cons, List.flatMap_map, List.flatMap_def]
        rfl
      have lines : (snapshot (db :: databases)).flatMap (Batch.lines password) =
          (selectRequest db.number password :: db.keyValueMap.items.map KeyValue.request) ++
            (snapshot databases).flatMap (Batch.lines password) := rfl
      rw [List.flatMap_cons, List.flatten_append, ih, head, lines, List.flatMap_append]

namespace Journal

/-- The bytes that stand for a journal. -/
def encode (password : Bytes) (journal : Journal) : Aof where
  server := journal.server
  caches := fun index => (journal.logs index).flatMap dump
  queue := journal.queue
  rewrites := journal.rewrites.map (fileOf password)
  file := fileOf password journal.file

theorem flatMap_dump_eq_nil {requests : List Request} :
    requests.flatMap dump = [] ↔ requests = [] := by
  rw [List.flatMap_eq_nil_iff]
  constructor
  · intro none_dumped
    cases requests with
    | nil => rfl
    | cons request requests =>
        exact absurd (none_dumped request List.mem_cons_self) (List.cons_ne_nil _ _)
  · rintro rfl
    exact nofun

theorem update_dump (logs : Nat → List Request) (index : Nat) (requests : List Request) :
    Function.update (fun position => (logs position).flatMap dump) index (requests.flatMap dump) =
      fun position => (Function.update logs index requests position).flatMap dump :=
  (Function.comp_update (List.flatMap dump) logs index requests).symm

theorem rewrites_encode {password : Bytes} {live : Env} {server : Server} {client : Nat}
    {request : Request} {outcome : Outcome}
    (performed : server.perform (logging password live) client request = .ok outcome) :
    outcome.timers.filterMap Timer.cache = ((outcome.timers.filterMap Timer.cache).map fun _ =>
      snapshot server.databases).map (fileOf password) := by
  rcases Server.perform_caches performed with none_made | ⟨-, made⟩
  · rw [none_made]
    rfl
  · rw [made]
    exact congrArg (fun file => [file]) (databaseForkAll_snapshot password server.databases)

/-- The bytes make the steps of the journal. -/
theorem next_encode (password : Bytes) (journal : Journal) (event : LogEvent) :
    (journal.encode password).next password event =
      (journal.next password event).map (encode password) := by
  cases event with
  | connect client =>
      dsimp only [Aof.next, next, encode]
      cases journal.server.clients client <;> rfl
  | disconnect client => rfl
  | read client request =>
      dsimp only [Aof.next, next, encode]
      cases journal.server.clients client with
      | none => rfl
      | some index =>
          cases requestToCommandExec request with
          | error fault => rfl
          | ok parsed =>
              have logged : (journal.logs index).flatMap dump ++ dump request =
                  (journal.logs index ++ [request]).flatMap dump := by
                rw [List.flatMap_append, List.flatMap_singleton]
              simp only [logged, update_dump, Option.map_some, encode]
  | exec live =>
      dsimp only [Aof.next, next, encode]
      cases journal.queue with
      | nil => rfl
      | cons entry rest =>
          cases performed : journal.server.perform (logging password live) entry.1 entry.2 with
          | error fault => simp only [performed, Option.map_none]
          | ok outcome =>
              have made := rewrites_encode performed
              simp only [performed, Option.map_some, encode, List.map_append]
              rw [← made]
  | flush index =>
      dsimp only [Aof.next, next, encode]
      cases journal.server.databases[index]? with
      | none => rfl
      | some db =>
          by_cases empty : journal.logs index = []
          · have cleared : Function.update (fun position => (journal.logs position).flatMap dump) index
                [] = fun position => (journal.logs position).flatMap dump := by
              rw [Function.update_eq_self_iff, empty]
              rfl
            simp only [empty, ↓reduceIte, Option.map_some, encode, cleared, exportAof,
              List.flatMap_nil, List.append_nil]
          · have filled := mt flatMap_dump_eq_nil.mp empty
            have cleared := update_dump journal.logs index []
            have written : fileOf password journal.file ++ (dump (selectRequest db.number password) ++
                (journal.logs index).flatMap dump) =
                  fileOf password (journal.file ++ [⟨db.number, journal.logs index⟩]) := by
              rw [fileOf, fileOf, List.flatMap_append, List.flatMap_append, List.append_assoc,
                List.flatMap_singleton, Batch.lines, List.flatMap_cons]
            simp only [empty, filled, ↓reduceIte, Option.map_some, encode, exportAof, written]
            rw [← cleared]
            rfl
  | fire position =>
      dsimp only [Aof.next, next, encode]
      rw [List.getElem?_map]
      cases journal.rewrites[position]? with
      | none => rfl
      | some batches => simp only [Option.map_some, encode, List.eraseIdx_map]

variable {env : Env} {Same : Db → Db → Prop} {fits : Request → Prop}

theorem Invariant.logs_framed {journal : Journal} (invariant : Invariant env Same fits journal)
    (index : Nat) : exportMessages ((journal.logs index).flatMap dump) = (journal.logs index, []) := by
  by_cases inside : index < journal.server.databases.length
  · by_cases empty : journal.logs index = []
    · rw [empty]
      rfl
    · have sane := invariant.sane index _ (List.getElem?_eq_getElem inside) empty
      exact exportMessages_dump fun request member => (sane.loggable request member).framed
  · rw [invariant.unused index (Nat.not_lt.mp inside)]
    rfl

theorem Invariant.faithful (word : Word env.password) (simulates : Simulates Same fits)
    {journal : Journal} (invariant : Invariant env Same fits journal)
    (settled : (journal.encode env.password).Settled) :
    (journal.encode env.password).Faithful env := by
  have framed : exportMessages ((journal.encode env.password).file.drop 3) =
      (journal.file.flatMap (Batch.lines env.password), []) := by
    apply exportMessages_dump
    intro request member
    obtain ⟨batch, listed, line⟩ := List.mem_flatMap.mp member
    rcases List.mem_cons.mp line with rfl | logged
    · exact innerBrackets_rawCommandToRequest _
    · exact ((invariant.filed.1 batch listed).loggable request logged).framed
  have flushed : ∀ index, journal.logs index = [] := by
    intro index
    by_cases inside : index < journal.server.databases.length
    · exact flatMap_dump_eq_nil.mp (settled.flushed index inside)
    · exact invariant.unused index (Nat.not_lt.mp inside)
  obtain ⟨server, served, same⟩ := invariant.replays word simulates settled.executed flushed
  refine ⟨server, ?_, same⟩
  rw [Aof.replayed, framed]
  exact served

end Journal

theorem simulates_eq (fits : Request → Prop) : Simulates Eq fits where
  refl := fun _ => rfl
  contents := fun same => congrArg Db.contents same
  handle := by
    rintro env db _ after request rfl - - handled
    exact ⟨after, handled, rfl⟩

namespace Aof

/-- A request that the log can take now: it can be logged at all, it goes to a database
that `ExportAOF` can name, and if it is a data request, no `SELECT` of its client waits to be
executed and none is in the cache it goes to. -/
def Readable (fits : Request → Prop) (state : Aof) (client : Nat) (request : Request) : Prop :=
  ∀ index ∈ state.server.clients client, ∀ db ∈ state.server.databases[index]?,
    Loggable fits request ∧ 0 ≤ db.number ∧ (isData request = true →
      (∀ entry ∈ state.queue, entry.1 = client → isSelect entry.2 = false) ∧
      ∀ logged ∈ (exportMessages (state.caches index)).1, isSelect logged = false)

instance (fits : Request → Prop) [DecidablePred fits] (state : Aof) (client : Nat)
    (request : Request) : Decidable (state.Readable fits client request) :=
  inferInstanceAs (Decidable (∀ index ∈ state.server.clients client, _))

/-- No `REWRITE` is read, and no client leaves while it has a request on the queue. -/
def Steady (state : Aof) : LogEvent → Prop
  | .read client request =>
      state.Readable (fun request => commandOf request ≠ some (.db .rewrite)) client request
  | .disconnect client => ∀ entry ∈ state.queue, entry.1 ≠ client
  | _ => True

instance (state : Aof) (event : LogEvent) : Decidable (state.Steady event) := by
  cases event <;> unfold Steady <;> infer_instance

theorem Readable.careful {env : Env} {Same : Db → Db → Prop} {fits : Request → Prop}
    {journal : Journal} (invariant : journal.Invariant env Same fits) {client : Nat}
    {request : Request} (readable : (journal.encode env.password).Readable fits client request) :
    journal.Careful env Same fits (.read client request) := by
  intro index place db there
  obtain ⟨loggable, unsigned, settled⟩ := readable index place db there
  have framed : exportMessages ((journal.encode env.password).caches index) =
      (journal.logs index, []) := invariant.logs_framed index
  rw [framed] at settled
  exact ⟨loggable, unsigned, settled⟩

/-- What a step of a steady run keeps of the journal. -/
theorem steady_step {env : Env} {journal later : Journal} {event : LogEvent}
    (none_begun : journal.rewrites = [])
    (invariant : journal.Invariant env Eq fun request => commandOf request ≠ some (.db .rewrite))
    (steady : (journal.encode env.password).Steady event)
    (moved : journal.next env.password event = some later) :
    later.rewrites = [] ∧
      later.Invariant env Eq fun request => commandOf request ≠ some (.db .rewrite) := by
  have forks (kv : KeyValue) : commandOf kv.request ≠ some (.db .rewrite) := by
    rw [KeyValue.request_eq]
    cases kv.value <;> exact nofun
  have head (entry : Nat × Request) (rest : List (Nat × Request))
      (queue : journal.queue = entry :: rest) : commandOf entry.2 ≠ some (.db .rewrite) :=
    (invariant.queued entry (queue ▸ List.mem_cons_self)).fits
  have careful : journal.Careful env Eq
      (fun request => commandOf request ≠ some (.db .rewrite)) event := by
    cases event with
    | connect client | fire position => trivial
    | disconnect client => exact steady
    | read client request => exact steady.careful invariant
    | exec live => exact fun entry rest queue named => absurd named (head entry rest queue)
    | flush index => exact none_begun
  exact ⟨Journal.next_rewrites none_begun head moved,
    Journal.next_keeps (simulates_eq _) forks invariant careful moved⟩

/-- A step of a steady run, with the journal it stands for. -/
theorem steady_keeps {env : Env} {state after : Aof} {event : LogEvent}
    (steady : state.Steady event) (stepped : state.next env.password event = some after)
    (kept : ∃ journal : Journal, journal.encode env.password = state ∧ journal.rewrites = [] ∧
      journal.Invariant env Eq fun request => commandOf request ≠ some (.db .rewrite)) :
    ∃ journal : Journal, journal.encode env.password = after ∧ journal.rewrites = [] ∧
      journal.Invariant env Eq fun request => commandOf request ≠ some (.db .rewrite) := by
  obtain ⟨journal, rfl, none_begun, invariant⟩ := kept
  rw [Journal.next_encode, Option.map_eq_some_iff] at stepped
  obtain ⟨later, moved, rfl⟩ := stepped
  exact ⟨later, rfl, steady_step none_begun invariant steady moved⟩

/-- In a steady run the file, replayed once everything is executed and flushed, rebuilds
what the server holds. -/
theorem replay_faithful (env : Env) (word : Word env.password) (events : List LogEvent)
    {state : Aof} (steady : Meets (next env.password) Steady start events)
    (ran : run (next env.password) start events = some state) (settled : state.Settled) :
    state.Faithful env := by
  obtain ⟨journal, rfl, -, invariant⟩ := run_keeps
    (fun state => ∃ journal : Journal, journal.encode env.password = state ∧
      journal.rewrites = [] ∧
        journal.Invariant env Eq fun request => commandOf request ≠ some (.db .rewrite))
    (fun _ _ _ kept steady stepped => steady_keeps steady stepped kept)
    ⟨Journal.start, rfl, rfl, Journal.start_invariant (simulates_eq _)⟩ steady ran
  exact invariant.faithful word (simulates_eq _) settled

/-- What a faithful file holds under a key. -/
theorem Faithful.get {env : Env} {state : Aof} (faithful : state.Faithful env) {number : Int32}
    {key : Bytes} {found : Option Object}
    (rebuilt : ((replayed env state.file).toOption.map fun server =>
      (server.dbOf number).get key) = some found) :
    found.map Object.contents = ((state.server.dbOf number).get key).map Object.contents := by
  obtain ⟨server, replays, same⟩ := faithful
  have view (db : Db) : (db.get key).map Object.contents =
      (db.contents key).bind Prod.fst := by
    rw [Db.get, Option.map_map, Db.contents, Store.keySpace]
    cases db.keyValueMap.find key <;> rfl
  rw [replays] at rebuilt
  rw [← Option.some.inj rebuilt, view, view, same]

theorem not_faithful_of_lost {env : Env} {state : Aof} {number : Int32} {key : Bytes}
    (held : ((state.server.dbOf number).get key).isSome)
    (lost : ((replayed env state.file).toOption.map fun server =>
      (server.dbOf number).get key) = some none) : ¬ state.Faithful env := by
  intro faithful
  have gone := faithful.get lost
  rw [Option.map_none, eq_comm, Option.map_eq_none_iff] at gone
  rw [gone] at held
  cases held

/-- Two clients in two databases. The second one waits for its `SELECT` and for a flush
before it goes on. -/
def twoDatabases : List LogEvent :=
  [.connect 0, .connect 1, .read 1 [bytes "SELECT", bytes "7", bytes "secret"],
    .exec quietEnv, .flush 0, .read 0 [bytes "SET", bytes "a", bytes "1"],
    .read 1 [bytes "LPUSHB", bytes "l", bytes "x", bytes "y"], .flush 1,
    .read 0 [bytes "INCRBY", bytes "a", bytes "4"], .exec quietEnv, .exec quietEnv, .exec quietEnv,
    .flush 0, .flush 1]

theorem replay_faithful_twoDatabases :
    ∃ state, run (next quietEnv.password) start twoDatabases = some state ∧
      (state.server.databases.map Store.number = [0, 7] ∧ state.Settled) ∧
      state.Faithful quietEnv := by
  have steady : Meets (next quietEnv.password) Steady start twoDatabases := by decide +kernel
  obtain ⟨state, ran, numbers, settled⟩ : ∃ state,
      run (next quietEnv.password) start twoDatabases = some state ∧
        state.server.databases.map Store.number = [0, 7] ∧ state.Settled :=
    run_checked (by decide +kernel)
  exact ⟨state, ran, ⟨numbers, settled⟩,
    replay_faithful quietEnv (by decide) twoDatabases steady ran settled⟩

/-- One client selects a database while another one, in the first database, sets a key: both
requests are logged for the first database, and the replay sets the key in the other. -/
def selectBetween : List LogEvent :=
  [.connect 0, .connect 1, .read 0 [bytes "SELECT", bytes "1", bytes "secret"],
    .read 1 [bytes "SET", bytes "k", bytes "v"], .exec quietEnv, .exec quietEnv, .flush 0, .flush 1]

/-- One client selects a database and sets a key there. The second request is read before
the first is executed, so it is logged for the database that the client is leaving. -/
def selectPipelined : List LogEvent :=
  [.connect 0, .read 0 [bytes "SELECT", bytes "1", bytes "secret"], .flush 0,
    .read 0 [bytes "SET", bytes "k", bytes "v"], .exec quietEnv, .exec quietEnv, .flush 0, .flush 1]

theorem replay_misplaces :
    (∃ state, run (next quietEnv.password) start selectBetween = some state ∧ state.Settled ∧
      ((state.server.dbOf 0).get (bytes "k")).isSome ∧
      ((replayed quietEnv state.file).toOption.map fun server =>
        (server.dbOf 0).get (bytes "k")) = some none ∧ ¬ state.Faithful quietEnv) ∧
    (∃ state, run (next quietEnv.password) start selectPipelined = some state ∧ state.Settled ∧
      ((state.server.dbOf 1).get (bytes "k")).isSome ∧
      ((replayed quietEnv state.file).toOption.map fun server =>
        (server.dbOf 1).get (bytes "k")) = some none ∧ ¬ state.Faithful quietEnv) := by
  have lost_in (number : Int32) {events : List LogEvent}
      (checked : ((run (next quietEnv.password) start events).any fun state => decide
        (state.Settled ∧ ((state.server.dbOf number).get (bytes "k")).isSome ∧
          ((replayed quietEnv state.file).toOption.map fun server =>
            (server.dbOf number).get (bytes "k")) = some none)) = true) :
      ∃ state, run (next quietEnv.password) start events = some state ∧ state.Settled ∧
        ((state.server.dbOf number).get (bytes "k")).isSome ∧
        ((replayed quietEnv state.file).toOption.map fun server =>
          (server.dbOf number).get (bytes "k")) = some none ∧ ¬ state.Faithful quietEnv := by
    obtain ⟨state, ran, settled, live, lost⟩ := run_checked checked
    exact ⟨state, ran, settled, live, lost, not_faithful_of_lost live lost⟩
  exact ⟨lost_in 0 (by decide +kernel), lost_in 1 (by decide +kernel)⟩

end Aof

end ForkRedis
