import ForkRedis.Aof
import ForkRedis.Alike

set_option autoImplicit false

/- `REWRITE`: the snapshot is taken when the command is executed, the file is replaced when
its timer fires, and the caches are left as they are in between. -/
namespace ForkRedis

open Lists Fallible Machine Json11

namespace Journal

instance {Same : Db → Db → Prop} [DecidableRel Same] (env : Env) (db : Db) :
    Decidable (Reproducible env Same db) :=
  match built : Db.serve env ⟨db.number, Keyed.empty⟩
      (db.keyValueMap.items.map KeyValue.request) with
  | .ok start => decidable_of_iff (Same start db)
      ⟨fun same => ⟨start, built, same⟩, fun ⟨other, returned, same⟩ => by
        rw [built] at returned
        cases returned
        exact same⟩
  | .error fault => isFalse fun ⟨other, returned, _⟩ => by
      rw [built] at returned
      cases returned

/-- No client is in a database that does not exist. -/
theorem waiting_unused {server : Server} {queue : List (Nat × Request)} {index : Nat}
    (outside : server.databases.length ≤ index) : waiting server.clients queue index = [] := by
  rw [waiting, List.map_eq_nil_iff, List.filter_eq_nil_iff]
  intro entry _ here
  simp only [Bool.and_eq_true, beq_iff_eq] at here
  exact absurd (server.attached entry.1 index here.2) (Nat.not_lt.mpr outside)

end Journal

namespace Aof

/-- What a rewrite needs: when it is begun, each cache holds just the requests of its
database that are still on the queue, and `Fork` reproduces every database; until its timer
has fired, nothing is flushed. Reads and disconnects are as without a rewrite, except that
`SPOP` is not read, whose effect depends on the order a hash container happens to have. -/
def Orderly (env : Env) (state : Aof) : LogEvent → Prop
  | .connect _ | .fire _ => True
  | .disconnect client => ∀ entry ∈ state.queue, entry.1 ≠ client
  | .read client request =>
      state.Readable (fun request => commandOf request ≠ some (.set .spop)) client request
  | .exec _ => ∀ entry ∈ state.queue.head?, commandOf entry.2 = some (.db .rewrite) →
      (∀ index < state.server.databases.length,
        (exportMessages (state.caches index)).1.filter isData =
          Journal.waiting state.server.clients state.queue index) ∧
      ∀ db ∈ state.server.databases, 0 ≤ db.number ∧ Journal.Reproducible env Db.Alike db
  | .flush _ => state.rewrites = []

instance (env : Env) (state : Aof) (event : LogEvent) : Decidable (state.Orderly env event) :=
  match event with
  | .connect _ | .fire _ => inferInstanceAs (Decidable True)
  | .disconnect client => inferInstanceAs (Decidable (∀ entry ∈ state.queue, entry.1 ≠ client))
  | .read client request => inferInstanceAs (Decidable
      (state.Readable (fun request => commandOf request ≠ some (.set .spop)) client request))
  | .exec _ => inferInstanceAs (Decidable (∀ entry ∈ state.queue.head?, _ → _))
  | .flush _ => inferInstanceAs (Decidable (state.rewrites = []))

theorem Orderly.careful {env : Env} {journal : Journal} {event : LogEvent}
    (orderly : (journal.encode env.password).Orderly env event)
    (invariant : journal.Invariant env Db.Alike fun request =>
      commandOf request ≠ some (.set .spop)) :
    journal.Careful env Db.Alike (fun request => commandOf request ≠ some (.set .spop)) event := by
  cases event with
  | connect client | fire position => trivial
  | disconnect client => exact orderly
  | read client request => exact Readable.careful invariant orderly
  | flush index => exact List.map_eq_nil_iff.mp orderly
  | exec live =>
      intro entry rest queue named
      have head : entry ∈ (journal.encode env.password).queue.head? := by
        rw [Journal.encode, queue]
        rfl
      obtain ⟨caches, sources⟩ := orderly entry head named
      refine ⟨fun index => ?_, sources⟩
      by_cases inside : index < journal.server.databases.length
      · have cached := caches index inside
        rw [Journal.encode, invariant.logs_framed index] at cached
        exact cached
      · have outside := Nat.not_lt.mp inside
        rw [invariant.unused index outside, Journal.pending, Journal.waiting_unused outside]
        rfl

/-- In an orderly run the file, replayed once everything is executed and flushed and every
timer has fired, rebuilds what the server holds. -/
theorem rewrite_faithful (env : Env) (word : Word env.password) (events : List LogEvent)
    {state : Aof} (orderly : Meets (next env.password) (Orderly env) start events)
    (ran : run (next env.password) start events = some state) (settled : state.Settled) :
    state.Faithful env := by
  have forks (kv : KeyValue) : commandOf kv.request ≠ some (.set .spop) := by
    rw [KeyValue.request_eq]
    cases kv.value <;> exact nofun
  obtain ⟨journal, rfl, invariant⟩ := run_keeps
    (fun state => ∃ journal : Journal, journal.encode env.password = state ∧
      journal.Invariant env Db.Alike fun request => commandOf request ≠ some (.set .spop))
    (fun state event after kept orderly stepped => by
      obtain ⟨journal, rfl, invariant⟩ := kept
      rw [Journal.next_encode, Option.map_eq_some_iff] at stepped
      obtain ⟨later, moved, rfl⟩ := stepped
      exact ⟨later, rfl, Journal.next_keeps simulates_alike forks invariant
        (orderly.careful invariant) moved⟩)
    ⟨Journal.start, rfl, Journal.start_invariant simulates_alike⟩ orderly ran
  exact invariant.faithful word simulates_alike settled

/-- A set is filled and flushed. Then the file is rewritten while two pushes are read and
executed, one of them before the snapshot is taken and one after it. -/
def rewriteBetween : List LogEvent :=
  [.connect 0, .connect 1, .read 0 [bytes "SADD", bytes "s", bytes "a", bytes "b"],
    .exec quietEnv, .flush 0, .read 0 [bytes "REWRITE"], .read 1 [bytes "LPUSHB", bytes "l", bytes "x"],
    .exec quietEnv, .read 1 [bytes "SREM", bytes "s", bytes "a"], .exec quietEnv, .fire 0,
    .exec quietEnv, .flush 0]

theorem rewrite_faithful_between :
    ∃ state, run (next quietEnv.password) start rewriteBetween = some state ∧
      (state.rewrites = [] ∧ state.Settled) ∧ state.Faithful quietEnv := by
  have orderly : Meets (next quietEnv.password) (Orderly quietEnv) start rewriteBetween := by
    decide +kernel
  obtain ⟨state, ran, fired, settled⟩ : ∃ state,
      run (next quietEnv.password) start rewriteBetween = some state ∧
        state.rewrites = [] ∧ state.Settled :=
    run_checked (by decide +kernel)
  exact ⟨state, ran, ⟨fired, settled⟩,
    rewrite_faithful quietEnv (by decide) rewriteBetween orderly ran settled⟩

/-- A push is logged and executed, and still in the cache when the snapshot that holds it is
taken: it is flushed behind the snapshot. -/
def rewriteRepeats : List LogEvent :=
  [.connect 0, .read 0 [bytes "LPUSHB", bytes "k", bytes "v"], .exec quietEnv,
    .read 0 [bytes "REWRITE"], .exec quietEnv, .fire 0, .flush 0]

/-- A key is set after the snapshot was taken, and flushed before the file is replaced. -/
def rewriteLoses : List LogEvent :=
  [.connect 0, .read 0 [bytes "REWRITE"], .exec quietEnv,
    .read 0 [bytes "SET", bytes "k", bytes "v"], .exec quietEnv, .flush 0, .fire 0]

theorem rewrite_repeats_and_loses :
    (∃ state, run (next quietEnv.password) start rewriteRepeats = some state ∧ state.Settled ∧
      state.rewrites = [] ∧
      (state.server.dbOf 0).get (bytes "k") = some (.list [Str.ofData (bytes "v")]) ∧
      ((replayed quietEnv state.file).toOption.map fun server =>
        (server.dbOf 0).get (bytes "k")) =
          some (some (.list [Str.ofData (bytes "v"), Str.ofData (bytes "v")])) ∧
      ¬ state.Faithful quietEnv) ∧
    (∃ state, run (next quietEnv.password) start rewriteLoses = some state ∧ state.Settled ∧
      state.rewrites = [] ∧
      (state.server.dbOf 0).get (bytes "k") = some (.str (Str.ofData (bytes "v"))) ∧
      ((replayed quietEnv state.file).toOption.map fun server =>
        (server.dbOf 0).get (bytes "k")) = some none ∧ ¬ state.Faithful quietEnv) := by
  constructor
  · obtain ⟨state, ran, settled, fired, live, rebuilt⟩ : ∃ state,
        run (next quietEnv.password) start rewriteRepeats = some state ∧ state.Settled ∧
          state.rewrites = [] ∧
          (state.server.dbOf 0).get (bytes "k") = some (.list [Str.ofData (bytes "v")]) ∧
          ((replayed quietEnv state.file).toOption.map fun server =>
            (server.dbOf 0).get (bytes "k")) =
              some (some (.list [Str.ofData (bytes "v"), Str.ofData (bytes "v")])) :=
      run_checked (by decide +kernel)
    refine ⟨state, ran, settled, fired, live, rebuilt, fun faithful => ?_⟩
    have same := faithful.get rebuilt
    rw [live] at same
    injection same with contents
    injection contents with items
    cases items
  · obtain ⟨state, ran, settled, fired, live, rebuilt⟩ : ∃ state,
        run (next quietEnv.password) start rewriteLoses = some state ∧ state.Settled ∧
          state.rewrites = [] ∧
          (state.server.dbOf 0).get (bytes "k") = some (.str (Str.ofData (bytes "v"))) ∧
          ((replayed quietEnv state.file).toOption.map fun server =>
            (server.dbOf 0).get (bytes "k")) = some none :=
      run_checked (by decide +kernel)
    refine ⟨state, ran, settled, fired, live, rebuilt, fun faithful => ?_⟩
    have same := faithful.get rebuilt
    rw [live] at same
    cases same

end Aof

end ForkRedis
