import ForkRedis.Replay

set_option autoImplicit false

/- The log as it is meant to be read: batches of requests, each behind the `SELECT` of the
database they were logged for. -/
namespace ForkRedis

open Lists Fallible

variable {env : Env} {client : Nat} {request : Request} {requests : List Request}

def isSelect (request : Request) : Bool := commandOf request == some (.cli .select)

/-- The requests that are executed on the database of their client. `REWRITE` is not one
of them, nor is a request without a command. -/
def isData (request : Request) : Bool :=
  match commandOf request with
  | none | some (.db .rewrite) => false
  | some name => name.local

theorem isSelect_of_isData (data : isData request = true) : isSelect request = false := by
  rw [isSelect, beq_eq_false_iff_ne]
  intro named
  rw [isData, named] at data
  cases data

theorem commandOf_of_isSelect (select : isSelect request = true) :
    commandOf request = some (.cli .select) :=
  beq_iff_eq.mp select

/-- Of the local requests, only the data requests do anything to the database. -/
theorem handle_idle (lone : Request.local request = true) (idle : isData request = false)
    (env : Env) (db : Db) : db.handle env request = .ok db := by
  rw [Db.handle, requestToCommandExec_eq]
  rw [isData] at idle
  rw [Request.local] at lone
  cases named : commandOf request with
  | none => rfl
  | some name =>
      rw [named] at idle lone
      split at idle
      · rename_i missing
        cases missing
      · rename_i rewrites
        cases rewrites
        rfl
      · rename_i found
        cases found
        exact absurd (idle.symm.trans (Option.all_some.symm.trans lone)) Bool.false_ne_true

theorem serve_data {requests : List Request}
    (lone : ∀ request ∈ requests, Request.local request = true) (env : Env) (db : Db) :
    db.serve env (requests.filter isData) = db.serve env requests := by
  induction requests generalizing db with
  | nil => rfl
  | cons request requests ih =>
      have tail := fun next => ih (fun other member => lone other (List.mem_cons_of_mem _ member)) next
      cases data : isData request with
      | true =>
          rw [List.filter_cons_of_pos data, Db.serve, Db.serve, List.foldlM_cons, List.foldlM_cons]
          exact bind_congr tail
      | false =>
          have skipped := handle_idle (lone request List.mem_cons_self) data env db
          rw [List.filter_cons_of_neg (Bool.eq_false_iff.mp data), tail, Db.serve, Db.serve,
            List.foldlM_cons, skipped]
          rfl

/-- What `ExportAOF` writes: the requests logged for a database since its last export. -/
structure Batch where
  number : Int32
  requests : List Request

namespace Batch

def lines (password : Bytes) (batch : Batch) : List Request :=
  selectRequest batch.number password :: batch.requests

end Batch

/-- The data requests that batches hold for the database with a number. -/
def dataFor (number : Int32) (batches : List Batch) : List Request :=
  (batches.filter fun batch => batch.number == number).flatMap fun batch =>
    batch.requests.filter isData

theorem dataFor_append (number : Int32) (first second : List Batch) :
    dataFor number (first ++ second) = dataFor number first ++ dataFor number second := by
  rw [dataFor, List.filter_append, List.flatMap_append]
  rfl

theorem dataFor_cons (number : Int32) (batch : Batch) (batches : List Batch) :
    dataFor number (batch :: batches) =
      (if batch.number = number then batch.requests.filter isData else []) ++
        dataFor number batches := by
  by_cases same : batch.number = number
  · have kept : (batch.number == number) = true := beq_iff_eq.mpr same
    rw [dataFor, List.filter_cons, kept, if_pos same]
    rfl
  · have dropped : (batch.number == number) = false := beq_eq_false_iff_ne.mpr same
    rw [dataFor, List.filter_cons, dropped, if_neg same]
    rfl

/-- A `SELECT` that was logged takes effect when the log is replayed, so the data requests
of a batch have to come before it. -/
def Tidy (requests : List Request) : Prop :=
  ∃ front back, requests = front ++ back ∧ (∀ request ∈ front, isSelect request = false) ∧
    ∀ request ∈ back, isData request = false

theorem Tidy.nil : Tidy [] := ⟨[], [], rfl, nofun, nofun⟩

theorem Tidy.of_unselected (unselected : ∀ request ∈ requests, isSelect request = false) :
    Tidy requests :=
  ⟨requests, [], (List.append_nil _).symm, unselected, nofun⟩

theorem Tidy.append_idle (tidy : Tidy requests) (idle : isData request = false) :
    Tidy (requests ++ [request]) := by
  obtain ⟨front, back, rfl, unselected, idles⟩ := tidy
  refine ⟨front, back ++ [request], List.append_assoc _ _ _, unselected, ?_⟩
  intro other member
  rcases List.mem_append.mp member with old | new
  · exact idles other old
  · rw [List.mem_singleton.mp new]
    exact idle

section Replaying

variable (fits : Request → Prop)

/-- A request that can be logged and read back: it is found again in the stream, it is
local or a `SELECT`, no expiry hangs on it, and its number is one that `std::stoi` reads. -/
structure Loggable (request : Request) : Prop where
  framed : innerBrackets request = 0
  known : Request.local request = true ∨ isSelect request = true
  lasting : commandOf request ≠ some (.db .expire)
  small : isSelect request = true → ∀ number ∈ request[1]?, ¬ Oversized number
  fits : fits request

instance [DecidablePred fits] (request : Request) : Decidable (Loggable fits request) :=
  decidable_of_iff (innerBrackets request = 0 ∧
      (Request.local request = true ∨ isSelect request = true) ∧
      commandOf request ≠ some (.db .expire) ∧
      (isSelect request = true → ∀ number ∈ request[1]?, ¬ Oversized number) ∧ fits request)
    ⟨fun ⟨framed, known, lasting, small, fit⟩ => ⟨framed, known, lasting, small, fit⟩,
      fun ⟨framed, known, lasting, small, fit⟩ => ⟨framed, known, lasting, small, fit⟩⟩

structure Batch.Sane (batch : Batch) : Prop where
  unsigned : 0 ≤ batch.number
  tidy : Tidy batch.requests
  loggable : ∀ request ∈ batch.requests, Loggable fits request

variable {fits}

theorem Loggable.local (loggable : Loggable fits request) (unselected : isSelect request = false) :
    Request.local request = true := by
  rcases loggable.known with lone | select
  · exact lone
  · rw [unselected] at select
    cases select

namespace Server

theorem Sound.handle {server server' : Server} (sound : server.Sound)
    (handled : server.handle env client request = .ok server') : server'.Sound := by
  obtain ⟨parsed, translated, executed⟩ := bind_eq_ok.mp handled
  cases parsed with
  | none =>
      cases executed
      exact sound
  | some command =>
      obtain ⟨outcome, run, result⟩ := bind_eq_ok.mp executed
      cases result
      exact sound.exec (requestToCommandExec_filled translated) run

theorem Sound.serve {server server' : Server} (sound : server.Sound)
    (served : server.serve env client requests = .ok server') : server'.Sound := by
  induction requests generalizing server with
  | nil =>
      cases served
      exact sound
  | cons request requests ih =>
      obtain ⟨next, handled, rest⟩ := bind_eq_ok.mp served
      exact ih (sound.handle handled) rest

/-- What is behind the last data request of a batch moves the client about, and no more. -/
theorem serve_idle (env : Env) {server : Server} (sound : server.Sound)
    (attached : server.clients client ≠ none)
    (loggable : ∀ request ∈ requests, Loggable fits request)
    (idle : ∀ request ∈ requests, isData request = false) :
    ∃ server', server.serve env client requests = .ok server' ∧ server'.Sound ∧
      server'.clients client ≠ none ∧ ∀ number, server'.dbOf number = server.dbOf number := by
  induction requests generalizing server with
  | nil => exact ⟨server, rfl, sound, attached, fun _ => rfl⟩
  | cons request requests ih =>
      obtain ⟨index, place⟩ := Option.ne_none_iff_exists'.mp attached
      obtain ⟨next, handled, there, same⟩ : ∃ next, server.handle env client request = .ok next ∧
          next.clients client ≠ none ∧ ∀ number, next.dbOf number = server.dbOf number := by
        cases select : isSelect request with
        | true =>
            have named := commandOf_of_isSelect select
            obtain ⟨next, handled⟩ := select_returns env server client named
              ((loggable request List.mem_cons_self).small select)
            have selects := handle_select sound place named handled
            exact ⟨next, handled, selects.attached, selects.dbOf⟩
        | false =>
            have inside := server.attached client index place
            have found := List.getElem?_eq_getElem inside
            have lone := (loggable request List.mem_cons_self).local select
            refine ⟨server, ?_, attached, fun _ => rfl⟩
            rw [handle_local place found lone,
              handle_idle lone (idle request List.mem_cons_self)]
            exact congrArg Except.ok (setDatabase_same found)
      obtain ⟨server', served, sound', last, kept⟩ := ih (sound.handle handled) there
        (fun other member => loggable other (List.mem_cons_of_mem _ member))
        fun other member => idle other (List.mem_cons_of_mem _ member)
      refine ⟨server', ?_, sound', last, fun number => (kept number).trans (same number)⟩
      rw [serve, List.foldlM_cons, handled]
      exact served

/-- A batch, replayed: its data requests are executed on the database it was logged for. -/
theorem serve_batch (word : Word env.password) {server : Server} (sound : server.Sound)
    (attached : server.clients client ≠ none) {batch : Batch} (sane : batch.Sane fits) {db' : Db}
    (executed : (server.dbOf batch.number).serve env (batch.requests.filter isData) = .ok db') :
    ∃ server', server.serve env client (batch.lines env.password) = .ok server' ∧
      server'.Sound ∧ server'.clients client ≠ none ∧ ∀ number, server'.dbOf number =
        if number = batch.number then db' else server.dbOf number := by
  obtain ⟨index, place⟩ := Option.ne_none_iff_exists'.mp attached
  obtain ⟨front, back, split, unselected, idle⟩ := sane.tidy
  obtain ⟨headed, handled, selects, position, db, placed, there, named⟩ :=
    handle_selectRequest word sound place sane.unsigned
  have settled := sound.handle handled
  -- the front of the batch runs in the database of the header
  have lone : ∀ request ∈ front, Request.local request = true := by
    intro request member
    refine (sane.loggable request ?_).local (unselected request member)
    rw [split]
    exact List.mem_append_left back member
  have held : server.dbOf batch.number = db := by
    rw [← selects.dbOf, ← named]
    exact dbOf_of_getElem settled.distinct there
  have none_behind : back.filter isData = [] := by
    rw [List.filter_eq_nil_iff]
    intro request member
    rw [idle request member]
    exact Bool.false_ne_true
  rw [split, List.filter_append, none_behind, List.append_nil, held, serve_data lone] at executed
  have front_served := serve_local env placed there lone
  rw [executed] at front_served
  have served : headed.serve env client front = .ok (headed.setDatabase position db') :=
    front_served
  have kept := dbOf_setDatabase settled.distinct there (Db.number_serve executed)
  obtain ⟨server', rest, sound', last, same⟩ := serve_idle env (settled.serve served)
    selects.attached (fun request member => sane.loggable request (by
      rw [split]
      exact List.mem_append_right front member)) idle
  refine ⟨server', ?_, sound', last, ?_⟩
  · rw [Batch.lines, split, serve, List.foldlM_cons, handled, ok_bind, List.foldlM_append]
    change (headed.serve env client front >>= fun next => next.serve env client back) = _
    rw [served]
    exact rest
  · intro number
    rw [same, kept, named, selects.dbOf]

/-- Batches, replayed one after the other. -/
theorem serve_batches (word : Word env.password) {server : Server} (sound : server.Sound)
    (attached : server.clients client ≠ none) {batches : List Batch}
    (sane : ∀ batch ∈ batches, batch.Sane fits)
    (executed : ∀ number, ∃ db, (server.dbOf number).serve env (dataFor number batches) = .ok db) :
    ∃ server', server.serve env client (batches.flatMap (Batch.lines env.password)) = .ok server' ∧
      ∀ number, (server.dbOf number).serve env (dataFor number batches) =
        .ok (server'.dbOf number) := by
  induction batches generalizing server with
  | nil => exact ⟨server, rfl, fun _ => rfl⟩
  | cons batch batches ih =>
      have apart : ∀ number, (server.dbOf number).serve env (dataFor number (batch :: batches)) =
          (server.dbOf number).serve env
            (if batch.number = number then batch.requests.filter isData else []) >>=
              fun db => db.serve env (dataFor number batches) := by
        intro number
        rw [dataFor_cons, Db.serve_append]
      obtain ⟨last, all⟩ := executed batch.number
      rw [apart, if_pos rfl] at all
      obtain ⟨db', first, -⟩ := bind_eq_ok.mp all
      obtain ⟨next, served, sound', there, held⟩ :=
        serve_batch word sound attached (sane batch List.mem_cons_self) first
      have step : ∀ number, (server.dbOf number).serve env
          (if batch.number = number then batch.requests.filter isData else []) =
            .ok (next.dbOf number) := by
        intro number
        rw [held]
        by_cases same : number = batch.number
        · rw [same, if_pos rfl, if_pos rfl, first]
        · rw [if_neg (Ne.symm same), if_neg same]
          rfl
      have rest : ∀ number, (server.dbOf number).serve env (dataFor number (batch :: batches)) =
          (next.dbOf number).serve env (dataFor number batches) := by
        intro number
        rw [apart, step, ok_bind]
      obtain ⟨server', later, result⟩ := ih sound' there
        (fun other member => sane other (List.mem_cons_of_mem _ member)) fun number => by
          rw [← rest]
          exact executed number
      refine ⟨server', ?_, fun number => (rest number).trans (result number)⟩
      rw [List.flatMap_cons, serve, List.foldlM_append]
      change (server.serve env client (batch.lines env.password) >>= fun next =>
        next.serve env client (batches.flatMap (Batch.lines env.password))) = _
      rw [served]
      exact later

end Server

/-- Databases that no data request tells apart, except by its reply. -/
structure Simulates (Same : Db → Db → Prop) (fits : Request → Prop) : Prop where
  refl : ∀ db, Same db db
  contents : ∀ {db other}, Same db other → db.contents = other.contents
  handle : ∀ {env : Env} {db other after : Db} {request : Request}, Same db other →
    isData request = true → fits request → other.handle env request = .ok after →
      ∃ next, db.handle env request = .ok next ∧ Same next after

theorem Simulates.serve {Same : Db → Db → Prop} (simulates : Simulates Same fits)
    {db other after : Db} (same : Same db other)
    (data : ∀ request ∈ requests, isData request = true ∧ fits request)
    (served : other.serve env requests = .ok after) :
    ∃ last, db.serve env requests = .ok last ∧ Same last after := by
  induction requests generalizing db other with
  | nil =>
      cases served
      exact ⟨db, rfl, same⟩
  | cons request requests ih =>
      obtain ⟨next, handled, rest⟩ := bind_eq_ok.mp served
      obtain ⟨isdata, fit⟩ := data request List.mem_cons_self
      obtain ⟨twin, answered, alike⟩ := simulates.handle same isdata fit handled
      obtain ⟨last, later, result⟩ := ih alike
        (fun other member => data other (List.mem_cons_of_mem _ member)) rest
      refine ⟨last, ?_, result⟩
      rw [Db.serve, List.foldlM_cons, answered]
      exact later

end Replaying

end ForkRedis
