import ForkRedis.Recall
import ForkRedis.Loading

set_option autoImplicit false

/- A server with a log that crashes and starts again, any number of times. -/
namespace ForkRedis

open Lists Fallible Machine

variable {env : Env} {past : Server → Prop} {request : Request} {journal : Journal}
  {batches : List Batch} {client : Nat} {fits : Request → Prop}

namespace Server

/-- A request that has its place in a log: it is local or a `SELECT`. -/
def Moves (request : Request) : Prop := Request.local request = true ∨ isSelect request = true

theorem select_env {env live : Env} (server : Server) (client : Nat)
    (named : commandOf request = some (.cli .select)) :
    server.handle (logging env.password live) client request = server.handle env client request := by
  rw [handle_cli named, handle_cli named]
  rfl

/-- What the clock, the network and the switch for the log are does not matter. -/
theorem handle_live {env live : Env} {server : Server} (attached : server.clients client ≠ none)
    (moves : Moves request) :
    server.handle (logging env.password live) client request = server.handle env client request := by
  rcases moves with lone | select
  · obtain ⟨index, place⟩ := Option.ne_none_iff_exists'.mp attached
    have there := List.getElem?_eq_getElem (server.attached client index place)
    rw [handle_local place there lone, handle_local place there lone, Db.handle_env _ env]
  · exact select_env server client (commandOf_of_isSelect select)

/-- What a request of a log leaves as it was: the client stays connected, and the databases
keep their places. -/
structure Grown (server : Server) (client : Nat) (after : Server) : Prop where
  sound : after.Sound
  attached : after.clients client ≠ none
  numbers : server.databases.map Store.number <+: after.databases.map Store.number

theorem Grown.trans {server between after : Server} (first : server.Grown client between)
    (second : between.Grown client after) : server.Grown client after :=
  ⟨second.sound, second.attached, first.numbers.trans second.numbers⟩

theorem handle_grown {server after : Server} (sound : server.Sound)
    (attached : server.clients client ≠ none) (moves : Moves request)
    (handled : server.handle env client request = .ok after) : server.Grown client after := by
  have settled := sound.handle handled
  obtain ⟨index, place⟩ := Option.ne_none_iff_exists'.mp attached
  rcases moves with lone | select
  · have there := List.getElem?_eq_getElem (server.attached client index place)
    rw [handle_local place there lone] at handled
    obtain ⟨db, executed, rfl⟩ := map_eq_ok.mp handled
    exact ⟨settled, attached,
      (numbers_setDatabase there (Db.number_handle executed)) ▸ List.prefix_rfl⟩
  · have selects := handle_select sound place (commandOf_of_isSelect select) handled
    refine ⟨settled, selects.attached, ?_⟩
    rcases selects.databases with same | ⟨number, -, grown⟩
    · exact same.symm ▸ List.prefix_rfl
    · rw [grown, List.map_append]
      exact List.prefix_append _ _

theorem serve_grown {server after : Server} (sound : server.Sound)
    (attached : server.clients client ≠ none) {requests : List Request}
    (moves : ∀ request ∈ requests, Moves request)
    (served : server.serve env client requests = .ok after) : server.Grown client after := by
  induction requests generalizing server with
  | nil =>
      cases served
      exact ⟨sound, attached, List.prefix_rfl⟩
  | cons request requests ih =>
      obtain ⟨between, handled, later⟩ := bind_eq_ok.mp served
      have ⟨first, others⟩ := List.forall_mem_cons.mp moves
      have grown := handle_grown sound attached first handled
      exact grown.trans (ih grown.sound grown.attached others later)

theorem serve_append (env : Env) (server : Server) (client : Nat) (first second : List Request) :
    server.serve env client (first ++ second) =
      server.serve env client first >>= fun between => between.serve env client second :=
  List.foldlM_append

/-- The lines of a batch that were executed: its data requests were, in its database, which
is there by now. -/
theorem serve_lines (word : Word env.password) {server after : Server} (sound : server.Sound)
    (attached : server.clients client ≠ none) {batch : Batch} (sane : batch.Sane fits)
    (served : server.serve env client (batch.lines env.password) = .ok after) :
    (∃ db, (server.dbOf batch.number).serve env (batch.requests.filter isData) = .ok db) ∧
      server.Grown client after ∧ batch.number ∈ after.databases.map Store.number := by
  obtain ⟨index, place⟩ := Option.ne_none_iff_exists'.mp attached
  obtain ⟨front, back, split, unselected, idle⟩ := sane.tidy
  obtain ⟨headed, handled, selects, position, db, placed, there, named⟩ :=
    handle_selectRequest word sound place sane.unsigned
  have settled := sound.handle handled
  rw [Batch.lines, serve, List.foldlM_cons, handled, ok_bind] at served
  have grown : headed.Grown client after :=
    serve_grown settled selects.attached
      (fun request member => (sane.loggable request member).known) served
  have wider : server.databases.map Store.number <+: headed.databases.map Store.number := by
    rcases selects.databases with same | ⟨number, -, wider⟩
    · exact same.symm ▸ List.prefix_rfl
    · rw [wider, List.map_append]
      exact List.prefix_append _ _
  refine ⟨?_, ⟨grown.sound, grown.attached, wider.trans grown.numbers⟩, ?_⟩
  · -- nothing behind the front of the batch is a data request
    have none_behind : back.filter isData = [] :=
      List.filter_eq_nil_iff.mpr fun request member => by simp [idle request member]
    have lone : ∀ request ∈ front, Request.local request = true := fun request member =>
      (sane.loggable request (split ▸ List.mem_append_left back member)).local
        (unselected request member)
    change headed.serve env client batch.requests = .ok after at served
    rw [split, serve_append] at served
    obtain ⟨between, first, -⟩ := bind_eq_ok.mp served
    rw [serve_local env placed there lone] at first
    obtain ⟨last, executed, -⟩ := map_eq_ok.mp first
    refine ⟨last, ?_⟩
    rw [split, List.filter_append, none_behind, List.append_nil, serve_data lone, ← selects.dbOf,
      ← named, dbOf_of_getElem settled.distinct there, executed]
  · refine grown.numbers.subset ?_
    rw [← named]
    exact List.mem_map_of_mem (List.mem_of_getElem? there)

/-- Batches that were executed one after the other. -/
theorem served_batches (word : Word env.password) {server after : Server} (sound : server.Sound)
    (attached : server.clients client ≠ none) (sane : ∀ batch ∈ batches, batch.Sane fits)
    (served : server.serve env client (batches.flatMap (Batch.lines env.password)) = .ok after) :
    (∀ number, (server.dbOf number).serve env (dataFor number batches) =
        .ok (after.dbOf number)) ∧
      server.Grown client after ∧
      ∀ batch ∈ batches, batch.number ∈ after.databases.map Store.number := by
  induction batches generalizing server with
  | nil =>
      cases served
      exact ⟨fun _ => rfl, ⟨sound, attached, List.prefix_rfl⟩, nofun⟩
  | cons batch batches ih =>
      rw [List.flatMap_cons, serve_append] at served
      obtain ⟨between, first, later⟩ := bind_eq_ok.mp served
      have ⟨whole, others⟩ := List.forall_mem_cons.mp sane
      obtain ⟨⟨db, executed⟩, grown, listed⟩ := serve_lines word sound attached whole first
      obtain ⟨same, again, -, -, held⟩ := serve_batch word sound attached whole executed
      cases first.symm.trans again
      obtain ⟨results, grows, numbers⟩ := ih grown.sound grown.attached others later
      refine ⟨fun number => ?_, grown.trans grows,
        List.forall_mem_cons.mpr ⟨grows.numbers.subset listed, numbers⟩⟩
      rw [dataFor_cons, Db.serve_append, ← results number, held number]
      by_cases here : number = batch.number
      · rw [here, if_pos rfl, if_pos rfl, executed]
        rfl
      · rw [if_neg (Ne.symm here), if_neg here]
        rfl

theorem oneClient_attached : oneClient.clients 0 ≠ none := nofun

theorem oneClient_dbOf (number : Int32) : oneClient.dbOf number = ⟨number, Keyed.empty⟩ := by
  by_cases zero : number = 0
  · rw [zero]
    rfl
  · refine dbOf_of_missing fun listed => zero ?_
    exact List.mem_singleton.mp listed

end Server

theorem commandOf_selectRequest (number : Int32) (password : Bytes) :
    commandOf (selectRequest number password) = some (.cli .select) := by
  have shape : bytes "SELECT " = bytes "SELECT" ++ [space] := rfl
  rw [selectRequest, shape, List.append_assoc, List.singleton_append,
    rawCommandToRequest_word_separator (by decide) isTokenMember_space]
  rfl

/-- What is asked of a request that is loaded. -/
structure Replayable (request : Request) : Prop where
  moves : Server.Moves request
  plain : commandOf request ≠ some (.db .rewrite)

theorem replayable_lines (password : Bytes)
    (sane : ∀ batch ∈ batches, batch.Sane fun request => commandOf request ≠ some (.db .rewrite)) :
    ∀ request ∈ batches.flatMap (Batch.lines password), Replayable request := by
  intro request member
  obtain ⟨batch, listed, line⟩ := List.mem_flatMap.mp member
  rcases List.mem_cons.mp line with rfl | logged
  · have named := commandOf_selectRequest batch.number password
    exact ⟨.inr (beq_iff_eq.mpr named), by simp [named]⟩
  · have loggable := (sane batch listed).loggable request logged
    exact ⟨loggable.known, loggable.fits⟩

/-- A request that is turned into a command. -/
def named (request : Request) : Bool := (commandOf request).isSome

theorem named_of_translated {parsed : Option Command}
    (translated : requestToCommandExec request = .ok parsed) : parsed.isSome = named request := by
  rw [requestToCommandExec_eq] at translated
  rw [named]
  cases command : commandOf request with
  | none =>
      rw [command] at translated
      cases translated
      rfl
  | some name =>
      rw [command] at translated
      obtain ⟨made, -, returned⟩ := bind_eq_ok.mp translated
      cases returned
      rfl

theorem handle_unnamed (env : Env) (server : Server) (client : Nat)
    (unnamed : named request = false) : server.handle env client request = .ok server := by
  rw [named, Option.isSome_eq_false_iff, Option.isNone_iff_eq_none] at unnamed
  rw [Server.handle, requestToCommandExec_eq, unnamed]
  rfl

theorem serve_unnamed (env : Env) (server : Server) (client : Nat) {requests : List Request}
    (unnamed : ∀ request ∈ requests, named request = false) :
    server.serve env client requests = .ok server := by
  induction requests with
  | nil => rfl
  | cons request requests ih =>
      have ⟨first, others⟩ := List.forall_mem_cons.mp unnamed
      rw [Server.serve, List.foldlM_cons, handle_unnamed env server client first, ok_bind]
      exact ih others

/-- The requests of a log, executed from its beginning, lead through remembered states. -/
def Traced (env : Env) (past : Server → Prop) (requests : List Request) : Prop :=
  ∀ early, early <+: requests → ∃ earlier, past earlier ∧
    Server.oneClient.serve env 0 early = .ok earlier

theorem Traced.append_unnamed {requests more : List Request} (traced : Traced env past requests)
    (unnamed : ∀ request ∈ more, named request = false) : Traced env past (requests ++ more) := by
  intro early begins
  rcases List.prefix_or_prefix_of_prefix begins (List.prefix_append requests more) with
    within | ⟨rest, rfl⟩
  · exact traced early within
  · obtain ⟨earlier, passed, served⟩ := traced requests List.prefix_rfl
    refine ⟨earlier, passed, ?_⟩
    rw [Server.serve_append, served]
    apply serve_unnamed
    intro request member
    exact unnamed request (((List.prefix_append_right_inj requests).mp begins).subset member)

theorem Traced.concat {requests : List Request} (traced : Traced env past requests)
    {server : Server} (passed : past server)
    (served : Server.oneClient.serve env 0 (requests ++ [request]) = .ok server) :
    Traced env past (requests ++ [request]) := by
  intro early begins
  rcases List.prefix_concat_iff.mp begins with rfl | within
  · exact ⟨server, passed, served⟩
  · exact traced early within

namespace Journal

/-- While the log is loaded: everything that was read is in the cache of the first database,
and a part of it has been executed. -/
structure Loaded (env : Env) (past : Server → Prop) (read : List Request) (journal : Journal) :
    Prop where
  logs : journal.logs = Function.update (fun _ => []) 0 read
  file : journal.file = []
  rewrites : journal.rewrites = []
  half : ∃ done todo, read = done ++ todo ∧
    Server.oneClient.serve env 0 done = .ok journal.server ∧
    journal.queue = (todo.filter named).map (Prod.mk 0) ∧ Traced env past done

theorem Loaded.read {read : List Request} (loaded : Loaded env past read journal)
    {parsed : Option Command} (translated : requestToCommandExec request = .ok parsed) :
    Loaded env past (read ++ [request]) { journal with
      logs := Function.update journal.logs 0 (journal.logs 0 ++ [request])
      queue := journal.queue ++ parsed.toList.map fun _ => (0, request) } := by
  obtain ⟨done, todo, split, served, queue, traced⟩ := loaded.half
  refine ⟨?_, loaded.file, loaded.rewrites, done, todo ++ [request], ?_, served, ?_, traced⟩
  · show Function.update journal.logs 0 _ = _
    rw [loaded.logs, Function.update_self, Function.update_idem]
  · rw [split, List.append_assoc]
  · show journal.queue ++ _ = _
    rw [queue, List.filter_append, List.map_append, List.filter_singleton,
      ← named_of_translated translated]
    cases parsed <;> rfl

theorem Loaded.exec {read : List Request} (loaded : Loaded env past read journal)
    (replayable : ∀ request ∈ read, Replayable request) {live : Env} {rest : List (Nat × Request)}
    {outcome : Outcome} (queue : journal.queue = (client, request) :: rest)
    (performed : journal.server.perform (logging env.password live) client request = .ok outcome)
    (now : past outcome.server) :
    Loaded env past read { journal with
      server := outcome.server
      queue := rest
      rewrites := journal.rewrites ++ (outcome.timers.filterMap Timer.cache).map fun _ =>
        snapshot journal.server.databases } := by
  obtain ⟨done, todo, split, served, queued, traced⟩ := loaded.half
  rw [queue] at queued
  obtain ⟨first, others, found, same, behind⟩ := List.map_eq_cons_iff.mp queued.symm
  cases same
  obtain ⟨idle, later, apart, unnamed, -, left⟩ := List.filter_eq_cons_iff.mp found
  have known : ∀ other ∈ done ++ idle ++ [request], Replayable other := by
    intro other member
    apply replayable
    rw [split, apart, ← List.append_assoc, List.append_cons]
    exact List.mem_append_left later member
  have attached : journal.server.clients 0 ≠ none :=
    (Server.serve_grown Server.oneClient_reachable.sound Server.oneClient_attached
      (fun other member => (known other (by simp [member])).moves) served).attached
  have waited : ∀ other ∈ idle, named other = false := fun other member =>
    Bool.eq_false_iff.mpr (unnamed other member)
  have handled := Server.handle_of_perform performed
  rw [Server.handle_live attached (known request (by simp)).moves] at handled
  have before : Server.oneClient.serve env 0 (done ++ idle) = .ok journal.server := by
    rw [Server.serve_append, served]
    exact serve_unnamed env journal.server 0 waited
  have after : Server.oneClient.serve env 0 (done ++ idle ++ [request]) = .ok outcome.server := by
    rw [Server.serve_append, before]
    exact (bind_pure _).trans handled
  refine ⟨loaded.logs, loaded.file, ?_, done ++ idle ++ [request], later, ?_, after, ?_,
    (traced.append_unnamed waited).concat now after⟩
  · rcases Server.perform_caches performed with none_made | ⟨rewrite, -⟩
    · show journal.rewrites ++ _ = []
      rw [none_made, loaded.rewrites]
      rfl
    · exact absurd rewrite (known request (by simp)).plain
  · rw [split, apart, ← List.append_assoc, List.append_cons]
  · rw [left]
    exact behind.symm

/-- Everything has been executed. -/
theorem Loaded.complete {read : List Request} (loaded : Loaded env past read journal)
    (executed : journal.queue = []) :
    Server.oneClient.serve env 0 read = .ok journal.server ∧ Traced env past read := by
  obtain ⟨done, todo, rfl, served, queue, traced⟩ := loaded.half
  rw [executed] at queue
  have unnamed : ∀ request ∈ todo, named request = false := by
    intro request member
    have nothing := List.filter_eq_nil_iff.mp (List.map_eq_nil_iff.mp queue.symm) request member
    exact Bool.eq_false_iff.mpr nothing
  refine ⟨?_, traced.append_unnamed unnamed⟩
  rw [Server.serve_append, served]
  exact serve_unnamed env journal.server 0 unnamed

theorem mem_dataFor {number : Int32} :
    request ∈ dataFor number batches ↔
      ∃ batch ∈ batches, batch.number = number ∧ request ∈ batch.requests ∧ isData request = true := by
  simp only [dataFor, List.mem_flatMap, List.mem_filter, beq_iff_eq, and_assoc]

/-- The journal of a process that has loaded these batches and exported them again. -/
def reloaded (server : Server) (batches : List Batch) : Journal :=
  ⟨server.detach 0, fun _ => [], [], [], if batches = [] then [] else ⟨0, []⟩ :: batches⟩

theorem dataFor_reloaded (number : Int32) (server : Server) (batches : List Batch) :
    dataFor number (reloaded server batches).file = dataFor number batches := by
  rw [reloaded]
  split
  · rename_i nothing
    rw [nothing]
  · rw [dataFor_cons]
    simp

theorem reloaded_invariant {fits : Request → Prop} {server : Server} {batches : List Batch}
    (word : Word env.password) (sane : ∀ batch ∈ batches, batch.Sane fits)
    (served : Server.oneClient.serve env 0 (batches.flatMap (Batch.lines env.password)) =
      .ok server) : Invariant env Eq fits (reloaded server batches) := by
  obtain ⟨results, grown, numbers⟩ := Server.served_batches word
    Server.oneClient_reachable.sound Server.oneClient_attached sane served
  refine ⟨grown.sound.detach 0, nofun, nofun, .nil, fun _ _ _ filled => absurd rfl filled,
    fun _ _ => rfl, ⟨?_, [], (reloaded server batches).file, rfl, ?_, ?_⟩, nofun⟩
  · intro batch member
    rw [reloaded] at member
    split at member
    · cases member
    · rcases List.mem_cons.mp member with rfl | listed
      · exact ⟨Int32.le_refl 0, .nil, nofun⟩
      · exact sane batch listed
  · intro index db there
    refine ⟨_, _, dataFor db.number batches, rfl, rfl, ?_, ?_, ?_⟩
    · intro request member
      obtain ⟨batch, listed, -, logged, data⟩ := mem_dataFor.mp member
      exact ⟨data, ((sane batch listed).loggable request logged).fits⟩
    · have result := results db.number
      rw [Server.oneClient_dbOf] at result
      rw [result, Server.dbOf_of_getElem grown.sound.distinct there]
    · rw [dataFor_reloaded]
      rfl
  · intro number missing
    rw [List.nil_append, dataFor_reloaded, List.eq_nil_iff_forall_not_mem]
    intro request member
    obtain ⟨batch, listed, same, -, -⟩ := mem_dataFor.mp member
    exact missing (same ▸ numbers batch listed)

theorem reloaded_recalls (word : Word env.password) (sane : ∀ batch ∈ batches, batch.Sane fits)
    (server : Server) (traced : Traced env past (batches.flatMap (Batch.lines env.password))) :
    Recalls env past (reloaded server batches) := by
  intro index db there executed done all early
  have whole : executed = dataFor db.number batches := by
    have all : executed ++ [] = dataFor db.number (reloaded server batches).file ++ [] := all
    rwa [List.append_nil, List.append_nil, dataFor_reloaded] at all
  obtain ⟨count, rfl⟩ := exists_cut (whole ▸ early)
  obtain ⟨earlier, passed, first⟩ := traced _ (List.take_prefix count _)
  rw [← lines_cut] at first
  obtain ⟨results, -, -⟩ := Server.served_batches word Server.oneClient_reachable.sound
    Server.oneClient_attached (cut_sane sane count) first
  refine ⟨earlier, passed, ?_⟩
  rw [← results db.number, Server.oneClient_dbOf]

end Journal

namespace Aof

/-- A new process to which the thread that loads the log has connected: its first client, in
its first database. -/
def loader : Aof := { start with server := Server.oneClient }

/-- There is no other client, nothing is exported, and when a request is read its client is
still in the first database: the io thread is ahead of the command thread. -/
def Loads (state : Aof) : LogEvent → Prop
  | .read client _ => client = 0 ∧ state.server.clients 0 = some 0
  | .exec _ => True
  | _ => False

instance (state : Aof) : (event : LogEvent) → Decidable (state.Loads event)
  | .read client _ => inferInstanceAs (Decidable (client = 0 ∧ state.server.clients 0 = some 0))
  | .exec _ => inferInstanceAs (Decidable True)
  | .connect _ | .disconnect _ | .flush _ | .fire _ => inferInstanceAs (Decidable False)

/-- What is read from the thread that loads the log. -/
def readBy : LogEvent → Option Request
  | .read 0 request => some request
  | _ => none

/-- A process that starts on a file: what its first client sends is what there is in the file.
The io, command and timer thread and other clients do what they do at any time. -/
structure Restart (env : Env) (file : Bytes) (events : List LogEvent) (after : Aof) : Prop where
  whole : events.filterMap readBy = (exportMessages (file.drop 3)).1
  ran : run (next env.password) loader events = some after

/-- How the loading thread closes its connection when the log was exported before. -/
def hangUp : List LogEvent := [.flush 0, .disconnect 0]

/-- A start that goes well, which nothing in the server sees to: the whole log is read before
its client leaves the first database and with nothing exported meanwhile; it is executed,
then exported, and only then the loading thread hangs up. -/
structure InOrder (env : Env) (loading : List LogEvent) (after : Aof) : Prop where
  loads : Meets (next env.password) Loads loader loading
  executed : after.queue = []

theorem loaded_step {read : List Request} (loaded : journal.Loaded env past read) {event : LogEvent}
    (replayable : ∀ request ∈ read ++ (readBy event).toList, Replayable request)
    (loads : (journal.encode env.password).Loads event) {after : Aof}
    (stepped : (journal.encode env.password).next env.password event = some after)
    (now : past after.server) :
    ∃ later : Journal, later.encode env.password = after ∧
      later.Loaded env past (read ++ (readBy event).toList) := by
  rw [Journal.next_encode, Option.map_eq_some_iff] at stepped
  obtain ⟨later, moved, rfl⟩ := stepped
  refine ⟨later, rfl, ?_⟩
  cases Journal.next_step moved with
  | connect | disconnect | flushNothing | flush | fire => exact loads.elim
  | read client request index parsed place translated =>
      obtain ⟨rfl, first⟩ := loads
      cases place.symm.trans first
      exact loaded.read translated
  | exec live client request rest outcome queue performed =>
      change ∀ request ∈ read ++ [], Replayable request at replayable
      rw [List.append_nil] at replayable
      show Journal.Loaded env past (read ++ []) _
      rw [List.append_nil]
      exact loaded.exec replayable queue performed now

theorem loaded_run {env : Env} {past : Server → Prop} {read : List Request} {journal : Journal}
    (loaded : journal.Loaded env past read) {events : List LogEvent}
    (replayable : ∀ request ∈ read ++ events.filterMap readBy, Replayable request)
    (loads : Meets (next env.password) Loads (journal.encode env.password) events) {after : Aof}
    (ran : run (next env.password) (journal.encode env.password) events = some after)
    (passed : ∀ state ∈ visited (next env.password) (journal.encode env.password) events,
      past state.server) :
    ∃ later : Journal, later.encode env.password = after ∧
      later.Loaded env past (read ++ events.filterMap readBy) := by
  induction events generalizing journal read with
  | nil =>
      cases ran
      exact ⟨journal, rfl, by rwa [List.filterMap_nil, List.append_nil]⟩
  | cons event events ih =>
      obtain ⟨between, stepped, rest⟩ := Option.bind_eq_some_iff.mp ran
      have lines : read ++ (event :: events).filterMap readBy =
          read ++ (readBy event).toList ++ events.filterMap readBy := by
        rw [List.append_assoc]
        cases by_ : readBy event with
        | none => rw [List.filterMap_cons_none by_]; rfl
        | some request => rw [List.filterMap_cons_some by_]; rfl
      rw [lines] at replayable ⊢
      rw [visited, stepped] at passed
      have others := (List.forall_mem_cons.mp passed).2
      obtain ⟨later, rfl, next⟩ := loaded_step loaded
        (fun request member => replayable request (List.mem_append_left _ member)) loads.1 stepped
        (others between (mem_visited_start between events))
      exact ih next replayable (loads.2 _ stepped) rest others

/-- Nothing has been read yet. -/
theorem loaded_loader (env : Env) (now : past Server.oneClient) :
    ∃ journal : Journal, journal.encode env.password = loader ∧ journal.Loaded env past [] := by
  refine ⟨⟨Server.oneClient, fun _ => [], [], [], []⟩, ?_, ?_, rfl, rfl, [], [], rfl, rfl, rfl, ?_⟩
  · simp [Journal.encode, loader, start, fileOf]
  · exact (Function.update_eq_self _ _).symm
  · intro early nothing
    rw [List.prefix_nil.mp nothing]
    exact ⟨_, now, rfl⟩

/-- What was loaded is exported in one batch, which reads as the batches it came from. -/
theorem fileOf_reloaded (password : Bytes) (server : Server) (batches : List Batch) :
    fileOf password [] ++ exportAof password 0
        ((batches.flatMap (Batch.lines password)).flatMap Json11.dump) =
      fileOf password (Journal.reloaded server batches).file := by
  cases batches with
  | nil => simp [Journal.reloaded, exportAof]
  | cons batch batches =>
      have filled : ((batch :: batches).flatMap (Batch.lines password)).flatMap Json11.dump ≠ [] :=
        Journal.flatMap_dump_eq_nil.not.mpr (List.cons_ne_nil _ _)
      rw [exportAof, if_neg filled, Journal.reloaded, if_neg (List.cons_ne_nil _ _)]
      simp [fileOf, Batch.lines]

theorem encode_reloaded {env : Env} {past : Server → Prop} {batches : List Batch}
    {journal : Journal} {db : Db}
    (loaded : journal.Loaded env past (batches.flatMap (Batch.lines env.password)))
    (executed : journal.queue = []) (there : journal.server.databases[0]? = some db)
    (first : db.number = 0) {after : Aof}
    (ran : run (next env.password) (journal.encode env.password) [.flush 0, .disconnect 0] =
      some after) :
    after = (Journal.reloaded journal.server batches).encode env.password := by
  have cache : (journal.encode env.password).caches 0 =
      (batches.flatMap (Batch.lines env.password)).flatMap Json11.dump := by
    show (journal.logs 0).flatMap Json11.dump = _
    rw [loaded.logs, Function.update_self]
  have others : Function.update (journal.encode env.password).caches 0 [] = fun _ => [] := by
    funext index
    rw [Function.update_apply]
    split
    · rfl
    · rename_i elsewhere
      show (journal.logs index).flatMap Json11.dump = []
      rw [loaded.logs, Function.update_of_ne elsewhere]
      rfl
  have found : (journal.encode env.password).server.databases[0]? = some db := there
  simp only [run, next, found, Option.bind_some, others, cache, first] at ran
  cases ran
  simp only [Journal.encode, executed, loaded.rewrites, loaded.file,
    fileOf_reloaded env.password journal.server batches]
  rfl

theorem queue_of_ran {password : Bytes} {state after : Aof}
    (ran : run (next password) state [.flush 0, .disconnect 0] = some after) :
    after.queue = state.queue := by
  obtain ⟨between, flushed, rest⟩ := Option.bind_eq_some_iff.mp ran
  cases rest
  simp only [next] at flushed
  split at flushed
  · cases flushed
  · cases flushed
    rfl

/-- The log of a process that has started is that of the file it started on. -/
theorem Restart.reloads (word : Word env.password) {events : List LogEvent} {file : Bytes}
    {after : Aof} (restart : Restart env file (events ++ hangUp) after)
    (inOrder : InOrder env events after)
    (sane : ∀ batch ∈ batches, batch.Sane fun request => commandOf request ≠ some (.db .rewrite))
    (framed : (exportMessages (file.drop 3)).1 = batches.flatMap (Batch.lines env.password))
    (past : Server → Prop)
    (passed : ∀ state ∈ visited (next env.password) loader events, past state.server) :
    ∃ server, Server.oneClient.serve env 0 (batches.flatMap (Batch.lines env.password)) =
        .ok server ∧
      Traced env past (batches.flatMap (Batch.lines env.password)) ∧
      after = (Journal.reloaded server batches).encode env.password := by
  obtain ⟨whole, ran⟩ := restart
  obtain ⟨loads, executed⟩ := inOrder
  have whole : events.filterMap readBy = (exportMessages (file.drop 3)).1 := by
    rw [← whole, List.filterMap_append]
    exact (List.append_nil _).symm
  rw [run_append] at ran
  obtain ⟨last, read, rest⟩ := Option.bind_eq_some_iff.mp ran
  obtain ⟨journal, begun, fresh⟩ :=
    loaded_loader env (passed loader (mem_visited_start loader events))
  rw [← begun] at loads read passed
  have replayable := replayable_lines env.password sane
  rw [← framed, ← whole] at replayable
  obtain ⟨later, rfl, loaded⟩ := loaded_run fresh replayable loads read passed
  rw [List.nil_append, whole, framed] at loaded
  have idle : later.queue = [] := by
    rw [← executed]
    exact (queue_of_ran rest).symm
  obtain ⟨served, traced⟩ := loaded.complete idle
  obtain ⟨-, grown, -⟩ := Server.served_batches word Server.oneClient_reachable.sound
    Server.oneClient_attached sane served
  have numbered : (later.server.databases.map Store.number)[0]? = some 0 := by
    obtain ⟨more, all⟩ := grown.numbers
    rw [← all]
    rfl
  rw [List.getElem?_map] at numbered
  obtain ⟨db, there, first⟩ := Option.map_eq_some_iff.mp numbered
  exact ⟨later.server, served, traced, encode_reloaded loaded idle there first rest⟩

/-- The states that a process has been in since its start, and the one it is in. A crash
leaves a first part of the file, and a new process starts on that, in good order. -/
inductive Lived (env : Env) : List Aof → Aof → Prop where
  | born : Lived env [start] start
  | step {past : List Aof} {state after : Aof} {event : LogEvent} (lived : Lived env past state)
      (steady : state.Steady event) (stepped : next env.password state event = some after) :
      Lived env (past ++ [after]) after
  | crash {past : List Aof} {state after : Aof} {size : Nat} {events : List LogEvent}
      (lived : Lived env past state) (magic : 3 ≤ size)
      (restart : Restart env (state.file.take size) (events ++ hangUp) after)
      (inOrder : InOrder env events after) :
      Lived env (visited (next env.password) loader (events ++ hangUp)) after

/-- A server of one of the states. -/
def Among (past : List Aof) (server : Server) : Prop := ∃ earlier ∈ past, earlier.server = server

/-- What holds of a process at any time of its life. -/
structure Kept (env : Env) (past : List Aof) (state : Aof) (journal : Journal) : Prop where
  encoded : journal.encode env.password = state
  none_begun : journal.rewrites = []
  invariant : journal.Invariant env Eq fun request => commandOf request ≠ some (.db .rewrite)
  recalls : journal.Recalls env (Among past)
  now : state ∈ past

theorem kept_born (env : Env) : Kept env [start] start Journal.start where
  encoded := by simp [Journal.encode, Journal.start, start, fileOf]
  none_begun := rfl
  invariant := Journal.start_invariant (simulates_eq _)
  recalls := by
    intro index db there executed done all early
    have nothing : executed = [] := (List.append_eq_nil_iff.mp all).1
    rw [nothing, List.prefix_nil] at early
    refine ⟨start.server, ⟨start, List.mem_singleton_self _, rfl⟩, ?_⟩
    rw [early]
    exact congrArg Except.ok (Server.oneClient_dbOf db.number).symm
  now := List.mem_singleton_self _

theorem Kept.step {past : List Aof} {state after : Aof} {event : LogEvent}
    (kept : Kept env past state journal) (steady : state.Steady event)
    (stepped : next env.password state event = some after) :
    ∃ later, Kept env (past ++ [after]) after later := by
  obtain ⟨rfl, none_begun, invariant, recalls, -⟩ := kept
  rw [Journal.next_encode, Option.map_eq_some_iff] at stepped
  obtain ⟨later, moved, rfl⟩ := stepped
  obtain ⟨begun_none, kept⟩ := steady_step none_begun invariant steady moved
  have now : later.encode env.password ∈ past ++ [later.encode env.password] :=
    List.mem_append_right past (List.mem_singleton_self _)
  refine ⟨later, rfl, begun_none, kept, ?_, now⟩
  refine Journal.Recalls.step ?_ invariant kept none_begun ?_ moved ⟨_, now, rfl⟩
  · intro index db there executed done all early
    obtain ⟨earlier, ⟨moment, listed, same⟩, served⟩ := recalls index db there executed done all early
    exact ⟨earlier, ⟨moment, List.mem_append_left _ listed, same⟩, served⟩
  · rintro client rfl
    exact steady

theorem Kept.crash (word : Word env.password) {past : List Aof} {state after : Aof}
    (kept : Kept env past state journal) {size : Nat} {events : List LogEvent}
    (restart : Restart env (state.file.take size) (events ++ hangUp) after)
    (inOrder : InOrder env events after) :
    ∃ later, Kept env (visited (next env.password) loader (events ++ hangUp)) after later := by
  obtain ⟨rfl, -, invariant, -, -⟩ := kept
  have sane := invariant.filed.1
  obtain ⟨count, framed⟩ := exportMessages_fileOf_take env.password sane size
  obtain ⟨server, served, traced, rfl⟩ := restart.reloads word inOrder (cut_sane sane count)
    framed (Among (visited (next env.password) loader (events ++ hangUp)))
    fun state there => ⟨state, visited_subset_append loader events _ there, rfl⟩
  refine ⟨_, rfl, rfl, Journal.reloaded_invariant word (cut_sane sane count) served,
    Journal.reloaded_recalls word (cut_sane sane count) server traced, ?_⟩
  rw [← List.append_nil (events ++ _)]
  exact mem_visited_append restart.ran

theorem Lived.kept (word : Word env.password) {past : List Aof} {state : Aof}
    (lived : Lived env past state) : ∃ journal, Kept env past state journal := by
  induction lived with
  | born => exact ⟨_, kept_born env⟩
  | step lived steady stepped ih =>
      obtain ⟨journal, kept⟩ := ih
      exact kept.step steady stepped
  | crash lived magic restart inOrder ih =>
      obtain ⟨journal, kept⟩ := ih
      exact kept.crash word restart inOrder

theorem Lived.steadily {past : List Aof} {state after : Aof} {events : List LogEvent}
    (lived : Lived env past state) (steady : Meets (next env.password) Steady state events)
    (ran : run (next env.password) state events = some after) : ∃ past, Lived env past after := by
  induction events generalizing past state with
  | nil =>
      cases ran
      exact ⟨past, lived⟩
  | cons event events ih =>
      obtain ⟨between, stepped, rest⟩ := Option.bind_eq_some_iff.mp ran
      exact ih (lived.step steady.1 stepped) (steady.2 between stepped) rest

/-- However often the process crashed and, in good order, started again, and whatever part of
its file was left each time: once everything is executed and flushed, the file rebuilds what
the server holds. -/
theorem restarts_faithful (env : Env) (word : Word env.password) {past : List Aof} {state : Aof}
    (lived : Lived env past state) (settled : state.Settled) : state.Faithful env := by
  obtain ⟨journal, rfl, -, invariant, -, -⟩ := lived.kept word
  exact invariant.faithful word (simulates_eq _) settled

/-- A client sets a key in two databases, one after the other. -/
def firstLife : List LogEvent :=
  [.connect 0, .read 0 [bytes "SET", bytes "a", bytes "1"], .exec quietEnv, .flush 0,
    .read 0 [bytes "SELECT", bytes "7", bytes "secret"], .exec quietEnv, .flush 0,
    .read 0 [bytes "SET", bytes "b", bytes "2"], .exec quietEnv, .flush 1]

/-- The file of that life is loaded. All of it is read before the first request of it that
leaves the first database is executed. -/
def reading : List LogEvent :=
  [.read 0 [bytes "SELECT", bytes "0", bytes "secret"],
    .read 0 [bytes "SET", bytes "a", bytes "1"], .exec quietEnv,
    .read 0 [bytes "SELECT", bytes "0", bytes "secret"],
    .read 0 [bytes "SELECT", bytes "7", bytes "secret"], .exec quietEnv, .exec quietEnv,
    .read 0 [bytes "SELECT", bytes "7", bytes "secret"],
    .read 0 [bytes "SET", bytes "b", bytes "2"],
    .exec quietEnv, .exec quietEnv, .exec quietEnv]

def secondLife : List LogEvent :=
  [.connect 1, .read 1 [bytes "INCRBY", bytes "a", bytes "4"], .exec quietEnv, .flush 0]

/-- One life behind another. -/
theorem lived_twice : ∃ past state, Lived quietEnv past state ∧ state.Settled ∧
    state.server.databases.map Store.number = [0, 7] ∧
      ((state.server.dbOf 0).get (bytes "a")).isSome = true := by
  obtain ⟨before, ran, steady, found⟩ : ∃ before, run (next quietEnv.password) start firstLife =
      some before ∧ Meets (next quietEnv.password) Steady start firstLife ∧
        (reading ++ hangUp).filterMap readBy =
          (exportMessages ((before.file.take 1000).drop 3)).1 :=
    run_checked (by decide +kernel)
  obtain ⟨fresh, loaded, executed, steady', again⟩ : ∃ fresh, run (next quietEnv.password) loader
      (reading ++ hangUp) = some fresh ∧ fresh.queue = [] ∧
        Meets (next quietEnv.password) Steady fresh secondLife ∧
          ((run (next quietEnv.password) fresh secondLife).any fun state => decide (state.Settled ∧
            state.server.databases.map Store.number = [0, 7] ∧
              ((state.server.dbOf 0).get (bytes "a")).isSome = true)) = true :=
    run_checked (by decide +kernel)
  obtain ⟨state, last, settled, held⟩ := run_checked again
  obtain ⟨past, lived⟩ := Lived.steadily .born steady ran
  obtain ⟨past, lived⟩ := (lived.crash (show 3 ≤ 1000 by decide)
    ⟨found, loaded⟩ ⟨by decide +kernel, executed⟩).steadily steady' last
  exact ⟨past, state, lived, settled, held⟩

theorem restarts_faithful_twice :
    ∃ past state, Lived quietEnv past state ∧ state.Settled ∧ state.Faithful quietEnv := by
  obtain ⟨past, state, lived, settled, -⟩ := lived_twice
  exact ⟨past, state, lived, settled, restarts_faithful quietEnv (by decide) lived settled⟩

/-- Two clients in two databases. -/
def apart : List LogEvent :=
  [.connect 0, .connect 1, .read 0 [bytes "SELECT", bytes "7", bytes "secret"], .exec quietEnv,
    .flush 0, .read 0 [bytes "SET", bytes "b", bytes "2"], .exec quietEnv, .flush 1,
    .read 1 [bytes "SET", bytes "a", bytes "1"], .exec quietEnv, .flush 0]

/-- A start in which each request is executed before the next one is read. -/
def oneByOne (file : Bytes) : List LogEvent :=
  ((exportMessages (file.drop 3)).1.flatMap fun request => [.read 0 request, .exec quietEnv]) ++
    [.flush 0, .flush 1, .disconnect 0]

/-- Without the order, the file of the new process puts a key into the other database. -/
theorem restart_misplaces : ∃ before after, run (next quietEnv.password) start apart = some before ∧
    Restart quietEnv before.file (oneByOne before.file) after ∧ after.Settled ∧
      ¬ after.Faithful quietEnv := by
  obtain ⟨before, ran, whole, again⟩ : ∃ before, run (next quietEnv.password) start apart =
      some before ∧ (oneByOne before.file).filterMap readBy =
        (exportMessages (before.file.drop 3)).1 ∧
      ((run (next quietEnv.password) loader (oneByOne before.file)).any fun after =>
        decide (after.Settled ∧ ((after.server.dbOf 0).get (bytes "a")).isSome = true ∧
          ((replayed quietEnv after.file).toOption.map fun server =>
            (server.dbOf 0).get (bytes "a")) = some none)) = true :=
    run_checked (by decide +kernel)
  obtain ⟨after, restarted, settled, held, lost⟩ := run_checked again
  exact ⟨before, after, ran, ⟨whole, restarted⟩, settled, not_faithful_of_lost held lost⟩

/-- The data requests of one database that wait to be executed. -/
def waitingAt (state : Aof) (index : Nat) : List Request :=
  Journal.waiting state.server.clients state.queue index

/-- Where one database may be found again: as it was in one of the states, or as the first
ones of the requests that wait would have left it. -/
def Went (env : Env) (past : List Aof) (state : Aof) (number : Int32) (db : Db) : Prop :=
  (∃ earlier ∈ past, db = earlier.server.dbOf number) ∨
    ∃ index more, (state.server.databases.map Store.number)[index]? = some number ∧
      more <+: state.waitingAt index ∧ (state.server.dbOf number).serve env more = .ok db

/-- So many lines of the file, as far as they concern one database. -/
theorem Kept.went {env : Env} {past : List Aof} {state : Aof} {journal : Journal}
    (kept : Kept env past state journal)
    (clean : ∀ index (db : Db), state.server.databases[index]? = some db →
      ∃ last, db.serve env (state.waitingAt index) = .ok last) (count : Nat) (number : Int32) :
    ∃ db, Db.serve env ⟨number, Keyed.empty⟩ (dataFor number (cut count journal.file)) = .ok db ∧
      Went env past state number db := by
  obtain ⟨rfl, -, invariant, recalls, now⟩ := kept
  have first := dataFor_cut_prefix number count journal.file
  by_cases listed : number ∈ journal.server.databases.map Store.number
  · obtain ⟨db, member, rfl⟩ := List.mem_map.mp listed
    obtain ⟨index, there⟩ := List.getElem?_of_mem member
    have held := Server.dbOf_of_getElem invariant.sound.distinct there
    obtain ⟨executed, served, all⟩ := invariant.executed there
    have within : dataFor db.number (cut count journal.file) <+:
        executed ++ journal.pending index :=
      all ▸ first.trans (List.prefix_append _ _)
    rcases List.prefix_or_prefix_of_prefix within (List.prefix_append executed _) with
      done | ⟨more, same⟩
    · obtain ⟨earlier, ⟨moment, passed, rfl⟩, result⟩ := recalls index db there executed _ all done
      exact ⟨_, result, .inl ⟨moment, passed, rfl⟩⟩
    · rw [← same] at within ⊢
      have ahead : more <+: journal.pending index :=
        (List.prefix_append_right_inj executed).mp within
      obtain ⟨later, apart⟩ := ahead
      obtain ⟨last, answered⟩ := clean index db there
      change Db.serve env db (journal.pending index) = .ok last at answered
      rw [← apart, Db.serve_append] at answered
      obtain ⟨between, reached, -⟩ := bind_eq_ok.mp answered
      refine ⟨between, ?_, .inr ⟨index, more, ?_, ⟨later, apart⟩, ?_⟩⟩
      · rw [Db.serve_append, served]
        exact reached
      · rw [List.getElem?_map]
        exact congrArg (Option.map Store.number) there
      · change Db.serve env (journal.server.dbOf db.number) more = _
        rw [held]
        exact reached
  · obtain ⟨-, base, batches, split, agrees⟩ := invariant.filed
    rw [split, agrees.missing number listed, ← split] at first
    rw [List.prefix_nil.mp first]
    exact ⟨_, rfl, .inl ⟨_, now, (Server.dbOf_of_missing listed).symm⟩⟩

/-- The magic number is left of a file that was cut off behind it. -/
theorem aofLoad_fileOf_take (password : Bytes) (batches : List Batch) {size : Nat}
    (magic : 3 ≤ size) :
    Loading.aofLoad ((fileOf password batches).take size) =
      .ok (some (((fileOf password batches).take size).drop 3)) := by
  obtain ⟨more, rfl⟩ := Nat.exists_eq_add_of_le magic
  have length : (bytes "AOF").length = 3 := rfl
  have whole : (fileOf password batches).take (3 + more) =
      bytes "AOF" ++ ((batches.flatMap (Batch.lines password)).flatMap Json11.dump).take more := by
    rw [fileOf, ← length, List.take_length_add_append]
  have enough : ¬ (bytes "AOF" ++
      ((batches.flatMap (Batch.lines password)).flatMap Json11.dump).take more).length < 3 := by
    rw [List.length_append, length]
    omega
  rw [whole, Loading.aofLoad, peekString, if_neg enough]
  rfl

/-- The process stops at any moment, and any part of its file behind the magic number is
left. Loaded by a new process, that part gives each database a state that it was in since the
last start, or one that the requests in the queue would have brought it to. -/
theorem crash_restores_past (env : Env) (word : Word env.password) {past : List Aof} {state : Aof}
    (lived : Lived env past state)
    (clean : ∀ index (db : Db), state.server.databases[index]? = some db →
      ∃ last, db.serve env (state.waitingAt index) = .ok last) (size : Nat) (magic : 3 ≤ size) :
    Loading.aofLoad (state.file.take size) = .ok (some ((state.file.take size).drop 3)) ∧
      ∃ server, replayed env (state.file.take size) = .ok server ∧
        ∀ number, Went env past state number (server.dbOf number) := by
  obtain ⟨journal, kept⟩ := lived.kept word
  have sane := kept.invariant.filed.1
  obtain ⟨count, framed⟩ := exportMessages_fileOf_take env.password sane size
  have went := kept.went clean count
  obtain ⟨server, served, results⟩ := Server.serve_batches word
    Server.oneClient_reachable.sound Server.oneClient_attached (cut_sane sane count)
    fun number => by
      obtain ⟨db, answer, -⟩ := went number
      exact ⟨db, Server.oneClient_dbOf number ▸ answer⟩
  refine ⟨kept.encoded ▸ aofLoad_fileOf_take env.password journal.file magic, server, ?_,
    fun number => ?_⟩
  · rw [replayed, ← kept.encoded]
    exact (congrArg _ framed).trans served
  · obtain ⟨db, answer, where_⟩ := went number
    have result := results number
    rw [Server.oneClient_dbOf, answer] at result
    cases result
    exact where_

/-- Only the first forty bytes of the file are left, behind two lives. -/
theorem crash_restores_past_twice :
    ∃ past state, Lived quietEnv past state ∧
      Loading.aofLoad (state.file.take 40) = .ok (some ((state.file.take 40).drop 3)) ∧
      ∃ server, replayed quietEnv (state.file.take 40) = .ok server ∧
        ∀ number, Went quietEnv past state number (server.dbOf number) := by
  obtain ⟨past, state, lived, settled, -⟩ := lived_twice
  refine ⟨past, state, lived, crash_restores_past quietEnv (by decide) lived ?_ 40 (by decide)⟩
  intro index db _
  refine ⟨db, ?_⟩
  rw [waitingAt, settled.executed]
  rfl

end Aof

end ForkRedis
