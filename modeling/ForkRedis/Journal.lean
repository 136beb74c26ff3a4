import ForkRedis.Batches
import ForkRedis.Migration
import ForkRedis.Lib.Machine

set_option autoImplicit false

/- Reading, executing, flushing and rewriting, with the log kept as requests and not yet
as bytes; and what has to hold for the log to follow the databases. -/
namespace ForkRedis

open Lists Fallible Machine

variable {env : Env} {server : Server} {client : Nat} {request : Request} {outcome : Outcome}

/-- What the threads do: connections come and go, a request is read from a client, the
command thread takes the next one from its queue, and the timer thread exports the cache
of one database or writes a rewritten file. `AofTimer` exports the databases one after the
other, and nothing else touches the file in between. -/
inductive LogEvent where
  | connect (client : Nat)
  | disconnect (client : Nat)
  | read (client : Nat) (request : Request)
  | exec (env : Env)
  | flush (index : Nat)
  | fire (position : Nat)

/-- The environment of a command when the log is switched on. -/
def logging (password : Bytes) (env : Env) : Env :=
  { env with password := password, enableAof := true }

namespace Timer

def cache : Timer → Option Bytes
  | .expire _ _ => none
  | .rewrite cache => some cache

end Timer

namespace Server

/-- `Exec` of the command that a request was turned into. -/
def perform (env : Env) (server : Server) (client : Nat) (request : Request) :
    Except Fault Outcome := do
  match ← requestToCommandExec request with
  | none => return ⟨server, none, []⟩
  | some command => command.exec env server client

theorem handle_of_perform (performed : server.perform env client request = .ok outcome) :
    server.handle env client request = .ok outcome.server := by
  obtain ⟨parsed, translated, executed⟩ := bind_eq_ok.mp performed
  rw [handle, translated, ok_bind]
  cases parsed with
  | none =>
      cases executed
      rfl
  | some command =>
      dsimp only at executed ⊢
      rw [executed]
      rfl

theorem execCli_timers {c : CliCommand} (executed : server.execCli env client c = .ok outcome) :
    outcome.timers = [] := by
  rcases execCli_cases executed with ⟨reply, -, rfl⟩ | ⟨number, index, -, rfl⟩ |
    ⟨after, number, -, rfl⟩
  · rfl
  · rfl
  · rfl

/-- Only `REWRITE` hands out a rewrite timer. -/
theorem exec_caches {command : Command} (executed : command.exec env server client = .ok outcome) :
    outcome.timers.filterMap Timer.cache = [] ∨
      (∃ c, command = .db c ∧ c.command = .rewrite) ∧ outcome.timers = server.rewriteTimers env := by
  rcases Command.exec_cases executed with ⟨c, -, rfl⟩ | ⟨c, -, returned⟩ | ⟨-, -, quiet⟩ |
    ⟨-, index, db, db', reply, timer, -, -, -, rfl⟩
  · obtain ⟨reply, -, same | ⟨-, -, left⟩⟩ := server.execServer_cases env client c
    · exact Or.inl (same ▸ rfl)
    · exact Or.inl (left ▸ rfl)
  · exact Or.inl (execCli_timers returned ▸ rfl)
  · rcases quiet with untimed | ⟨rewrites, -, made⟩
    · exact Or.inl (untimed ▸ rfl)
    · exact Or.inr ⟨rewrites, made⟩
  · cases timer <;> exact Or.inl rfl

theorem jsonToDbCommand_command (name : DbName) (source : Request) :
    (jsonToDbCommand name source).command = name := by
  rw [jsonToDbCommand]
  split
  · rename_i rewrites
    exact rewrites.symm
  · exact jsonToKeyCommand_command _ _ _

theorem perform_caches (performed : server.perform env client request = .ok outcome) :
    outcome.timers.filterMap Timer.cache = [] ∨
      commandOf request = some (.db .rewrite) ∧ outcome.timers = server.rewriteTimers env := by
  obtain ⟨parsed, translated, executed⟩ := bind_eq_ok.mp performed
  cases parsed with
  | none =>
      cases executed
      exact Or.inl rfl
  | some command =>
      rcases exec_caches executed with none_made | ⟨⟨c, rfl, rewrites⟩, made⟩
      · exact Or.inl none_made
      refine Or.inr ⟨?_, made⟩
      rw [requestToCommandExec_eq] at translated
      cases named : commandOf request with
      | none =>
          rw [named] at translated
          cases translated
      | some name =>
          rw [named] at translated
          obtain ⟨command, built, returned⟩ := bind_eq_ok.mp translated
          cases returned
          cases name with
          | db name =>
              cases built
              rw [jsonToDbCommand_command] at rewrites
              rw [rewrites]
          | server name =>
              obtain ⟨c, -, other⟩ := bind_eq_ok.mp built
              cases other
          | cli name | str name | list name | hash name | set name | zset name => cases built

end Server

/-- The server with its log: for each database the requests that are not exported yet,
the command queue, the rewritten files that wait to be written, and the file. -/
structure Journal where
  server : Server
  logs : Nat → List Request
  queue : List (Nat × Request)
  rewrites : List (List Batch)
  file : List Batch

/-- `DatabaseForkAll`, as batches. -/
def snapshot (databases : List Db) : List Batch :=
  databases.map fun db => ⟨db.number, db.keyValueMap.items.map KeyValue.request⟩

/-- Words are found again in the stream. -/
theorem innerBrackets_rawCommandToRequest (raw : Bytes) :
    innerBrackets (rawCommandToRequest raw) = 0 := by
  rw [innerBrackets_eq_zero_iff]
  intro text member bracket
  have word := word_of_mem_rawCommandToRequest member
  have inside := word.2 _ bracket
  cases inside

namespace KeyValue

theorem isData_request (kv : KeyValue) : isData kv.request = true := by
  rw [request_eq]
  cases kv.value <;> rfl

theorem lasting_request (kv : KeyValue) : commandOf kv.request ≠ some (.db .expire) := by
  rw [request_eq]
  cases kv.value <;> exact nofun

theorem loggable_request {fits : Request → Prop} (kv : KeyValue) (fit : fits kv.request) :
    Loggable fits kv.request where
  framed := innerBrackets_rawCommandToRequest kv.fork
  known := Or.inl kv.request_local
  lasting := kv.lasting_request
  small := by
    rw [isSelect_of_isData kv.isData_request]
    exact nofun
  fits := fit

end KeyValue

variable {journal later : Journal}

theorem dataFor_snapshot_missing {databases : List Db} {number : Int32}
    (missing : number ∉ databases.map Store.number) : dataFor number (snapshot databases) = [] := by
  induction databases with
  | nil => rfl
  | cons db databases ih =>
      rw [List.map_cons, List.mem_cons, not_or] at missing
      have other : (Batch.mk db.number (db.keyValueMap.items.map KeyValue.request)).number ≠ number :=
        Ne.symm missing.1
      rw [snapshot, List.map_cons, dataFor_cons, if_neg other, List.nil_append]
      exact ih missing.2

theorem dataFor_snapshot {databases : List Db} (distinct : (databases.map Store.number).Nodup)
    {db : Db} (member : db ∈ databases) :
    dataFor db.number (snapshot databases) = db.keyValueMap.items.map KeyValue.request := by
  have all_data (db : Db) : (db.keyValueMap.items.map KeyValue.request).filter isData =
      db.keyValueMap.items.map KeyValue.request := by
    rw [List.filter_eq_self]
    intro request listed
    obtain ⟨kv, -, rfl⟩ := List.mem_map.mp listed
    exact kv.isData_request
  induction databases with
  | nil => cases member
  | cons first databases ih =>
      obtain ⟨fresh, distinct⟩ := List.nodup_cons.mp distinct
      rw [snapshot, List.map_cons, dataFor_cons]
      rcases List.mem_cons.mp member with rfl | later
      · have rest := dataFor_snapshot_missing fresh
        rw [snapshot] at rest
        rw [if_pos rfl, rest, List.append_nil]
        exact all_data db
      · have other : (Batch.mk first.number
            (first.keyValueMap.items.map KeyValue.request)).number ≠ db.number := by
          intro same
          have equal : first.number = db.number := same
          apply fresh
          rw [equal]
          exact List.mem_map_of_mem later
        rw [if_neg other, List.nil_append]
        exact ih distinct later

namespace Journal

def next (password : Bytes) (journal : Journal) : LogEvent → Option Journal
  | .connect client =>
      match journal.server.clients client with
      | some _ => none
      | none => some { journal with
          server := journal.server.attach client 0 journal.server.filled }
  | .disconnect client => some { journal with server := journal.server.detach client }
  | .read client request =>
      match journal.server.clients client with
      | none => none
      | some index =>
          match requestToCommandExec request with
          | .error _ => none
          | .ok parsed => some { journal with
              logs := Function.update journal.logs index (journal.logs index ++ [request])
              queue := journal.queue ++ parsed.toList.map fun _ => (client, request) }
  | .exec env =>
      match journal.queue with
      | [] => none
      | (client, request) :: rest =>
          match journal.server.perform (logging password env) client request with
          | .error _ => none
          | .ok outcome => some { journal with
              server := outcome.server
              queue := rest
              rewrites := journal.rewrites ++ (outcome.timers.filterMap Timer.cache).map fun _ =>
                snapshot journal.server.databases }
  | .flush index =>
      match journal.server.databases[index]? with
      | none => none
      | some db =>
          if journal.logs index = [] then some journal
          else some { journal with
            logs := Function.update journal.logs index []
            file := journal.file ++ [⟨db.number, journal.logs index⟩] }
  | .fire position =>
      match journal.rewrites[position]? with
      | none => none
      | some batches => some { journal with
          rewrites := journal.rewrites.eraseIdx position
          file := batches }

/-- The steps that `next` takes, with what it asks for. -/
inductive Step (password : Bytes) (journal : Journal) : LogEvent → Journal → Prop where
  | connect (client : Nat) (gone : journal.server.clients client = none) :
      Step password journal (.connect client)
        { journal with server := journal.server.attach client 0 journal.server.filled }
  | disconnect (client : Nat) :
      Step password journal (.disconnect client)
        { journal with server := journal.server.detach client }
  | read (client : Nat) (request : Request) (index : Nat) (parsed : Option Command)
      (place : journal.server.clients client = some index)
      (translated : requestToCommandExec request = .ok parsed) :
      Step password journal (.read client request) { journal with
        logs := Function.update journal.logs index (journal.logs index ++ [request])
        queue := journal.queue ++ parsed.toList.map fun _ => (client, request) }
  | exec (env : Env) (client : Nat) (request : Request) (rest : List (Nat × Request))
      (outcome : Outcome) (queue : journal.queue = (client, request) :: rest)
      (performed :
        journal.server.perform (logging password env) client request = .ok outcome) :
      Step password journal (.exec env) { journal with
        server := outcome.server
        queue := rest
        rewrites := journal.rewrites ++ (outcome.timers.filterMap Timer.cache).map fun _ =>
          snapshot journal.server.databases }
  | flushNothing (index : Nat) (nothing : journal.logs index = []) :
      Step password journal (.flush index) journal
  | flush (index : Nat) (db : Db) (there : journal.server.databases[index]? = some db)
      (filled : journal.logs index ≠ []) :
      Step password journal (.flush index) { journal with
        logs := Function.update journal.logs index []
        file := journal.file ++ [⟨db.number, journal.logs index⟩] }
  | fire (position : Nat) (batches : List Batch)
      (found : journal.rewrites[position]? = some batches) :
      Step password journal (.fire position) { journal with
        rewrites := journal.rewrites.eraseIdx position
        file := batches }

theorem next_step {password : Bytes} {journal after : Journal} {event : LogEvent}
    (stepped : journal.next password event = some after) : Step password journal event after := by
  cases event with
  | connect client =>
      rw [next] at stepped
      split at stepped
      · cases stepped
      · rename_i gone
        cases stepped
        exact .connect client gone
  | disconnect client =>
      cases stepped
      exact .disconnect client
  | read client request =>
      rw [next] at stepped
      split at stepped
      · cases stepped
      · rename_i index place
        split at stepped
        · cases stepped
        · rename_i parsed translated
          cases stepped
          exact .read client request index parsed place translated
  | exec env =>
      rw [next] at stepped
      split at stepped
      · cases stepped
      · rename_i client request rest queue
        split at stepped
        · cases stepped
        · rename_i outcome performed
          cases stepped
          exact .exec env client request rest outcome queue performed
  | flush index =>
      rw [next] at stepped
      split at stepped
      · cases stepped
      · rename_i db there
        split at stepped
        · rename_i nothing
          cases stepped
          exact .flushNothing index nothing
        · rename_i filled
          cases stepped
          exact .flush index db there filled
  | fire position =>
      rw [next] at stepped
      split at stepped
      · cases stepped
      · rename_i batches found
        cases stepped
        exact .fire position batches found

/-- The data requests on the queue whose clients are in one database. -/
def waiting (clients : Nat → Option Nat) (queue : List (Nat × Request)) (index : Nat) :
    List Request :=
  (queue.filter fun entry => isData entry.2 && clients entry.1 == some index).map Prod.snd

def pending (journal : Journal) (index : Nat) : List Request :=
  waiting journal.server.clients journal.queue index

theorem waiting_append (clients : Nat → Option Nat) (first second : List (Nat × Request))
    (index : Nat) :
    waiting clients (first ++ second) index =
      waiting clients first index ++ waiting clients second index := by
  rw [waiting, List.filter_append, List.map_append]
  rfl

theorem waiting_single (clients : Nat → Option Nat) (client : Nat) (request : Request)
    (index : Nat) :
    waiting clients [(client, request)] index =
      if isData request = true ∧ clients client = some index then [request] else [] := by
  rw [waiting, List.filter_cons, List.filter_nil]
  simp only [Bool.and_eq_true, beq_iff_eq]
  split <;> rfl

theorem waiting_cons (clients : Nat → Option Nat) (client : Nat) (request : Request)
    (rest : List (Nat × Request)) (index : Nat) :
    waiting clients ((client, request) :: rest) index =
      (if isData request = true ∧ clients client = some index then [request] else []) ++
        waiting clients rest index := by
  rw [← waiting_single, ← waiting_append]
  rfl

theorem waiting_congr {clients clients' : Nat → Option Nat} {queue : List (Nat × Request)}
    (same : ∀ entry ∈ queue, isData entry.2 = true → clients' entry.1 = clients entry.1)
    (index : Nat) : waiting clients' queue index = waiting clients queue index := by
  rw [waiting, waiting]
  congr 1
  apply List.filter_congr
  intro entry member
  cases data : isData entry.2 with
  | false => rfl
  | true => rw [same entry member data]

end Journal

section Following

variable (env : Env) (Same : Db → Db → Prop) (fits : Request → Prop)

/-- One database and its part of the log. From the state that `base` rebuilds, requests
have been executed; those and the ones still waiting are what the log holds. -/
def Tracks (base batches : List Batch) (db : Db) (waiting logged : List Request) : Prop :=
  ∃ start origin executed,
    Db.serve env ⟨db.number, Keyed.empty⟩ (dataFor db.number base) = .ok start ∧
    Same start origin ∧ (∀ request ∈ executed, isData request = true ∧ fits request) ∧
    origin.serve env executed = .ok db ∧
    executed ++ waiting = dataFor db.number batches ++ logged.filter isData

variable {env Same fits} {base batches : List Batch} {db : Db} {waiting logged : List Request}

theorem Tracks.read_data (tracks : Tracks env Same fits base batches db waiting logged)
    (data : isData request = true) :
    Tracks env Same fits base batches db (waiting ++ [request]) (logged ++ [request]) := by
  obtain ⟨start, origin, executed, built, same, given, served, whole⟩ := tracks
  refine ⟨start, origin, executed, built, same, given, served, ?_⟩
  rw [← List.append_assoc, whole, List.filter_append, List.filter_cons_of_pos data,
    List.filter_nil, List.append_assoc]

theorem Tracks.read_idle (tracks : Tracks env Same fits base batches db waiting logged)
    (idle : isData request = false) :
    Tracks env Same fits base batches db waiting (logged ++ [request]) := by
  obtain ⟨start, origin, executed, built, same, given, served, whole⟩ := tracks
  refine ⟨start, origin, executed, built, same, given, served, ?_⟩
  rw [whole, List.filter_append, List.filter_cons_of_neg (Bool.eq_false_iff.mp idle),
    List.filter_nil, List.append_nil]

theorem Tracks.exec (tracks : Tracks env Same fits base batches db (request :: waiting) logged)
    (data : isData request = true) (fit : fits request) {db' : Db}
    (handled : db.handle env request = .ok db') :
    Tracks env Same fits base batches db' waiting logged := by
  obtain ⟨start, origin, executed, built, same, given, served, whole⟩ := tracks
  have number := Db.number_handle handled
  refine ⟨start, origin, executed ++ [request], ?_, same, ?_, ?_, ?_⟩
  · rw [number]
    exact built
  · intro other member
    rcases List.mem_append.mp member with old | new
    · exact given other old
    · rw [List.mem_singleton.mp new]
      exact ⟨data, fit⟩
  · rw [Db.serve_append, served, ok_bind, Db.serve, List.foldlM_cons, handled]
    rfl
  · rw [number, ← whole, List.append_assoc, List.singleton_append]

theorem Tracks.flush (tracks : Tracks env Same fits base batches db waiting logged) :
    Tracks env Same fits base (batches ++ [⟨db.number, logged⟩]) db waiting [] := by
  obtain ⟨start, origin, executed, built, same, given, served, whole⟩ := tracks
  refine ⟨start, origin, executed, built, same, given, served, ?_⟩
  rw [whole, dataFor_append, dataFor_cons, if_pos rfl, List.filter_nil, List.append_nil]
  change _ = _ ++ (logged.filter isData ++ [])
  rw [List.append_nil]

theorem Tracks.flush_other (tracks : Tracks env Same fits base batches db waiting logged)
    {batch : Batch} (other : batch.number ≠ db.number) :
    Tracks env Same fits base (batches ++ [batch]) db waiting logged := by
  obtain ⟨start, origin, executed, built, same, given, served, whole⟩ := tracks
  refine ⟨start, origin, executed, built, same, given, served, ?_⟩
  rw [whole, dataFor_append, dataFor_cons, if_neg other, List.nil_append]
  change _ = (dataFor db.number batches ++ []) ++ _
  rw [List.append_nil]

theorem Tracks.fresh (simulates : Simulates Same fits) {number : Int32}
    (missing : dataFor number (base ++ batches) = []) :
    Tracks env Same fits base batches ⟨number, Keyed.empty⟩ [] [] := by
  rw [dataFor_append, List.append_eq_nil_iff] at missing
  refine ⟨⟨number, Keyed.empty⟩, ⟨number, Keyed.empty⟩, [], ?_, simulates.refl _, nofun, rfl, ?_⟩
  · rw [missing.1]
    rfl
  · rw [missing.2]
    rfl

/-- Everything was executed and flushed: the log rebuilds the database. -/
theorem Tracks.rebuilt (simulates : Simulates Same fits)
    (tracks : Tracks env Same fits base batches db [] []) :
    ∃ last, Db.serve env ⟨db.number, Keyed.empty⟩ (dataFor db.number (base ++ batches)) =
      .ok last ∧ Same last db := by
  obtain ⟨start, origin, executed, built, same, given, served, whole⟩ := tracks
  rw [List.append_nil, List.filter_nil, List.append_nil] at whole
  obtain ⟨last, replayed, result⟩ := simulates.serve same given served
  refine ⟨last, ?_, result⟩
  rw [dataFor_append, Db.serve_append, built, ok_bind, ← whole]
  exact replayed

namespace Journal

variable (env Same fits)

/-- The log follows every database there is, and holds nothing for any other. -/
structure Agrees (base batches : List Batch) (journal : Journal) : Prop where
  present : ∀ index db, journal.server.databases[index]? = some db →
    Tracks env Same fits base batches db (journal.pending index) (journal.logs index)
  missing : ∀ number, number ∉ journal.server.databases.map Store.number →
    dataFor number (base ++ batches) = []

/-- What holds at every point of a careful run. -/
structure Invariant (journal : Journal) : Prop where
  sound : journal.server.Sound
  attached : ∀ entry ∈ journal.queue, journal.server.clients entry.1 ≠ none
  queued : ∀ entry ∈ journal.queue, Loggable fits entry.2
  ordered : journal.queue.Pairwise fun first second =>
    first.1 = second.1 → isSelect first.2 = true → isData second.2 = false
  sane : ∀ index db, journal.server.databases[index]? = some db → journal.logs index ≠ [] →
    Batch.Sane fits ⟨db.number, journal.logs index⟩
  unused : ∀ index, journal.server.databases.length ≤ index → journal.logs index = []
  filed : (∀ batch ∈ journal.file, batch.Sane fits) ∧ ∃ base batches,
    journal.file = base ++ batches ∧ Agrees env Same fits base batches journal
  rewriting : ∀ batches ∈ journal.rewrites, (∀ batch ∈ batches, batch.Sane fits) ∧
    Agrees env Same fits batches [] journal

/-- A database that the requests of its own `Fork` rebuild. -/
def Reproducible (db : Db) : Prop :=
  ∃ start, Db.serve env ⟨db.number, Keyed.empty⟩ (db.keyValueMap.items.map KeyValue.request) =
    .ok start ∧ Same start db

/-- A data request is only read while no `SELECT` of its client waits and none is in the
cache that it goes to. A rewrite is only begun when the caches hold just what is waiting,
and until it is written nothing is flushed. -/
def Careful (journal : Journal) : LogEvent → Prop
  | .connect _ | .fire _ => True
  | .disconnect client => ∀ entry ∈ journal.queue, entry.1 ≠ client
  | .read client request => ∀ index ∈ journal.server.clients client,
      ∀ db ∈ journal.server.databases[index]?, Loggable fits request ∧ 0 ≤ db.number ∧
        (isData request = true →
          (∀ entry ∈ journal.queue, entry.1 = client → isSelect entry.2 = false) ∧
          ∀ logged ∈ journal.logs index, isSelect logged = false)
  | .exec _ => ∀ entry rest, journal.queue = entry :: rest →
      commandOf entry.2 = some (.db .rewrite) →
        (∀ index, (journal.logs index).filter isData = journal.pending index) ∧
        ∀ db ∈ journal.server.databases, 0 ≤ db.number ∧ Reproducible env Same db
  | .flush _ => journal.rewrites = []

variable {env Same fits}

theorem Agrees.clients (agrees : Agrees env Same fits base batches journal)
    (databases : server.databases = journal.server.databases)
    (same : ∀ entry ∈ journal.queue, server.clients entry.1 = journal.server.clients entry.1) :
    Agrees env Same fits base batches { journal with server := server } := by
  constructor
  · intro index db there
    change server.databases[index]? = some db at there
    rw [databases] at there
    have tracks := agrees.present index db there
    have left : waiting server.clients journal.queue index = journal.pending index :=
      waiting_congr (fun entry member _ => same entry member) index
    change Tracks env Same fits base batches db (waiting server.clients journal.queue index)
      (journal.logs index)
    rw [left]
    exact tracks
  · intro number absent
    change number ∉ server.databases.map Store.number at absent
    rw [databases] at absent
    exact agrees.missing number absent

/-- Connections concern only clients that wait for nothing. -/
theorem Invariant.clients (invariant : Invariant env Same fits journal) (sound : server.Sound)
    (databases : server.databases = journal.server.databases)
    (same : ∀ entry ∈ journal.queue, server.clients entry.1 = journal.server.clients entry.1) :
    Invariant env Same fits { journal with server := server } where
  sound := sound
  attached := by
    intro entry member
    rw [same entry member]
    exact invariant.attached entry member
  queued := invariant.queued
  ordered := invariant.ordered
  sane := by
    intro index db there
    change server.databases[index]? = some db at there
    rw [databases] at there
    exact invariant.sane index db there
  unused := by
    intro index beyond
    change server.databases.length ≤ index at beyond
    rw [databases] at beyond
    exact invariant.unused index beyond
  filed := by
    obtain ⟨sane, base, batches, split, agrees⟩ := invariant.filed
    exact ⟨sane, base, batches, split, agrees.clients databases same⟩
  rewriting := by
    intro batches member
    obtain ⟨sane, agrees⟩ := invariant.rewriting batches member
    exact ⟨sane, agrees.clients databases same⟩

theorem Agrees.read (agrees : Agrees env Same fits base batches journal) {client index : Nat}
    (place : journal.server.clients client = some index) {parsed : Option Command}
    (parses : isData request = true → parsed.isSome = true) :
    Agrees env Same fits base batches { journal with
      logs := Function.update journal.logs index (journal.logs index ++ [request])
      queue := journal.queue ++ parsed.toList.map fun _ => (client, request) } := by
  refine ⟨?_, agrees.missing⟩
  intro position db there
  have tracks := agrees.present position db there
  change Tracks env Same fits base batches db
    (waiting journal.server.clients (journal.queue ++ _) position)
    (Function.update journal.logs index (journal.logs index ++ [request]) position)
  rw [waiting_append]
  cases data : isData request with
  | true =>
      obtain ⟨command, rfl⟩ := Option.isSome_iff_exists.mp (parses data)
      change Tracks env Same fits base batches db
        (journal.pending position ++ waiting journal.server.clients [(client, request)] position) _
      rw [waiting_single]
      by_cases here : position = index
      · subst here
        rw [if_pos ⟨data, place⟩, Function.update_self]
        exact tracks.read_data data
      · have elsewhere : ¬ (isData request = true ∧ journal.server.clients client = some position) := by
          rintro ⟨-, other⟩
          rw [place] at other
          cases other
          exact here rfl
        rw [if_neg elsewhere, List.append_nil, Function.update_of_ne here]
        exact tracks
  | false =>
      have nothing : waiting journal.server.clients
          (parsed.toList.map fun _ => (client, request)) position = [] := by
        cases parsed with
        | none => rfl
        | some command =>
            refine (waiting_single _ _ _ _).trans (if_neg ?_)
            rw [data]
            exact fun both => nomatch both.1
      rw [nothing, List.append_nil]
      by_cases here : position = index
      · subst here
        rw [Function.update_self]
        exact tracks.read_idle data
      · rw [Function.update_of_ne here]
        exact tracks

theorem Invariant.read (invariant : Invariant env Same fits journal) {client index : Nat}
    (place : journal.server.clients client = some index)
    (careful : journal.Careful env Same fits (.read client request)) {parsed : Option Command}
    (parses : isData request = true → parsed.isSome = true) :
    Invariant env Same fits { journal with
      logs := Function.update journal.logs index (journal.logs index ++ [request])
      queue := journal.queue ++ parsed.toList.map fun _ => (client, request) } := by
  have inside := journal.server.attached client index place
  obtain ⟨loggable, unsigned, settled⟩ :=
    careful index place _ (List.getElem?_eq_getElem inside)
  have new : ∀ entry ∈ parsed.toList.map fun _ => (client, request), entry = (client, request) := by
    intro entry member
    obtain ⟨command, -, rfl⟩ := List.mem_map.mp member
    rfl
  constructor
  · exact invariant.sound
  · intro entry member
    rcases List.mem_append.mp member with old | added
    · exact invariant.attached entry old
    · rw [new entry added, place]
      exact nofun
  · intro entry member
    rcases List.mem_append.mp member with old | added
    · exact invariant.queued entry old
    · rw [new entry added]
      exact loggable
  · refine List.pairwise_append.mpr ⟨invariant.ordered, ?_, ?_⟩
    · cases parsed with
      | none => exact List.Pairwise.nil
      | some command => exact List.pairwise_singleton _ _
    · intro first member second added same select
      rw [new second added] at same ⊢
      cases data : isData request with
      | false => rfl
      | true =>
          rw [(settled data).1 first member same] at select
          cases select
  · intro position db there filled
    by_cases here : position = index
    · subst here
      have logs : Function.update journal.logs position (journal.logs position ++ [request]) position =
          journal.logs position ++ [request] := Function.update_self _ _ _
      obtain ⟨tidy, old⟩ : Tidy (journal.logs position) ∧
          ∀ logged ∈ journal.logs position, Loggable fits logged := by
        by_cases none_yet : journal.logs position = []
        · rw [none_yet]
          exact ⟨Tidy.nil, nofun⟩
        · have sane := invariant.sane position db there none_yet
          exact ⟨sane.tidy, sane.loggable⟩
      change Batch.Sane fits ⟨db.number,
        Function.update journal.logs position (journal.logs position ++ [request]) position⟩
      rw [logs]
      refine ⟨?_, ?_, ?_⟩
      · rw [List.getElem?_eq_getElem inside] at there
        cases there
        exact unsigned
      · cases data : isData request with
        | false => exact tidy.append_idle data
        | true =>
            apply Tidy.of_unselected
            intro logged member
            rcases List.mem_append.mp member with before | last
            · exact (settled data).2 logged before
            · rw [List.mem_singleton.mp last]
              exact isSelect_of_isData data
      · intro logged member
        rcases List.mem_append.mp member with before | last
        · exact old logged before
        · rw [List.mem_singleton.mp last]
          exact loggable
    · have logs : Function.update journal.logs index (journal.logs index ++ [request]) position =
          journal.logs position := Function.update_of_ne here _ _
      change Function.update journal.logs index _ position ≠ [] at filled
      change Batch.Sane fits ⟨db.number, Function.update journal.logs index _ position⟩
      rw [logs] at filled ⊢
      exact invariant.sane position db there filled
  · intro position beyond
    have apart : position ≠ index := by
      rintro rfl
      exact absurd inside (Nat.not_lt.mpr beyond)
    exact (Function.update_of_ne apart _ _).trans (invariant.unused position beyond)
  · obtain ⟨sane, base, batches, split, agrees⟩ := invariant.filed
    exact ⟨sane, base, batches, split, agrees.read place parses⟩
  · intro batches member
    obtain ⟨sane, agrees⟩ := invariant.rewriting batches member
    exact ⟨sane, agrees.read place parses⟩

/-- A data request is executed on the database it was logged for. -/
theorem Agrees.exec_local (agrees : Agrees env Same fits base batches journal) {client index : Nat}
    {rest : List (Nat × Request)} (queue : journal.queue = (client, request) :: rest)
    (place : journal.server.clients client = some index) {db db' : Db}
    (there : journal.server.databases[index]? = some db) (loggable : Loggable fits request)
    (lone : Request.local request = true) (handled : db.handle env request = .ok db')
    (rewrites : List (List Batch)) :
    Agrees env Same fits base batches { journal with
      server := journal.server.setDatabase index db'
      queue := rest
      rewrites := rewrites } := by
  have inside := (List.getElem?_eq_some_iff.mp there).1
  constructor
  · intro position held found
    change (journal.server.databases.set index db')[position]? = some held at found
    change Tracks env Same fits base batches held (waiting journal.server.clients rest position)
      (journal.logs position)
    have before (other : Db) (listed : journal.server.databases[position]? = some other) :
        Tracks env Same fits base batches other
          ((if isData request = true ∧ journal.server.clients client = some position
            then [request] else []) ++ waiting journal.server.clients rest position)
          (journal.logs position) := by
      have tracks := agrees.present position other listed
      rw [pending, queue, waiting_cons] at tracks
      exact tracks
    by_cases here : position = index
    · subst here
      rw [List.getElem?_set_self inside] at found
      cases found
      have tracks := before db there
      cases data : isData request with
      | true =>
          rw [if_pos ⟨data, place⟩] at tracks
          exact tracks.exec data loggable.fits handled
      | false =>
          rw [if_neg (by rw [data]; exact fun both => nomatch both.1), List.nil_append] at tracks
          rw [handle_idle lone data] at handled
          cases handled
          exact tracks
    · rw [List.getElem?_set_ne (Ne.symm here)] at found
      have tracks := before held found
      have elsewhere : ¬ (isData request = true ∧ journal.server.clients client = some position) := by
        rintro ⟨-, other⟩
        rw [place] at other
        cases other
        exact here rfl
      rw [if_neg elsewhere, List.nil_append] at tracks
      exact tracks
  · intro number absent
    apply agrees.missing number
    rw [← Server.numbers_setDatabase there (Db.number_handle handled)]
    exact absent

/-- A `SELECT` moves its client, which has no data request behind it on the queue. -/
theorem Agrees.exec_select (simulates : Simulates Same fits)
    (agrees : Agrees env Same fits base batches journal)
    (unused : ∀ index, journal.server.databases.length ≤ index → journal.logs index = [])
    {rest : List (Nat × Request)} (queue : journal.queue = (client, request) :: rest)
    (idle : isData request = false)
    (behind : ∀ entry ∈ rest, client = entry.1 → isData entry.2 = false) {server' : Server}
    (selects : journal.server.Selects client server') (rewrites : List (List Batch)) :
    Agrees env Same fits base batches { journal with
      server := server'
      queue := rest
      rewrites := rewrites } := by
  have left (position : Nat) :
      waiting server'.clients rest position = journal.pending position := by
    rw [pending, queue, waiting_cons, if_neg (by rw [idle]; exact fun both => nomatch both.1),
      List.nil_append]
    apply waiting_congr
    intro entry member data
    apply selects.others
    intro same
    rw [behind entry member same.symm] at data
    cases data
  have old {position : Nat} {db : Db} (found : journal.server.databases[position]? = some db) :
      Tracks env Same fits base batches db (waiting server'.clients rest position)
        (journal.logs position) := by
    rw [left]
    exact agrees.present position db found
  rcases selects.databases with same | ⟨number, fresh, grown⟩
  · constructor
    · intro position db found
      change server'.databases[position]? = some db at found
      rw [same] at found
      exact old found
    · intro number absent
      change number ∉ server'.databases.map Store.number at absent
      rw [same] at absent
      exact agrees.missing number absent
  · constructor
    · intro position db found
      change server'.databases[position]? = some db at found
      rw [grown] at found
      rcases Nat.lt_trichotomy position journal.server.databases.length with before | last | beyond
      · rw [List.getElem?_append_left before] at found
        exact old found
      · rw [last, List.getElem?_concat_length] at found
        cases found
        have nothing : journal.pending position = [] := by
          rw [pending, Journal.waiting, List.map_eq_nil_iff, List.filter_eq_nil_iff]
          intro entry _ both
          rw [Bool.and_eq_true, beq_iff_eq] at both
          have bound := journal.server.attached _ _ both.2
          omega
        change Tracks env Same fits base batches _ (waiting server'.clients rest position)
          (journal.logs position)
        rw [left, nothing, unused position (Nat.le_of_eq last.symm)]
        exact Tracks.fresh simulates (agrees.missing number fresh)
      · rw [List.getElem?_eq_none] at found
        · cases found
        · rw [List.length_append, List.length_singleton]
          omega
    · intro other absent
      apply agrees.missing other
      intro listed
      apply absent
      change other ∈ server'.databases.map Store.number
      rw [grown, List.map_append]
      exact List.mem_append_left _ listed

/-- A rewrite that is begun while the caches hold just what is waiting. -/
theorem Agrees.rewrite (distinct : (journal.server.databases.map Store.number).Nodup)
    (caches : ∀ index, (journal.logs index).filter isData = journal.pending index)
    (reproducible : ∀ db ∈ journal.server.databases, Reproducible env Same db) :
    Agrees env Same fits (snapshot journal.server.databases) [] journal := by
  constructor
  · intro index db there
    have member := List.mem_of_getElem? there
    obtain ⟨start, served, same⟩ := reproducible db member
    refine ⟨start, db, [], ?_, same, nofun, rfl, ?_⟩
    · rw [dataFor_snapshot distinct member]
      exact served
    · rw [← caches]
      rfl
  · intro number absent
    rw [List.append_nil]
    exact dataFor_snapshot_missing absent

theorem snapshot_sane (forks : ∀ kv : KeyValue, fits kv.request) {databases : List Db}
    (unsigned : ∀ db ∈ databases, 0 ≤ db.number) :
    ∀ batch ∈ snapshot databases, batch.Sane fits := by
  intro batch member
  obtain ⟨db, listed, rfl⟩ := List.mem_map.mp member
  refine ⟨unsigned db listed, ?_, ?_⟩
  · apply Tidy.of_unselected
    intro request inside
    obtain ⟨kv, -, rfl⟩ := List.mem_map.mp inside
    exact isSelect_of_isData kv.isData_request
  · intro request inside
    obtain ⟨kv, -, rfl⟩ := List.mem_map.mp inside
    exact kv.loggable_request (forks kv)

/-- What the command thread does to the server with the first request of the queue. -/
theorem Invariant.performed (invariant : Invariant env Same fits journal)
    (simulates : Simulates Same fits) {live : Env} {rest : List (Nat × Request)}
    (queue : journal.queue = (client, request) :: rest)
    (performed : journal.server.perform live client request = .ok outcome)
    (rewrites : List (List Batch)) :
    (∀ base batches, Agrees env Same fits base batches journal →
      Agrees env Same fits base batches { journal with
        server := outcome.server
        queue := rest
        rewrites := rewrites }) ∧
    (∀ entry ∈ rest, outcome.server.clients entry.1 ≠ none) ∧
    (∀ index db, outcome.server.databases[index]? = some db → journal.logs index ≠ [] →
      ∃ old, journal.server.databases[index]? = some old ∧ old.number = db.number) ∧
    journal.server.databases.length ≤ outcome.server.databases.length := by
  have handled := Server.handle_of_perform performed
  have listed : (client, request) ∈ journal.queue := by
    rw [queue]
    exact List.mem_cons_self
  have loggable := invariant.queued _ listed
  obtain ⟨index, place⟩ := Option.ne_none_iff_exists'.mp (invariant.attached _ listed)
  have later (entry : Nat × Request) (member : entry ∈ rest) :
      journal.server.clients entry.1 ≠ none := by
    apply invariant.attached
    rw [queue]
    exact List.mem_cons_of_mem _ member
  have ordered := invariant.ordered
  rw [queue, List.pairwise_cons] at ordered
  cases select : isSelect request with
  | true =>
      have named := commandOf_of_isSelect select
      have idle : isData request = false := by rw [isData, named]; rfl
      have selects := Server.handle_select invariant.sound place named handled
      refine ⟨?_, ?_, ?_, ?_⟩
      · intro base batches agrees
        exact agrees.exec_select simulates invariant.unused queue idle
          (fun entry member same => ordered.1 entry member same select) selects rewrites
      · intro entry member
        by_cases same : entry.1 = client
        · rw [same]
          exact selects.attached
        · rw [selects.others _ same]
          exact later entry member
      · intro position db there filled
        have inside : position < journal.server.databases.length := by
          by_contra beyond
          exact filled (invariant.unused position (Nat.not_lt.mp beyond))
        rcases selects.databases with same | ⟨number, -, grown⟩
        · rw [same] at there
          exact ⟨db, there, rfl⟩
        · rw [grown, List.getElem?_append_left inside] at there
          exact ⟨db, there, rfl⟩
      · rcases selects.databases with same | ⟨number, -, grown⟩
        · rw [same]
        · rw [grown, List.length_append]
          exact Nat.le_add_right _ _
  | false =>
      have lone := loggable.local select
      have inside := journal.server.attached client index place
      have there := List.getElem?_eq_getElem inside
      rw [Server.handle_local place there lone, Db.handle_env live env] at handled
      cases answered : Db.handle env journal.server.databases[index] request with
      | error fault =>
          rw [answered] at handled
          cases handled
      | ok db' =>
          rw [answered] at handled
          have result : outcome.server = journal.server.setDatabase index db' :=
            (Except.ok.inj handled).symm
          rw [result]
          refine ⟨?_, ?_, ?_, ?_⟩
          · intro base batches agrees
            exact agrees.exec_local queue place there loggable lone answered rewrites
          · exact later
          · intro position db found _
            change (journal.server.databases.set index db')[position]? = some db at found
            by_cases here : position = index
            · subst here
              rw [List.getElem?_set_self inside] at found
              cases found
              exact ⟨_, there, (Db.number_handle answered).symm⟩
            · rw [List.getElem?_set_ne (Ne.symm here)] at found
              exact ⟨db, found, rfl⟩
          · rw [Server.setDatabase, List.length_set]

theorem Invariant.exec (invariant : Invariant env Same fits journal)
    (simulates : Simulates Same fits) (forks : ∀ kv : KeyValue, fits kv.request) {live : Env}
    (careful : journal.Careful env Same fits (.exec live)) {rest : List (Nat × Request)}
    (queue : journal.queue = (client, request) :: rest)
    (performed : journal.server.perform (logging env.password live) client request = .ok outcome) :
    Invariant env Same fits { journal with
      server := outcome.server
      queue := rest
      rewrites := journal.rewrites ++ (outcome.timers.filterMap Timer.cache).map fun _ =>
        snapshot journal.server.databases } := by
  obtain ⟨agrees, attached, numbers, longer⟩ := invariant.performed simulates queue
    performed (journal.rewrites ++ (outcome.timers.filterMap Timer.cache).map fun _ =>
      snapshot journal.server.databases)
  constructor
  · exact invariant.sound.handle (Server.handle_of_perform performed)
  · exact attached
  · intro entry member
    apply invariant.queued
    rw [queue]
    exact List.mem_cons_of_mem _ member
  · have ordered := invariant.ordered
    rw [queue] at ordered
    exact (List.pairwise_cons.mp ordered).2
  · intro index db there filled
    obtain ⟨old, found, number⟩ := numbers index db there filled
    rw [← number]
    exact invariant.sane index old found filled
  · intro index beyond
    exact invariant.unused index (Nat.le_trans longer beyond)
  · obtain ⟨sane, base, batches, split, before⟩ := invariant.filed
    exact ⟨sane, base, batches, split, agrees base batches before⟩
  · intro batches member
    rcases List.mem_append.mp member with old | new
    · obtain ⟨sane, before⟩ := invariant.rewriting batches old
      exact ⟨sane, agrees batches [] before⟩
    · obtain ⟨cache, made, rfl⟩ := List.mem_map.mp new
      rcases Server.perform_caches performed with none_made | ⟨named, -⟩
      · rw [none_made] at made
        cases made
      obtain ⟨caches, healthy⟩ := careful _ _ queue named
      refine ⟨snapshot_sane forks fun db listed => (healthy db listed).1, ?_⟩
      apply agrees
      exact Agrees.rewrite invariant.sound.distinct caches fun db listed => (healthy db listed).2

theorem Agrees.flush (agrees : Agrees env Same fits base batches journal)
    (distinct : (journal.server.databases.map Store.number).Nodup) {index : Nat} {db : Db}
    (there : journal.server.databases[index]? = some db) :
    Agrees env Same fits base (batches ++ [⟨db.number, journal.logs index⟩]) { journal with
      logs := Function.update journal.logs index []
      file := journal.file ++ [⟨db.number, journal.logs index⟩] } := by
  have member := List.mem_of_getElem? there
  constructor
  · intro position held found
    have tracks := agrees.present position held found
    change Tracks env Same fits base _ held (journal.pending position)
      (Function.update journal.logs index [] position)
    by_cases here : position = index
    · subst here
      rw [found] at there
      cases there
      rw [Function.update_self]
      exact tracks.flush
    · have other : (Batch.mk db.number (journal.logs index)).number ≠ held.number := by
        intro same
        have equal := List.inj_on_of_nodup_map distinct member (List.mem_of_getElem? found) same
        rw [equal] at there
        apply here
        have positions := List.getElem?_eq_some_iff.mp found
        have indices := List.getElem?_eq_some_iff.mp there
        exact (List.Nodup.of_map _ distinct).getElem_inj_iff.mp (positions.2.trans indices.2.symm)
      rw [Function.update_of_ne here]
      exact tracks.flush_other other
  · intro number absent
    have other : (Batch.mk db.number (journal.logs index)).number ≠ number := by
      rintro rfl
      exact absent (List.mem_map_of_mem member)
    rw [← List.append_assoc, dataFor_append, agrees.missing number absent, dataFor_cons,
      if_neg other]
    rfl

theorem Invariant.flush (invariant : Invariant env Same fits journal) (idle : journal.rewrites = [])
    {index : Nat} {db : Db} (there : journal.server.databases[index]? = some db)
    (filled : journal.logs index ≠ []) :
    Invariant env Same fits { journal with
      logs := Function.update journal.logs index []
      file := journal.file ++ [⟨db.number, journal.logs index⟩] } := by
  constructor
  · exact invariant.sound
  · exact invariant.attached
  · exact invariant.queued
  · exact invariant.ordered
  · intro position held found some_left
    change Function.update journal.logs index [] position ≠ [] at some_left
    by_cases here : position = index
    · rw [here, Function.update_self] at some_left
      exact absurd rfl some_left
    · have logs : Function.update journal.logs index [] position = journal.logs position :=
        Function.update_of_ne here _ _
      change Batch.Sane fits ⟨held.number, Function.update journal.logs index [] position⟩
      rw [logs] at some_left ⊢
      exact invariant.sane position held found some_left
  · intro position beyond
    by_cases here : position = index
    · rw [here]
      exact Function.update_self _ _ _
    · exact (Function.update_of_ne here _ _).trans (invariant.unused position beyond)
  · obtain ⟨sane, base, batches, split, agrees⟩ := invariant.filed
    refine ⟨?_, base, _, ?_, agrees.flush invariant.sound.distinct there⟩
    · intro batch member
      rcases List.mem_append.mp member with old | new
      · exact sane batch old
      · rw [List.mem_singleton.mp new]
        exact invariant.sane index db there filled
    · change journal.file ++ _ = _
      rw [split, List.append_assoc]
  · intro batches member
    change batches ∈ journal.rewrites at member
    rw [idle] at member
    cases member

theorem isSome_of_isData {parsed : Option Command}
    (translated : requestToCommandExec request = .ok parsed) (data : isData request = true) :
    parsed.isSome = true := by
  rw [requestToCommandExec_eq] at translated
  cases named : commandOf request with
  | none =>
      rw [isData, named] at data
      cases data
  | some name =>
      rw [named] at translated
      obtain ⟨command, -, returned⟩ := bind_eq_ok.mp translated
      cases returned
      rfl

/-- A careful step keeps the log and the databases together. -/
theorem next_keeps (simulates : Simulates Same fits) (forks : ∀ kv : KeyValue, fits kv.request)
    {journal after : Journal} {event : LogEvent} (invariant : Invariant env Same fits journal)
    (careful : journal.Careful env Same fits event)
    (stepped : journal.next env.password event = some after) : Invariant env Same fits after := by
  cases next_step stepped with
  | connect client gone =>
      refine invariant.clients (invariant.sound.attach client 0 _) rfl ?_
      intro entry member
      refine Function.update_of_ne ?_ _ _
      rintro rfl
      exact invariant.attached entry member gone
  | disconnect client =>
      refine invariant.clients (invariant.sound.detach client) rfl ?_
      intro entry member
      exact Function.update_of_ne (careful entry member) _ _
  | read client request index parsed place translated =>
      exact invariant.read place careful (isSome_of_isData translated)
  | exec live client request rest outcome queue performed =>
      exact invariant.exec simulates forks careful queue performed
  | flushNothing index nothing => exact invariant
  | flush index db there filled => exact invariant.flush careful there filled
  | fire position batches found =>
      obtain ⟨sane, agrees⟩ := invariant.rewriting batches (List.mem_of_getElem? found)
      constructor
      · exact invariant.sound
      · exact invariant.attached
      · exact invariant.queued
      · exact invariant.ordered
      · exact invariant.sane
      · exact invariant.unused
      · exact ⟨sane, batches, [], (List.append_nil _).symm, agrees.present, agrees.missing⟩
      · intro other member
        obtain ⟨sane, agrees⟩ := invariant.rewriting other (List.mem_of_mem_eraseIdx member)
        exact ⟨sane, agrees.present, agrees.missing⟩

/-- Without `REWRITE` there is never a file to be rewritten. -/
theorem next_rewrites {password : Bytes} {journal after : Journal} {event : LogEvent}
    (none_begun : journal.rewrites = [])
    (head : ∀ entry rest, journal.queue = entry :: rest → commandOf entry.2 ≠ some (.db .rewrite))
    (stepped : journal.next password event = some after) : after.rewrites = [] := by
  cases next_step stepped with
  | connect client gone => exact none_begun
  | disconnect client => exact none_begun
  | read client request index parsed place translated => exact none_begun
  | exec live client request rest outcome queue performed =>
      rcases Server.perform_caches performed with none_made | ⟨named, -⟩
      · change journal.rewrites ++ _ = []
        rw [none_made, none_begun]
        rfl
      · exact absurd named (head _ _ queue)
  | flushNothing index nothing => exact none_begun
  | flush index db there filled => exact none_begun
  | fire position batches found =>
      rw [none_begun] at found
      cases found

/-- A fresh server, and a log without a batch. -/
def start : Journal := ⟨Server.initial, fun _ => [], [], [], []⟩

theorem start_invariant (simulates : Simulates Same fits) : Invariant env Same fits start where
  sound := Server.initial_sound
  attached := fun _ member => nomatch member
  queued := fun _ member => nomatch member
  ordered := List.Pairwise.nil
  sane := fun _ _ _ filled => absurd rfl filled
  unused := fun _ _ => rfl
  filed := by
    refine ⟨(fun _ member => nomatch member), [], [], rfl, ?_, fun _ _ => rfl⟩
    intro index db there
    have member := List.mem_of_getElem? there
    cases List.mem_singleton.mp member
    exact Tracks.fresh simulates rfl
  rewriting := fun _ member => nomatch member

/-- Once everything is executed and flushed, replaying the file rebuilds the databases. -/
theorem Invariant.replays (word : Word env.password) (simulates : Simulates Same fits)
    (invariant : Invariant env Same fits journal) (executed : journal.queue = [])
    (flushed : ∀ index, journal.logs index = []) :
    ∃ server, Server.oneClient.serve env 0
        (journal.file.flatMap (Batch.lines env.password)) = .ok server ∧
      ∀ number, (server.dbOf number).contents = (journal.server.dbOf number).contents := by
  obtain ⟨sane, base, batches, split, agrees⟩ := invariant.filed
  have empty : ∀ number, Server.oneClient.dbOf number = ⟨number, Keyed.empty⟩ := by
    intro number
    by_cases zero : number = 0
    · rw [zero]
      rfl
    · apply Server.dbOf_of_missing
      intro listed
      exact zero (List.mem_singleton.mp listed)
  have rebuilt : ∀ number, ∃ last, Db.serve env ⟨number, Keyed.empty⟩
      (dataFor number journal.file) = .ok last ∧
        last.contents = (journal.server.dbOf number).contents := by
    intro number
    by_cases listed : number ∈ journal.server.databases.map Store.number
    · obtain ⟨db, member, rfl⟩ := List.mem_map.mp listed
      obtain ⟨index, there⟩ := List.getElem?_of_mem member
      have tracks := agrees.present index db there
      rw [pending, executed, flushed] at tracks
      obtain ⟨last, served, same⟩ := tracks.rebuilt simulates
      rw [Server.dbOf_of_getElem invariant.sound.distinct there, split]
      exact ⟨last, served, simulates.contents same⟩
    · rw [Server.dbOf_of_missing listed, split, agrees.missing number listed]
      exact ⟨_, rfl, rfl⟩
  have attached : Server.oneClient.clients 0 ≠ none := nofun
  obtain ⟨server, served, result⟩ := Server.serve_batches word
    Server.oneClient_reachable.sound attached sane fun number => by
      rw [empty]
      obtain ⟨last, answer, -⟩ := rebuilt number
      exact ⟨last, answer⟩
  refine ⟨server, served, ?_⟩
  intro number
  obtain ⟨last, answer, same⟩ := rebuilt number
  have replayed := result number
  rw [empty, answer] at replayed
  cases replayed
  exact same

end Journal

end Following

end ForkRedis
