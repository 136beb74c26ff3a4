import ForkRedis.Startup
import ForkRedis.Persistence

set_option autoImplicit false

/- The pointers to databases. `databases_` owns its elements, and clients and the timers of
keys that expire keep their addresses. Wherever a pointer is used it is looked up, and it
may turn out to be null or to lead nowhere. -/
namespace ForkRedis

open Lists Fallible Machine

/-- What is done with a database that a pointer leads to. -/
structure DbMethods (δ : Type) where
  number : δ → Int32
  create : Int32 → δ
  onDb : Env → Command → δ → Except Fault (δ × Reply × Option ExpireTimer)
  del : δ → Bytes → δ

def Db.methods : DbMethods Db where
  number := Store.number
  create number := ⟨number, Keyed.empty⟩
  onDb env command := command.onDb env
  del db key := (db.del key).1

/-- The part of a `ClientInfo` that has to do with its database. A client is `handed` once
an event of it is in the handler's queue, and `alive` until its object is destroyed. -/
structure ClientInfo where
  database : Option Nat
  handed : Bool
  alive : Bool
  deriving DecidableEq

/-- A command with its client, and with `command_`, the text `CliCommand::Exec` goes by. -/
structure Job where
  client : Nat
  text : Bytes
  command : Command
  deriving DecidableEq

/-- Where the main thread is in `Run`: it has read the pointer it will give to a client, or
the client is ready to be handed over. -/
inductive RunPhase where
  | idle
  | chosen (client address : Nat)
  | ready (client : Nat)
  deriving DecidableEq

structure Process (δ : Type) where
  databases : List (Nat × δ)
  numHash : List Int32
  numberSource : Int32
  clients : List ClientInfo
  main : RunPhase
  cmdQue : List Job
  cmd : Option Job
  tmrQue : List (Nat × ExpireTimer)
  tmr : Option (Nat × ExpireTimer)

/-- How the server is started: in RDB mode, with what `RDBLoad` made of the file and where,
or in AOF mode. -/
inductive Mode (δ : Type) where
  | rdb (loaded : List (Nat × δ × List ExpireTimer))
  | aof

namespace Process

variable {δ : Type}

variable {p p' : Process δ} {client : Nat} {reply : Option Reply}

/-- The addresses of the elements of `databases_`. -/
def addresses (p : Process δ) : List Nat := p.databases.map Prod.fst

/-- Where a pointer leads, if it leads to an element of `databases_`. -/
def deref (p : Process δ) (pointer : Option Nat) : Option (Nat × δ) :=
  pointer.bind fun address => p.databases.find? fun owned => owned.1 == address

def assign (p : Process δ) (address : Nat) (db : δ) : Process δ :=
  { p with databases := p.databases.map fun owned =>
      if owned.1 = address then (owned.1, db) else owned }

/-- `cli_.lock()`. -/
def lock (p : Process δ) (client : Nat) : Option ClientInfo :=
  p.clients[client]?.filter fun info => info.alive

def modifyClient (p : Process δ) (client : Nat) (change : ClientInfo → ClientInfo) : Process δ :=
  { p with clients := p.clients.modify client change }

def setDb (p : Process δ) (client address : Nat) : Process δ :=
  p.modifyClient client fun info => { info with database := some address }

/-- The object of a client is destroyed. -/
def destroy (p : Process δ) (client : Nat) : Process δ :=
  p.modifyClient client fun info => { info with alive := false }

section Databases

variable (methods : DbMethods δ)

/-- The element with a number. -/
def find (p : Process δ) (number : Int32) : Option (Nat × δ) :=
  p.databases.find? fun owned => methods.number owned.2 == number

/-- `databases_.push_back`, of an object that was made at a fresh address. -/
def addDatabase (p : Process δ) (fresh : Nat) (number numberSource : Int32) : Process δ :=
  { p with
    databases := p.databases ++ [(fresh, methods.create number)]
    numHash := number :: p.numHash
    numberSource := numberSource }

/-- `GetDB` falls back to `databases_.begin()`. -/
def getDb (p : Process δ) (number : Int32) : Option Nat :=
  ((p.find methods number).or p.databases.head?).map Prod.fst

def suGetDb (p : Process δ) (fresh : Nat) (number : Int32) : Process δ × Nat :=
  match p.find methods number with
  | some owned => (p, owned.1)
  | none =>
      let unused := unusedNumber p.numHash (p.numHash.length + 1) number
      (p.addDatabase methods fresh unused p.numberSource, fresh)

def createDb (p : Process δ) (fresh : Nat) : Option (Process δ × Int32) :=
  if 16 ≤ p.databases.length then none
  else
    let unused := unusedNumber p.numHash (p.numHash.length + 1) p.numberSource
    some (p.addDatabase methods fresh unused unused, unused)

/-- `DropDB` leaves the last database, and every pointer to the one it erases. -/
def dropDb (p : Process δ) (number : Int32) : Process δ × Bool :=
  if p.databases.length = 1 then (p, false)
  else
    match p.find methods number with
    | none => (p, false)
    | some _ =>
        ({ p with databases := p.databases.eraseP fun owned =>
            methods.number owned.2 == number }, true)

def showDb (p : Process δ) : Bytes :=
  p.databases.flatMap fun owned => toStringInt (methods.number owned.2) ++ bytes "|"

/-- `GetDB()->Number()`. -/
def numberAt (p : Process δ) (pointer : Option Nat) : Except Fault Bytes :=
  match p.deref pointer with
  | none => .error .undefined
  | some owned => .ok (toStringInt (methods.number owned.2))

/-- A command on the database its client is in. -/
def onClientDb (p : Process δ) (client : Nat)
    (run : δ → Except Fault (δ × Reply × Option ExpireTimer)) :
    Except Fault (Process δ × Option Reply) :=
  match p.lock client with
  | none => .ok (p, none)
  | some info =>
      match p.deref info.database with
      | none => .error .undefined
      | some owned => do
          let (db, reply, timer) ← run owned.2
          return ({ p.assign owned.1 db with
            tmrQue := p.tmrQue ++ timer.toList.map (Prod.mk owned.1) }, some reply)

/-- The pointer `SELECT` gives to its client. -/
def select (p : Process δ) (password : Bytes) (fresh : Nat) (number : Int32)
    (pswd : Option Bytes) : Option (Process δ × Nat) :=
  if pswd = some password then some (p.suGetDb methods fresh number)
  else (p.getDb methods number).map (Prod.mk p)

/-- `CliCommand::Exec` with all its branches. -/
def execCli (env : Env) (fresh : Nat) (p : Process δ) (client : Nat) (text : Bytes)
    (c : CliCommand) : Except Fault (Process δ × Option Reply) :=
  if !c.valid then .ok (p, some refused)
  else if text = bytes "SELECT" then do
    let intval ← redisStrToInt c.objName
    match intval with
    | none => return (p, some refused)
    | some number =>
        match p.lock client, p.select methods env.password fresh number c.pswd with
        | none, _ => return (p, none)
        | some _, none => throw .undefined
        | some _, some (p, address) => do
            let selected ← p.numberAt methods (some address)
            return (p.setDb client address, some [bytes "Select: " ++ selected])
  else if text = bytes "SHOW" then
    match p.lock client with
    | none => .ok (p, none)
    | some info => do
        let number ← p.numberAt methods info.database
        return (p, some [number, p.showDb methods])
  else if text = bytes "DROP" then do
    let intval ← redisStrToInt c.objName
    match intval with
    | none => return (p, some refused)
    | some number => return ((p.dropDb methods number).1, some okReply)
  else if text = bytes "CREATE" then
    match p.lock client, p.createDb methods fresh with
    | none, _ => .ok (p, none)
    | some _, none => .ok (p, some refused)
    | some _, some (p, number) =>
        .ok (p, some (if number = -1 then refused else [toStringInt number]))
  else .ok (p, some okReply)

/-- `FORK` uses the client's database once it is connected to the other server. -/
def execServer (env : Env) (p : Process δ) (client : Nat) (c : ServerCommand) :
    Except Fault (Process δ × Option Reply) :=
  match p.lock client with
  | none => .ok (p, none)
  | some info =>
      match c.command with
      | some .fork =>
          let address := c.ip ++ (colon :: toStringInt (c.port.getD env.unassigned).toInt32)
          match env.network, p.deref info.database with
          | .noSocket, _ => .ok (p, some refused)
          | .noConnection, _ => .ok (p, some [bytes "Connect faied: " ++ address])
          | .noWrite, some _ => .ok (p, some [bytes "Write Error"])
          | .done, some _ => .ok (p, some okReply)
          | _, none => .error .undefined
      | some .endForking => .ok (p.destroy client, some refused)
      | none => .ok (p, some okReply)

/-- `Exec`. The timer of `REWRITE` has no pointer to a database. -/
def exec (env : Env) (fresh : Nat) (p : Process δ) (job : Job) :
    Except Fault (Process δ × Option Reply) :=
  match job.command with
  | .server c => p.execServer env job.client c
  | .cli c => p.execCli methods env fresh job.client job.text c
  | .db c =>
      if c.command = .rewrite then .ok (p, (p.lock job.client).map fun _ => okReply)
      else if job.command.valid then p.onClientDb job.client (methods.onDb env job.command)
      else .ok (p, some refused)
  | .str _ | .list _ | .hash _ | .set _ | .zset _ =>
      if job.command.valid then p.onClientDb job.client (methods.onDb env job.command)
      else .ok (p, some refused)

/-- What can happen: a client is accepted; the main thread takes up an event of a client, sets
its database, and hands it over; the io thread reads a request of a client that was handed
over; a client's object is destroyed; a command is popped and executed; a timer is popped and
executed. `fresh` is where the allocator would place a new database. -/
inductive Event where
  | accept
  | event (client : Nat)
  | setDb
  | hand
  | request (client : Nat) (request : Request)
  | destroy (client : Nat)
  | pop
  | exec (env : Env) (fresh : Nat)
  | popTimer (index : Nat)
  | fire

def next (p : Process δ) : Event → Option (Process δ)
  | .accept => some { p with clients := p.clients ++ [⟨none, false, true⟩] }
  | .event client =>
      match p.main, p.clients[client]? with
      | .idle, some info =>
          if info.database = none then
            p.databases.head?.map fun owned => { p with main := .chosen client owned.1 }
          else some { p with main := .ready client }
      | _, _ => none
  | .setDb =>
      match p.main with
      | .chosen client address => some { p.setDb client address with main := .ready client }
      | _ => none
  | .hand =>
      match p.main with
      | .ready client =>
          some { p.modifyClient client fun info => { info with handed := true } with main := .idle }
      | _ => none
  | .request client request =>
      match (p.lock client).filter fun info => info.handed, requestToCommandExec request with
      | some _, .ok none => some p
      | some _, .ok (some command) =>
          some { p with cmdQue := p.cmdQue ++ [⟨client, (request.getD 0 []).map toUpper, command⟩] }
      | _, _ => none
  | .destroy client => some (p.destroy client)
  | .pop =>
      match p.cmd, p.cmdQue with
      | none, job :: rest => some { p with cmd := some job, cmdQue := rest }
      | _, _ => none
  | .exec env fresh =>
      match p.cmd with
      | none => none
      | some job =>
          if fresh ∈ p.addresses then none
          else
            match p.exec methods env fresh job with
            | .error _ => none
            | .ok result => some { result.1 with cmd := none }
  | .popTimer index =>
      match p.tmr, p.tmrQue[index]? with
      | none, some timer => some { p with tmr := some timer, tmrQue := p.tmrQue.eraseIdx index }
      | _, _ => none
  | .fire =>
      match p.tmr with
      | none => none
      | some timer =>
          match p.deref (some timer.1) with
          | none => none
          | some owned =>
              some { p.assign owned.1 (methods.del owned.2 timer.2.objName) with tmr := none }

/-- Everything an event can do, branch by branch. -/
inductive Step (p : Process δ) : Event → Process δ → Prop where
  | accept : Step p .accept { p with clients := p.clients ++ [⟨none, false, true⟩] }
  | choose (client : Nat) (info : ClientInfo) (owned : Nat × δ) (idle : p.main = .idle)
      (there : p.clients[client]? = some info) (without : info.database = none)
      (first : p.databases.head? = some owned) :
      Step p (.event client) { p with main := .chosen client owned.1 }
  | keep (client : Nat) (info : ClientInfo) (idle : p.main = .idle)
      (there : p.clients[client]? = some info) (given : info.database ≠ none) :
      Step p (.event client) { p with main := .ready client }
  | setDb (client address : Nat) (chosen : p.main = .chosen client address) :
      Step p .setDb { p.setDb client address with main := .ready client }
  | hand (client : Nat) (ready : p.main = .ready client) :
      Step p .hand
        { p.modifyClient client fun info => { info with handed := true } with main := .idle }
  | unknown (client : Nat) (request : Request) : Step p (.request client request) p
  | request (client : Nat) (request : Request) (info : ClientInfo) (command : Command)
      (locked : (p.lock client).filter (fun info => info.handed) = some info)
      (parsed : requestToCommandExec request = .ok (some command)) :
      Step p (.request client request)
        { p with cmdQue := p.cmdQue ++ [⟨client, (request.getD 0 []).map toUpper, command⟩] }
  | destroy (client : Nat) : Step p (.destroy client) (p.destroy client)
  | pop (job : Job) (rest : List Job) (idle : p.cmd = none) (queued : p.cmdQue = job :: rest) :
      Step p .pop { p with cmd := some job, cmdQue := rest }
  | exec (env : Env) (fresh : Nat) (job : Job) (result : Process δ × Option Reply)
      (running : p.cmd = some job) (unused : fresh ∉ p.addresses)
      (executed : p.exec methods env fresh job = .ok result) :
      Step p (.exec env fresh) { result.1 with cmd := none }
  | popTimer (index : Nat) (timer : Nat × ExpireTimer) (idle : p.tmr = none)
      (there : p.tmrQue[index]? = some timer) :
      Step p (.popTimer index)
        { p with tmr := some timer, tmrQue := p.tmrQue.eraseIdx index }
  | fire (timer : Nat × ExpireTimer) (owned : Nat × δ) (firing : p.tmr = some timer)
      (leads : p.deref (some timer.1) = some owned) :
      Step p .fire { p.assign owned.1 (methods.del owned.2 timer.2.objName) with tmr := none }

theorem next_step {event : Event} (stepped : p.next methods event = some p') :
    p.Step methods event p' := by
  cases event with
  | accept =>
      cases stepped
      exact .accept
  | event client =>
      simp only [next] at stepped
      split at stepped
      · rename_i info idle there
        split at stepped
        · rename_i without
          obtain ⟨owned, first, rfl⟩ := Option.map_eq_some_iff.mp stepped
          exact .choose client info owned idle there without first
        · rename_i given
          cases stepped
          exact .keep client info idle there given
      · cases stepped
  | setDb =>
      simp only [next] at stepped
      split at stepped
      · rename_i client address chosen
        cases stepped
        exact .setDb client address chosen
      · cases stepped
  | hand =>
      simp only [next] at stepped
      split at stepped
      · rename_i client ready
        cases stepped
        exact .hand client ready
      · cases stepped
  | request client request =>
      simp only [next] at stepped
      split at stepped
      · cases stepped
        exact .unknown client request
      · rename_i info command locked parsed
        cases stepped
        exact .request client request info command locked parsed
      · cases stepped
  | destroy client =>
      cases stepped
      exact .destroy client
  | pop =>
      simp only [next] at stepped
      split at stepped
      · rename_i job rest idle queued
        cases stepped
        exact .pop job rest idle queued
      · cases stepped
  | exec env fresh =>
      simp only [next] at stepped
      split at stepped
      · cases stepped
      · rename_i job running
        split at stepped
        · cases stepped
        · rename_i unused
          split at stepped
          · cases stepped
          · rename_i result executed
            cases stepped
            exact .exec env fresh job result running unused executed
  | popTimer index =>
      simp only [next] at stepped
      split at stepped
      · rename_i timer idle there
        cases stepped
        exact .popTimer index timer idle there
      · cases stepped
  | fire =>
      simp only [next] at stepped
      split at stepped
      · cases stepped
      · rename_i timer firing
        split at stepped
        · cases stepped
        · rename_i owned leads
          cases stepped
          exact .fire timer owned firing leads

/-- Behind the start-up: what was loaded is at the given addresses, and `Load` has queued a
timer for each key that expires. When nothing was loaded there is a default database. -/
def startWith (loaded : List (Nat × δ × List ExpireTimer)) (fresh : Nat) : Process δ where
  databases :=
    if loaded = [] then [(fresh, methods.create 0)]
    else loaded.map fun each => (each.1, each.2.1)
  numHash := (registered (max 1 loaded.length)).1
  numberSource := (registered (max 1 loaded.length)).2
  clients := []
  main := .idle
  cmdQue := []
  cmd := none
  tmrQue := loaded.flatMap fun each => each.2.2.map (Prod.mk each.1)
  tmr := none

/-- In AOF mode nothing is loaded before `CheckAOFLoad`, which makes the default database;
the log is then served like the requests of a client. -/
def start (fresh : Nat) : Mode δ → Process δ
  | .rdb loaded => startWith methods loaded fresh
  | .aof => startWith methods [] fresh

end Databases

theorem addresses_assign (p : Process δ) (address : Nat) (db : δ) :
    (p.assign address db).addresses = p.addresses := by
  rw [addresses, assign, List.map_map]
  apply List.map_congr_left
  intro owned _
  rw [Function.comp_apply]
  split <;> rfl

theorem deref_eq_some {pointer : Option Nat} {owned : Nat × δ}
    (leads : p.deref pointer = some owned) : pointer = some owned.1 ∧ owned ∈ p.databases := by
  obtain ⟨address, rfl, found⟩ := Option.bind_eq_some_iff.mp leads
  have holds := List.find?_some found
  have same : owned.1 = address := beq_iff_eq.mp holds
  exact ⟨congrArg some same.symm, List.mem_of_find?_eq_some found⟩

theorem deref_mem {pointer : Option Nat} {owned : Nat × δ} (leads : p.deref pointer = some owned) :
    owned.1 ∈ p.addresses :=
  List.mem_map_of_mem (deref_eq_some leads).2

/-- What a command that is not `DROP` can do: databases are added, clients are given one of
them, and timers refer to them. -/
structure Extends (p p' : Process δ) : Prop where
  addresses : p.addresses ⊆ p'.addresses
  count : p'.clients.length = p.clients.length
  clients : ∀ (client : Nat) (info' : ClientInfo), p'.clients[client]? = some info' →
    ∃ info, p.clients[client]? = some info ∧ info'.handed = info.handed ∧
      (info'.database = info.database ∨ ∃ address ∈ p'.addresses, info'.database = some address)
  timers : ∀ timer ∈ p'.tmrQue, timer ∈ p.tmrQue ∨ timer.1 ∈ p'.addresses
  main : p'.main = p.main
  jobs : p'.cmdQue = p.cmdQue ∧ p'.cmd = p.cmd
  tmr : p'.tmr = p.tmr

theorem Extends.refl (p : Process δ) : Extends p p where
  addresses := List.Subset.refl _
  count := rfl
  clients := fun _ info there => ⟨info, there, rfl, Or.inl rfl⟩
  timers := fun _ member => Or.inl member
  main := rfl
  jobs := ⟨rfl, rfl⟩
  tmr := rfl

theorem getElem?_modifyClient {client other : Nat} {change : ClientInfo → ClientInfo}
    {info : ClientInfo} (there : (p.modifyClient client change).clients[other]? = some info) :
    ∃ before, p.clients[other]? = some before ∧
      info = if client = other then change before else before := by
  rw [Process.modifyClient, List.getElem?_modify] at there
  obtain ⟨before, old, changed⟩ := Option.map_eq_some_iff.mp there
  exact ⟨before, old, changed.symm⟩

/-- A client is changed, and not its database or only to one of those that are there. -/
theorem Extends.modifyClient {p p' : Process δ} (extended : Extends p p') (client : Nat)
    {change : ClientInfo → ClientInfo} (handed : ∀ info, (change info).handed = info.handed)
    (database : ∀ info, (change info).database = info.database ∨
      ∃ address ∈ p'.addresses, (change info).database = some address) :
    Extends p (p'.modifyClient client change) where
  addresses := extended.addresses
  count := (List.length_modify ..).trans extended.count
  clients := by
    intro other info' there
    obtain ⟨before, middle, rfl⟩ := getElem?_modifyClient there
    obtain ⟨info, old, sameHanded, given⟩ := extended.clients other before middle
    refine ⟨info, old, ?_⟩
    split
    · refine ⟨(handed before).trans sameHanded, ?_⟩
      rcases database before with same | given'
      · rw [same]
        exact given
      · exact Or.inr given'
    · exact ⟨sameHanded, given⟩
  timers := extended.timers
  main := extended.main
  jobs := extended.jobs
  tmr := extended.tmr

theorem destroy_extends (p : Process δ) (client : Nat) : Extends p (p.destroy client) :=
  (Extends.refl p).modifyClient client (fun _ => rfl) fun _ => Or.inl rfl

theorem assign_extends (p : Process δ) (address : Nat) (db : δ) :
    Extends p (p.assign address db) where
  addresses := (addresses_assign p address db).symm ▸ List.Subset.refl _
  count := rfl
  clients := fun _ info there => ⟨info, there, rfl, Or.inl rfl⟩
  timers := fun _ member => Or.inl member
  main := rfl
  jobs := ⟨rfl, rfl⟩
  tmr := rfl

section Databases

variable {methods : DbMethods δ} {env : Env} {fresh : Nat}

theorem extends_addDatabase (p : Process δ) (number numberSource : Int32) :
    Extends p (p.addDatabase methods fresh number numberSource) where
  addresses := by
    rw [Process.addresses, Process.addresses, addDatabase, List.map_append]
    exact List.subset_append_left _ _
  count := rfl
  clients := fun _ info there => ⟨info, there, rfl, Or.inl rfl⟩
  timers := fun _ member => Or.inl member
  main := rfl
  jobs := ⟨rfl, rfl⟩
  tmr := rfl

theorem fresh_mem_addDatabase (p : Process δ) (number numberSource : Int32) :
    fresh ∈ (p.addDatabase methods fresh number numberSource).addresses := by
  rw [Process.addresses, addDatabase, List.map_append]
  exact List.mem_append_right _ List.mem_cons_self

theorem getDb_mem {number : Int32} {address : Nat} (got : p.getDb methods number = some address) :
    address ∈ p.addresses := by
  obtain ⟨owned, found, rfl⟩ := Option.map_eq_some_iff.mp got
  apply List.mem_map_of_mem
  rcases Option.or_eq_some_iff.mp found with found | ⟨-, first⟩
  · exact List.mem_of_find?_eq_some found
  · exact List.mem_of_head? first

theorem suGetDb_extends (methods : DbMethods δ) (fresh : Nat) (p : Process δ) (number : Int32) :
    Extends p (p.suGetDb methods fresh number).1 ∧
      (p.suGetDb methods fresh number).2 ∈ (p.suGetDb methods fresh number).1.addresses := by
  rw [suGetDb]
  cases found : p.find methods number with
  | some owned => exact ⟨.refl p, List.mem_map_of_mem (List.mem_of_find?_eq_some found)⟩
  | none => exact ⟨extends_addDatabase p _ _, fresh_mem_addDatabase p _ _⟩

theorem select_extends {password : Bytes} {number : Int32} {pswd : Option Bytes} {address : Nat}
    (selected : p.select methods password fresh number pswd = some (p', address)) :
    Extends p p' ∧ address ∈ p'.addresses := by
  rw [select] at selected
  split at selected
  · have extended := suGetDb_extends methods fresh p number
    rwa [Option.some.inj selected] at extended
  · obtain ⟨other, got, same⟩ := Option.map_eq_some_iff.mp selected
    cases same
    exact ⟨.refl p, getDb_mem got⟩

theorem onClientDb_extends {run : δ → Except Fault (δ × Reply × Option ExpireTimer)}
    (returned : p.onClientDb client run = .ok (p', reply)) : Extends p p' := by
  rw [onClientDb] at returned
  cases locked : p.lock client with
  | none =>
      rw [locked] at returned
      cases returned
      exact .refl p
  | some info =>
      simp only [locked] at returned
      cases leads : p.deref info.database with
      | none =>
          rw [leads] at returned
          cases returned
      | some owned =>
          simp only [leads] at returned
          obtain ⟨⟨db, answer, timer⟩, -, returned⟩ := bind_eq_ok.mp returned
          cases returned
          refine { assign_extends p owned.1 db with timers := ?_ }
          intro timer' member
          refine (List.mem_append.mp member).imp_right fun new => ?_
          obtain ⟨own, -, rfl⟩ := List.mem_map.mp new
          exact (assign_extends p owned.1 db).addresses (deref_mem leads)

theorem execCli_extends {text : Bytes} {c : CliCommand} (kept : text ≠ bytes "DROP")
    (returned : p.execCli methods env fresh client text c = .ok (p', reply)) : Extends p p' := by
  rw [execCli] at returned
  split at returned
  · cases returned
    exact .refl p
  split at returned
  · obtain ⟨intval, -, returned⟩ := bind_eq_ok.mp returned
    cases intval with
    | none =>
        cases returned
        exact .refl p
    | some number =>
        dsimp only at returned
        split at returned
        · cases returned
          exact .refl p
        · cases returned
        · rename_i selected
          obtain ⟨number, -, returned⟩ := bind_eq_ok.mp returned
          cases returned
          obtain ⟨extended, there⟩ := select_extends selected
          exact extended.modifyClient client (fun _ => rfl) fun _ => Or.inr ⟨_, there, rfl⟩
  split at returned
  · split at returned
    · cases returned
      exact .refl p
    · obtain ⟨number, -, returned⟩ := bind_eq_ok.mp returned
      cases returned
      exact .refl p
  split at returned
  · split at returned
    · cases returned
      exact .refl p
    · cases returned
      exact .refl p
    · rename_i created
      cases returned
      rw [createDb] at created
      split at created
      · cases created
      · cases created
        exact extends_addDatabase p _ _
  · cases returned
    exact .refl p

theorem execServer_extends {c : ServerCommand}
    (returned : p.execServer env client c = .ok (p', reply)) : Extends p p' := by
  rw [execServer] at returned
  split at returned
  · cases returned
    exact .refl p
  split at returned
  · dsimp only at returned
    split at returned
    · cases returned
      exact .refl p
    · cases returned
      exact .refl p
    · cases returned
      exact .refl p
    · cases returned
      exact .refl p
    · cases returned
  · cases returned
    exact destroy_extends p client
  · cases returned
    exact .refl p

/-- Whatever a command does to the database it works on. -/
theorem execValid_extends {p p' : Process δ} {client : Nat} {valid : Bool}
    {run : δ → Except Fault (δ × Reply × Option ExpireTimer)} {reply : Option Reply}
    (returned : (if valid then p.onClientDb client run else .ok (p, some refused)) =
      .ok (p', reply)) : Extends p p' := by
  split at returned
  · exact onClientDb_extends returned
  · cases returned
    exact .refl p

theorem exec_extends {job : Job} (kept : job.text ≠ bytes "DROP")
    (returned : p.exec methods env fresh job = .ok (p', reply)) : Extends p p' := by
  rw [exec] at returned
  split at returned
  · exact execServer_extends returned
  · exact execCli_extends kept returned
  · split at returned
    · cases returned
      exact .refl p
    · exact execValid_extends returned
  all_goals exact execValid_extends returned

end Databases

/-- Every pointer leads to a database, and no command that is queued or executed is `DROP`. -/
structure Valid (p : Process δ) : Prop where
  filled : p.addresses ≠ []
  clients : ∀ (client : Nat) (info : ClientInfo), p.clients[client]? = some info →
    (∀ address, info.database = some address → address ∈ p.addresses) ∧
      (info.handed = true → info.database ≠ none)
  chosen : ∀ client address, p.main = .chosen client address →
    address ∈ p.addresses ∧ client < p.clients.length
  ready : ∀ client, p.main = .ready client →
    ∃ info, p.clients[client]? = some info ∧ info.database ≠ none
  jobs : ∀ job ∈ p.cmdQue ++ p.cmd.toList, commandName job.text ≠ none
  timers : ∀ timer ∈ p.tmrQue ++ p.tmr.toList, timer.1 ∈ p.addresses

/-- A request that becomes a command begins with the name of one. -/
theorem commandName_of_recognised {request : Request} {command : Command}
    (recognised : requestToCommandExec request = .ok (some command)) :
    commandName ((request.getD 0 []).map toUpper) ≠ none := by
  obtain ⟨first, rest, name, rfl, named, -⟩ := requestToCommandExec_some recognised
  rw [List.getD_cons_zero, named]
  exact Option.some_ne_none name

/-- The text of a recognised command is not that of `DROP`. -/
theorem text_ne_drop {text : Bytes} (recognised : commandName text ≠ none) :
    text ≠ bytes "DROP" := by
  rintro rfl
  exact recognised (by decide)

theorem Extends.valid (extended : Extends p p') (valid : p.Valid) :
    p'.Valid where
  filled := by
    intro empty
    have subset := extended.addresses
    rw [empty] at subset
    exact valid.filled (List.subset_nil.mp subset)
  clients := by
    intro client info' there
    obtain ⟨info, old, handed, same | ⟨address, inside, given⟩⟩ :=
      extended.clients client info' there
    · rw [same, handed]
      obtain ⟨leads, given⟩ := valid.clients client info old
      exact ⟨fun address pointer => extended.addresses (leads address pointer), given⟩
    · rw [given]
      refine ⟨fun other same => ?_, fun _ => Option.some_ne_none address⟩
      rwa [← Option.some.inj same]
  chosen := by
    intro client address chosen
    rw [extended.main] at chosen
    obtain ⟨inside, there⟩ := valid.chosen client address chosen
    exact ⟨extended.addresses inside, extended.count ▸ there⟩
  ready := by
    intro client ready
    rw [extended.main] at ready
    obtain ⟨info, old, given⟩ := valid.ready client ready
    have there : client < p'.clients.length :=
      extended.count ▸ (List.getElem?_eq_some_iff.mp old).1
    obtain ⟨other, also, -, same | ⟨address, -, given'⟩⟩ :=
      extended.clients client _ (List.getElem?_eq_getElem there)
    · cases old.symm.trans also
      exact ⟨_, List.getElem?_eq_getElem there, same ▸ given⟩
    · exact ⟨_, List.getElem?_eq_getElem there, given' ▸ Option.some_ne_none address⟩
  jobs := by
    rw [extended.jobs.1, extended.jobs.2]
    exact valid.jobs
  timers := by
    intro timer member
    rw [extended.tmr] at member
    rcases List.mem_append.mp member with queued | executing
    · rcases extended.timers timer queued with old | new
      · exact extended.addresses (valid.timers timer (List.mem_append_left _ old))
      · exact new
    · exact extended.addresses (valid.timers timer (List.mem_append_right _ executing))

/-- A new client has no database. -/
theorem Valid.accept (valid : p.Valid) :
    Valid { p with clients := p.clients ++ [⟨none, false, true⟩] } where
  filled := valid.filled
  clients := by
    intro client info there
    rw [List.getElem?_append] at there
    split at there
    · exact valid.clients client info there
    · have new := List.mem_singleton.mp (List.mem_of_getElem? there)
      subst new
      exact ⟨fun _ absent => absurd absent (Option.some_ne_none _).symm,
        fun unhanded => absurd unhanded Bool.false_ne_true⟩
  chosen := by
    intro client address chosen
    obtain ⟨inside, there⟩ := valid.chosen client address chosen
    exact ⟨inside, by rw [List.length_append]; omega⟩
  ready := by
    intro client ready
    obtain ⟨info, there, given⟩ := valid.ready client ready
    exact ⟨info, List.getElem?_append_left (List.getElem?_eq_some_iff.mp there).1 ▸ there, given⟩
  jobs := valid.jobs
  timers := valid.timers

/-- The main thread takes up an event of a client. -/
theorem Valid.event (valid : p.Valid) {info : ClientInfo} (there : p.clients[client]? = some info) :
    (∀ owned, p.databases.head? = some owned → Valid { p with main := .chosen client owned.1 }) ∧
      (info.database ≠ none → Valid { p with main := .ready client }) := by
  refine ⟨fun owned first => ?_, fun given => ?_⟩
  · refine { valid with chosen := ?_, ready := ?_ }
    · rintro _ _ ⟨⟩
      exact ⟨List.mem_map_of_mem (List.mem_of_head? first), (List.getElem?_eq_some_iff.mp there).1⟩
    · rintro _ ⟨⟩
  · refine { valid with chosen := ?_, ready := ?_ }
    · rintro _ _ ⟨⟩
    · rintro _ ⟨⟩
      exact ⟨info, there, given⟩

/-- `SetDB` in `Run`. -/
theorem Valid.setDb (valid : p.Valid) {client address : Nat}
    (chosen : p.main = .chosen client address) :
    Valid { p.setDb client address with main := .ready client } := by
  obtain ⟨inside, exists_⟩ := valid.chosen client address chosen
  refine ⟨valid.filled, ?_, ?_, ?_, valid.jobs, valid.timers⟩
  · intro other info there
    obtain ⟨before, old, rfl⟩ := getElem?_modifyClient there
    split
    · refine ⟨fun address' same => ?_, fun _ => Option.some_ne_none address⟩
      rwa [← Option.some.inj same]
    · exact valid.clients other before old
  · rintro _ _ ⟨⟩
  · rintro _ ⟨⟩
    refine ⟨{ p.clients[client] with database := some address }, ?_, Option.some_ne_none address⟩
    change (p.clients.modify client _)[client]? = _
    rw [List.getElem?_modify_eq, List.getElem?_eq_getElem exists_]
    rfl

/-- `Handle` in `Run`. -/
theorem Valid.hand (valid : p.Valid) (ready : p.main = .ready client) :
    Valid { p.modifyClient client fun info => { info with handed := true } with main := .idle } := by
  obtain ⟨info, there, given⟩ := valid.ready client ready
  refine ⟨valid.filled, ?_, ?_, ?_, valid.jobs, valid.timers⟩
  · intro other info' there'
    obtain ⟨before, old, rfl⟩ := getElem?_modifyClient there'
    split
    · rename_i same
      subst same
      cases there.symm.trans old
      exact ⟨(valid.clients client info old).1, fun _ => given⟩
    · exact valid.clients other before old
  · rintro _ _ ⟨⟩
  · rintro _ ⟨⟩

/-- The io thread pushes the command of a request. -/
theorem Valid.request (valid : p.Valid) (client : Nat) {request : Request} {command : Command}
    (recognised : requestToCommandExec request = .ok (some command)) :
    Valid { p with
      cmdQue := p.cmdQue ++ [⟨client, (request.getD 0 []).map toUpper, command⟩] } := by
  refine { valid with jobs := ?_ }
  intro job member
  rw [List.append_assoc] at member
  rcases List.mem_append.mp member with queued | later
  · exact valid.jobs job (List.mem_append_left _ queued)
  · rcases List.mem_append.mp later with new | running
    · rw [List.mem_singleton.mp new]
      exact commandName_of_recognised recognised
    · exact valid.jobs job (List.mem_append_right _ running)

/-- The command thread pops a command. -/
theorem Valid.pop (valid : p.Valid) {job : Job} {rest : List Job} (idle : p.cmd = none)
    (queued : p.cmdQue = job :: rest) : Valid { p with cmd := some job, cmdQue := rest } := by
  refine { valid with jobs := ?_ }
  intro other member
  apply valid.jobs other
  rw [idle, queued, Option.toList_none, List.append_nil]
  rcases List.mem_append.mp member with later | popped
  · exact List.mem_cons_of_mem job later
  · rw [List.mem_singleton.mp popped]
    exact List.mem_cons_self

/-- The command thread is done with its command. -/
theorem Valid.executed (valid : p.Valid) : Valid { p with cmd := none } := by
  refine { valid with jobs := ?_ }
  intro job member
  rw [Option.toList_none, List.append_nil] at member
  exact valid.jobs job (List.mem_append_left _ member)

/-- The timer thread pops a timer. -/
theorem Valid.popTimer (valid : p.Valid) {index : Nat} {timer : Nat × ExpireTimer}
    (idle : p.tmr = none) (there : p.tmrQue[index]? = some timer) :
    Valid { p with tmr := some timer, tmrQue := p.tmrQue.eraseIdx index } := by
  refine { valid with timers := ?_ }
  intro other member
  apply valid.timers other
  rw [idle, Option.toList_none, List.append_nil]
  rcases List.mem_append.mp member with queued | popped
  · exact List.mem_of_mem_eraseIdx queued
  · rw [List.mem_singleton.mp popped]
    exact List.mem_of_getElem? there

/-- The timer thread is done with its timer. -/
theorem Valid.fired (valid : p.Valid) : Valid { p with tmr := none } := by
  refine { valid with timers := ?_ }
  intro timer member
  rw [Option.toList_none, List.append_nil] at member
  exact valid.timers timer (List.mem_append_left _ member)

section Databases

variable (methods : DbMethods δ)

/-- One step of any thread. -/
theorem next_valid {event : Event} (valid : p.Valid) (stepped : p.next methods event = some p') :
    p'.Valid := by
  cases next_step methods stepped with
  | accept => exact valid.accept
  | choose client info owned idle there without first =>
      exact (valid.event there).1 owned first
  | keep client info idle there given => exact (valid.event there).2 given
  | setDb client address chosen => exact valid.setDb chosen
  | hand client ready => exact valid.hand ready
  | unknown client request => exact valid
  | request client request info command locked parsed => exact valid.request client parsed
  | destroy client => exact (destroy_extends p client).valid valid
  | pop job rest idle queued => exact valid.pop idle queued
  | exec env fresh job result running unused executed =>
      have recognised : commandName job.text ≠ none := by
        apply valid.jobs job
        rw [running]
        exact List.mem_append_right _ List.mem_cons_self
      exact ((exec_extends (text_ne_drop recognised) executed).valid valid).executed
  | popTimer index timer idle there => exact valid.popTimer idle there
  | fire timer owned firing leads => exact ((assign_extends p _ _).valid valid).fired

theorem startWith_valid (loaded : List (Nat × δ × List ExpireTimer)) (fresh : Nat) :
    (startWith methods loaded fresh).Valid where
  filled := by
    rw [addresses, startWith]
    split
    · exact List.cons_ne_nil _ _
    · rename_i filled
      simpa only [ne_eq, List.map_eq_nil_iff] using filled
  clients := by
    intro client info there
    cases there
  chosen := by
    rintro _ _ ⟨⟩
  ready := by
    rintro _ ⟨⟩
  jobs := by
    intro job member
    cases member
  timers := by
    intro timer member
    obtain ⟨each, listed, own⟩ := List.mem_flatMap.mp (List.append_nil _ ▸ member)
    obtain ⟨time, -, rfl⟩ := List.mem_map.mp own
    rw [addresses, startWith, if_neg (List.ne_nil_of_mem listed), List.map_map]
    exact List.mem_map_of_mem (f := Prod.fst ∘ fun each : Nat × δ × List ExpireTimer =>
      (each.1, each.2.1)) listed

theorem start_valid (fresh : Nat) (mode : Mode δ) : (start methods fresh mode).Valid := by
  cases mode with
  | rdb loaded => exact startWith_valid methods loaded fresh
  | aof => exact startWith_valid methods [] fresh

/-- However the server was started and whatever clients, requests, commands and timers do:
there is a database, the pointer of every client whose event was handed over leads to one,
and so does that of every timer that is queued or executed. No command that was recognised
is `DROP`. -/
theorem handles_never_dangle (fresh : Nat) (mode : Mode δ) {events : List Event} {p : Process δ}
    (ran : run (next methods) (start methods fresh mode) events = some p) :
    p.databases ≠ [] ∧
    (∀ info ∈ p.clients, info.handed = true →
      ∃ owned ∈ p.databases, info.database = some owned.1) ∧
    (∀ timer ∈ p.tmrQue ++ p.tmr.toList, ∃ owned ∈ p.databases, timer.1 = owned.1) ∧
    ∀ job ∈ p.cmdQue ++ p.cmd.toList, job.text ≠ bytes "DROP" := by
  have valid : p.Valid := run_preserves Valid (fun _ _ _ => next_valid methods)
    (start_valid methods fresh mode) ran
  refine ⟨?_, ?_, ?_, ?_⟩
  · intro empty
    apply valid.filled
    rw [addresses, empty, List.map_nil]
  · intro info member handed
    obtain ⟨client, there⟩ := List.mem_iff_getElem?.mp member
    obtain ⟨leads, given⟩ := valid.clients client info there
    obtain ⟨address, pointer⟩ := Option.ne_none_iff_exists'.mp (given handed)
    obtain ⟨owned, inside, same⟩ := List.mem_map.mp (leads address pointer)
    exact ⟨owned, inside, same ▸ pointer⟩
  · intro timer member
    obtain ⟨owned, inside, same⟩ := List.mem_map.mp (valid.timers timer member)
    exact ⟨owned, inside, same.symm⟩
  · intro job member
    exact text_ne_drop (valid.jobs job member)

end Databases

/-- One database was loaded, and the timer of its key is executing while the client, which
was in it, selects another one and asks in vain for it to be dropped. -/
def selectsWhileExpiring : List Event :=
  [.accept, .event 0, .setDb, .hand, .popTimer 0,
    .request 0 [bytes "select", bytes "7", quietEnv.password], .pop, .exec quietEnv 200,
    .request 0 [bytes "drop", bytes "7"], .request 0 [bytes "show"]]

theorem handles_never_dangle_while_expiring :
    ∃ p, run (next Db.methods)
        (start Db.methods 100 (.rdb [(100, Db.single 0, [⟨bytes "k", 5⟩])]))
        selectsWhileExpiring = some p ∧
      p.addresses = [100, 200] ∧ p.clients = [⟨some 200, true, true⟩] ∧
      p.tmr = some (100, ⟨bytes "k", 5⟩) ∧
      (∃ owned ∈ p.databases, some 200 = some owned.1) ∧ ∃ owned ∈ p.databases, 100 = owned.1 := by
  obtain ⟨p, ran, addresses, clients, executing⟩ : ∃ p, run (next Db.methods)
        (start Db.methods 100 (.rdb [(100, Db.single 0, [⟨bytes "k", 5⟩])]))
        selectsWhileExpiring = some p ∧
      p.addresses = [100, 200] ∧ p.clients = [⟨some 200, true, true⟩] ∧
      p.tmr = some (100, ⟨bytes "k", 5⟩) := run_checked (by decide +kernel)
  obtain ⟨-, handed, timers, -⟩ := handles_never_dangle Db.methods 100 _ ran
  refine ⟨p, ran, addresses, clients, executing, ?_, ?_⟩
  · exact handed ⟨some 200, true, true⟩ (clients ▸ List.mem_cons_self) rfl
  · exact timers (100, ⟨bytes "k", 5⟩)
      (List.mem_append_right _ (executing ▸ List.mem_cons_self))

end Process

end ForkRedis
