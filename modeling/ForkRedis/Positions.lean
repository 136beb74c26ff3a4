import ForkRedis.Handles

set_option autoImplicit false

/- Elsewhere a `Db *` is a position in `databases_`. Here the process with its pointers is
followed step by step by the server with positions. -/
namespace ForkRedis

open Lists Fallible Machine

/-- A job comes of a request. -/
def Job.Read (job : Job) : Prop :=
  ∃ request, requestToCommandExec request = .ok (some job.command) ∧
    job.text = (request.getD 0 []).map toUpper

/-- `command_` of a `CliCommand` is the name it was recognised by. -/
theorem Job.Read.named {job : Job} (read : job.Read) {c : CliCommand}
    (cli : job.command = .cli c) : commandName job.text = some (.cli c.command) := by
  obtain ⟨request, parsed, text⟩ := read
  rw [cli] at parsed
  obtain ⟨first, rest, name, rfl, named, made⟩ := requestToCommandExec_some parsed
  rw [text, List.getD_cons_zero, named]
  cases name with
  | cli name =>
      cases made
      rw [jsonToCliCommand_command]
  | server name =>
      obtain ⟨_, -, made⟩ := bind_eq_ok.mp made
      cases made
  | db _ | str _ | list _ | hash _ | set _ | zset _ => cases made

namespace Process

/-- The pointer of a client whose object is there. -/
def pointer {δ : Type} (p : Process δ) (client : Nat) : Option Nat :=
  (p.lock client).bind ClientInfo.database

/-- The process has the databases of the server in their order, and the pointer of a client
is the address at its position. -/
structure Stands (p : Process Db) (server : Server) : Prop where
  databases : p.databases.map Prod.snd = server.databases
  numHash : p.numHash = server.numHash
  numberSource : p.numberSource = server.numberSource
  distinct : p.addresses.Nodup
  clients : ∀ client, Option.Rel (fun index address => p.addresses[index]? = some address)
    (server.clients client) (p.pointer client)

section Lookup

variable {δ : Type} {p : Process δ} {index : Nat} {owned : Nat × δ}

theorem getElem?_addresses (there : p.databases[index]? = some owned) :
    p.addresses[index]? = some owned.1 := by
  rw [addresses, List.getElem?_map, there]
  rfl

theorem exists_of_getElem?_addresses {address : Nat} (there : p.addresses[index]? = some address) :
    ∃ owned, p.databases[index]? = some owned ∧ owned.1 = address := by
  rw [addresses, List.getElem?_map] at there
  exact Option.map_eq_some_iff.mp there

/-- Two positions with one address are the same. -/
theorem eq_of_address (distinct : p.addresses.Nodup) {other : Nat} {owned' : Nat × δ}
    (there : p.databases[index]? = some owned) (there' : p.databases[other]? = some owned')
    (same : owned.1 = owned'.1) : index = other := by
  have inside := (List.getElem?_eq_some_iff.mp (getElem?_addresses there)).1
  apply (List.getElem?_inj inside distinct).mp
  rw [getElem?_addresses there, getElem?_addresses there', same]

theorem deref_of_getElem? (distinct : p.addresses.Nodup)
    (there : p.databases[index]? = some owned) : p.deref (some owned.1) = some owned := by
  apply find?_unique (List.mem_of_getElem? there) (beq_self_eq_true owned.1)
  intro other member found
  obtain ⟨position, also⟩ := List.mem_iff_getElem?.mp member
  cases eq_of_address distinct also there (beq_iff_eq.mp found)
  exact Option.some.inj (also.symm.trans there)

/-- Only the database at its position is changed by an assignment through a pointer. -/
theorem databases_assign (distinct : p.addresses.Nodup) (there : p.databases[index]? = some owned)
    (db : δ) :
    (p.assign owned.1 db).databases.map Prod.snd = (p.databases.map Prod.snd).set index db := by
  apply List.ext_getElem?
  intro i
  rw [assign, List.map_map, List.getElem?_map, List.getElem?_set, List.length_map,
    List.getElem?_map]
  by_cases same : index = i
  · subst same
    rw [if_pos rfl, if_pos (List.getElem?_eq_some_iff.mp there).1, there]
    simp only [Option.map_some, Function.comp_apply, if_true]
  · rw [if_neg same]
    cases also : p.databases[i]? with
    | none => rfl
    | some other =>
        have differs : other.1 ≠ owned.1 := fun equal =>
          same (eq_of_address distinct there also equal.symm)
        simp only [Option.map_some, Function.comp_apply, if_neg differs]

theorem clients_modifyClient (p : Process δ) {client other : Nat} (apart : other ≠ client)
    (change : ClientInfo → ClientInfo) :
    (p.modifyClient client change).clients[other]? = p.clients[other]? :=
  List.getElem?_modify_ne change p.clients apart.symm

/-- A change of one client changes the pointer of that client only. -/
theorem pointer_modifyClient (p : Process δ) (client other : Nat)
    (change : ClientInfo → ClientInfo) :
    (p.modifyClient client change).pointer other =
      if client = other then
        ((p.clients[client]?.map change).filter fun info => info.alive).bind ClientInfo.database
      else p.pointer other := by
  rw [pointer, lock, modifyClient, List.getElem?_modify]
  split
  · rename_i same
    subst same
    rfl
  · rw [id_map']
    rfl

end Lookup

section Simulation

variable {p : Process Db} {server : Server} {client index : Nat} {owned : Nat × Db}

theorem Stands.getElem? (stands : Stands p server) (there : p.databases[index]? = some owned) :
    server.databases[index]? = some owned.2 := by
  rw [← stands.databases, List.getElem?_map, there]
  rfl

theorem Stands.length (stands : Stands p server) :
    server.databases.length = p.databases.length := by
  rw [← stands.databases, List.length_map]

/-- A change that is not to databases or pointers. -/
theorem Stands.congr {p' : Process Db} (stands : Stands p server)
    (databases : p'.databases = p.databases) (numHash : p'.numHash = p.numHash)
    (numberSource : p'.numberSource = p.numberSource)
    (pointers : ∀ client, p'.pointer client = p.pointer client) : Stands p' server where
  databases := databases ▸ stands.databases
  numHash := numHash.trans stands.numHash
  numberSource := numberSource.trans stands.numberSource
  distinct := by
    rw [addresses, databases]
    exact stands.distinct
  clients := by
    intro client
    rw [pointers client, addresses, databases]
    exact stands.clients client

/-- A client whose object is there and that was given a database is at its position. -/
theorem Stands.attached (stands : Stands p server)
    (given : ∀ info, p.lock client = some info → info.database ≠ none) :
    (p.lock client = none ∧ server.clients client = none) ∨
    ∃ info index owned, p.lock client = some info ∧ p.deref info.database = some owned ∧
      server.clients client = some index ∧ p.databases[index]? = some owned := by
  have related := stands.clients client
  rw [pointer] at related
  cases locked : p.lock client with
  | none =>
      rw [locked] at related
      generalize server.clients client = attached at related
      cases related
      exact Or.inl ⟨rfl, rfl⟩
  | some info =>
      obtain ⟨address, holds⟩ := Option.ne_none_iff_exists'.mp (given info locked)
      rw [locked, Option.bind_some, holds] at related
      generalize server.clients client = attached at related
      cases related with
      | some there =>
          obtain ⟨owned, listed, rfl⟩ := exists_of_getElem?_addresses there
          exact Or.inr ⟨info, _, owned, rfl, holds ▸ deref_of_getElem? stands.distinct listed,
            rfl, listed⟩

theorem Stands.assign (stands : Stands p server) (there : p.databases[index]? = some owned)
    (db : Db) : Stands (p.assign owned.1 db) (server.setDatabase index db) where
  databases := by
    rw [databases_assign stands.distinct there, stands.databases]
    rfl
  numHash := stands.numHash
  numberSource := stands.numberSource
  distinct := (addresses_assign p owned.1 db).symm ▸ stands.distinct
  clients := by
    intro client
    rw [addresses_assign]
    exact stands.clients client

theorem Stands.addDatabase (stands : Stands p server) {fresh : Nat} (unused : fresh ∉ p.addresses)
    (number numberSource : Int32) :
    Stands (p.addDatabase Db.methods fresh number numberSource)
      (server.addDatabase number numberSource) where
  databases := by
    rw [Process.addDatabase, List.map_append, stands.databases]
    rfl
  numHash := congrArg (number :: ·) stands.numHash
  numberSource := rfl
  distinct := by
    rw [addresses, Process.addDatabase, List.map_append]
    refine List.nodup_append.mpr ⟨stands.distinct, List.nodup_singleton fresh, ?_⟩
    rintro address old _ new rfl
    rw [List.mem_singleton.mp new] at old
    exact unused old
  clients := by
    intro client
    have related := stands.clients client
    change Option.Rel _ (server.clients client) (p.pointer client)
    generalize server.clients client = attached, p.pointer client = pointer at related ⊢
    cases related with
    | none => exact .none
    | some there =>
        refine .some ?_
        rw [addresses, Process.addDatabase, List.map_append]
        exact List.getElem?_append_left (List.getElem?_eq_some_iff.mp there).1 ▸ there

theorem Stands.setDb (stands : Stands p server) {info : ClientInfo}
    (locked : p.lock client = some info) (there : p.databases[index]? = some owned)
    (inside : index < server.databases.length) :
    Stands (p.setDb client owned.1) (server.attach client index inside) where
  databases := stands.databases
  numHash := stands.numHash
  numberSource := stands.numberSource
  distinct := stands.distinct
  clients := by
    intro other
    obtain ⟨here, alive⟩ := Option.filter_eq_some_iff.mp locked
    change Option.Rel _ (Function.update server.clients client (some index) other) _
    rw [Process.setDb, pointer_modifyClient, Function.update_apply]
    by_cases same : client = other
    · subst same
      rw [if_pos rfl, if_pos rfl, here, Option.map_some, Option.filter_some, if_pos alive]
      exact .some (getElem?_addresses there)
    · rw [if_neg same, if_neg (Ne.symm same)]
      exact stands.clients other

theorem Stands.destroy (stands : Stands p server) (client : Nat) :
    Stands (p.destroy client) (server.detach client) where
  databases := stands.databases
  numHash := stands.numHash
  numberSource := stands.numberSource
  distinct := stands.distinct
  clients := by
    intro other
    change Option.Rel _ (Function.update server.clients client none other) _
    rw [Process.destroy, pointer_modifyClient, Function.update_apply]
    by_cases same : client = other
    · subst same
      rw [if_pos rfl, if_pos rfl]
      cases p.clients[client]? <;> exact .none
    · rw [if_neg same, if_neg (Ne.symm same)]
      exact stands.clients other

theorem Stands.find (stands : Stands p server) (number : Int32) :
    Option.Rel (fun index owned => p.databases[index]? = some owned) (server.find number)
      (p.find Db.methods number) := by
  have search : server.find number =
      p.databases.findIdx? fun owned => Db.methods.number owned.2 == number := by
    rw [Server.find, ← stands.databases, List.findIdx?_map]
    rfl
  rw [search, Process.find, List.find?_eq_bind_findIdx?_getElem?]
  cases found : p.databases.findIdx? fun owned => Db.methods.number owned.2 == number with
  | none => exact .none
  | some index =>
      have inside := (List.findIdx?_eq_some_iff_getElem.mp found).1
      rw [Option.bind_some, List.getElem?_eq_getElem inside]
      exact .some (List.getElem?_eq_getElem inside)

theorem Stands.getDb (stands : Stands p server) (number : Int32) :
    ∃ owned, p.getDb Db.methods number = some owned.1 ∧
      p.databases[(server.getDb number).1]? = some owned := by
  have related := stands.find number
  rw [Process.getDb, Server.getDb]
  split
  · rename_i index found
    rw [found] at related
    generalize p.find Db.methods number = search at related ⊢
    cases related with
    | some there => exact ⟨_, rfl, there⟩
  · rename_i found
    rw [found] at related
    generalize p.find Db.methods number = search at related ⊢
    cases related
    have inside : 0 < p.databases.length := stands.length ▸ server.filled
    refine ⟨p.databases[0], ?_, List.getElem?_eq_getElem inside⟩
    rw [Option.none_or, List.head?_eq_getElem?, List.getElem?_eq_getElem inside]
    rfl

/-- A database that was looked for, and perhaps created, in both. -/
structure Chosen (p : Process Db) (found : Process Db × Nat)
    (target : (server : Server) × { index // index < server.databases.length }) : Prop where
  stands : Stands found.1 target.1
  owned : ∃ owned, found.1.databases[target.2.1]? = some owned ∧ owned.1 = found.2
  addresses : p.addresses <+: found.1.addresses
  clients : found.1.clients = p.clients
  timers : found.1.tmrQue = p.tmrQue

theorem prefix_addDatabase (p : Process Db) (fresh : Nat) (number numberSource : Int32) :
    p.addresses <+: (p.addDatabase Db.methods fresh number numberSource).addresses := by
  rw [addresses, addresses, Process.addDatabase, List.map_append]
  exact List.prefix_append _ _

theorem getElem?_addDatabase (p : Process Db) (fresh : Nat) (number numberSource : Int32) :
    (p.addDatabase Db.methods fresh number numberSource).databases[p.databases.length]? =
      some (fresh, Db.methods.create number) :=
  List.getElem?_concat_length

theorem Stands.suGetDb (stands : Stands p server) {fresh : Nat} (unused : fresh ∉ p.addresses)
    (number : Int32) :
    Chosen p (p.suGetDb Db.methods fresh number) (server.suGetDb number) := by
  have related := stands.find number
  rw [Process.suGetDb]
  cases search : p.find Db.methods number with
  | some owned =>
      rw [search] at related
      dsimp only
      rw [Server.suGetDb]
      split
      · rename_i index found
        rw [found] at related
        cases related with
        | some there => exact ⟨stands, ⟨owned, there, rfl⟩, List.prefix_refl _, rfl, rfl⟩
      · rename_i found
        rw [found] at related
        cases related
  | none =>
      rw [search] at related
      dsimp only
      rw [Server.suGetDb]
      split
      · rename_i index found
        rw [found] at related
        cases related
      · rw [stands.numHash, stands.numberSource]
        have last := stands.length.symm ▸ getElem?_addDatabase p fresh
          (unusedNumber server.numHash (server.numHash.length + 1) number) server.numberSource
        exact ⟨stands.addDatabase unused _ _, ⟨_, last, rfl⟩, prefix_addDatabase p _ _ _, rfl, rfl⟩

theorem Stands.select (stands : Stands p server) {fresh : Nat} (unused : fresh ∉ p.addresses)
    (password : Bytes) (number : Int32) (pswd : Option Bytes) :
    ∃ found, p.select Db.methods password fresh number pswd = some found ∧
      Chosen p found (server.select password number pswd) := by
  rw [Process.select, Server.select]
  split
  · exact ⟨_, rfl, stands.suGetDb unused number⟩
  · obtain ⟨owned, got, there⟩ := stands.getDb number
    rw [got]
    exact ⟨_, rfl, stands, ⟨owned, there, rfl⟩, List.prefix_refl _, rfl, rfl⟩

theorem Stands.createDb (stands : Stands p server) (fresh : Nat) :
    (p.createDb Db.methods fresh = none ∧ server.createDb = none) ∨
    ∃ number, p.createDb Db.methods fresh =
        some (p.addDatabase Db.methods fresh number number, number) ∧
      server.createDb = some (server.addDatabase number number, number) := by
  rw [Process.createDb, Server.createDb, stands.length, stands.numHash, stands.numberSource]
  split
  · exact Or.inl ⟨rfl, rfl⟩
  · exact Or.inr ⟨_, rfl, rfl⟩

theorem Stands.numberAt (stands : Stands p server) (there : p.databases[index]? = some owned) :
    p.numberAt Db.methods (some owned.1) = .ok (server.numberAt index) := by
  rw [Process.numberAt, deref_of_getElem? stands.distinct there, Server.numberAt,
    stands.getElem? there]
  rfl

theorem Stands.showDb (stands : Stands p server) : p.showDb Db.methods = server.showDb := by
  rw [Process.showDb, Server.showDb, ← stands.databases, List.flatMap_map]
  rfl

/-- Where a timer of the server goes: to the address at its position. -/
def placed (p : Process Db) : Timer → Option (Nat × ExpireTimer)
  | .expire index timer => p.addresses[index]?.map fun address => (address, timer)
  | .rewrite _ => none

theorem placed_expire {address : Nat} (there : p.addresses[index]? = some address)
    (timer : ExpireTimer) : p.placed (.expire index timer) = some (address, timer) := by
  rw [placed, there]
  rfl

/-- A command ends alike in both, and it does not touch other clients. -/
structure Answers (p : Process Db) (client : Nat) (result : Process Db × Option Reply)
    (outcome : Outcome) : Prop where
  stands : Stands result.1 outcome.server
  reply : result.2 = outcome.reply
  timers : result.1.tmrQue = p.tmrQue ++ outcome.timers.filterMap result.1.placed
  addresses : p.addresses <+: result.1.addresses
  others : ∀ other, other ≠ client → result.1.clients[other]? = p.clients[other]?

/-- A command that changes nothing. -/
theorem Stands.answers (stands : Stands p server) (client : Nat) (reply : Option Reply) :
    Answers p client (p, reply) ⟨server, reply, []⟩ where
  stands := stands
  reply := rfl
  timers := (List.append_nil _).symm
  addresses := List.prefix_refl _
  others := fun _ _ => rfl

theorem Stands.onClientDb (stands : Stands p server)
    (given : ∀ info, p.lock client = some info → info.database ≠ none)
    (run : Db → Except Fault (Db × Reply × Option ExpireTimer)) :
    Parallel (Answers p client) (p.onClientDb client run) (server.onClientDb client run) := by
  rw [Process.onClientDb, Server.onClientDb]
  rcases stands.attached given with ⟨gone, detached⟩ | ⟨info, index, owned, locked, leads, attached,
    there⟩
  · rw [gone, detached]
    exact .ok (stands.answers client none)
  · simp only [locked, leads, attached, stands.getElem? there]
    apply Parallel.bind_same
    rintro ⟨db, reply, timer⟩
    have assigned := stands.assign there db
    refine .ok ⟨assigned.congr rfl rfl rfl fun _ => rfl, rfl, ?_, ?_, fun _ _ => rfl⟩
    · have address := getElem?_addresses there
      rw [← addresses_assign p owned.1 db] at address
      cases timer with
      | none => rfl
      | some timer =>
          exact congrArg (p.tmrQue ++ ·) (List.filterMap_cons_some (l := [])
            (placed_expire address timer)).symm
    · exact (addresses_assign p owned.1 db).symm ▸ List.prefix_refl p.addresses

theorem mem_commandTable {text : Bytes} {name : CommandName}
    (named : commandName text = some name) : (text, name) ∈ commandTable := by
  obtain ⟨before, after, table, -⟩ := List.lookup_eq_some_iff.mp named
  rw [table]
  exact List.mem_append_right _ List.mem_cons_self

theorem Stands.execCli (stands : Stands p server) (env : Env) {fresh : Nat}
    (unused : fresh ∉ p.addresses)
    (given : ∀ info, p.lock client = some info → info.database ≠ none) {text : Bytes}
    {c : CliCommand} (named : commandName text = some (.cli c.command)) :
    Parallel (Answers p client) (p.execCli Db.methods env fresh client text c)
      (server.execCli env client c) := by
  have listed := mem_commandTable named
  rw [Process.execCli, Server.execCli]
  split
  · exact .ok (stands.answers client (some refused))
  cases command : c.command with
  | select =>
      have only : ∀ entry ∈ commandTable, entry.2 = .cli .select → entry.1 = bytes "SELECT" := by
        decide
      rw [if_pos (only _ listed (congrArg _ command))]
      apply Parallel.bind_same
      rintro (_ | number)
      · exact .ok (stands.answers client (some refused))
      · rcases stands.attached given with ⟨gone, detached⟩ | ⟨info, index, owned, locked, leads,
          attached, there⟩
        · simp only [gone, detached]
          exact .ok (stands.answers client none)
        · obtain ⟨⟨p', address⟩, selected, chosen⟩ :=
            stands.select unused env.password number c.pswd
          obtain ⟨owned', there', rfl⟩ := chosen.owned
          have locked' : p'.lock client = some info := by
            rw [lock, chosen.clients]
            exact locked
          have inside := (server.select env.password number c.pswd).2.2
          simp only [locked, attached, selected, chosen.stands.numberAt there', ok_bind]
          refine .ok ⟨chosen.stands.setDb locked' there' inside, rfl, ?_, chosen.addresses, ?_⟩
          · exact chosen.timers.trans (List.append_nil _).symm
          · intro other apart
            rw [← chosen.clients]
            exact clients_modifyClient p' apart _
  | showAll =>
      have only : ∀ entry ∈ commandTable, entry.2 = .cli .showAll → entry.1 = bytes "SHOW" := by
        decide
      have shown := only _ listed (congrArg _ command)
      dsimp only at shown
      rw [shown, if_neg (by decide), if_pos rfl]
      rcases stands.attached given with ⟨gone, detached⟩ | ⟨info, index, owned, locked, leads,
        attached, there⟩
      · simp only [gone, detached]
        exact .ok (stands.answers client none)
      · have number := stands.numberAt there
        rw [← (deref_eq_some leads).1] at number
        simp only [locked, attached, number, ok_bind, stands.showDb]
        exact .ok (stands.answers client _)
  | create =>
      have only : ∀ entry ∈ commandTable, entry.2 = .cli .create → entry.1 = bytes "CREATE" := by
        decide
      have created := only _ listed (congrArg _ command)
      dsimp only at created
      rw [created, if_neg (by decide), if_neg (by decide), if_neg (by decide), if_pos rfl]
      rcases stands.attached given with ⟨gone, detached⟩ | ⟨info, index, owned, locked, leads,
        attached, there⟩
      · simp only [gone, detached]
        exact .ok (stands.answers client none)
      · rcases stands.createDb fresh with ⟨full, full'⟩ | ⟨number, added, added'⟩
        · simp only [locked, attached, full, full']
          exact .ok (stands.answers client _)
        · simp only [locked, attached, added, added']
          exact .ok ⟨stands.addDatabase unused _ _, rfl, (List.append_nil _).symm,
            prefix_addDatabase p _ _ _, fun _ _ => rfl⟩

theorem Stands.execServer (stands : Stands p server) (env : Env)
    (given : ∀ info, p.lock client = some info → info.database ≠ none) (c : ServerCommand) :
    Parallel (Answers p client) (p.execServer env client c)
      (.ok (server.execServer env client c)) := by
  rw [Process.execServer, Server.execServer]
  rcases stands.attached given with ⟨gone, detached⟩ | ⟨info, index, owned, locked, leads,
    attached, there⟩
  · simp only [gone, detached]
    exact .ok (stands.answers client none)
  · simp only [locked, attached]
    cases c.command with
    | none => exact .ok (stands.answers client _)
    | some name =>
        cases name with
        | fork =>
            simp only [leads]
            cases env.network <;> exact .ok (stands.answers client _)
        | endForking =>
            refine .ok ⟨stands.destroy client, rfl, (List.append_nil _).symm, List.prefix_refl _,
              ?_⟩
            intro other apart
            exact clients_modifyClient p apart _

theorem Stands.execValid (stands : Stands p server)
    (given : ∀ info, p.lock client = some info → info.database ≠ none) (valid : Bool)
    (run : Db → Except Fault (Db × Reply × Option ExpireTimer)) :
    Parallel (Answers p client)
      (if valid then p.onClientDb client run else .ok (p, some refused))
      (server.execValid client valid run) := by
  rw [Server.execValid]
  split
  · exact stands.onClientDb given run
  · exact .ok (stands.answers client (some refused))

/-- `Exec` with pointers and with positions. -/
theorem Stands.exec (stands : Stands p server) (env : Env) {fresh : Nat}
    (unused : fresh ∉ p.addresses) {job : Job} (read : job.Read)
    (given : ∀ info, p.lock job.client = some info → info.database ≠ none) :
    Parallel (Answers p job.client) (p.exec Db.methods env fresh job)
      (job.command.exec env server job.client) := by
  rw [Process.exec]
  cases command : job.command with
  | server c => exact stands.execServer env given c
  | cli c => exact stands.execCli env unused given (read.named command)
  | db c =>
      rw [Command.exec]
      dsimp only
      split
      · rcases stands.attached given with ⟨gone, detached⟩ | ⟨info, index, owned, locked, leads,
          attached, there⟩
        · rw [gone, detached]
          exact .ok (stands.answers job.client none)
        · rw [locked, attached]
          refine .ok ⟨stands, rfl, ?_, List.prefix_refl _, fun _ _ => rfl⟩
          -- the timer of `REWRITE` is not one of a key
          rw [Server.rewriteTimers]
          split <;> exact (List.append_nil _).symm
      · exact stands.execValid given _ _
  | str c | list c | hash c | set c | zset c => exact stands.execValid given _ _

/-- Every job comes of a request of a client that was handed over, and the client `Run` is
about to give a database has none and will get the first. -/
structure Orderly (p : Process Db) : Prop where
  jobs : ∀ job ∈ p.cmdQue ++ p.cmd.toList,
    job.Read ∧ ∃ info, p.clients[job.client]? = some info ∧ info.handed = true
  chosen : ∀ client address, p.main = .chosen client address →
    p.addresses.head? = some address ∧ ∃ info, p.clients[client]? = some info ∧ info.database = none

/-- The client of a job was given a database. -/
theorem Orderly.given (orderly : p.Orderly) (valid : p.Valid) {job : Job}
    (member : job ∈ p.cmdQue ++ p.cmd.toList) :
    ∀ info, p.lock job.client = some info → info.database ≠ none := by
  intro info locked
  obtain ⟨-, other, there, handed⟩ := orderly.jobs job member
  have here := (Option.filter_eq_some_iff.mp locked).1
  cases here.symm.trans there
  exact (valid.clients job.client info here).2 handed

theorem pointer_accept (p : Process Db) (client : Nat) :
    pointer { p with clients := p.clients ++ [⟨none, false, true⟩] } client = p.pointer client := by
  rw [pointer, pointer, lock, lock, List.getElem?_append]
  split
  · rfl
  · rename_i outside
    rw [List.getElem?_eq_none (Nat.le_of_not_lt outside)]
    cases client - p.clients.length <;> rfl

theorem pointer_hand (p : Process Db) (client other : Nat) :
    (p.modifyClient client fun info => { info with handed := true }).pointer other =
      p.pointer other := by
  rw [pointer_modifyClient]
  split
  · rename_i same
    subst same
    rw [pointer, lock]
    cases p.clients[client]? with
    | none => rfl
    | some info => cases alive : info.alive <;> simp [Option.filter_some, alive]
  · rfl

/-- `SetDB` in `Run` attaches a client to the first database, if its object is still there. -/
theorem Stands.firstDb (stands : Stands p server) (orderly : p.Orderly) {address : Nat}
    (main : p.main = .chosen client address) :
    ∃ server', Relation.ReflGen Server.Step server server' ∧
      Stands (p.setDb client address) server' := by
  obtain ⟨first, info, there, without⟩ := orderly.chosen client address main
  cases locked : p.lock client with
  | none =>
      refine ⟨server, .refl, stands.congr rfl rfl rfl fun other => ?_⟩
      rw [Process.setDb, pointer_modifyClient]
      split
      · rename_i same
        subst same
        rw [pointer, locked]
        rw [lock, there] at locked
        rw [there]
        cases alive : info.alive with
        | false => simp [alive]
        | true => simp [alive] at locked
      · rfl
  | some info' =>
      have here := (Option.filter_eq_some_iff.mp locked).1
      cases here.symm.trans there
      have detached : server.clients client = none := by
        have related := stands.clients client
        rw [pointer, locked, Option.bind_some, without] at related
        generalize server.clients client = attached at related
        cases related
        rfl
      rw [List.head?_eq_getElem?] at first
      obtain ⟨owned, listed, rfl⟩ := exists_of_getElem?_addresses first
      exact ⟨_, .single (.connect client detached), stands.setDb locked listed server.filled⟩

/-- Each event of the process is a step of the server, or none. -/
theorem next_simulated {p' : Process Db} {event : Event} (valid : p.Valid) (orderly : p.Orderly)
    (stands : Stands p server) (stepped : p.next Db.methods event = some p') :
    ∃ server', Relation.ReflGen Server.Step server server' ∧ Stands p' server' := by
  cases next_step Db.methods stepped with
  | accept => exact ⟨server, .refl, stands.congr rfl rfl rfl (pointer_accept p)⟩
  | choose | keep | request | pop | popTimer =>
      exact ⟨server, .refl, stands.congr rfl rfl rfl fun _ => rfl⟩
  | setDb client address chosen =>
      obtain ⟨server', step, stands'⟩ := stands.firstDb orderly chosen
      exact ⟨server', step, stands'.congr rfl rfl rfl fun _ => rfl⟩
  | hand client ready => exact ⟨server, .refl, stands.congr rfl rfl rfl (pointer_hand p client)⟩
  | unknown client request => exact ⟨server, .refl, stands⟩
  | destroy client => exact ⟨_, .single (.disconnect client), stands.destroy client⟩
  | exec env fresh job result running unused executed =>
      have member : job ∈ p.cmdQue ++ p.cmd.toList :=
        List.mem_append_right _ (running ▸ List.mem_cons_self)
      have read := (orderly.jobs job member).1
      have both := stands.exec env unused read (orderly.given valid member)
      obtain ⟨outcome, ran, answers⟩ := both.returns_left executed
      obtain ⟨request, parsed, -⟩ := read
      exact ⟨outcome.server, .single (.request env job.client parsed ran),
        answers.stands.congr rfl rfl rfl fun _ => rfl⟩
  | fire timer owned firing leads =>
      obtain ⟨index, there⟩ := List.mem_iff_getElem?.mp (deref_eq_some leads).2
      exact ⟨_, .single (.expire (stands.getElem? there) timer.2.objName),
        (stands.assign there _).congr rfl rfl rfl fun _ => rfl⟩

/-- A step that adds no job, and after which the clients that were handed over still are. -/
theorem Orderly.keep {p' : Process Db} (orderly : p.Orderly)
    (jobs : p'.cmdQue ++ p'.cmd.toList ⊆ p.cmdQue ++ p.cmd.toList)
    (handed : ∀ (client : Nat) (info : ClientInfo), p.clients[client]? = some info →
      info.handed = true → ∃ info', p'.clients[client]? = some info' ∧ info'.handed = true)
    (chosen : ∀ client address, p'.main = .chosen client address →
      p'.addresses.head? = some address ∧
        ∃ info, p'.clients[client]? = some info ∧ info.database = none) : p'.Orderly where
  jobs := by
    intro job member
    obtain ⟨read, info, there, given⟩ := orderly.jobs job (jobs member)
    exact ⟨read, handed job.client info there given⟩
  chosen := chosen

theorem handed_modifyClient {p : Process Db} {client other : Nat}
    {change : ClientInfo → ClientInfo} {info : ClientInfo}
    (keeps : ∀ info, info.handed = true → (change info).handed = true)
    (there : p.clients[other]? = some info) (handed : info.handed = true) :
    ∃ info', (p.modifyClient client change).clients[other]? = some info' ∧
      info'.handed = true := by
  rw [Process.modifyClient, List.getElem?_modify, there]
  refine ⟨_, rfl, ?_⟩
  split
  · exact keeps info handed
  · exact handed

theorem Orderly.accept (orderly : p.Orderly) :
    Orderly { p with clients := p.clients ++ [⟨none, false, true⟩] } := by
  have old {client : Nat} {info : ClientInfo} (there : p.clients[client]? = some info) :
      (p.clients ++ [⟨none, false, true⟩])[client]? = some info :=
    List.getElem?_append_left (List.getElem?_eq_some_iff.mp there).1 ▸ there
  refine orderly.keep (List.Subset.refl _) (fun _ info there handed => ⟨info, old there, handed⟩) ?_
  intro client address main
  obtain ⟨first, info, there, without⟩ := orderly.chosen client address main
  exact ⟨first, info, old there, without⟩

/-- The io thread pushes the command of a request. -/
theorem Orderly.request (orderly : p.Orderly) {info : ClientInfo} {request : Request}
    {command : Command} (parsed : requestToCommandExec request = .ok (some command))
    (there : p.clients[client]? = some info) (handed : info.handed = true) :
    Orderly { p with
      cmdQue := p.cmdQue ++ [⟨client, (request.getD 0 []).map toUpper, command⟩] } := by
  refine { orderly with jobs := ?_ }
  intro job member
  rw [List.append_assoc] at member
  rcases List.mem_append.mp member with queued | later
  · exact orderly.jobs job (List.mem_append_left _ queued)
  · rcases List.mem_append.mp later with new | running
    · rw [List.mem_singleton.mp new]
      exact ⟨⟨request, parsed, rfl⟩, info, there, handed⟩
    · exact orderly.jobs job (List.mem_append_right _ running)

/-- Its own client is not the one that waits for a database while a job is executed. -/
theorem Orderly.executed {p' : Process Db} (orderly : p.Orderly) (valid : p.Valid) {job : Job}
    (running : p.cmd = some job) (extended : Extends p p')
    (addresses : p.addresses <+: p'.addresses)
    (others : ∀ other, other ≠ job.client → p'.clients[other]? = p.clients[other]?) :
    Orderly { p' with cmd := none } := by
  refine orderly.keep ?_ ?_ ?_
  · rw [extended.jobs.1, Option.toList_none, List.append_nil]
    exact List.subset_append_left _ _
  · intro client info there handed
    have inside : client < p'.clients.length :=
      extended.count ▸ (List.getElem?_eq_some_iff.mp there).1
    have there' := List.getElem?_eq_getElem inside
    obtain ⟨before, old, same, -⟩ := extended.clients client _ there'
    cases there.symm.trans old
    exact ⟨_, there', same.trans handed⟩
  · intro client address main
    rw [extended.main] at main
    obtain ⟨first, info, there, without⟩ := orderly.chosen client address main
    have apart : client ≠ job.client := by
      rintro rfl
      obtain ⟨-, own, listed, handed⟩ :=
        orderly.jobs job (List.mem_append_right _ (running ▸ List.mem_cons_self))
      cases there.symm.trans listed
      exact (valid.clients job.client info there).2 handed without
    refine ⟨?_, info, (others client apart).trans there, without⟩
    obtain ⟨later, grown⟩ := addresses
    change p'.addresses.head? = some address
    rw [← grown, List.head?_append, first, Option.some_or]

theorem next_orderly {p' : Process Db} {event : Event} (valid : p.Valid) (orderly : p.Orderly)
    (stands : Stands p server) (stepped : p.next Db.methods event = some p') : p'.Orderly := by
  cases next_step Db.methods stepped with
  | accept => exact orderly.accept
  | choose client info owned idle there without first =>
      refine ⟨orderly.jobs, ?_⟩
      rintro _ _ ⟨⟩
      refine ⟨?_, info, there, without⟩
      rw [addresses, List.head?_map, first]
      rfl
  | keep client info idle there given =>
      refine ⟨orderly.jobs, ?_⟩
      rintro _ _ ⟨⟩
  | setDb client address chosen =>
      refine orderly.keep (List.Subset.refl _)
        (fun _ _ => handed_modifyClient fun _ handed => handed) ?_
      rintro _ _ ⟨⟩
  | hand client ready =>
      refine orderly.keep (List.Subset.refl _) (fun _ _ => handed_modifyClient fun _ _ => rfl) ?_
      rintro _ _ ⟨⟩
  | unknown client request => exact orderly
  | request client request info command locked parsed =>
      obtain ⟨alive, handed⟩ := Option.filter_eq_some_iff.mp locked
      exact orderly.request parsed (Option.filter_eq_some_iff.mp alive).1 handed
  | destroy client =>
      refine orderly.keep (List.Subset.refl _)
        (fun _ _ => handed_modifyClient fun _ handed => handed) ?_
      intro other address main
      obtain ⟨first, info, there, without⟩ := orderly.chosen other address main
      refine ⟨first, if client = other then { info with alive := false } else info, ?_, ?_⟩
      · change (p.clients.modify client _)[other]? = _
        rw [List.getElem?_modify, there]
        rfl
      · split <;> exact without
  | pop job rest idle queued =>
      refine orderly.keep ?_ (fun _ info there handed => ⟨info, there, handed⟩) orderly.chosen
      rw [idle, queued]
      exact List.Subset.trans (List.perm_append_singleton job rest).subset
        (List.subset_append_left _ _)
  | exec env fresh job result running unused executed =>
      have member : job ∈ p.cmdQue ++ p.cmd.toList :=
        List.mem_append_right _ (running ▸ List.mem_cons_self)
      have read := (orderly.jobs job member).1
      have extended := exec_extends (text_ne_drop (valid.jobs job member)) executed
      obtain ⟨outcome, -, answers⟩ :=
        (stands.exec env unused read (orderly.given valid member)).returns_left executed
      exact orderly.executed valid running extended answers.addresses answers.others
  | popTimer index timer idle there => exact ⟨orderly.jobs, orderly.chosen⟩
  | fire timer owned firing leads =>
      refine ⟨orderly.jobs, ?_⟩
      intro client address main
      change (p.assign owned.1 _).addresses.head? = _ ∧ _
      rw [addresses_assign]
      exact orderly.chosen client address main

end Simulation

/-- The process as it is started stands for the server as it is started. -/
theorem startWith_stands {loaded : List (Nat × Db × List ExpireTimer)} (fresh : Nat)
    (distinct : (loaded.map Prod.fst).Nodup) :
    Stands (startWith Db.methods loaded fresh)
      (Server.started (loaded.map fun each => each.2.1)) := by
  cases loaded with
  | nil => exact ⟨rfl, rfl, rfl, List.nodup_singleton fresh, fun _ => .none⟩
  | cons first rest =>
      have count : max 1 (first :: rest).length = rest.length + 1 := by
        rw [List.length_cons]
        omega
      refine ⟨?_, ?_, ?_, ?_, fun _ => .none⟩
      · simp only [startWith, reduceCtorEq, if_false, List.map_map]
        rfl
      · simp only [startWith, count, Server.started, List.map_cons, List.length_map]
      · simp only [startWith, count, Server.started, List.map_cons, List.length_map]
      · simp only [addresses, startWith, reduceCtorEq, if_false, List.map_map]
        exact distinct

theorem run_followed {loaded : List (Nat × Db × List ExpireTimer)} (fresh : Nat)
    (distinct : (loaded.map Prod.fst).Nodup) {events : List Event} {p : Process Db}
    (ran : run (next Db.methods) (startWith Db.methods loaded fresh) events = some p) :
    p.Valid ∧ p.Orderly ∧ ∃ server, Relation.ReflTransGen Server.Step
      (Server.started (loaded.map fun each => each.2.1)) server ∧ Stands p server := by
  refine run_preserves (fun p => p.Valid ∧ p.Orderly ∧
    ∃ server, Relation.ReflTransGen Server.Step
      (Server.started (loaded.map fun each => each.2.1)) server ∧ Stands p server) ?_ ?_ ran
  · rintro p event p' ⟨valid, orderly, server, reached, stands⟩ stepped
    obtain ⟨server', step, stands'⟩ := next_simulated valid orderly stands stepped
    exact ⟨next_valid Db.methods valid stepped, next_orderly valid orderly stands stepped,
      server', reached.trans step.to_reflTransGen, stands'⟩
  · refine ⟨startWith_valid Db.methods loaded fresh, ⟨?_, ?_⟩, _, .refl,
      startWith_stands fresh distinct⟩
    · intro job member
      cases member
    · rintro _ _ ⟨⟩

/-- Every run of the process with its pointers is a run of the server with positions: after
it, the process has the databases of a server that such a run reaches, and every client is
at the position its pointer leads to. -/
theorem run_stands {loaded : List (Nat × Db × List ExpireTimer)} (fresh : Nat)
    (distinct : (loaded.map Prod.fst).Nodup) {events : List Event} {p : Process Db}
    (ran : run (next Db.methods) (startWith Db.methods loaded fresh) events = some p) :
    ∃ server, Relation.ReflTransGen Server.Step
        (Server.started (loaded.map fun each => each.2.1)) server ∧ Stands p server :=
  (run_followed fresh distinct ran).2.2

theorem run_stands_while_expiring :
    ∃ p, run (next Db.methods) (startWith Db.methods [(100, Db.single 0, [⟨bytes "k", 5⟩])] 100)
        selectsWhileExpiring = some p ∧ p.addresses = [100, 200] ∧
      ∃ server, Relation.ReflTransGen Server.Step (Server.started [Db.single 0]) server ∧
        Stands p server := by
  obtain ⟨p, ran, addresses⟩ : ∃ p, run (next Db.methods)
      (startWith Db.methods [(100, Db.single 0, [⟨bytes "k", 5⟩])] 100)
        selectsWhileExpiring = some p ∧ p.addresses = [100, 200] := run_checked (by decide +kernel)
  have distinct : ([(100, Db.single 0, [(⟨bytes "k", 5⟩ : ExpireTimer)])].map Prod.fst).Nodup :=
    List.nodup_singleton 100
  exact ⟨p, ran, addresses, run_stands 100 distinct ran⟩

/-- What holds of every server that can be reached holds of the process: it keeps the numbers
of its databases apart, and those are the numbers that are marked. -/
theorem run_numbered (fresh : Nat) {events : List Event} {p : Process Db}
    (ran : run (next Db.methods) (startWith Db.methods [] fresh) events = some p) :
    (p.databases.map fun owned => owned.2.number).Nodup ∧
      p.numHash.Perm (p.databases.map fun owned => owned.2.number) := by
  have distinct : (([] : List (Nat × Db × List ExpireTimer)).map Prod.fst).Nodup := List.nodup_nil
  obtain ⟨-, -, server, reached, stands⟩ := run_followed fresh distinct ran
  have sound : server.Sound := Server.Reachable.sound reached
  have numbers : server.databases.map Store.number =
      p.databases.map fun owned => owned.2.number := by
    rw [← stands.databases, List.map_map]
    rfl
  rw [stands.numHash, ← numbers]
  exact ⟨sound.distinct, sound.marked⟩

end Process

end ForkRedis
