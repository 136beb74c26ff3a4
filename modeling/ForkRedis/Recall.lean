import ForkRedis.Cuts

set_option autoImplicit false

/- What the log of a running server remembers: the states its databases went through, in the
order in which they did. -/
namespace ForkRedis

open Lists Fallible Machine

namespace Journal

variable {env : Env} {fits : Request → Prop}
  {journal after : Journal} {request : Request} {index client : Nat}

/-- The data requests that are logged for a database, in the file and behind it. -/
def known (journal : Journal) (index : Nat) (number : Int32) : List Request :=
  dataFor number journal.file ++ (journal.logs index).filter isData

/-- What is logged for a database has been executed, up to what is waiting. -/
theorem Invariant.executed (invariant : Invariant env Eq fits journal) {db : Db}
    (there : journal.server.databases[index]? = some db) :
    ∃ executed, Db.serve env ⟨db.number, Keyed.empty⟩ executed = .ok db ∧
      executed ++ journal.pending index = journal.known index db.number := by
  obtain ⟨-, base, batches, split, agrees⟩ := invariant.filed
  obtain ⟨start, origin, executed, first, rfl, -, later, all⟩ := agrees.present index db there
  refine ⟨dataFor db.number base ++ executed, ?_, ?_⟩
  · rw [Db.serve_append, first]
    exact later
  · rw [known, split, dataFor_append, List.append_assoc, List.append_assoc, all]

/-- What a step can do to the log of a database: it may grow, and at most one request more
of it has been executed. -/
structure Extends (journal after : Journal) (index : Nat) (number : Int32) : Prop where
  grows : journal.known index number <+: after.known index number
  slow : (after.known index number).length + (journal.pending index).length ≤
    (journal.known index number).length + (after.pending index).length + 1

theorem Extends.of_eq {number : Int32}
    (known : after.known index number = journal.known index number)
    (pending : after.pending index = journal.pending index) :
    Extends journal after index number where
  grows := known ▸ List.prefix_rfl
  slow := by
    rw [known, pending]
    exact Nat.le_succ _

/-- A data request is logged where it will be executed. -/
theorem Extends.read {client position : Nat} {parsed : Option Command}
    (place : journal.server.clients client = some position)
    (translated : requestToCommandExec request = .ok parsed) (index : Nat) (number : Int32) :
    Extends journal { journal with
      logs := Function.update journal.logs position (journal.logs position ++ [request])
      queue := journal.queue ++ parsed.toList.map fun _ => (client, request) } index number := by
  have queued : waiting journal.server.clients
      (journal.queue ++ parsed.toList.map fun _ => (client, request)) index =
        journal.pending index ++ if isData request = true ∧ position = index then [request] else [] := by
    rw [waiting_append]
    congr 1
    cases data : isData request with
    | true =>
        obtain ⟨command, rfl⟩ := Option.isSome_iff_exists.mp (isSome_of_isData translated data)
        refine (waiting_single _ _ _ _).trans ?_
        simp only [data, place, Option.some.injEq, true_and]
    | false =>
        rw [if_neg (fun both => nomatch both.1)]
        cases parsed with
        | none => rfl
        | some command =>
            refine (waiting_single _ _ _ _).trans (if_neg ?_)
            rw [data]
            exact fun both => nomatch both.1
  have logged : (Function.update journal.logs position (journal.logs position ++ [request])
      index).filter isData = (journal.logs index).filter isData ++
        if isData request = true ∧ position = index then [request] else [] := by
    by_cases here : index = position
    · subst here
      rw [Function.update_self, List.filter_append, List.filter_singleton]
      cases isData request <;> simp
    · rw [Function.update_of_ne here, if_neg (fun both => here both.2.symm), List.append_nil]
  constructor
  · show dataFor number journal.file ++ _ <+: dataFor number journal.file ++ _
    rw [logged, ← List.append_assoc]
    exact List.prefix_append _ _
  · show (dataFor number journal.file ++ _).length + _ ≤ _ + (waiting _ _ index).length + 1
    rw [logged, queued, known]
    simp only [List.length_append]
    omega

/-- The requests that are still waiting when the first one has been executed. -/
theorem pending_exec {journal : Journal} {client : Nat} {request : Request}
    {rest : List (Nat × Request)} {server : Server}
    (queue : journal.queue = (client, request) :: rest)
    (same : ∀ entry ∈ rest, isData entry.2 = true →
      server.clients entry.1 = journal.server.clients entry.1) (index : Nat) :
    (journal.pending index).length ≤ (waiting server.clients rest index).length + 1 := by
  rw [pending, queue, waiting_cons, waiting_congr same, List.length_append]
  split
  · exact Nat.le_of_eq (Nat.add_comm 1 _)
  · exact Nat.le_trans (Nat.le_of_eq (Nat.zero_add _)) (Nat.le_succ _)

theorem Extends.exec (invariant : Invariant env Eq fits journal) {live : Env}
    {rest : List (Nat × Request)} {outcome : Outcome}
    (queue : journal.queue = (client, request) :: rest)
    (performed : journal.server.perform live client request = .ok outcome)
    (rewrites : List (List Batch)) (index : Nat) (number : Int32) :
    Extends journal { journal with
      server := outcome.server
      queue := rest
      rewrites := rewrites } index number := by
  have handled := Server.handle_of_perform performed
  have listed : (client, request) ∈ journal.queue := by
    rw [queue]
    exact List.mem_cons_self
  obtain ⟨position, place⟩ := Option.ne_none_iff_exists'.mp (invariant.attached _ listed)
  refine ⟨List.prefix_rfl, ?_⟩
  have waits : (journal.pending index).length ≤
      (waiting outcome.server.clients rest index).length + 1 := by
    apply pending_exec queue
    intro entry member data
    cases select : isSelect request with
    | true =>
        have selects :=
          Server.handle_select invariant.sound place (commandOf_of_isSelect select) handled
        apply selects.others
        intro same
        have ordered := invariant.ordered
        rw [queue, List.pairwise_cons] at ordered
        rw [ordered.1 entry member same.symm select] at data
        cases data
    | false =>
        have there := List.getElem?_eq_getElem (journal.server.attached client position place)
        have lone := (invariant.queued _ listed).local select
        rw [Server.handle_local place there lone] at handled
        obtain ⟨db, -, changed⟩ := map_eq_ok.mp handled
        rw [← changed]
        rfl
  exact Nat.add_le_add_left waits _

theorem Extends.flush (invariant : Invariant env Eq fits journal) {position index : Nat}
    {flushed db : Db} (found : journal.server.databases[position]? = some flushed)
    (there : journal.server.databases[index]? = some db) :
    Extends journal { journal with
      logs := Function.update journal.logs position []
      file := journal.file ++ [⟨flushed.number, journal.logs position⟩] } index db.number := by
  refine .of_eq ?_ rfl
  show dataFor db.number (journal.file ++ [_]) ++
    (Function.update journal.logs position [] index).filter isData = _
  rw [dataFor_append, dataFor_cons, known]
  by_cases here : index = position
  · subst here
    rw [there] at found
    cases found
    rw [if_pos rfl, Function.update_self]
    simp [dataFor]
  · have other : flushed.number ≠ db.number := fun same => here <| by
      have inside : index < (journal.server.databases.map Store.number).length := by
        rw [List.length_map]
        exact (List.getElem?_eq_some_iff.mp there).1
      apply (List.getElem?_inj inside invariant.sound.distinct).mp
      rw [List.getElem?_map, List.getElem?_map, there, found]
      exact congrArg some same.symm
    rw [if_neg other, Function.update_of_ne here]
    simp [dataFor]

/-- A database that a step has made has nothing logged for it. -/
theorem known_fresh (invariant : Invariant env Eq fits journal) {number : Int32}
    (beyond : journal.server.databases.length ≤ index)
    (fresh : number ∉ journal.server.databases.map Store.number) :
    journal.known index number = [] := by
  obtain ⟨-, base, batches, split, agrees⟩ := invariant.filed
  rw [known, split, agrees.missing number fresh, invariant.unused index beyond]
  rfl

/-- The database at a position after a step: it was there before, or nothing is logged for
it yet. -/
theorem exec_known (invariant : Invariant env Eq fits journal) {live : Env}
    {rest : List (Nat × Request)} {outcome : Outcome}
    (queue : journal.queue = (client, request) :: rest)
    (performed : journal.server.perform live client request = .ok outcome) {db : Db}
    (there : outcome.server.databases[index]? = some db) :
    (∃ old, journal.server.databases[index]? = some old ∧ old.number = db.number) ∨
      journal.known index db.number = [] := by
  have handled := Server.handle_of_perform performed
  have listed : (client, request) ∈ journal.queue := by
    rw [queue]
    exact List.mem_cons_self
  obtain ⟨position, place⟩ := Option.ne_none_iff_exists'.mp (invariant.attached _ listed)
  cases select : isSelect request with
  | true =>
      have selects :=
        Server.handle_select invariant.sound place (commandOf_of_isSelect select) handled
      rcases selects.databases with same | ⟨number, fresh, grown⟩
      · rw [same] at there
        exact .inl ⟨db, there, rfl⟩
      · by_cases inside : index < journal.server.databases.length
        · rw [grown, List.getElem?_append_left inside] at there
          exact .inl ⟨db, there, rfl⟩
        · have beyond := Nat.not_lt.mp inside
          rw [grown, List.getElem?_append_right beyond] at there
          have named := List.mem_singleton.mp (List.mem_of_getElem? there)
          refine .inr (known_fresh invariant beyond ?_)
          rw [named]
          exact fresh
  | false =>
      have found := List.getElem?_eq_getElem (journal.server.attached client position place)
      have lone := (invariant.queued _ listed).local select
      rw [Server.handle_local place found lone] at handled
      obtain ⟨changed, executed, stored⟩ := map_eq_ok.mp handled
      rw [← stored] at there
      refine .inl ?_
      have numbers := Server.numbers_setDatabase found (Db.number_handle executed)
      have named : (journal.server.databases.map Store.number)[index]? = some db.number := by
        rw [← numbers, List.getElem?_map, there]
        rfl
      rw [List.getElem?_map] at named
      exact Option.map_eq_some_iff.mp named

/-- Every state that the log of a database leads through is one that the database was in,
at a moment that is remembered. -/
def Recalls (env : Env) (past : Server → Prop) (journal : Journal) : Prop :=
  ∀ index db, journal.server.databases[index]? = some db → ∀ executed done,
    executed ++ journal.pending index = journal.known index db.number → done <+: executed →
      ∃ earlier, past earlier ∧
        Db.serve env ⟨db.number, Keyed.empty⟩ done = .ok (earlier.dbOf db.number)

theorem Recalls.extends {past : Server → Prop} {journal after : Journal}
    (recalls : Recalls env past journal) (invariant : Invariant env Eq fits journal)
    (later : Invariant env Eq fits after) (now : past after.server)
    (steps : ∀ index db, after.server.databases[index]? = some db →
      (∃ old, journal.server.databases[index]? = some old ∧ old.number = db.number ∧
        Extends journal after index db.number) ∨ after.known index db.number = []) :
    Recalls env past after := by
  intro index db there executed done all early
  obtain ⟨whole, served, logged⟩ := later.executed there
  have same : whole = executed := List.append_cancel_right (logged.trans all.symm)
  subst same
  by_cases complete : done = whole
  · refine ⟨after.server, now, ?_⟩
    rw [complete, served, Server.dbOf_of_getElem later.sound.distinct there]
  · have short : done.length < whole.length :=
      lt_of_le_of_ne early.length_le fun length => complete (early.eq_of_length length)
    rcases steps index db there with ⟨old, found, number, grows, slow⟩ | nothing
    · obtain ⟨before, -, held⟩ := invariant.executed found
      rw [number] at held
      refine number ▸ recalls index old found before done (number ▸ held) ?_
      have first : done <+: after.known index db.number :=
        early.trans (logged ▸ List.prefix_append whole _)
      have second : before <+: after.known index db.number :=
        (held ▸ List.prefix_append before _).trans grows
      refine List.prefix_of_prefix_length_le first second ?_
      have lengths := congrArg List.length logged
      have earlier := congrArg List.length held
      rw [List.length_append] at lengths earlier
      omega
    · rw [nothing, List.append_eq_nil_iff] at logged
      rw [logged.1] at short
      cases short

/-- A step of a steady run. -/
theorem Recalls.step {past : Server → Prop} {event : LogEvent} (recalls : Recalls env past journal)
    (invariant : Invariant env Eq fits journal) (later : Invariant env Eq fits after)
    (none_begun : journal.rewrites = [])
    (stays : ∀ client, event = .disconnect client → ∀ entry ∈ journal.queue, entry.1 ≠ client)
    (stepped : journal.next env.password event = some after) (now : past after.server) :
    Recalls env past after := by
  refine recalls.extends invariant later now ?_
  intro index db there
  cases next_step stepped with
  | connect client gone =>
      refine .inl ⟨db, there, rfl, .of_eq rfl (waiting_congr ?_ index)⟩
      intro entry member _
      refine Function.update_of_ne ?_ _ _
      rintro rfl
      exact invariant.attached entry member gone
  | disconnect client =>
      refine .inl ⟨db, there, rfl, .of_eq rfl (waiting_congr ?_ index)⟩
      intro entry member _
      exact Function.update_of_ne (stays client rfl entry member) _ _
  | read client request position parsed place translated =>
      exact .inl ⟨db, there, rfl, .read place translated index db.number⟩
  | exec live client request rest outcome queue performed =>
      rcases exec_known invariant queue performed there with ⟨old, found, number⟩ | nothing
      · exact .inl ⟨old, found, number, .exec invariant queue performed _ index db.number⟩
      · exact .inr nothing
  | flushNothing position nothing => exact .inl ⟨db, there, rfl, .of_eq rfl rfl⟩
  | flush position flushed found filled =>
      exact .inl ⟨db, there, rfl, .flush invariant found there⟩
  | fire position batches found =>
      rw [none_begun] at found
      cases found

end Journal

end ForkRedis
