import ForkRedis.Server
import ForkRedis.Lib.Calls
import ForkRedis.Lib.Machine

set_option autoImplicit false

/- A command of one key, call by call, while the timer thread deletes keys. What the
command answers and leaves behind is what it does in one piece at some point among the
deletions. -/
namespace ForkRedis

open Lists Fallible Machine

namespace Db

/-- The deletions of the timer thread. -/
def delAll (db : Db) (keys : List Bytes) : Db := keys.foldl (fun db key => (db.del key).1) db

theorem delAll_append_one (db : Db) (keys : List Bytes) (key : Bytes) :
    db.delAll (keys ++ [key]) = ((db.delAll keys).del key).1 := by
  rw [delAll, List.foldl_append]
  rfl

theorem get_del (db : Db) (key k : Bytes) :
    (db.del key).1.get k = if key = k then none else db.get k := by
  rw [get, del, Keyed.find_erase]
  split <;> rfl

theorem del_store (db : Db) (key : Bytes) (object : Object) (k : Bytes) :
    ((db.store key object).del k).1 = (db.del k).1.store key object := by
  have map := db.keyValueMap.erase_modify key k (f := fun kv => { kv with value := object })
    fun _ => rfl
  simp only [del, store, map]

theorem delAll_store (db : Db) (key : Bytes) (object : Object) (keys : List Bytes) :
    (db.store key object).delAll keys = (db.delAll keys).store key object := by
  induction keys generalizing db with
  | nil => rfl
  | cons k keys ih =>
      change ((db.store key object).del k).1.delAll keys = _
      rw [del_store, ih]
      rfl

end Db

/-- A command on the object under its key: whether it creates a missing one, which objects
it is meant for, and the methods it calls. -/
structure ObjectScript : Type 1 where
  key : Bytes
  fresh : Option Object
  accepts : Object → Bool
  program : Calls Object Fault Reply

/-- A command is made of calls on an object, or is one call on the database. -/
inductive Script : Type 1 where
  | object (script : ObjectScript)
  | database (call : Db → Except Fault (Db × Reply × Option ExpireTimer))

namespace ObjectScript

/-- What is done with the object once the command has it. -/
def onPresent (s : ObjectScript) (db : Db) (object : Object) :
    Except Fault (Db × Reply × Option ExpireTimer) :=
  if s.accepts object then do
    let ran ← s.program.run object
    return (db.store s.key ran.1, ran.2, none)
  else .ok (db, refused, none)

/-- The command in one piece. -/
def inOnePiece (s : ObjectScript) (db : Db) : Except Fault (Db × Reply × Option ExpireTimer) :=
  match db.get s.key, s.fresh with
  | some object, _ => s.onPresent db object
  | none, some object => s.onPresent (db.newObject s.key object) object
  | none, none => .ok (db, refused, none)

end ObjectScript

def Script.inOnePiece : Script → Db → Except Fault (Db × Reply × Option ExpireTimer)
  | .object s => s.inOnePiece
  | .database call => call

/-- `obj_`: the object in the key space, or one that was deleted from it and lives on. -/
inductive Pointer where
  | linked
  | loose (object : Object)

/-- Where the command thread is. `lock` holds what `Get` returned, a weak pointer, and
whether its object is still alive. -/
inductive Phase : Type 1 where
  | begin
  | lock (live : Bool)
  | create (object : Object)
  | check (pointer : Pointer)
  | call (pointer : Pointer) (rest : Calls Object Fault Reply)
  | ended (result : Except Fault (Reply × Option ExpireTimer))

namespace Pointer

def object (db : Db) (key : Bytes) : Pointer → Option Object
  | .linked => db.get key
  | .loose object => some object

/-- The key is deleted; who holds the object keeps it. -/
def unlink (db : Db) (key : Bytes) : Pointer → Pointer
  | .linked => (db.get key).elim .linked .loose
  | .loose object => .loose object

/-- A method has left another value in the object. -/
def write (db : Db) (key : Bytes) (object : Object) : Pointer → Db × Pointer
  | .linked => (db.store key object, .linked)
  | .loose _ => (db, .loose object)

end Pointer

/-- What the deletion of the key of the command means to it. -/
def Phase.unlink (db : Db) (key : Bytes) : Phase → Phase
  | .lock _ => .lock false
  | .check pointer => .check (pointer.unlink db key)
  | .call pointer rest => .call (pointer.unlink db key) rest
  | .begin => .begin
  | .create object => .create object
  | .ended result => .ended result

namespace ObjectScript

/-- The next call of the command thread. -/
def advance (s : ObjectScript) (db : Db) : Phase → Option (Db × Phase)
  | .begin => some (db, .lock (db.get s.key).isSome)
  | .lock true => some (db, .check .linked)
  | .lock false =>
      match s.fresh with
      | none => some (db, .ended (.ok (refused, none)))
      | some object => some (db, .create object)
  | .create object => some (db.newObject s.key object, .check .linked)
  | .check pointer =>
      match pointer.object db s.key with
      | none => none
      | some object =>
          if s.accepts object then some (db, .call pointer s.program)
          else some (db, .ended (.ok (refused, none)))
  | .call _ (.done reply) => some (db, .ended (.ok (reply, none)))
  | .call _ (.fault fault) => some (db, .ended (.error fault))
  | .call pointer (.call method next) =>
      match pointer.object db s.key with
      | none => none
      | some object =>
          match method object with
          | .error fault => some (db, .ended (.error fault))
          | .ok called =>
              let written := pointer.write db s.key called.1
              some (written.1, .call written.2 (next called.2))
  | .ended _ => none

end ObjectScript

namespace Script

def advance (db : Db) : Script → Phase → Option (Db × Phase)
  | .object s, phase => s.advance db phase
  | .database call, .begin =>
      match call db with
      | .error fault => some (db, .ended (.error fault))
      | .ok (after, result) => some (after, .ended (.ok result))
  | .database _, _ => none

def unlink (db : Db) (key : Bytes) : Script → Phase → Phase
  | .object s, phase => if key = s.key then phase.unlink db key else phase
  | .database _, phase => phase

end Script

/-- A command beside the deletions; `deleted` is a record of them. -/
structure Interleaved : Type 1 where
  db : Db
  phase : Phase
  deleted : List Bytes

namespace Interleaved

variable {s : ObjectScript} {base db found : Db} {state after : Interleaved} {pointer : Pointer}
  {deleted : List Bytes}

/-- The command thread makes its next call, or the timer thread deletes a key. -/
inductive Event where
  | advance
  | del (key : Bytes)

def start (db : Db) : Interleaved := ⟨db, .begin, []⟩

def next (script : Script) (state : Interleaved) : Event → Option Interleaved
  | .advance =>
      (script.advance state.db state.phase).map fun moved => ⟨moved.1, moved.2, state.deleted⟩
  | .del key => some ⟨(state.db.del key).1, script.unlink state.db key state.phase,
      state.deleted ++ [key]⟩

/-- The command has its object since some of the deletions: from there it is `onPresent`,
and what was written to the object is in the key space as long as its key is there. -/
structure Held (s : ObjectScript) (base : Db) (state : Interleaved) (pointer : Pointer)
    (before after : List Bytes) (found : Db) (first object : Object) : Prop where
  deleted : state.deleted = before ++ after
  piece : s.inOnePiece (base.delAll before) = s.onPresent found first
  had : found.get s.key = some first
  written : state.db = (found.delAll after).store s.key object
  here : pointer.object state.db s.key = some object
  gone : pointer ≠ .linked → state.db.get s.key = none

/-- What the command has answered is what it answers in one piece behind some of the
deletions, and the others come behind it. -/
def Serialised (piece : Db → Except Fault (Db × Reply × Option ExpireTimer)) (base : Db)
    (state : Interleaved) (result : Except Fault (Reply × Option ExpireTimer)) : Prop :=
  ∃ before after db, state.deleted = before ++ after ∧
    piece (base.delAll before) = result.map (Prod.mk db) ∧ state.db = db.delAll after

/-- A deletion behind the end of the command. -/
theorem Serialised.del {piece : Db → Except Fault (Db × Reply × Option ExpireTimer)}
    {result : Except Fault (Reply × Option ExpireTimer)}
    (serialised : Serialised piece base state result) (key : Bytes) (phase : Phase) :
    Serialised piece base ⟨(state.db.del key).1, phase, state.deleted ++ [key]⟩ result := by
  obtain ⟨before, after, db, split, answered, final⟩ := serialised
  refine ⟨before, after ++ [key], db, ?_, answered, ?_⟩
  · rw [split, List.append_assoc]
  · rw [Db.delAll_append_one, ← final]

/-- What holds wherever the command thread is. -/
def Consistent (s : ObjectScript) (base : Db) (state : Interleaved) : Prop :=
  match state.phase with
  | .begin => state.db = base.delAll state.deleted
  | .lock live => state.db = base.delAll state.deleted ∧ live = (state.db.get s.key).isSome
  | .create object => state.db = base.delAll state.deleted ∧ state.db.get s.key = none ∧
      s.fresh = some object
  | .check pointer => ∃ before after found first, Held s base state pointer before after found first first
  | .call pointer rest => ∃ before after found first object,
      Held s base state pointer before after found first object ∧ s.accepts first = true ∧
      s.program.run first = rest.run object
  | .ended result => Serialised s.inOnePiece base state result

theorem Held.start {object : Object}
    (piece : s.inOnePiece (base.delAll deleted) = s.onPresent found object)
    (there : found.get s.key = some object) (phase : Phase) (same : db = found) :
    Held s base ⟨db, phase, deleted⟩ .linked deleted [] found object object where
  deleted := (List.append_nil deleted).symm
  piece := piece
  had := there
  written := by
    subst same
    refine (Db.store_same fun other got => ?_).symm
    exact Option.some.inj (got.symm.trans there)
  here := by
    subst same
    exact there
  gone := fun loose => absurd rfl loose

theorem Held.unlink {s : ObjectScript} {base : Db} {state : Interleaved} {pointer : Pointer}
    {before after : List Bytes} {found : Db} {first object : Object}
    (held : Held s base state pointer before after found first object) (phase : Phase) (key : Bytes) :
    Held s base ⟨(state.db.del key).1, phase, state.deleted ++ [key]⟩
      (if key = s.key then pointer.unlink state.db key else pointer) before (after ++ [key])
      found first object where
  deleted := by rw [held.deleted, List.append_assoc]
  piece := held.piece
  had := held.had
  written := by
    rw [Db.delAll_append_one, ← Db.del_store, ← held.written]
  here := by
    have here := held.here
    cases pointer with
    | loose other =>
        simp only [Pointer.unlink, ite_self]
        exact here
    | linked =>
        split
        · rename_i own
          rw [Pointer.object, ← own] at here
          rw [Pointer.unlink, here]
          rfl
        · rename_i differs
          rw [Pointer.object, Db.get_del, if_neg differs]
          exact here
  gone := by
    intro loose
    rw [Db.get_del]
    split
    · rfl
    · rename_i differs
      rw [if_neg differs] at loose
      exact held.gone loose

/-- A deletion leaves the command where it is, or takes the key from under it. -/
theorem Consistent.del (consistent : Consistent s base state) (key : Bytes) :
    Consistent s base ⟨(state.db.del key).1, (Script.object s).unlink state.db key state.phase,
      state.deleted ++ [key]⟩ := by
  have grown : state.db = base.delAll state.deleted →
      (state.db.del key).1 = base.delAll (state.deleted ++ [key]) := by
    intro same
    rw [Db.delAll_append_one, ← same]
  obtain ⟨db, phase, deleted⟩ := state
  cases phase with
  | begin =>
      have same : (Script.object s).unlink db key .begin = .begin := ite_self _
      rw [same]
      exact grown consistent
  | lock live =>
      obtain ⟨same, alive⟩ := consistent
      by_cases own : key = s.key
      · have dead : (Script.object s).unlink db key (.lock live) = .lock false := if_pos own
        rw [dead]
        refine ⟨grown same, ?_⟩
        rw [Db.get_del, if_pos own]
        rfl
      · have still : (Script.object s).unlink db key (.lock live) = .lock live := if_neg own
        rw [still]
        refine ⟨grown same, ?_⟩
        rw [Db.get_del, if_neg own]
        exact alive
  | create object =>
      have still : (Script.object s).unlink db key (.create object) = .create object := ite_self _
      rw [still]
      obtain ⟨same, absent, fresh⟩ := consistent
      refine ⟨grown same, ?_, fresh⟩
      rw [Db.get_del]
      split
      · rfl
      · exact absent
  | check pointer =>
      have moved : (Script.object s).unlink db key (.check pointer) =
          .check (if key = s.key then pointer.unlink db key else pointer) :=
        (apply_ite Phase.check ..).symm
      rw [moved]
      obtain ⟨before, after, found, first, held⟩ := consistent
      exact ⟨before, after ++ [key], found, first, held.unlink _ key⟩
  | call pointer rest =>
      have moved : (Script.object s).unlink db key (.call pointer rest) =
          .call (if key = s.key then pointer.unlink db key else pointer) rest :=
        (apply_ite (fun p => Phase.call p rest) ..).symm
      rw [moved]
      obtain ⟨before, after, found, first, object, held, accepted, runs⟩ := consistent
      exact ⟨before, after ++ [key], found, first, object, held.unlink _ key, accepted, runs⟩
  | ended result =>
      have still : (Script.object s).unlink db key (.ended result) = .ended result := ite_self _
      have serialised : Serialised s.inOnePiece base ⟨db, .ended result, deleted⟩ result := consistent
      rw [still]
      exact serialised.del key _

theorem Held.write {before after : List Bytes} {first object : Object}
    (held : Held s base state pointer before after found first object) (phase : Phase)
    (value : Object) :
    Held s base ⟨(pointer.write state.db s.key value).1, phase, state.deleted⟩
      (pointer.write state.db s.key value).2 before after found first value where
  deleted := held.deleted
  piece := held.piece
  had := held.had
  written := by
    cases pointer with
    | linked =>
        change state.db.store s.key value = _
        rw [held.written, Db.store_store]
    | loose other =>
        -- the key is gone, so neither value is in the key space
        change state.db = _
        have absent : (found.delAll after).get s.key = none := by
          have gone := held.gone Pointer.noConfusion
          rw [held.written, Db.get_store, Option.map_eq_none_iff] at gone
          exact gone
        have none_ : ∀ anything, (found.delAll after).store s.key anything = found.delAll after := by
          intro anything
          apply Db.store_same
          intro other got
          rw [absent] at got
          cases got
        rw [held.written, none_, none_]
  here := by
    cases pointer with
    | linked =>
        change (state.db.store s.key value).get s.key = some value
        have here : state.db.get s.key = some object := held.here
        rw [Db.get_store, here]
        rfl
    | loose other => rfl
  gone := by
    cases pointer with
    | linked => exact fun loose => absurd rfl loose
    | loose other => exact fun _ => held.gone Pointer.noConfusion

/-- The command ends with the object as it is. -/
theorem Held.ended {before after : List Bytes} {first object : Object}
    (held : Held s base state pointer before after found first object)
    {result : Except Fault (Reply × Option ExpireTimer)}
    (piece : s.onPresent found first = result.map (Prod.mk (found.store s.key object)))
    (phase : Phase) : Serialised s.inOnePiece base ⟨state.db, phase, state.deleted⟩ result := by
  refine ⟨before, after, found.store s.key object, held.deleted, held.piece.trans piece, ?_⟩
  rw [Db.delAll_store]
  exact held.written

theorem Consistent.advance (consistent : Consistent s base state) {moved : Db × Phase}
    (advanced : s.advance state.db state.phase = some moved) :
    Consistent s base ⟨moved.1, moved.2, state.deleted⟩ := by
  obtain ⟨db, phase, deleted⟩ := state
  cases phase with
  | begin =>
      cases advanced
      exact ⟨consistent, rfl⟩
  | lock live =>
      obtain ⟨same, alive⟩ := consistent
      cases live with
      | true =>
          cases advanced
          obtain ⟨object, there⟩ := Option.isSome_iff_exists.mp alive.symm
          refine ⟨deleted, [], db, object, Held.start ?_ there _ rfl⟩
          rw [ObjectScript.inOnePiece, ← same, there]
      | false =>
          have absent : db.get s.key = none :=
            Option.isNone_iff_eq_none.mp (Option.isSome_eq_false_iff.mp alive.symm)
          simp only [ObjectScript.advance] at advanced
          cases fresh : s.fresh with
          | none =>
              rw [fresh] at advanced
              cases advanced
              refine ⟨deleted, [], db, (List.append_nil deleted).symm, ?_, rfl⟩
              rw [ObjectScript.inOnePiece, ← same, absent, fresh]
              rfl
          | some object =>
              rw [fresh] at advanced
              cases advanced
              exact ⟨same, absent, fresh⟩
  | create object =>
      obtain ⟨same, absent, fresh⟩ := consistent
      cases advanced
      refine ⟨deleted, [], db.newObject s.key object, object,
        Held.start ?_ (Db.get_newObject absent object) _ rfl⟩
      rw [ObjectScript.inOnePiece, ← same, absent, fresh]
  | check pointer =>
      obtain ⟨before, after, found, first, held⟩ := consistent
      have here : pointer.object db s.key = some first := held.here
      simp only [ObjectScript.advance, here] at advanced
      by_cases accepted : s.accepts first = true
      · rw [if_pos accepted] at advanced
        cases advanced
        exact ⟨before, after, found, first, first, ⟨held.deleted, held.piece, held.had,
          held.written, held.here, held.gone⟩, accepted, rfl⟩
      · rw [if_neg accepted] at advanced
        cases advanced
        refine held.ended ?_ _
        have kept : found.store s.key first = found := by
          apply Db.store_same
          intro other got
          exact Option.some.inj (got.symm.trans held.had)
        rw [ObjectScript.onPresent, if_neg accepted, kept]
        rfl
  | call pointer rest =>
      obtain ⟨before, after, found, first, object, held, accepted, runs⟩ := consistent
      have piece : s.onPresent found first = (rest.run object).map fun ran =>
          (found.store s.key ran.1, ran.2, none) := by
        rw [ObjectScript.onPresent, if_pos accepted, runs]
        cases rest.run object <;> rfl
      cases rest with
      | done reply =>
          cases advanced
          refine held.ended (piece.trans ?_) _
          rfl
      | fault fault =>
          cases advanced
          refine held.ended (piece.trans ?_) _
          rfl
      | call method next =>
          have here : pointer.object db s.key = some object := held.here
          simp only [ObjectScript.advance, here] at advanced
          cases called : method object with
          | error fault =>
              rw [called] at advanced
              cases advanced
              refine held.ended (piece.trans ?_) _
              rw [Calls.run, called]
              rfl
          | ok returned =>
              rw [called] at advanced
              cases advanced
              refine ⟨before, after, found, first, returned.1, held.write _ returned.1, accepted, ?_⟩
              rw [runs, Calls.run, called]
              rfl
  | ended result => cases advanced

theorem next_consistent {event : Event} (consistent : Consistent s base state)
    (stepped : next (.object s) state event = some after) : Consistent s base after := by
  cases event with
  | advance =>
      obtain ⟨moved, advanced, rfl⟩ := Option.map_eq_some_iff.mp stepped
      exact consistent.advance advanced
  | del key =>
      cases stepped
      exact consistent.del key

/-- A command that is one call on the database. -/
def Called (call : Db → Except Fault (Db × Reply × Option ExpireTimer)) (base : Db)
    (state : Interleaved) : Prop :=
  match state.phase with
  | .begin => state.db = base.delAll state.deleted
  | .ended result => Serialised call base state result
  | _ => False

theorem next_called {call : Db → Except Fault (Db × Reply × Option ExpireTimer)} {event : Event}
    (called : Called call base state) (stepped : next (.database call) state event = some after) :
    Called call base after := by
  obtain ⟨db, phase, deleted⟩ := state
  cases event with
  | advance =>
      obtain ⟨moved, advanced, rfl⟩ := Option.map_eq_some_iff.mp stepped
      cases phase with
      | begin =>
          have same : db = base.delAll deleted := called
          rw [Script.advance] at advanced
          cases returned : call db with
          | error fault =>
              rw [returned] at advanced
              cases advanced
              refine ⟨deleted, [], db, (List.append_nil deleted).symm, ?_, rfl⟩
              rw [← same, returned]
              rfl
          | ok answer =>
              rw [returned] at advanced
              cases advanced
              refine ⟨deleted, [], answer.1, (List.append_nil deleted).symm, ?_, rfl⟩
              rw [← same, returned]
              rfl
      | lock | create | check | call | ended => cases advanced
  | del key =>
      cases stepped
      cases phase with
      | begin =>
          have same : db = base.delAll deleted := called
          change (db.del key).1 = base.delAll (deleted ++ [key])
          rw [Db.delAll_append_one, ← same]
      | ended result =>
          have serialised : Serialised call base ⟨db, .ended result, deleted⟩ result := called
          exact serialised.del key _
      | lock | create | check | call => exact called

/-- Left alone, the command thread comes to the end of the command. -/
def Finishes (script : Script) (state : Interleaved) : Prop :=
  ∃ count final result, run (next script) state (List.replicate count .advance) = some final ∧
    final.phase = .ended result

theorem Finishes.advance {script : Script} {moved : Db × Phase}
    (advanced : script.advance state.db state.phase = some moved)
    (finishes : Finishes script ⟨moved.1, moved.2, state.deleted⟩) : Finishes script state := by
  obtain ⟨count, final, result, ran, ended⟩ := finishes
  refine ⟨count + 1, final, result, ?_, ended⟩
  rw [List.replicate_succ, run, next, advanced]
  exact ran

theorem finishes_of_ended {script : Script} (result : Except Fault (Reply × Option ExpireTimer)) :
    Finishes script ⟨db, .ended result, deleted⟩ :=
  ⟨0, _, result, rfl, rfl⟩

/-- The induction is on the calls that are left. -/
theorem finishes_call (rest : Calls Object Fault Reply)
    (consistent : Consistent s base ⟨db, .call pointer rest, deleted⟩) :
    Finishes (.object s) ⟨db, .call pointer rest, deleted⟩ := by
  induction rest generalizing db pointer with
  | done reply =>
      have ends : s.advance db (.call pointer (.done reply)) =
        some (db, .ended (.ok (reply, none))) := rfl
      exact Finishes.advance ends (finishes_of_ended _)
  | fault fault =>
      have ends : s.advance db (.call pointer (.fault fault)) =
        some (db, .ended (.error fault)) := rfl
      exact Finishes.advance ends (finishes_of_ended _)
  | call method next ih =>
      obtain ⟨before, after, found, first, object, held, accepted, runs⟩ := consistent
      have here : pointer.object db s.key = some object := held.here
      cases called : method object with
      | error fault =>
          have ends : s.advance db (.call pointer (.call method next)) =
              some (db, .ended (.error fault)) := by
            simp only [ObjectScript.advance, here, called]
          exact Finishes.advance ends (finishes_of_ended _)
      | ok returned =>
          have goesOn : s.advance db (.call pointer (.call method next)) =
              some ((pointer.write db s.key returned.1).1,
                .call (pointer.write db s.key returned.1).2 (next returned.2)) := by
            simp only [ObjectScript.advance, here, called]
          refine Finishes.advance goesOn (ih returned.2 ?_)
          refine ⟨before, after, found, first, returned.1, held.write _ returned.1, accepted, ?_⟩
          rw [runs, Calls.run, called]
          rfl

theorem finishes_check (consistent : Consistent s base ⟨db, .check pointer, deleted⟩) :
    Finishes (.object s) ⟨db, .check pointer, deleted⟩ := by
  have holds := consistent
  obtain ⟨before, after, found, first, held⟩ := holds
  have here : pointer.object db s.key = some first := held.here
  cases accepted : s.accepts first with
  | true =>
      have goesOn : s.advance db (.check pointer) = some (db, .call pointer s.program) := by
        simp only [ObjectScript.advance, here, accepted, ↓reduceIte]
      exact Finishes.advance goesOn (finishes_call _ (consistent.advance goesOn))
  | false =>
      have ends : s.advance db (.check pointer) = some (db, .ended (.ok (refused, none))) := by
        simp only [ObjectScript.advance, here, accepted, Bool.false_eq_true, ↓reduceIte]
      exact Finishes.advance ends (finishes_of_ended _)

theorem finishes_create {object : Object}
    (consistent : Consistent s base ⟨db, .create object, deleted⟩) :
    Finishes (.object s) ⟨db, .create object, deleted⟩ := by
  have goesOn : s.advance db (.create object) =
    some (db.newObject s.key object, .check .linked) := rfl
  exact Finishes.advance goesOn (finishes_check (consistent.advance goesOn))

theorem finishes_lock {live : Bool} (consistent : Consistent s base ⟨db, .lock live, deleted⟩) :
    Finishes (.object s) ⟨db, .lock live, deleted⟩ := by
  cases live with
  | true =>
      have goesOn : s.advance db (.lock true) = some (db, .check .linked) := rfl
      exact Finishes.advance goesOn (finishes_check (consistent.advance goesOn))
  | false =>
      cases fresh : s.fresh with
      | none =>
          have ends : s.advance db (.lock false) = some (db, .ended (.ok (refused, none))) := by
            simp only [ObjectScript.advance, fresh]
          exact Finishes.advance ends (finishes_of_ended _)
      | some object =>
          have goesOn : s.advance db (.lock false) = some (db, .create object) := by
            simp only [ObjectScript.advance, fresh]
          exact Finishes.advance goesOn (finishes_create (consistent.advance goesOn))

theorem Consistent.finishes (consistent : Consistent s base state) :
    Finishes (.object s) state := by
  obtain ⟨db, phase, deleted⟩ := state
  cases phase with
  | begin =>
      have goesOn : s.advance db .begin = some (db, .lock (db.get s.key).isSome) := rfl
      exact Finishes.advance goesOn (finishes_lock (consistent.advance goesOn))
  | lock live => exact finishes_lock consistent
  | create object => exact finishes_create consistent
  | check pointer => exact finishes_check consistent
  | call pointer rest => exact finishes_call rest consistent
  | ended result => exact finishes_of_ended result

theorem Called.finishes {call : Db → Except Fault (Db × Reply × Option ExpireTimer)}
    (called : Called call base state) : Finishes (.database call) state := by
  obtain ⟨db, phase, deleted⟩ := state
  cases phase with
  | begin =>
      cases returned : call db with
      | error fault =>
          have ends : (Script.database call).advance db .begin =
              some (db, .ended (.error fault)) := by
            simp only [Script.advance, returned]
          exact Finishes.advance ends (finishes_of_ended _)
      | ok answer =>
          have ends : (Script.database call).advance db .begin =
              some (answer.1, .ended (.ok answer.2)) := by
            simp only [Script.advance, returned]
          exact Finishes.advance ends (finishes_of_ended _)
  | ended result => exact finishes_of_ended result
  | lock | create | check | call => exact absurd called not_false

/-- Whatever the timer thread deletes between the calls of a script, the script can come to
its end, and when it has, it has answered and left behind what it does in one piece. -/
theorem script_serialised (script : Script) (base : Db) (events : List Event)
    (ran : run (next script) (start base) events = some state) :
    Finishes script state ∧
      ∀ result, state.phase = .ended result → Serialised script.inOnePiece base state result := by
  cases script with
  | object s =>
      have begun : Consistent s base (start base) := (rfl : base = base.delAll [])
      have consistent : Consistent s base state :=
        run_preserves (Consistent s base) (fun _ _ _ => next_consistent) begun ran
      refine ⟨consistent.finishes, fun result ended => ?_⟩
      rw [Consistent, ended] at consistent
      exact consistent
  | database call =>
      have begun : Called call base (start base) := (rfl : base = base.delAll [])
      have called : Called call base state :=
        run_preserves (Called call base) (fun _ _ _ => next_called) begun ran
      refine ⟨called.finishes, fun result ended => ?_⟩
      rw [Called, ended] at called
      exact called

end Interleaved

end ForkRedis
