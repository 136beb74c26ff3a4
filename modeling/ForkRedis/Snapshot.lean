import ForkRedis.Persistence
import ForkRedis.Updates
import ForkRedis.Lib.Machine

set_option autoImplicit false

/- `Db::Save` on the timer thread beside the command thread. `Save` holds the latch of the
database for reading, so no key comes or goes meanwhile, but values change. -/
namespace ForkRedis

open Lists Fallible Machine

/-- How far `Save` is. The names of the entries are in the order it visits them. -/
inductive Saver where
  | waiting
  | saving (header : Bytes) (done left : List Bytes) (codes : List Bytes)
  | saved (result : Bytes)
  deriving DecidableEq

/-- A database, the updates the command thread has still to make for its command, and the
timer thread in `Save`. -/
structure Shared where
  db : Db
  todo : List Update
  saver : Saver
  deriving DecidableEq

namespace Shared

inductive Event where
  | start (env : Env) (command : Command)
  | update
  | begin
  | encode
  | finish

def fresh (db : Db) : Shared := ⟨db, [], .waiting⟩

def names (db : Db) : List Bytes := db.keyValueMap.items.map Entry.name

def header (db : Db) : Bytes :=
  Db.selectDb :: (bitsToStringInt db.number ++
    bitsToStringSize (UInt64.ofNat db.keyValueMap.items.length))

/-- `Encode` of the entry that has a name by now. -/
def encodeNamed (conf : DumpConf) (db : Db) (name : Bytes) : Except Fault Bytes :=
  match db.keyValueMap.find name with
  | none => .error .undefined
  | some kv => KeyValue.encode conf kv

/-- Insertion and deletion need the latch that `Save` holds. -/
def blocked : Saver → Update → Bool
  | .saving _ _ _ _, .insert _ _ => true
  | .saving _ _ _ _, .erase _ => true
  | _, _ => false

/-- A command that is not valid makes no updates, and one that raises has no next state;
nor has a `Save` that raises. -/
def next (conf : DumpConf) (state : Shared) : Event → Option Shared
  | .start env command =>
      if state.todo.isEmpty then
        if command.valid then
          match command.updates env state.db with
          | .ok updates => some { state with todo := updates }
          | .error _ => none
        else some state
      else none
  | .update =>
      match state.todo with
      | [] => none
      | u :: rest =>
          if blocked state.saver u then none
          else some { state with db := u.apply state.db, todo := rest }
  | .begin =>
      match state.saver with
      | .waiting =>
          some { state with
            saver := if state.db.keyValueMap.items.isEmpty then .saved []
              else .saving (header state.db) [] (names state.db) [] }
      | _ => none
  | .encode =>
      match state.saver with
      | .saving header done (name :: left) codes =>
          match encodeNamed conf state.db name with
          | .ok code => some { state with
              saver := .saving header (done ++ [name]) left (codes ++ [code]) }
          | .error _ => none
      | _ => none
  | .finish =>
      match state.saver with
      | .saving header _ [] codes => some { state with saver := .saved (header ++ codes.flatten) }
      | _ => none

/-- The bytes are what `Save` returns in a state of the run that lies between two commands. -/
def Genuine (conf : DumpConf) (start : Shared) (events : List Event) (result : Bytes) : Prop :=
  ∃ state ∈ visited (next conf) start events,
    state.todo = [] ∧ state.db.save conf = .ok result

/-- An update of an entry that is still to be encoded, or any if `Save` has not begun. -/
def Ahead (state : Shared) : Event → Prop
  | .update => ∀ u ∈ state.todo.head?,
      match state.saver with
      | .waiting => True
      | .saving _ done _ _ => u.key ∉ done
      | .saved _ => False
  | _ => True

/-- An update of an entry that is encoded already, or any if `Save` has returned. -/
def Behind (state : Shared) : Event → Prop
  | .update => ∀ u ∈ state.todo.head?,
      match state.saver with
      | .waiting => False
      | .saving _ _ left _ => u.key ∉ left
      | .saved _ => True
  | _ => True

/-- `Save` in the middle, compared with a database: what it has done it would have done
there as well, and the entries it has still to visit are the same there. -/
structure Midway (conf : DumpConf) (db current : Db) (head : Bytes) (done left codes : List Bytes) :
    Prop where
  head : head = header db
  listed : names db = done ++ left
  filled : db.keyValueMap.items ≠ []
  coded : done.mapM (encodeNamed conf db) = .ok codes
  ahead : ∀ name ∈ left, current.keyValueMap.find name = db.keyValueMap.find name

/-- What `Save` has done so far, it would have done on the database `db` as well. -/
def Images (conf : DumpConf) (db : Db) (state : Shared) : Prop :=
  match state.saver with
  | .waiting => state.db = db
  | .saving head done left codes => Midway conf db state.db head done left codes
  | .saved result => db.save conf = .ok result

end Shared

/- Updates that are possible while `Save` runs leave the names and the other entries. -/

namespace Update

theorem names_apply {u : Update} (value : ∀ key object, u ≠ .insert key object)
    (stays : ∀ key, u ≠ .erase key) (db : Db) :
    Shared.names (u.apply db) = Shared.names db ∧ (u.apply db).number = db.number := by
  cases u with
  | insert key object => exact absurd rfl (value key object)
  | erase key => exact absurd rfl (stays key)
  | write key object =>
      refine ⟨?_, rfl⟩
      simp only [apply, Db.store, Keyed.modify, Shared.names, List.map_map]
      apply List.map_congr_left
      intro kv _
      simp only [Function.comp_apply]
      split <;> rfl
  | expire key time =>
      refine ⟨?_, rfl⟩
      simp only [apply, Db.makeExpireAt, Keyed.modify, Shared.names, List.map_map]
      apply List.map_congr_left
      intro kv _
      simp only [Function.comp_apply]
      split <;> rfl

theorem find_apply_other {u : Update} {name : Bytes} (other : u.key ≠ name) (db : Db) :
    (u.apply db).keyValueMap.find name = db.keyValueMap.find name := by
  cases u with
  | insert key object =>
      have differs : Entry.name (⟨Str.ofData key, object, none⟩ : KeyValue) ≠ name := other
      rw [apply, Db.newObject, Keyed.find_insert, if_neg differs]
  | write key object => exact (db.find_store key object name).trans (if_neg other)
  | erase key => exact (db.keyValueMap.find_erase key name).trans (if_neg other)
  | expire key time => exact (db.find_makeExpireAt key time name).trans (if_neg other)

end Update

namespace Shared

variable {conf : DumpConf} {state after : Shared} {db : Db}

theorem items_of_names {db db' : Db} (same : names db' = names db)
    (filled : db.keyValueMap.items ≠ []) : db'.keyValueMap.items ≠ [] := by
  intro empty
  have none_left : names db = [] := by rw [← same, names, empty, List.map_nil]
  exact filled (List.map_eq_nil_iff.mp none_left)

theorem header_of_names {db db' : Db} (same : names db' = names db)
    (number : db'.number = db.number) : header db' = header db := by
  have sized : db'.keyValueMap.items.length = db.keyValueMap.items.length := by
    have lengths := congrArg List.length same
    rwa [names, names, List.length_map, List.length_map] at lengths
  rw [header, header, number, sized]

/-- `Save` as it goes through the names. -/
theorem save_eq (conf : DumpConf) (filled : db.keyValueMap.items ≠ []) {codes : List Bytes}
    (encoded : (names db).mapM (encodeNamed conf db) = .ok codes) :
    db.save conf = .ok (header db ++ codes.flatten) := by
  have entries : db.keyValueMap.items.mapM (KeyValue.encode conf) = .ok codes := by
    rw [names, List.mapM_map] at encoded
    rw [← encoded]
    apply mapM_congr
    intro kv member
    simp only [Function.comp_apply, encodeNamed, db.keyValueMap.find_of_mem member]
  rw [Db.save, if_neg filled, entries]
  simp only [ok_bind, pure_eq_ok, header, List.cons_append, List.append_assoc]

/-- The steps of `Save` go on as they would on the database it is compared with. -/
theorem Images.save_step {event : Event} (images : Images conf db state)
    (step : event = .begin ∨ event = .encode ∨ event = .finish)
    (stepped : state.next conf event = some after) :
    Images conf db after ∧ after.db = state.db := by
  rcases step with rfl | rfl | rfl
  · simp only [next] at stepped
    split at stepped
    · rename_i waiting
      cases stepped
      rw [Images, waiting] at images
      subst images
      refine ⟨?_, rfl⟩
      rw [Images]
      by_cases empty : state.db.keyValueMap.items = []
      · simp only [empty, List.isEmpty_nil, ↓reduceIte]
        rw [Db.save, if_pos empty]
      · simp only [List.isEmpty_eq_false_iff.mpr empty, Bool.false_eq_true, ↓reduceIte]
        exact ⟨rfl, rfl, empty, rfl, fun _ _ => rfl⟩
    · cases stepped
  · simp only [next] at stepped
    split at stepped
    · rename_i head done name left codes saving
      split at stepped
      · rename_i code encoded
        cases stepped
        rw [Images, saving] at images
        refine ⟨⟨images.head, ?_, images.filled, ?_, ?_⟩, rfl⟩
        · rw [images.listed, List.append_assoc, List.singleton_append]
        · have here : encodeNamed conf db name = .ok code := by
            rw [← encoded, encodeNamed, encodeNamed, images.ahead name List.mem_cons_self]
          rw [List.mapM_append, images.coded, ok_bind, List.mapM_cons, here]
          rfl
        · exact fun other member => images.ahead other (List.mem_cons_of_mem name member)
      · cases stepped
    · cases stepped
  · simp only [next] at stepped
    split at stepped
    · rename_i head done codes saving
      cases stepped
      rw [Images, saving] at images
      have coded := images.coded
      rw [← List.append_nil done, ← images.listed] at coded
      refine ⟨?_, rfl⟩
      rw [Images, images.head]
      exact save_eq conf images.filled coded
    · cases stepped

theorem Images.start {env : Env} {command : Command} (images : Images conf db state)
    (stepped : state.next conf (.start env command) = some after) :
    Images conf db after ∧ after.db = state.db := by
  simp only [next] at stepped
  split at stepped
  · split at stepped
    · split at stepped
      · cases stepped
        exact ⟨images, rfl⟩
      · cases stepped
    · cases stepped
      exact ⟨images, rfl⟩
  · cases stepped

theorem next_update (stepped : state.next conf .update = some after) :
    ∃ u rest, state.todo = u :: rest ∧ blocked state.saver u = false ∧
      after = { state with db := u.apply state.db, todo := rest } := by
  simp only [next] at stepped
  split at stepped
  · cases stepped
  · rename_i u rest listed
    split at stepped
    · cases stepped
    · rename_i free
      cases stepped
      exact ⟨u, rest, listed, Bool.eq_false_iff.mpr free, rfl⟩

/-- Up to the boundary `Save` is compared with the database as it is. -/
theorem ahead_keeps {event : Event} (images : Images conf state.db state)
    (ahead : state.Ahead event) (stepped : state.next conf event = some after) :
    Images conf after.db after := by
  cases event with
  | start env command =>
      obtain ⟨kept, same⟩ := images.start stepped
      rwa [same]
  | begin =>
      obtain ⟨kept, same⟩ := images.save_step (Or.inl rfl) stepped
      rwa [same]
  | encode =>
      obtain ⟨kept, same⟩ := images.save_step (Or.inr (Or.inl rfl)) stepped
      rwa [same]
  | finish =>
      obtain ⟨kept, same⟩ := images.save_step (Or.inr (Or.inr rfl)) stepped
      rwa [same]
  | update =>
      obtain ⟨u, rest, listed, free, rfl⟩ := next_update stepped
      have condition := ahead u (by rw [listed]; rfl)
      cases phase : state.saver with
      | waiting => rfl
      | saved result =>
          rw [phase] at condition
          exact condition.elim
      | saving head done left codes =>
          rw [phase] at condition free
          simp only [Images, phase] at images ⊢
          have value : ∀ key object, u ≠ .insert key object := by
            rintro key object rfl
            cases free
          have stays : ∀ key, u ≠ .erase key := by
            rintro key rfl
            cases free
          obtain ⟨kept, number⟩ := Update.names_apply value stays state.db
          refine ⟨?_, kept.trans images.listed, items_of_names kept images.filled, ?_,
            fun _ _ => rfl⟩
          · rw [images.head, header_of_names kept number]
          · rw [← images.coded]
            apply mapM_congr
            intro name member
            have other : u.key ≠ name := fun hit => condition (hit ▸ member)
            rw [encodeNamed, encodeNamed, Update.find_apply_other other]

/-- From the boundary on it is compared with the database as it was there. -/
theorem behind_keeps {event : Event} (images : Images conf db state) (behind : state.Behind event)
    (stepped : state.next conf event = some after) : Images conf db after := by
  cases event with
  | start env command => exact (images.start stepped).1
  | begin => exact (images.save_step (Or.inl rfl) stepped).1
  | encode => exact (images.save_step (Or.inr (Or.inl rfl)) stepped).1
  | finish => exact (images.save_step (Or.inr (Or.inr rfl)) stepped).1
  | update =>
      obtain ⟨u, rest, listed, free, rfl⟩ := next_update stepped
      have condition := behind u (by rw [listed]; rfl)
      cases phase : state.saver with
      | waiting =>
          rw [phase] at condition
          exact condition.elim
      | saved result =>
          simp only [Images, phase] at images ⊢
          exact images
      | saving head done left codes =>
          rw [phase] at condition
          simp only [Images, phase] at images ⊢
          refine ⟨images.head, images.listed, images.filled, images.coded, fun name member => ?_⟩
          have other : u.key ≠ name := fun hit => condition (hit ▸ member)
          rw [Update.find_apply_other other, images.ahead name member]

/-- A run has a boundary between two commands such that up to it only entries ahead of
`Save` are updated, and from it on only entries behind it. Then `Save` returns the dump of
the database at the boundary. -/
theorem saved_genuine (conf : DumpConf) (db : Db) (before after : List Event)
    {middle final : Shared} {result : Bytes}
    (ahead : Meets (next conf) Ahead (fresh db) before)
    (reached : run (next conf) (fresh db) before = some middle) (boundary : middle.todo = [])
    (behind : Meets (next conf) Behind middle after)
    (ended : run (next conf) middle after = some final) (returned : final.saver = .saved result) :
    Genuine conf (fresh db) (before ++ after) result := by
  have start : Images conf db (fresh db) := rfl
  have here : Images conf middle.db middle :=
    run_keeps (fun state : Shared => Images conf state.db state)
      (fun _ _ _ images met stepped => ahead_keeps images met stepped) start ahead reached
  have there : Images conf middle.db final :=
    run_keeps (Images conf middle.db)
      (fun _ _ _ images met stepped => behind_keeps images met stepped) here behind ended
  rw [Images, returned] at there
  exact ⟨middle, mem_visited_append reached, boundary, there⟩

def setting (key value : String) : Event :=
  .start quietEnv (.str ⟨true, .set, bytes key, some (bytes value)⟩)

/-- Two keys are stored, and a `Save` visits `b` first. -/
def storing : List Event :=
  [setting "a" "1", .update, .update, setting "b" "1", .update, .update, .begin]

/-- A dump that holds the new value of one key and the old value of the other, which was
set before it: the database never was like that. -/
theorem saved_torn :
    ∃ state result, run (next ⟨Lzfse.storedBlocks, false⟩) (fresh ⟨0, Keyed.empty⟩)
        (storing ++ [.encode, setting "b" "2", .update, setting "a" "2", .update, .encode, .finish]) =
        some state ∧
      state.saver = .saved result ∧ state.todo = [] ∧
      ¬ Genuine ⟨Lzfse.storedBlocks, false⟩ (fresh ⟨0, Keyed.empty⟩)
        (storing ++ [.encode, setting "b" "2", .update, setting "a" "2", .update, .encode, .finish])
        result := by
  refine ⟨_, _, rfl, rfl, rfl, ?_⟩
  rw [Genuine]
  decide

/-- The key that is set while `Save` runs is set behind it. -/
theorem saved_genuine_behind :
    ∃ state result, run (next ⟨Lzfse.storedBlocks, false⟩) (fresh ⟨0, Keyed.empty⟩)
        (storing ++ [.encode, setting "b" "2", .update, .encode, .finish]) = some state ∧
      state.saver = .saved result ∧
      Genuine ⟨Lzfse.storedBlocks, false⟩ (fresh ⟨0, Keyed.empty⟩)
        (storing ++ [.encode, setting "b" "2", .update, .encode, .finish]) result := by
  refine ⟨_, _, rfl, rfl, saved_genuine ⟨Lzfse.storedBlocks, false⟩ ⟨0, Keyed.empty⟩ storing
    [.encode, setting "b" "2", .update, .encode, .finish] ?_ rfl rfl ?_ rfl rfl⟩
  · exact meets_cons trivial rfl (meets_cons (fun _ _ => trivial) rfl (meets_cons (fun _ _ => trivial)
      rfl (meets_cons trivial rfl (meets_cons (fun _ _ => trivial) rfl (meets_cons (fun _ _ => trivial)
        rfl (meets_cons trivial rfl trivial))))))
  · refine meets_cons trivial rfl (meets_cons trivial rfl (meets_cons ?_ rfl (meets_cons trivial rfl
      (meets_cons trivial rfl trivial))))
    intro u member
    cases member
    exact (by decide : bytes "b" ∉ [bytes "a"])

end Shared

end ForkRedis
