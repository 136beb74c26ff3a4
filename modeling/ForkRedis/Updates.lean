import ForkRedis.Server

set_option autoImplicit false

/- A command as the threads see it: the updates it makes to its database, each one atomic
under a latch. Between two of them another thread may run. -/
namespace ForkRedis

open Lists Fallible

/-- One update. Keys come and go under the latch of the database, a value is written
under the latch of its object, and `MakeExpireAt` sets an expiry. -/
inductive Update where
  | insert (key : Bytes) (object : Object)
  | write (key : Bytes) (object : Object)
  | erase (key : Bytes)
  | expire (key : Bytes) (time : UInt64)
  deriving DecidableEq

namespace Update

/-- A write to an object whose key is gone is not seen in the database. -/
def apply (db : Db) : Update → Db
  | .insert key object => db.newObject key object
  | .write key object => db.store key object
  | .erase key => (db.del key).1
  | .expire key time => db.makeExpireAt key time

def key : Update → Bytes
  | .insert key _ => key
  | .write key _ => key
  | .erase key => key
  | .expire key _ => key

end Update

/-- The values a loop leaves behind, round after round. -/
def successive {α β : Type} (round : α → β → α) : α → List β → List α
  | _, [] => []
  | acc, item :: items => round acc item :: successive round (round acc item) items

/-- The same for the loops that take two values a round. -/
def successivePairs {γ : Type} (round : γ → Str → Str → Except Fault γ) :
    γ → List Str → Except Fault (List γ)
  | _, [] => .ok []
  | _, [_] => .error .undefined
  | acc, first :: second :: rest => do
      let next ← round acc first second
      let later ← successivePairs round next rest
      return next :: later

/-- One call of a method: the value it leaves, if that is another one. -/
def oneCall {α : Type} [DecidableEq α] (value : α) (result : Except Fault (α × Reply)) :
    Except Fault (List α) := do
  let (after, _) ← result
  return if after = value then [] else [after]

/- The values each family of commands leaves in its object, latch by latch. -/

def StrCommand.states (c : StrCommand) (str : Str) : Except Fault (List Str) :=
  oneCall str (StrCommand.onStr c str)

def ListCommand.states (c : ListCommand) (l : List Str) : Except Fault (List (List Str)) :=
  match c.command with
  | .lpushf => .ok (successive StrList.pushFront l c.values)
  | .lpushb => .ok (successive StrList.pushBack l c.values)
  | _ => oneCall l (ListCommand.onList c l)

def HashCommand.states (c : HashCommand) (tbl : StrHash) : Except Fault (List StrHash) :=
  match c.command with
  | .hset => successivePairs (fun tbl key value => .ok (StrHash.set tbl key value)) tbl c.values
  | .hdel => .ok (successive StrHash.del tbl c.values)
  | _ => oneCall tbl (HashCommand.onHash c tbl)

def SetCommand.states (random : Nat) (get : Bytes → Option Object) (c : SetCommand)
    (st : StrSet) : Except Fault (List StrSet) :=
  match c.command with
  | .sadd => .ok (successive (fun st m => (StrSet.add st m).1) st c.values)
  | .srem => .ok (successive (fun st m => (StrSet.rem st m).1) st c.values)
  | _ => oneCall st (SetCommand.onSet random get c st)

def ZSetCommand.states (c : ZSetCommand) (zst : LinkedZSet) : Except Fault (List LinkedZSet) :=
  match c.command with
  | .zadd => do
      let rounds ← successivePairs (ZSetCommand.scored fun z n m => .ok (z.add n m)) (zst, 0) c.values
      return rounds.map Prod.fst
  | .zrem => do
      let rounds ← successivePairs (ZSetCommand.scored LinkedZSet.rem) (zst, 0) c.values
      return rounds.map Prod.fst
  | _ => oneCall zst (ZSetCommand.onZSet c zst)

namespace Db

/-- The updates of the frame: a key that is missing is inserted with a fresh object. -/
def updatesOn {α : Type} (db : Db) (kind : ObjectKind α) (key : Bytes) (creates : Bool)
    (states : α → Except Fault (List α)) : Except Fault (List Update) :=
  match db.get key with
  | none =>
      if creates then do
        let values ← states kind.fresh
        return .insert key (kind.wrap kind.fresh) ::
          values.map fun value => .write key (kind.wrap value)
      else .ok []
  | some object =>
      match kind.unwrap object with
      | none => .ok []
      | some value => do
          let values ← states value
          return values.map fun value => .write key (kind.wrap value)

end Db

def DbCommand.updates (c : DbCommand) : Except Fault (List Update) :=
  match c.command with
  | .del => .ok [.erase c.objName]
  | .expire => do
      let value ← optionalValue c.value
      let time ← redisStrToSize value
      return time.toList.map (Update.expire c.objName)
  | .when | .rewrite => .ok []

/-- The updates a command makes to the database it works on, from the state its `Get`
finds. -/
def Command.updates (env : Env) : Command → Db → Except Fault (List Update)
  | .db c => fun _ => DbCommand.updates c
  | .str c => fun db => db.updatesOn .str c.objName (c.command == .set) (StrCommand.states c)
  | .list c => fun db => db.updatesOn .list c.objName
      (c.command == .lpushf || c.command == .lpushb) (ListCommand.states c)
  | .hash c => fun db => db.updatesOn .hash c.objName (c.command == .hset) (HashCommand.states c)
  | .set c => fun db => db.updatesOn .set c.objName (c.command == .sadd)
      (SetCommand.states env.random db.get c)
  | .zset c => fun db => db.updatesOn .zset c.objName (c.command == .zadd) (ZSetCommand.states c)
  | .server _ | .cli _ => fun _ => .ok []

/- Made without interruption, the updates of a command are what it does to the database. -/

theorem successive_last {α β : Type} (round : α → β → α) (acc : α) (items : List β) :
    (successive round acc items).getLastD acc = items.foldl round acc := by
  induction items generalizing acc with
  | nil => rfl
  | cons item items ih => rw [successive, List.getLastD_cons, ih, List.foldl_cons]

theorem successivePairs_last {γ : Type} (round : γ → Str → Str → Except Fault γ) (acc : γ)
    (values : List Str) :
    (successivePairs round acc values).map (·.getLastD acc) = eachPair round acc values := by
  match values with
  | [] => rfl
  | [_] => rfl
  | first :: second :: rest =>
      rw [successivePairs, eachPair]
      cases round acc first second with
      | error fault => rfl
      | ok next =>
          simp only [ok_bind]
          rw [← successivePairs_last round next rest]
          cases successivePairs round next rest with
          | error fault => rfl
          | ok later => simp only [ok_bind, pure_eq_ok, Except.map, List.getLastD_cons]

/-- The states end where the method does, and raise where it does. -/
def Traces {α : Type} (states : α → Except Fault (List α))
    (method : α → Except Fault (α × Reply)) : Prop :=
  ∀ value, (states value).map (·.getLastD value) = (method value).map Prod.fst

theorem Traces.cases {α : Type} {states : α → Except Fault (List α)}
    {method : α → Except Fault (α × Reply)} (traces : Traces states method) (value : α) :
    (∃ fault, states value = .error fault ∧ method value = .error fault) ∨
      ∃ values reply, states value = .ok values ∧
        method value = .ok (values.getLastD value, reply) := by
  have ends := traces value
  cases made : states value with
  | error fault =>
      cases called : method value with
      | error other =>
          rw [made, called] at ends
          cases ends
          exact Or.inl ⟨fault, rfl, rfl⟩
      | ok pair =>
          rw [made, called] at ends
          cases ends
  | ok values =>
      cases called : method value with
      | error other =>
          rw [made, called] at ends
          cases ends
      | ok pair =>
          rw [made, called] at ends
          have last : values.getLastD value = pair.1 := Except.ok.inj ends
          exact Or.inr ⟨values, pair.2, rfl, by rw [last]⟩

theorem oneCall_traces {α : Type} [DecidableEq α] (value : α) (result : Except Fault (α × Reply)) :
    (oneCall value result).map (·.getLastD value) = result.map Prod.fst := by
  cases result with
  | error fault => rfl
  | ok pair =>
      simp only [oneCall, ok_bind, pure_eq_ok, Except.map]
      split
      · rename_i same
        rw [same]
        rfl
      · rfl

theorem StrCommand.states_traces (c : StrCommand) : Traces (states c) (onStr c) :=
  fun str => oneCall_traces str _

theorem ListCommand.states_traces (c : ListCommand) : Traces (states c) (onList c) := by
  intro l
  unfold states
  split
  · rename_i name
    simp only [Except.map, successive_last, onList, name]
  · rename_i name
    simp only [Except.map, successive_last, onList, name]
  · exact oneCall_traces l _

theorem HashCommand.states_traces (c : HashCommand) : Traces (states c) (onHash c) := by
  intro tbl
  unfold states
  split
  · rename_i name
    rw [successivePairs_last, onHash, name]
    cases eachPair (fun tbl key value => .ok (StrHash.set tbl key value)) tbl c.values <;> rfl
  · rename_i name
    simp only [Except.map, successive_last, onHash, name]
  · exact oneCall_traces tbl _

/-- Counting along does not change what a loop does. -/
theorem foldl_counted {α β : Type} (step : α → β → α × Bool) (values : List β) (acc : α)
    (cnt : Int32) :
    (values.foldl (fun acc m => counted acc.2 (step acc.1 m)) (acc, cnt)).1 =
      values.foldl (fun acc m => (step acc m).1) acc := by
  induction values generalizing acc cnt with
  | nil => rfl
  | cons m values ih => exact ih _ _

theorem SetCommand.states_traces (random : Nat) (get : Bytes → Option Object) (c : SetCommand) :
    Traces (states random get c) (onSet random get c) := by
  intro st
  unfold states
  split
  · rename_i name
    simp only [Except.map, successive_last, onSet, name, foldl_counted]
  · rename_i name
    simp only [Except.map, successive_last, onSet, name, foldl_counted]
  · exact oneCall_traces st _

theorem getLastD_map {α β : Type} (f : α → β) (l : List α) (last : α) :
    (l.map f).getLastD (f last) = f (l.getLastD last) := by
  rw [List.getLastD_eq_getLast?, List.getLastD_eq_getLast?, List.getLast?_map]
  cases l.getLast? <;> rfl

theorem ZSetCommand.rounds_traces
    (method : LinkedZSet → Int32 → Str → Except Fault (LinkedZSet × Bool)) (zst : LinkedZSet)
    (values : List Str) :
    (do let rounds ← successivePairs (scored method) (zst, 0) values
        return rounds.map Prod.fst : Except Fault (List LinkedZSet)).map (·.getLastD zst) =
      (do let (zst, cnt) ← eachPair (scored method) (zst, 0) values
          return (zst, [toStringInt cnt]) : Except Fault (LinkedZSet × Reply)).map Prod.fst := by
  rw [← successivePairs_last]
  cases successivePairs (scored method) (zst, 0) values with
  | error fault => rfl
  | ok rounds =>
      have last : (rounds.map Prod.fst).getLastD zst = (rounds.getLastD (zst, 0)).1 :=
        getLastD_map Prod.fst rounds (zst, 0)
      simp only [ok_bind, pure_eq_ok, Except.map, last]

theorem ZSetCommand.states_traces (c : ZSetCommand) : Traces (states c) (onZSet c) := by
  intro zst
  unfold states
  split
  · rename_i name
    rw [rounds_traces, onZSet, name]
  · rename_i name
    rw [rounds_traces, onZSet, name]
  · exact oneCall_traces zst _

namespace Db

theorem ext_map {db db' : Db} (number : db.number = db'.number)
    (map : db.keyValueMap = db'.keyValueMap) : db = db' := by
  cases db
  cases db'
  cases number
  cases map
  rfl

/-- Writes to one object: only the last one is seen in the end. -/
theorem foldl_write {α : Type} (wrap : α → Object) {db : Db} {key : Bytes} {value : α}
    (found : db.get key = some (wrap value)) (values : List α) :
    (values.map fun value => Update.write key (wrap value)).foldl Update.apply db =
      db.store key (wrap (values.getLastD value)) := by
  induction values generalizing db value with
  | nil =>
      have same : ∀ other, db.get key = some other → other = wrap value := fun other got =>
        Option.some.inj (got.symm.trans found)
      exact (store_same same).symm
  | cons first values ih =>
      have written : (db.store key (wrap first)).get key = some (wrap first) := by
        rw [get_store, found, Option.map_some]
      rw [List.map_cons, List.foldl_cons, List.getLastD_cons, Update.apply, ih written,
        store_store]

theorem updatesOn_traces {α : Type} {states : α → Except Fault (List α)}
    {method : α → Except Fault (α × Reply)} (traces : Traces states method) (db : Db)
    (kind : ObjectKind α) (key : Bytes) (creates : Bool) :
    (db.updatesOn kind key creates states).map (·.foldl Update.apply db) =
      (db.execOn kind key creates method).map Prod.fst := by
  rw [updatesOn, execOn]
  cases found : db.get key with
  | none =>
      dsimp only
      split
      · rcases traces.cases kind.fresh with ⟨fault, made, called⟩ | ⟨values, reply, made, called⟩
        · rw [made, called]
          rfl
        · rw [made, called]
          simp only [ok_bind, pure_eq_ok, Except.map, List.foldl_cons]
          rw [Update.apply, foldl_write kind.wrap (get_newObject found _)]
      · rfl
  | some object =>
      dsimp only
      cases unwrapped : kind.unwrap object with
      | none => rfl
      | some value =>
          rw [kind.unwrap_eq_some.mp unwrapped] at found
          rcases traces.cases value with ⟨fault, made, called⟩ | ⟨values, reply, made, called⟩
          · simp only [made, called]
            rfl
          · simp only [made, called, ok_bind, pure_eq_ok, Except.map, foldl_write kind.wrap found]

theorem makeExpireAt_absent {db : Db} {key : Bytes} (absent : db.keyValueMap.find key = none)
    (time : UInt64) : db.makeExpireAt key time = db := by
  refine ext_map ?_ (Keyed.ext_items ?_)
  · rfl
  apply map_fixed
  intro kv member
  rw [if_neg (db.keyValueMap.find_eq_none_iff.mp absent kv member)]

end Db

/-- The updates of a command, one after the other, are what it does to the database. -/
theorem Command.updates_onDb (env : Env) (command : Command) (db : Db) :
    (command.updates env db).map (·.foldl Update.apply db) =
      (command.onDb env db).map Prod.fst := by
  cases command with
  | server c | cli c => rfl
  | db c =>
      obtain ⟨valid, name, key, value⟩ := c
      cases name with
      | del | «when» | rewrite => rfl
      | expire =>
          simp only [updates, DbCommand.updates, onDb, DbCommand.exec]
          cases optionalValue value with
          | error fault => rfl
          | ok value =>
              simp only [ok_bind]
              cases redisStrToSize value with
              | error fault => rfl
              | ok time =>
                  cases time with
                  | none => rfl
                  | some time =>
                      simp only [ok_bind, pure_eq_ok, Except.map, Option.toList_some, List.map_cons,
                        List.map_nil, List.foldl_cons, List.foldl_nil, Update.apply, Db.expireAt]
                      cases found : db.keyValueMap.find key with
                      | none => rw [Db.makeExpireAt_absent found]
                      | some kv => rfl
  | str c =>
      rw [onDb, untimed_fst]
      exact Db.updatesOn_traces (StrCommand.states_traces c) db _ _ _
  | list c =>
      rw [onDb, untimed_fst]
      exact Db.updatesOn_traces (ListCommand.states_traces c) db _ _ _
  | hash c =>
      rw [onDb, untimed_fst]
      exact Db.updatesOn_traces (HashCommand.states_traces c) db _ _ _
  | set c =>
      rw [onDb, untimed_fst]
      exact Db.updatesOn_traces (SetCommand.states_traces env.random db.get c) db _ _ _
  | zset c =>
      rw [onDb, untimed_fst]
      exact Db.updatesOn_traces (ZSetCommand.states_traces c) db _ _ _

end ForkRedis
