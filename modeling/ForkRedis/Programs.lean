import ForkRedis.Atomic
import ForkRedis.Persistence

set_option autoImplicit false

/- The commands of one key as calls: what is done in one piece is what `Exec` does. -/
namespace ForkRedis

open Decimal Lists Fallible Machine

/-- A loop that takes two values a round. -/
def eachPairCalls {σ γ : Type} (round : γ → Str → Str → Calls σ Fault γ) :
    γ → List Str → Calls σ Fault γ
  | acc, [] => .done acc
  | _, [_] => .fault .undefined
  | acc, first :: second :: rest =>
      (round acc first second).bind fun next => eachPairCalls round next rest

theorem run_eachPairCalls {σ γ : Type} (round : γ → Str → Str → Calls σ Fault γ) (acc : γ)
    (values : List Str) (object : σ) :
    (eachPairCalls round acc values).run object =
      eachPair (fun state first second => (round state.2 first second).run state.1)
        (object, acc) values := by
  induction acc, values using eachPairCalls.induct generalizing object with
  | case1 acc => rfl
  | case2 acc value => rfl
  | case3 acc first second rest ih =>
      rw [eachPairCalls, Calls.run_bind, eachPair]
      congr 1
      funext state
      exact ih state.2 state.1

/-- A loop that keeps something beside the state of another. -/
theorem map_eachPair {γ δ : Type} {round : γ → Str → Str → Except Fault γ}
    {round' : δ → Str → Str → Except Fault δ} (more : γ → δ)
    (rounds : ∀ acc first second, round' (more acc) first second = (round acc first second).map more)
    (acc : γ) (values : List Str) :
    eachPair round' (more acc) values = (eachPair round acc values).map more := by
  induction acc, values using eachPair.induct with
  | case1 acc => rfl
  | case2 acc value => rfl
  | case3 acc first second rest ih =>
      rw [eachPair, eachPair, rounds]
      cases round acc first second with
      | error fault => rfl
      | ok next => exact ih next

/- The loops of the commands. -/

section Loops

variable {σ γ : Type}

/-- Calls for their effect. -/
def forEach (method : σ → Str → σ) (values : List Str) : Calls σ Fault Unit :=
  Calls.fold (fun _ value => .method fun object => .ok (method object value, ())) () values

theorem run_forEach (method : σ → Str → σ) (values : List Str) (object : σ) :
    (forEach method values).run object = .ok (values.foldl method object, ()) := by
  have calls (state : σ × Unit) (value : Str) :
      (Calls.method fun object => .ok (method object value, ())).run state.1 =
        (.ok (method state.1 value, ()) : Except Fault (σ × Unit)) := Calls.run_method _ state.1
  rw [forEach, Calls.run_fold_ok calls, ← List.foldl_hom (fun object => (object, ()))]
  exact fun _ _ => rfl

/-- Calls that are counted if they have success. -/
def countEach (method : σ → Str → σ × Bool) (values : List Str) : Calls σ Fault Int32 :=
  Calls.fold (fun cnt value => .method fun object => .ok (counted cnt (method object value)))
    0 values

theorem run_countEach (method : σ → Str → σ × Bool) (values : List Str) (object : σ) :
    (countEach method values).run object =
      .ok (values.foldl (fun acc value => counted acc.2 (method acc.1 value)) (object, 0)) := by
  have calls (state : σ × Int32) (value : Str) :
      (Calls.method fun object => .ok (counted state.2 (method object value))).run state.1 =
        (.ok (counted state.2 (method state.1 value)) : Except Fault (σ × Int32)) :=
    Calls.run_method _ state.1
  rw [countEach, Calls.run_fold_ok calls]

/-- Calls for what they return. -/
def askEach (answer : σ → Str → Except Fault γ) (values : List Str) : Calls σ Fault (List γ) :=
  Calls.collect (fun value => .method fun object => (answer object value).map (Prod.mk object))
    values

theorem run_askEach (answer : σ → Str → Except Fault γ) (values : List Str) (object : σ) :
    (askEach answer values).run object = (values.mapM (answer object)).map (Prod.mk object) :=
  Calls.run_collect (fun _ => Calls.run_method _ object) values

theorem run_askEach_ok (answer : σ → Str → γ) (values : List Str) (object : σ) :
    (askEach (fun object value => .ok (answer object value)) values).run object =
      .ok (object, values.map (answer object)) := by
  have all : values.mapM (fun value => (.ok (answer object value) : Except Fault γ)) =
      .ok (values.map (answer object)) := List.mapM_pure
  rw [run_askEach, all]
  rfl

end Loops

/- The methods each command calls. A command of one call is that call, with what is
computed before and behind it. -/

def StrCommand.program (c : StrCommand) : Calls Str Fault Reply := .method (StrCommand.onStr c)

def ListCommand.program (c : ListCommand) : Calls (List Str) Fault Reply :=
  match c.command with
  | .lpushf => (forEach StrList.pushFront c.values).bind fun _ =>
      .method fun l => .ok (l, [toStringSize (StrList.len l)])
  | .lpushb => (forEach StrList.pushBack c.values).bind fun _ =>
      .method fun l => .ok (l, [toStringSize (StrList.len l)])
  | .lindex => (askEach indexTexts c.values).bind fun texts => .done (orNil texts.flatten)
  | _ => .method (ListCommand.onList c)

def HashCommand.program (c : HashCommand) : Calls StrHash Fault Reply :=
  match c.command with
  | .hset =>
      (eachPairCalls (fun _ key value => .method fun tbl => .ok (StrHash.set tbl key value, ()))
        () c.values).bind fun _ => .done okReply
  | .hget =>
      (askEach (fun tbl key =>
        let s := (StrHash.get tbl key).getRaw
        .ok (quoted (if s = [] then bytes "(nil)" else s))) c.values).bind fun texts =>
          .done (orNil texts)
  | .hexist =>
      (askEach (fun tbl key => .ok (if StrHash.exist tbl key then bytes "1" else bytes "0"))
        c.values).bind .done
  | .hdel => (forEach StrHash.del c.values).bind fun _ => .done okReply
  | _ => .method (HashCommand.onHash c)

/-- `SINTER` and `SDIFF` look at a second key and are left out. -/
def SetCommand.program (random : Nat) (c : SetCommand) : Calls StrSet Fault Reply :=
  match c.command with
  | .sadd => (countEach StrSet.add c.values).bind fun cnt => .done [toStringInt cnt]
  | .srem => (countEach StrSet.rem c.values).bind fun cnt => .done [toStringInt cnt]
  | .sismember =>
      (askEach (fun st m => .ok (if StrSet.isMember st m then bytes "1" else bytes "0"))
        c.values).bind fun texts => .done (orNil texts)
  | _ => .method (SetCommand.onSet random (fun _ => none) c)

/-- A round of `ZADD` or `ZREM`. -/
def ZSetCommand.scoredCalls (method : LinkedZSet → Int32 → Str → Except Fault (LinkedZSet × Bool))
    (cnt : Int32) (score member : Str) : Calls LinkedZSet Fault Int32 :=
  (Calls.lift (redisStrToInt score.data)).bind fun intval =>
    match intval with
    | none => .done cnt
    | some n => .method fun zst => do
        let result ← method zst n member
        return counted cnt result

def ZSetCommand.program (c : ZSetCommand) : Calls LinkedZSet Fault Reply :=
  match c.command with
  | .zadd => (eachPairCalls (scoredCalls fun z n m => .ok (z.add n m)) 0 c.values).bind fun cnt =>
      .done [toStringInt cnt]
  | .zrem => (eachPairCalls (scoredCalls LinkedZSet.rem) 0 c.values).bind fun cnt =>
      .done [toStringInt cnt]
  | _ => .method (ZSetCommand.onZSet c)

/- Without interruption, the calls are what the command does to its object. -/

theorem StrCommand.run_program (c : StrCommand) : c.program.run = StrCommand.onStr c :=
  funext fun str => Calls.run_method _ str

theorem ListCommand.run_program (c : ListCommand) : c.program.run = ListCommand.onList c := by
  funext l
  unfold program
  split
  · rename_i named
    simp only [onList, named, Calls.run_bind, run_forEach, ok_bind, Calls.run_method]
  · rename_i named
    simp only [onList, named, Calls.run_bind, run_forEach, ok_bind, Calls.run_method]
  · rename_i named
    simp only [onList, named, Calls.run_bind, run_askEach]
    cases c.values.mapM (indexTexts l) <;> rfl
  · exact Calls.run_method _ l

theorem HashCommand.run_pairs (values : List Str) (tbl : StrHash) :
    (eachPairCalls (fun _ key value => .method fun tbl => .ok (StrHash.set tbl key value, ()))
        () values).run tbl =
      (eachPair (fun tbl key value => .ok (StrHash.set tbl key value)) tbl values).map
        fun tbl => (tbl, ()) := by
  rw [run_eachPairCalls]
  exact map_eachPair (fun tbl : StrHash => (tbl, ()))
    (fun acc first second => Calls.run_method _ acc) tbl values

theorem HashCommand.run_program (c : HashCommand) : c.program.run = HashCommand.onHash c := by
  funext tbl
  unfold program
  split
  · rename_i named
    simp only [onHash, named, Calls.run_bind, run_pairs]
    cases eachPair (fun tbl key value => .ok (StrHash.set tbl key value)) tbl c.values <;> rfl
  · rename_i named
    simp only [onHash, named, Calls.run_bind, run_askEach_ok, ok_bind, Calls.run]
  · rename_i named
    simp only [onHash, named, Calls.run_bind, run_askEach_ok, ok_bind, Calls.run]
  · rename_i named
    simp only [onHash, named, Calls.run_bind, run_forEach, ok_bind, Calls.run]
  · exact Calls.run_method _ tbl

/-- A command that looks at one key only does not care for the others. -/
theorem SetCommand.run_program (random : Nat) {c : SetCommand} (inter : c.command ≠ .sinter)
    (diff : c.command ≠ .sdiff) (get : Bytes → Option Object) :
    (c.program random).run = SetCommand.onSet random get c := by
  funext st
  unfold program
  split
  · rename_i named
    simp only [onSet, named, Calls.run_bind, run_countEach, ok_bind, Calls.run]
  · rename_i named
    simp only [onSet, named, Calls.run_bind, run_countEach, ok_bind, Calls.run]
  · rename_i named
    simp only [onSet, named, Calls.run_bind, run_askEach_ok, ok_bind, Calls.run]
  · rw [Calls.run_method]
    unfold onSet
    cases named : c.command with
    | sinter => exact absurd named inter
    | sdiff => exact absurd named diff
    | sadd | scard | sismember | smembers | srandmember | spop | srem => rfl

theorem ZSetCommand.run_scoredCalls
    (method : LinkedZSet → Int32 → Str → Except Fault (LinkedZSet × Bool))
    (acc : LinkedZSet × Int32) (score member : Str) :
    (scoredCalls method acc.2 score member).run acc.1 = scored method acc score member := by
  rw [scoredCalls, scored, Calls.run_bind, Calls.run_lift]
  cases redisStrToInt score.data with
  | error fault => rfl
  | ok intval =>
      cases intval with
      | none => rfl
      | some n => simp only [Except.map, ok_bind, Calls.run_method]

theorem ZSetCommand.run_pairs
    (method : LinkedZSet → Int32 → Str → Except Fault (LinkedZSet × Bool)) (values : List Str)
    (zst : LinkedZSet) :
    (eachPairCalls (scoredCalls method) 0 values).run zst =
      eachPair (scored method) (zst, 0) values := by
  rw [run_eachPairCalls]
  congr 1
  funext acc score member
  exact run_scoredCalls method acc score member

theorem ZSetCommand.run_program (c : ZSetCommand) : c.program.run = ZSetCommand.onZSet c := by
  funext zst
  unfold program
  split
  · rename_i named
    simp only [onZSet, named, Calls.run_bind, run_pairs, Calls.run, pure_eq_ok]
  · rename_i named
    simp only [onZSet, named, Calls.run_bind, run_pairs, Calls.run, pure_eq_ok]
  · exact Calls.run_method _ zst

namespace ObjectKind

variable {α : Type} (kind : ObjectKind α) (key : Bytes) (creates : Bool)
  (program : Calls α Fault Reply)

/-- `reinterpret_cast` of an object. -/
def cast (object : Object) : Except Fault α :=
  match kind.unwrap object with
  | none => .error .undefined
  | some value => .ok value

/-- The frame of the five `Exec`. -/
def script : ObjectScript where
  key := key
  fresh := if creates then some (kind.wrap kind.fresh) else none
  accepts := fun object => (kind.unwrap object).isSome
  program := program.focus kind.cast kind.wrap

theorem unwrap_wrap (value : α) : kind.unwrap (kind.wrap value) = some value :=
  kind.unwrap_eq_some.mpr rfl

theorem cast_wrap (value : α) : kind.cast (kind.wrap value) = .ok value := by
  rw [cast, unwrap_wrap]

theorem script_key : (kind.script key creates program).key = key := rfl

theorem script_fresh : (kind.script key creates program).fresh =
    if creates then some (kind.wrap kind.fresh) else none := rfl

theorem script_onPresent (db : Db) (value : α) :
    (kind.script key creates program).onPresent db (kind.wrap value) =
      (program.run value).map fun ran => (db.store key (kind.wrap ran.1), ran.2, none) := by
  have accepted : (kind.script key creates program).accepts (kind.wrap value) = true := by
    simp only [script, kind.unwrap_wrap, Option.isSome_some]
  rw [ObjectScript.onPresent, if_pos accepted]
  simp only [script, Calls.run_focus kind.cast_wrap]
  cases program.run value <;> rfl

theorem script_onPresent_other (db : Db) {object : Object} (other : kind.unwrap object = none) :
    (kind.script key creates program).onPresent db object = .ok (db, refused, none) := by
  have rejected : (kind.script key creates program).accepts object = false := by
    simp only [script, other, Option.isSome_none]
  simp only [ObjectScript.onPresent, rejected, Bool.false_eq_true, ↓reduceIte]

theorem script_inOnePiece (db : Db) :
    (kind.script key creates program).inOnePiece db =
      untimed (db.execOn kind key creates program.run) := by
  simp only [ObjectScript.inOnePiece, Db.execOn, script_key, script_fresh]
  cases db.get key with
  | none =>
      cases creates with
      | false => rfl
      | true =>
          simp only [↓reduceIte, script_onPresent]
          cases program.run kind.fresh <;> rfl
  | some object =>
      cases typed : kind.unwrap object with
      | none =>
          simp only [script_onPresent_other kind key creates program db typed, typed]
          rfl
      | some value =>
          simp only [kind.unwrap_eq_some.mp typed, script_onPresent, unwrap_wrap]
          cases program.run value <;> rfl

end ObjectKind

namespace Command

/-- The calls of a command of one key. `SINTER` and `SDIFF` look at two, and `REWRITE` and
the commands of the server and of the client at none. -/
def script (env : Env) : Command → Option Script
  | .str c => some (.object (ObjectKind.str.script c.objName (c.command == .set) c.program))
  | .list c => some (.object (ObjectKind.list.script c.objName
      (c.command == .lpushf || c.command == .lpushb) c.program))
  | .hash c => some (.object (ObjectKind.hash.script c.objName (c.command == .hset) c.program))
  | .set c =>
      if c.command = .sinter ∨ c.command = .sdiff then none
      else some (.object (ObjectKind.set.script c.objName (c.command == .sadd)
        (c.program env.random)))
  | .zset c => some (.object (ObjectKind.zset.script c.objName (c.command == .zadd) c.program))
  | .db c => if c.command = .rewrite then none else some (.database (DbCommand.exec env.now c))
  | .server _ | .cli _ => none

theorem script_inOnePiece {env : Env} {command : Command} {script : Script}
    (scripted : command.script env = some script) : script.inOnePiece = command.onDb env := by
  cases command with
  | str c =>
      cases scripted
      funext db
      rw [Script.inOnePiece, ObjectKind.script_inOnePiece, StrCommand.run_program]
      rfl
  | list c =>
      cases scripted
      funext db
      rw [Script.inOnePiece, ObjectKind.script_inOnePiece, ListCommand.run_program]
      rfl
  | hash c =>
      cases scripted
      funext db
      rw [Script.inOnePiece, ObjectKind.script_inOnePiece, HashCommand.run_program]
      rfl
  | set c =>
      rw [Command.script] at scripted
      split at scripted
      · cases scripted
      · rename_i single
        cases scripted
        funext db
        rw [Script.inOnePiece, ObjectKind.script_inOnePiece,
          SetCommand.run_program env.random (fun inter => single (Or.inl inter))
            (fun diff => single (Or.inr diff)) db.get]
        rfl
  | zset c =>
      cases scripted
      funext db
      rw [Script.inOnePiece, ObjectKind.script_inOnePiece, ZSetCommand.run_program]
      rfl
  | db c =>
      rw [Command.script] at scripted
      split at scripted
      · cases scripted
      · cases scripted
        rfl
  | server c | cli c => cases scripted

/-- Single-key commands: all on objects but `SINTER` and `SDIFF`, and `DEL`, `WHEN` and
`EXPIRE`. -/
def SingleKey : Command → Prop
  | .str _ | .list _ | .hash _ | .zset _ => True
  | .set c => c.command ≠ .sinter ∧ c.command ≠ .sdiff
  | .db c => c.command = .del ∨ c.command = .when ∨ c.command = .expire
  | .server _ | .cli _ => False

theorem exists_script (env : Env) {command : Command} (single : command.SingleKey) :
    ∃ script, command.script env = some script := by
  cases command with
  | str c | list c | hash c | zset c => exact ⟨_, rfl⟩
  | set c => exact ⟨_, if_neg (not_or.mpr single)⟩
  | db c =>
      have other : c.command ≠ .rewrite := by
        rcases single with named | named | named <;> rw [named] <;> decide
      exact ⟨_, if_neg other⟩
  | server c | cli c => exact absurd single not_false

end Command

namespace Interleaved

/-- The keys the timer thread deletes. -/
def deletions (events : List Event) : List Bytes :=
  events.filterMap fun
    | .del key => some key
    | .advance => none

theorem deleted_eq {script : Script} {events : List Event} {state final : Interleaved}
    (ran : run (next script) state events = some final) :
    final.deleted = state.deleted ++ deletions events := by
  induction events generalizing state with
  | nil =>
      cases ran
      exact (List.append_nil _).symm
  | cons event events ih =>
      obtain ⟨after, stepped, later⟩ := Option.bind_eq_some_iff.mp ran
      rw [ih later]
      cases event with
      | advance =>
          obtain ⟨moved, -, rfl⟩ := Option.map_eq_some_iff.mp stepped
          rfl
      | del key =>
          cases stepped
          rw [List.append_assoc]
          rfl

/-- However the calls of a single-key command and the deletions of the timer thread fall, the
command can come to its end. When it has, it has answered what it answers in one piece
behind some of the deletions, and the database is what it then leaves behind with the others
coming after it. -/
theorem single_key_atomic (env : Env) (command : Command) (single : command.SingleKey) :
    ∃ script, command.script env = some script ∧
      ∀ (db : Db) (events : List Event) (state : Interleaved),
        run (next script) (start db) events = some state →
        Finishes script state ∧ ∀ result, state.phase = .ended result →
          ∃ before after db', deletions events = before ++ after ∧
            command.onDb env (db.delAll before) = result.map (Prod.mk db') ∧
            state.db = db'.delAll after := by
  obtain ⟨script, scripted⟩ := Command.exists_script env single
  refine ⟨script, scripted, fun db events state ran => ?_⟩
  obtain ⟨finishes, serialised⟩ := script_serialised script db events ran
  refine ⟨finishes, fun result ended => ?_⟩
  obtain ⟨before, after, db', split, piece, final⟩ := serialised result ended
  refine ⟨before, after, db', ?_, ?_, final⟩
  · rw [← split, deleted_eq ran]
    rfl
  · rw [← Command.script_inOnePiece scripted]
    exact piece

/-- `LPUSHB k a b` on a database without the key. -/
def pushTwo : ListCommand where
  command := .lpushb
  objName := bytes "k"
  values := [Str.ofData (bytes "a"), Str.ofData (bytes "b")]
  valid := true

/-- The key is deleted between the two calls of `PushBack`, and the second goes to a list
that nobody sees: as if the key were deleted behind the command. -/
theorem single_key_atomic_between_pushes :
    ∃ script state, (Command.list pushTwo).script quietEnv = some script ∧
      run (next script) (start ⟨0, Keyed.empty⟩) (List.replicate 5 .advance ++
        .del (bytes "k") :: List.replicate 3 .advance) = some state ∧
      state.phase = .ended (.ok ([bytes "2"], none)) ∧ state.db.keyValueMap.items = [] ∧
      ∃ before after db', [bytes "k"] = before ++ after ∧
        (Command.list pushTwo).onDb quietEnv (Db.delAll ⟨0, Keyed.empty⟩ before) =
          .ok (db', [bytes "2"], none) ∧
        state.db = db'.delAll after := by
  obtain ⟨script, scripted, serial⟩ := single_key_atomic quietEnv (.list pushTwo) trivial
  cases scripted
  obtain ⟨state, ran, ended, gone⟩ : ∃ state,
      run (next (.object (ObjectKind.list.script pushTwo.objName true pushTwo.program)))
        (start ⟨0, Keyed.empty⟩) (List.replicate 5 .advance ++
          .del (bytes "k") :: List.replicate 3 .advance) = some state ∧
      state.phase = .ended (.ok ([bytes "2"], none)) ∧ state.db.keyValueMap.items = [] :=
    ⟨_, rfl, rfl, rfl⟩
  exact ⟨_, state, rfl, ran, ended, gone, (serial _ _ _ ran).2 _ ended⟩

end Interleaved

end ForkRedis
