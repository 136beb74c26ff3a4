import ForkRedis.Persistence
import ForkRedis.Lib.Traced

set_option autoImplicit false

/- The arguments `Exec` takes from its command: `value_.value()` and the elements of
`values_` by their index. Each `Exec` is run with the accesses it makes, and every one of
them is to something the parser has put there. -/
namespace ForkRedis

open Decimal Lists Fallible Traced

/-- What `Exec` reaches for: the optional `value_`, or `values_[i]`. -/
inductive Access where
  | value
  | element (i : Nat)
  deriving DecidableEq, Repr

/-- An `Exec` and its accesses. -/
abbrev Accessing := Traced Access Fault

/-- `value_.value()`. -/
def takeValue (value : Option Bytes) : Accessing Bytes := access .value (optionalValue value)

/-- `values_[i]`. -/
def element (values : List Str) (i : Nat) : Accessing Str := access (.element i) (valueAt values i)

/-- `for (i = 0; i < values_.size(); i += 2)`, from the index `i` on. As many rounds as there
are values are enough. -/
def everyOther {γ : Type} (size : Nat) (round : γ → Nat → Accessing γ) :
    Nat → Nat → γ → Accessing γ
  | 0, _, acc => pure acc
  | rounds + 1, i, acc =>
      if i < size then do
        let next ← round acc i
        everyOther size round rounds (i + 2) next
      else pure acc

namespace StrCommand

def addByTraced (method : Str → Int32 → Except Fault (Str × Bytes)) (c : StrCommand) (str : Str) :
    Accessing (Str × Reply) := do
  let value ← takeValue c.value
  let intval ← lift (redisStrToInt value)
  match intval with
  | none => return (str, refused)
  | some n => do
      let (str, ret) ← lift (method str n)
      return (str, textOr refused ret)

def onStrTraced (c : StrCommand) (str : Str) : Accessing (Str × Reply) :=
  match c.command with
  | .set => do
      let value ← takeValue c.value
      return (str.set value, okReply)
  | .incrBy => addByTraced Str.incrBy c str
  | .decrBy => addByTraced Str.decrBy c str
  | .append => do
      let value ← takeValue c.value
      let (str, size) ← lift (str.append value)
      return (str, [toStringSize size])
  | .get | .len => lift (onStr c str)

end StrCommand

namespace ListCommand

/-- `LPUSHF`, `LPUSHB` and `LINDEX` go over `values_` without an index. -/
def onListTraced (c : ListCommand) (l : List Str) : Accessing (List Str × Reply) :=
  match c.command with
  | .lrem => do
      let count ← element c.values 0
      let intval ← lift (redisStrToInt count.data)
      match intval with
      | none => return (l, refused)
      | some count => do
          let value ← element c.values 1
          let (l, n) ← lift (StrList.rem l count value)
          return (l, [toStringSize n])
  | .ltrim => do
      let begin ← element c.values 0
      let intval1 ← lift (redisStrToInt begin.data)
      let end_ ← element c.values 1
      let intval2 ← lift (redisStrToInt end_.data)
      match intval1, intval2 with
      | some begin, some end_ => do
          let (l, ret) ← lift (StrList.trim l begin end_)
          return (l, if ret then okReply else refused)
      | _, _ => return (l, refused)
  | .lset => do
      let index ← element c.values 0
      let intval ← lift (redisStrToInt index.data)
      match intval with
      | none => return (l, refused)
      | some index => do
          let value ← element c.values 1
          let (l, ret) ← lift (StrList.set l index value)
          return (l, if ret then okReply else refused)
  | .lpushf | .lpushb | .lpopf | .lpopb | .lindex | .llen => lift (onList c l)

end ListCommand

namespace HashCommand

def addByTraced (method : StrHash → Str → Int32 → Except Fault (StrHash × Bytes)) (c : HashCommand)
    (tbl : StrHash) : Accessing (StrHash × Reply) := do
  let delta ← element c.values 1
  let intval ← lift (redisStrToInt delta.data)
  match intval with
  | none => return (tbl, refused)
  | some n => do
      let key ← element c.values 0
      let (tbl, val) ← lift (method tbl key n)
      return (tbl, textOr refused val)

/-- `HGET`, `HEXIST` and `HDEL` go over `values_` without an index. -/
def onHashTraced (c : HashCommand) (tbl : StrHash) : Accessing (StrHash × Reply) :=
  match c.command with
  | .hset => do
      let tbl ← everyOther c.values.length (fun tbl i => do
        let key ← element c.values i
        let value ← element c.values (i + 1)
        return StrHash.set tbl key value) c.values.length 0 tbl
      return (tbl, okReply)
  | .hincrby => addByTraced StrHash.incrBy c tbl
  | .hdecrby => addByTraced StrHash.decrBy c tbl
  | .hget | .hexist | .hdel | .hlen | .hgetall => lift (onHash c tbl)

end HashCommand

namespace SetCommand

def combineTraced (method : StrSet → StrSet → Bool → List Str) (get : Bytes → Option Object)
    (c : SetCommand) (st : StrSet) : Accessing (StrSet × Reply) := do
  let another ← element c.values 0
  match get another.data with
  | some (.set other) =>
      return (st, orNil ((method st other (another.data == c.objName)).map Str.getRaw))
  | _ => return (st, refused)

/-- `SADD`, `SISMEMBER` and `SREM` go over `values_` without an index. -/
def onSetTraced (random : Nat) (get : Bytes → Option Object) (c : SetCommand) (st : StrSet) :
    Accessing (StrSet × Reply) :=
  match c.command with
  | .sinter => combineTraced StrSet.inter get c st
  | .sdiff => combineTraced StrSet.diff get c st
  | .sadd | .scard | .sismember | .smembers | .srandmember | .spop | .srem =>
      lift (onSet random get c st)

end SetCommand

namespace ZSetCommand

/-- A pair whose score is no integer is skipped before its member is taken. -/
def scoredTraced (method : LinkedZSet → Int32 → Str → Except Fault (LinkedZSet × Bool))
    (values : List Str) (acc : LinkedZSet × Int32) (i : Nat) : Accessing (LinkedZSet × Int32) := do
  let score ← element values i
  let intval ← lift (redisStrToInt score.data)
  match intval with
  | none => return acc
  | some n => do
      let member ← element values (i + 1)
      let result ← lift (method acc.1 n member)
      return counted acc.2 result

def betweenTraced (answer : Int32 → Int32 → Except Fault Reply) (c : ZSetCommand) :
    Accessing Reply := do
  let low ← element c.values 0
  let intval1 ← lift (redisStrToInt low.data)
  let high ← element c.values 1
  let intval2 ← lift (redisStrToInt high.data)
  match intval1, intval2 with
  | some low, some high => lift (answer low high)
  | _, _ => return refused

/-- `ZINCRBY` and `ZDECRBY` are the same but for the step. -/
def stepTraced (step : Int32 → LinkedZSet → Str → Except Fault (LinkedZSet × Bytes))
    (c : ZSetCommand) (zst : LinkedZSet) : Accessing (LinkedZSet × Reply) := do
  let delta ← element c.values 0
  let intval ← lift (redisStrToInt delta.data)
  match intval with
  | none => return (zst, refused)
  | some n => do
      let member ← element c.values 1
      let (zst, val) ← lift (step n zst member)
      return (zst, textOr refused val)

def onZSetTraced (c : ZSetCommand) (zst : LinkedZSet) : Accessing (LinkedZSet × Reply) :=
  match c.command with
  | .zadd => do
      let (zst, cnt) ← everyOther c.values.length
        (scoredTraced (fun z n m => .ok (z.add n m)) c.values) c.values.length 0 (zst, 0)
      return (zst, [toStringInt cnt])
  | .zrem => do
      let (zst, cnt) ← everyOther c.values.length (scoredTraced LinkedZSet.rem c.values)
        c.values.length 0 (zst, 0)
      return (zst, [toStringInt cnt])
  | .zcount => do
      let reply ← betweenTraced (fun low high => .ok [toStringSize (zst.1.count low high)]) c
      return (zst, reply)
  | .zlexcount => do
      let low ← element c.values 0
      let high ← element c.values 1
      return (zst, [toStringSize (zst.1.lexCount low high)])
  | .zincrby => stepTraced (fun n zst member => zst.incrBy n member) c zst
  | .zdecrby => stepTraced (fun _ zst member => zst.decrBy 1 member) c zst
  | .zrange => do
      let reply ← betweenTraced (fun low high => do
        let res ← zst.1.range low high
        return pairTexts res) c
      return (zst, reply)
  | .zrangebyscore => do
      let reply ← betweenTraced (fun low high => do
        let res ← zst.1.rangeByScore low high
        return pairTexts res) c
      return (zst, reply)
  | .zrangebylex => do
      let low ← element c.values 0
      let high ← element c.values 1
      let res ← lift (zst.1.rangeByLex low high)
      return (zst, pairTexts res)
  | .zrank => do
      let member ← element c.values 0
      let rank ← lift (zst.1.rank member)
      return (zst, textOr nilReply rank)
  | .zscore => do
      let member ← element c.values 0
      let score ← lift (zst.1.score member)
      return (zst, textOr nilReply score)
  | .zcard => lift (onZSet c zst)

end ZSetCommand

/-- The frame of the five `Exec`. -/
def Db.execOnTraced {α : Type} (db : Db) (kind : ObjectKind α) (key : Bytes) (creates : Bool)
    (method : α → Accessing (α × Reply)) : Accessing (Db × Reply) :=
  match db.get key with
  | none =>
      if creates then do
        let (value, reply) ← method kind.fresh
        return ((db.newObject key (kind.wrap kind.fresh)).store key (kind.wrap value), reply)
      else pure (db, refused)
  | some object =>
      match kind.unwrap object with
      | none => pure (db, refused)
      | some value => do
          let (value, reply) ← method value
          return (db.store key (kind.wrap value), reply)

def DbCommand.execTraced (now : UInt64) (c : DbCommand) (db : Db) :
    Accessing (Db × Reply × Option ExpireTimer) :=
  match c.command with
  | .expire => do
      let value ← takeValue c.value
      let time ← lift (redisStrToSize value)
      match time with
      | none => return (db, refused, none)
      | some time =>
          let (db, timer) := db.expireAt c.objName time
          return (db, okReply, timer)
  | .del | .when | .rewrite => lift (DbCommand.exec now c db)

namespace Server

def onClientDbTraced (server : Server) (client : Nat)
    (run : Db → Accessing (Db × Reply × Option ExpireTimer)) : Accessing Outcome :=
  match server.clients client with
  | none => pure ⟨server, none, []⟩
  | some index =>
      match server.databases[index]? with
      | none => lift (.error .undefined)
      | some db => do
          let (db, reply, timer) ← run db
          return ⟨server.setDatabase index db, some reply, timer.toList.map (Timer.expire index)⟩

def execValidTraced (server : Server) (client : Nat) (valid : Bool)
    (run : Db → Accessing (Db × Reply × Option ExpireTimer)) : Accessing Outcome :=
  if valid then server.onClientDbTraced client run else pure ⟨server, some refused, []⟩

end Server

/-- A result without a timer. -/
def untimedTraced (accessing : Accessing (Db × Reply)) :
    Accessing (Db × Reply × Option ExpireTimer) := do
  let (db, reply) ← accessing
  return (db, reply, none)

namespace Command

def onDbTraced (env : Env) : Command → Db → Accessing (Db × Reply × Option ExpireTimer)
  | .db c => DbCommand.execTraced env.now c
  | .str c => fun db => untimedTraced (db.execOnTraced .str c.objName (c.command == .set)
      (StrCommand.onStrTraced c))
  | .list c => fun db => untimedTraced (db.execOnTraced .list c.objName
      (c.command == .lpushf || c.command == .lpushb) (ListCommand.onListTraced c))
  | .hash c => fun db => untimedTraced (db.execOnTraced .hash c.objName (c.command == .hset)
      (HashCommand.onHashTraced c))
  | .set c => fun db => untimedTraced (db.execOnTraced .set c.objName (c.command == .sadd)
      (SetCommand.onSetTraced env.random db.get c))
  | .zset c => fun db => untimedTraced (db.execOnTraced .zset c.objName (c.command == .zadd)
      (ZSetCommand.onZSetTraced c))
  | .server _ | .cli _ => fun db => pure (db, [], none)

/-- `Exec`. The commands of the server and of the client and `REWRITE` take neither `value_`
nor `values_`. -/
def execTraced (env : Env) (server : Server) (client : Nat) (command : Command) :
    Accessing Outcome :=
  match command with
  | .server _ | .cli _ => lift (command.exec env server client)
  | .db c =>
      if c.command = .rewrite then lift (command.exec env server client)
      else server.execValidTraced client command.valid (command.onDbTraced env)
  | .str _ | .list _ | .hash _ | .set _ | .zset _ =>
      server.execValidTraced client command.valid (command.onDbTraced env)

/-- What there is to take. -/
def Has : Command → Access → Prop
  | .str c, .value => c.value ≠ none
  | .db c, .value => c.value ≠ none
  | .list c, .element i => i < c.values.length
  | .hash c, .element i => i < c.values.length
  | .set c, .element i => i < c.values.length
  | .zset c, .element i => i < c.values.length
  | _, _ => False

end Command

/- The parsers: an argument for every command that takes one, and as many as it takes. -/

namespace KeyCommand

/-- The parser has put an argument there for a command that takes one. -/
def Fit {Name : Type} (bare : Name → Bool) (c : KeyCommand Name) : Prop :=
  bare c.command = false → c.value ≠ none

end KeyCommand

namespace ValuesCommand

def Fit {Name : Type} (bare : Name → Bool) (arity : Name → Nat → Bool) (c : ValuesCommand Name) :
    Prop :=
  bare c.command = false → c.values ≠ [] ∧ arity c.command (c.values.length + 2) = true

section Fit

variable {Name : Type} {bare : Name → Bool} {arity : Name → Nat → Bool} {c : ValuesCommand Name}
  {name : Name}

theorem Fit.one (fit : c.Fit bare arity) (named : c.command = name) (takes : bare name = false) :
    0 < c.values.length :=
  List.length_pos_of_ne_nil (fit (named ▸ takes)).1

theorem Fit.two (fit : c.Fit bare arity) (named : c.command = name) (takes : bare name = false)
    (four : arity name = fun size => decide (4 ≤ size)) :
    0 < c.values.length ∧ 1 < c.values.length := by
  have given := (fit (named ▸ takes)).2
  rw [named, four] at given
  have enough : 4 ≤ c.values.length + 2 := of_decide_eq_true given
  omega

/-- Commands that take pairs have at least one. -/
theorem Fit.pairs (fit : c.Fit bare arity) (named : c.command = name) (takes : bare name = false)
    (even : arity name = fun size => size % 2 == 0) :
    c.values.length % 2 = 0 ∧ 0 < c.values.length ∧ 1 < c.values.length := by
  have some_ := fit.one named takes
  have given := (fit (named ▸ takes)).2
  rw [named, even] at given
  have both : (c.values.length + 2) % 2 = 0 := beq_iff_eq.mp given
  omega

end Fit

end ValuesCommand

theorem jsonToKeyCommand_fit {Name : Type} (bare : Name → Bool) {name : Name} {source : Request}
    (valid : (jsonToKeyCommand name (bare name) source).valid = true) :
    (jsonToKeyCommand name (bare name) source).Fit bare := by
  intro takes
  rw [jsonToKeyCommand_command] at takes
  rw [jsonToKeyCommand] at valid ⊢
  split at valid
  · cases valid
  · rw [takes, if_neg Bool.false_ne_true] at valid ⊢
    split at valid
    · cases valid
    · rename_i enough
      rw [if_neg enough]
      dsimp only
      rw [ne_eq, List.getElem?_eq_none_iff]
      omega

theorem jsonToValuesCommand_fit {Name : Type} (bare : Name → Bool) (arity : Name → Nat → Bool)
    {name : Name} {source : Request}
    (valid : (jsonToValuesCommand name (bare name) (arity name) source).valid = true) :
    (jsonToValuesCommand name (bare name) (arity name) source).Fit bare arity := by
  intro takes
  rw [jsonToValuesCommand_command] at takes ⊢
  rw [jsonToValuesCommand] at valid ⊢
  split at valid
  · cases valid
  · rw [takes, if_neg Bool.false_ne_true] at valid ⊢
    split at valid
    · cases valid
    · rename_i enough
      rw [if_neg enough]
      split at valid
      · cases valid
      · rename_i refusing
        rw [if_neg refusing]
        have size : ((source.drop 2).map Str.ofData).length = source.length - 2 := by
          rw [List.length_map, List.length_drop]
        constructor
        · intro none_
          dsimp only at none_
          rw [none_, List.length_nil] at size
          omega
        · dsimp only
          rw [size, Nat.sub_add_cancel (by omega)]
          simpa only [Bool.not_eq_true', Bool.not_eq_false] using refusing

/- Each `Exec` with its accesses is `Exec`, and takes what is there. -/

theorem takeValue_follows {value : Option Bytes} {allowed : Access → Prop} (there : allowed .value) :
    Follows allowed (takeValue value) (optionalValue value) := Follows.access there _

theorem element_follows {values : List Str} {i : Nat} {allowed : Access → Prop}
    (there : allowed (.element i)) : Follows allowed (element values i) (valueAt values i) :=
  Follows.access there _

theorem element_found {values : List Str} {i : Nat} {value : Str} {allowed : Access → Prop}
    (there : allowed (.element i)) (found : values[i]? = some value) :
    Follows allowed (element values i) (.ok value) := by
  rw [← valueAt_eq_ok.mpr found]
  exact element_follows there

section Pairs

variable {γ : Type} {values : List Str} {round : γ → Nat → Accessing γ}
  {plain : γ → Str → Str → Except Fault γ} {allowed : Access → Prop}
  (follows : ∀ acc i first second, values[i]? = some first → values[i + 1]? = some second →
    Follows allowed (round acc i) (plain acc first second))

include follows

/-- The loop by index is the loop over the pairs that are left, if only pairs are. -/
theorem everyOther_from {rounds i : Nat} {rest : List Str} (enough : rest.length ≤ rounds)
    (left : values.drop i = rest) (even : rest.length % 2 = 0) (acc : γ) :
    Follows allowed (everyOther values.length round rounds i acc) (eachPair plain acc rest) := by
  induction rounds generalizing i rest acc with
  | zero =>
      rw [List.eq_nil_of_length_eq_zero (Nat.le_zero.mp enough)]
      exact Follows.pure acc
  | succ rounds ih =>
      have size := congrArg List.length left
      rw [List.length_drop] at size
      rw [everyOther]
      match rest with
      | [] =>
          rw [if_neg (by rw [List.length_nil] at size; omega)]
          exact Follows.pure acc
      | [_] => cases even
      | first :: second :: rest =>
          simp only [List.length_cons] at size even enough
          rw [if_pos (by omega), eachPair]
          have here (k : Nat) : values[i + k]? = (first :: second :: rest)[k]? := by
            rw [← left, List.getElem?_drop]
          refine Follows.bind (follows acc i first second (here 0) (here 1)) fun next _ => ?_
          refine ih (by omega) ?_ (by omega) next
          rw [← List.drop_drop, left]
          rfl

theorem everyOther_follows (even : values.length % 2 = 0) (acc : γ) :
    Follows allowed (everyOther values.length round values.length 0 acc)
      (eachPair plain acc values) :=
  everyOther_from follows (Nat.le_refl _) List.drop_zero even acc

end Pairs

namespace StrCommand

theorem onStrTraced_follows {c : StrCommand} (fit : c.Fit StrName.bare) (str : Str) :
    Follows (Command.str c).Has (onStrTraced c str) (onStr c str) := by
  have adding (name : c.command.bare = false)
      (method : Str → Int32 → Except Fault (Str × Bytes)) :
      Follows (Command.str c).Has (addByTraced method c str) (addBy method c str) := by
    refine Follows.bind (takeValue_follows (fit name)) fun value _ => ?_
    refine Follows.bind (Follows.lift _) fun intval _ => ?_
    cases intval with
    | none => exact Follows.pure _
    | some n => exact Follows.bind (Follows.lift _) fun _ _ => Follows.pure _
  unfold onStrTraced
  split
  · rename_i named
    rw [onStr, named]
    exact Follows.bind (takeValue_follows (fit (by rw [named]; rfl))) fun _ _ => Follows.pure _
  · rename_i named
    rw [onStr, named]
    exact adding (by rw [named]; rfl) _
  · rename_i named
    rw [onStr, named]
    exact adding (by rw [named]; rfl) _
  · rename_i named
    rw [onStr, named]
    refine Follows.bind (takeValue_follows (fit (by rw [named]; rfl))) fun value _ => ?_
    exact Follows.bind (Follows.lift _) fun _ _ => Follows.pure _
  · exact Follows.lift _
  · exact Follows.lift _

end StrCommand

namespace ListCommand

theorem onListTraced_follows {c : ListCommand} (fit : c.Fit ListName.bare ListName.arity)
    (l : List Str) : Follows (Command.list c).Has (onListTraced c l) (onList c l) := by
  unfold onListTraced
  split
  · rename_i named
    obtain ⟨first, second⟩ := fit.two named rfl rfl
    rw [onList, named]
    refine Follows.bind (element_follows first) fun count _ => ?_
    refine Follows.bind (Follows.lift _) fun intval _ => ?_
    cases intval with
    | none => exact Follows.pure _
    | some n =>
        refine Follows.bind (element_follows second) fun value _ => ?_
        exact Follows.bind (Follows.lift _) fun _ _ => Follows.pure _
  · rename_i named
    obtain ⟨first, second⟩ := fit.two named rfl rfl
    rw [onList, named]
    refine Follows.bind (element_follows first) fun begin _ => ?_
    refine Follows.bind (Follows.lift _) fun intval1 _ => ?_
    refine Follows.bind (element_follows second) fun end_ _ => ?_
    refine Follows.bind (Follows.lift _) fun intval2 _ => ?_
    cases intval1 with
    | none => exact Follows.pure _
    | some n =>
        cases intval2 with
        | none => exact Follows.pure _
        | some m => exact Follows.bind (Follows.lift _) fun _ _ => Follows.pure _
  · rename_i named
    obtain ⟨first, second⟩ := fit.two named rfl rfl
    rw [onList, named]
    refine Follows.bind (element_follows first) fun index _ => ?_
    refine Follows.bind (Follows.lift _) fun intval _ => ?_
    cases intval with
    | none => exact Follows.pure _
    | some n =>
        refine Follows.bind (element_follows second) fun value _ => ?_
        exact Follows.bind (Follows.lift _) fun _ _ => Follows.pure _
  all_goals exact Follows.lift _

end ListCommand

namespace HashCommand

theorem onHashTraced_follows {c : HashCommand} (fit : c.Fit HashName.bare HashName.arity)
    (tbl : StrHash) : Follows (Command.hash c).Has (onHashTraced c tbl) (onHash c tbl) := by
  have adding {name : HashName} (named : c.command = name) (takes : name.bare = false)
      (even : name.arity = fun size => size % 2 == 0)
      (method : StrHash → Str → Int32 → Except Fault (StrHash × Bytes)) :
      Follows (Command.hash c).Has (addByTraced method c tbl) (addBy method c tbl) := by
    obtain ⟨-, first, second⟩ := fit.pairs named takes even
    refine Follows.bind (element_follows second) fun delta _ => ?_
    refine Follows.bind (Follows.lift _) fun intval _ => ?_
    cases intval with
    | none => exact Follows.pure _
    | some n =>
        refine Follows.bind (element_follows first) fun key _ => ?_
        exact Follows.bind (Follows.lift _) fun _ _ => Follows.pure _
  unfold onHashTraced
  split
  · rename_i named
    rw [onHash, named]
    refine Follows.bind (everyOther_follows ?_ (fit.pairs named rfl rfl).1 tbl)
      fun _ _ => Follows.pure _
    intro tbl i key value here there
    refine Follows.bind_ok (element_found (List.getElem?_eq_some_iff.mp here).1 here) ?_
    refine Follows.bind_ok (element_found (List.getElem?_eq_some_iff.mp there).1 there) ?_
    exact Follows.pure _
  · rename_i named
    rw [onHash, named]
    exact adding named rfl rfl _
  · rename_i named
    rw [onHash, named]
    exact adding named rfl rfl _
  all_goals exact Follows.lift _

end HashCommand

namespace SetCommand

theorem onSetTraced_follows {c : SetCommand} (fit : c.Fit SetName.bare fun _ _ => true)
    (random : Nat) (get : Bytes → Option Object) (st : StrSet) :
    Follows (Command.set c).Has (onSetTraced random get c st) (onSet random get c st) := by
  have combining (first : 0 < c.values.length) (method : StrSet → StrSet → Bool → List Str) :
      Follows (Command.set c).Has (combineTraced method get c st) (combine method get c st) := by
    refine Follows.bind (element_follows first) fun another _ => ?_
    cases get another.data with
    | none => exact Follows.pure _
    | some object => cases object <;> exact Follows.pure _
  unfold onSetTraced
  split
  · rename_i named
    rw [onSet, named]
    exact combining (fit.one named rfl) _
  · rename_i named
    rw [onSet, named]
    exact combining (fit.one named rfl) _
  all_goals exact Follows.lift _

end SetCommand

namespace ZSetCommand

variable {c : ZSetCommand}

theorem scoredTraced_follows (method : LinkedZSet → Int32 → Str → Except Fault (LinkedZSet × Bool))
    (acc : LinkedZSet × Int32) (i : Nat) (score member : Str) (here : c.values[i]? = some score)
    (there : c.values[i + 1]? = some member) :
    Follows (Command.zset c).Has (scoredTraced method c.values acc i)
      (scored method acc score member) := by
  refine Follows.bind_ok (element_found (List.getElem?_eq_some_iff.mp here).1 here) ?_
  refine Follows.bind (Follows.lift _) fun intval _ => ?_
  cases intval with
  | none => exact Follows.pure _
  | some n =>
      refine Follows.bind_ok (element_found (List.getElem?_eq_some_iff.mp there).1 there) ?_
      exact Follows.bind (Follows.lift _) fun _ _ => Follows.pure _

theorem betweenTraced_follows (first : 0 < c.values.length) (second : 1 < c.values.length)
    (answer : Int32 → Int32 → Except Fault Reply) :
    Follows (Command.zset c).Has (betweenTraced answer c) (between answer c) := by
  refine Follows.bind (element_follows first) fun low _ => ?_
  refine Follows.bind (Follows.lift _) fun intval1 _ => ?_
  refine Follows.bind (element_follows second) fun high _ => ?_
  refine Follows.bind (Follows.lift _) fun intval2 _ => ?_
  cases intval1 with
  | none => exact Follows.pure _
  | some n =>
      cases intval2 with
      | none => exact Follows.pure _
      | some m => exact Follows.lift _

theorem stepTraced_follows (first : 0 < c.values.length) (second : 1 < c.values.length)
    (step : Int32 → LinkedZSet → Str → Except Fault (LinkedZSet × Bytes)) (zst : LinkedZSet) :
    Follows (Command.zset c).Has (stepTraced step c zst) (do
      let delta ← valueAt c.values 0
      let intval ← redisStrToInt delta.data
      match intval with
      | none => return (zst, refused)
      | some n => do
          let member ← valueAt c.values 1
          let (zst, val) ← step n zst member
          return (zst, textOr refused val)) := by
  refine Follows.bind (element_follows first) fun delta _ => ?_
  refine Follows.bind (Follows.lift _) fun intval _ => ?_
  cases intval with
  | none => exact Follows.pure _
  | some n =>
      refine Follows.bind (element_follows second) fun member _ => ?_
      exact Follows.bind (Follows.lift _) fun _ _ => Follows.pure _

theorem onZSetTraced_follows (fit : c.Fit ZSetName.bare ZSetName.arity) (zst : LinkedZSet) :
    Follows (Command.zset c).Has (onZSetTraced c zst) (onZSet c zst) := by
  unfold onZSetTraced
  split
  · rename_i named
    obtain ⟨even, -, -⟩ := fit.pairs named rfl rfl
    rw [onZSet, named]
    exact Follows.bind (everyOther_follows (scoredTraced_follows _) even _) fun _ _ => Follows.pure _
  · rename_i named
    obtain ⟨even, -, -⟩ := fit.pairs named rfl rfl
    rw [onZSet, named]
    exact Follows.bind (everyOther_follows (scoredTraced_follows _) even _) fun _ _ => Follows.pure _
  · rename_i named
    obtain ⟨-, first, second⟩ := fit.pairs named rfl rfl
    rw [onZSet, named]
    exact Follows.bind (betweenTraced_follows first second _) fun _ _ => Follows.pure _
  · rename_i named
    obtain ⟨-, first, second⟩ := fit.pairs named rfl rfl
    rw [onZSet, named]
    refine Follows.bind (element_follows first) fun low _ => ?_
    exact Follows.bind (element_follows second) fun high _ => Follows.pure _
  · rename_i named
    obtain ⟨-, first, second⟩ := fit.pairs named rfl rfl
    rw [onZSet, named]
    exact stepTraced_follows first second _ zst
  · rename_i named
    obtain ⟨-, first, second⟩ := fit.pairs named rfl rfl
    rw [onZSet, named]
    exact stepTraced_follows first second _ zst
  · rename_i named
    obtain ⟨-, first, second⟩ := fit.pairs named rfl rfl
    rw [onZSet, named]
    exact Follows.bind (betweenTraced_follows first second _) fun _ _ => Follows.pure _
  · rename_i named
    obtain ⟨-, first, second⟩ := fit.pairs named rfl rfl
    rw [onZSet, named]
    exact Follows.bind (betweenTraced_follows first second _) fun _ _ => Follows.pure _
  · rename_i named
    obtain ⟨-, first, second⟩ := fit.pairs named rfl rfl
    rw [onZSet, named]
    refine Follows.bind (element_follows first) fun low _ => ?_
    refine Follows.bind (element_follows second) fun high _ => ?_
    exact Follows.bind (Follows.lift _) fun _ _ => Follows.pure _
  · rename_i named
    have first := fit.one named rfl
    rw [onZSet, named]
    refine Follows.bind (element_follows first) fun member _ => ?_
    exact Follows.bind (Follows.lift _) fun _ _ => Follows.pure _
  · rename_i named
    have first := fit.one named rfl
    rw [onZSet, named]
    refine Follows.bind (element_follows first) fun member _ => ?_
    exact Follows.bind (Follows.lift _) fun _ _ => Follows.pure _
  · exact Follows.lift _

end ZSetCommand

theorem Db.execOnTraced_follows {α : Type} {allowed : Access → Prop} (db : Db)
    (kind : ObjectKind α) (key : Bytes) (creates : Bool)
    {method : α → Accessing (α × Reply)} {plain : α → Except Fault (α × Reply)}
    (follows : ∀ value, Follows allowed (method value) (plain value)) :
    Follows allowed (db.execOnTraced kind key creates method) (db.execOn kind key creates plain) := by
  unfold execOnTraced execOn
  cases db.get key with
  | none =>
      dsimp only
      split
      · exact Follows.bind (follows _) fun _ _ => Follows.pure _
      · exact Follows.pure _
  | some object =>
      dsimp only
      cases kind.unwrap object with
      | none => exact Follows.pure _
      | some value => exact Follows.bind (follows value) fun _ _ => Follows.pure _

theorem untimedTraced_follows {allowed : Access → Prop} {accessing : Accessing (Db × Reply)}
    {plain : Except Fault (Db × Reply)} (follows : Follows allowed accessing plain) :
    Follows allowed (untimedTraced accessing) (untimed plain) := by
  have bound := Follows.bind follows fun (result : Db × Reply) _ =>
    (Follows.pure (result.1, result.2, none) :
      Follows allowed _ (.ok (result.1, result.2, (none : Option ExpireTimer)) : Except Fault _))
  cases plain with
  | error fault => exact bound
  | ok result => exact bound

theorem DbCommand.execTraced_follows {c : DbCommand}
    (fit : c.command ≠ .rewrite → c.Fit DbName.bare) (now : UInt64) (db : Db) :
    Follows (Command.db c).Has (execTraced now c db) (exec now c db) := by
  unfold execTraced
  split
  · rename_i named
    rw [exec, named]
    have taken := fit (by rw [named]; exact nofun) (by rw [named]; rfl)
    refine Follows.bind (takeValue_follows taken) fun value _ => ?_
    refine Follows.bind (Follows.lift _) fun time _ => ?_
    cases time with
    | none => exact Follows.pure _
    | some time => exact Follows.pure _
  all_goals exact Follows.lift _

namespace Command

/-- What the parsers see to. -/
def Fit : Command → Prop
  | .str c => c.Fit StrName.bare
  | .db c => c.command ≠ .rewrite → c.Fit DbName.bare
  | .list c => c.Fit ListName.bare ListName.arity
  | .hash c => c.Fit HashName.bare HashName.arity
  | .set c => c.Fit SetName.bare fun _ _ => true
  | .zset c => c.Fit ZSetName.bare ZSetName.arity
  | .server _ | .cli _ => True

theorem toCommand_fit {request : Request} {name : CommandName} {command : Command}
    (made : toCommand request name = .ok command) (valid : command.valid = true) : command.Fit := by
  cases name with
  | server name =>
      obtain ⟨c, -, returned⟩ := bind_eq_ok.mp made
      cases returned
      trivial
  | cli name =>
      cases made
      trivial
  | db name =>
      cases made
      intro other
      have taken : jsonToDbCommand name request = jsonToKeyCommand name name.bare request := by
        rw [jsonToDbCommand] at other ⊢
        split at other
        · exact absurd rfl other
        · rename_i kept
          rw [if_neg kept]
      change (jsonToDbCommand name request).valid = true at valid
      rw [taken] at valid ⊢
      exact jsonToKeyCommand_fit DbName.bare valid
  | str name =>
      cases made
      exact jsonToKeyCommand_fit StrName.bare valid
  | list name =>
      cases made
      exact jsonToValuesCommand_fit ListName.bare ListName.arity valid
  | hash name =>
      cases made
      exact jsonToValuesCommand_fit HashName.bare HashName.arity valid
  | set name =>
      cases made
      exact jsonToValuesCommand_fit SetName.bare (fun _ _ => true) valid
  | zset name =>
      cases made
      exact jsonToValuesCommand_fit ZSetName.bare ZSetName.arity valid

theorem requestToCommandExec_fit {request : Request} {command : Command}
    (parsed : requestToCommandExec request = .ok (some command)) (valid : command.valid = true) :
    command.Fit := by
  obtain ⟨first, rest, name, -, -, made⟩ := requestToCommandExec_some parsed
  exact toCommand_fit made valid

theorem onDbTraced_follows (env : Env) {command : Command} (fit : command.Fit) (db : Db) :
    Follows command.Has (command.onDbTraced env db) (command.onDb env db) := by
  cases command with
  | server c | cli c => exact Follows.pure _
  | db c => exact DbCommand.execTraced_follows fit env.now db
  | str c => exact untimedTraced_follows (db.execOnTraced_follows _ _ _
      (StrCommand.onStrTraced_follows fit))
  | list c => exact untimedTraced_follows (db.execOnTraced_follows _ _ _
      (ListCommand.onListTraced_follows fit))
  | hash c => exact untimedTraced_follows (db.execOnTraced_follows _ _ _
      (HashCommand.onHashTraced_follows fit))
  | set c => exact untimedTraced_follows (db.execOnTraced_follows _ _ _
      (SetCommand.onSetTraced_follows fit env.random db.get))
  | zset c => exact untimedTraced_follows (db.execOnTraced_follows _ _ _
      (ZSetCommand.onZSetTraced_follows fit))

end Command

theorem Server.execValidTraced_follows {allowed : Access → Prop} (server : Server) (client : Nat)
    (valid : Bool) {run : Db → Accessing (Db × Reply × Option ExpireTimer)}
    {plain : Db → Except Fault (Db × Reply × Option ExpireTimer)}
    (follows : ∀ db, Follows allowed (run db) (plain db)) :
    Follows allowed (server.execValidTraced client valid run)
      (server.execValid client valid plain) := by
  unfold execValidTraced execValid
  split
  · unfold onClientDbTraced onClientDb
    cases server.clients client with
    | none => exact Follows.pure _
    | some index =>
        dsimp only
        cases server.databases[index]? with
        | none => exact Follows.lift _
        | some db => exact Follows.bind (follows db) fun _ _ => Follows.pure _
  · exact Follows.pure _

namespace Command

/-- `Exec` of a command that a parser found valid, in whatever state: what it comes to, it
comes to with accesses to elements and values that are there. -/
theorem exec_takes_given {request : Request} {command : Command}
    (parsed : requestToCommandExec request = .ok (some command)) (valid : command.valid = true)
    (env : Env) (server : Server) (client : Nat) :
    (command.execTraced env server client).result = command.exec env server client ∧
      ∀ access ∈ (command.execTraced env server client).trace, command.Has access := by
  have fit := requestToCommandExec_fit parsed valid
  have follows : Follows command.Has (command.execTraced env server client)
      (command.exec env server client) := by
    cases command with
    | server c | cli c => exact Follows.lift _
    | db c =>
        unfold execTraced exec
        dsimp only
        split
        · exact Follows.lift _
        · exact server.execValidTraced_follows client _ (onDbTraced_follows env fit)
    | str c | list c | hash c | set c | zset c =>
        exact server.execValidTraced_follows client _ (onDbTraced_follows env fit)
  exact ⟨follows.result, follows.accesses⟩

/-- `HSET` of two fields. -/
def hset : Command := .hash ⟨true, .hset, bytes "k",
  [Str.ofData (bytes "f"), Str.ofData (bytes "v"), Str.ofData (bytes "g"), Str.ofData (bytes "w")]⟩

theorem exec_takes_given_hset :
    requestToCommandExec [bytes "HSET", bytes "k", bytes "f", bytes "v", bytes "g", bytes "w"] =
      .ok (some hset) ∧
    (hset.execTraced quietEnv Server.oneClient 0).trace =
      [.element 0, .element 1, .element 2, .element 3] ∧
    (hset.execTraced quietEnv Server.oneClient 0).result = hset.exec quietEnv Server.oneClient 0 ∧
    ∀ access ∈ (hset.execTraced quietEnv Server.oneClient 0).trace, hset.Has access := by
  have parsed : requestToCommandExec
      [bytes "HSET", bytes "k", bytes "f", bytes "v", bytes "g", bytes "w"] = .ok (some hset) := rfl
  exact ⟨parsed, rfl, exec_takes_given parsed rfl quietEnv Server.oneClient 0⟩

end Command

end ForkRedis
