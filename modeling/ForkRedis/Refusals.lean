import ForkRedis.Registry

set_option autoImplicit false

/- The reply `[" "]`. A command that gives it has changed nothing: not the databases, not
the clients, and no timer was handed over. Two branches of the source would change
something before they give it, and neither is reached: `IncrBy` takes the tag of a string
that is tagged `INT` and empty, and a database that `CREATE` gives the number -1. -/
namespace ForkRedis

open Wire Decimal Lists Fallible

variable {lz : Lzfse} {server server' : Server} {s s' : Str} {delta : Int32}
  {source rest text : Bytes}

/- The texts of a reply that are not refusals. -/

theorem numeral_ne_space (n : Nat) : numeral n ≠ bytes " " := by
  intro same
  have digits := numeral_digits n
  rw [same] at digits
  exact absurd digits (by decide)

theorem toStringSize_ne_refused (n : Nat) : [toStringSize n] ≠ refused := by
  intro same
  exact numeral_ne_space n (List.cons.inj same).1

theorem toStringInt_ne_space (n : Int32) : toStringInt n ≠ bytes " " := by
  rw [toStringInt, render]
  split
  · intro same
    have sign := (List.cons.inj same).1
    exact absurd sign (by decide)
  · exact numeral_ne_space _

theorem toStringInt_ne_refused (n : Int32) : [toStringInt n] ≠ refused := by
  intro same
  exact toStringInt_ne_space n (List.cons.inj same).1

theorem okReply_ne_refused : okReply ≠ refused := by decide

theorem quotedOrNil_ne_refused (text : Bytes) : quotedOrNil text ≠ refused := by
  rw [quotedOrNil]
  split
  · decide
  · intro same
    have mark := (List.cons.inj (List.cons.inj same).1).1
    exact absurd mark (by decide)

/-- A method that answers with an integer or with nothing has answered with nothing if its
command refuses. -/
theorem eq_nil_of_textOr (numeric : text = [] ∨ ∃ n, text = toStringInt n)
    (same : textOr refused text = refused) : text = [] := by
  rcases numeric with empty | ⟨n, rfl⟩
  · exact empty
  · rw [textOr, if_neg (Str.toStringInt_ne_nil n)] at same
    exact absurd same (toStringInt_ne_refused n)

section Returned

variable {α : Type} {value value' : α} {reply reply' : Reply}

theorem kept_of_ok (returned : (.ok (value, reply) : Except Fault (α × Reply)) = .ok (value', reply')) :
    value' = value :=
  (Prod.mk.inj (Except.ok.inj returned)).1.symm

theorem answered (other : reply ≠ refused) :
    (.ok (value, reply) : Except Fault (α × Reply)) ≠ .ok (value', refused) :=
  fun returned => other (Prod.mk.inj (Except.ok.inj returned)).2

end Returned

namespace Str

/-- Contents tagged `INT` are not empty, so that `IncrBy` can convert them. -/
def IntFilled (s : Str) : Prop := s.encodingType = .int → s.data ≠ []

theorem append_intFilled {data : Bytes} {size : Nat} (returned : s.append data = .ok (s', size)) :
    s'.IntFilled := by
  rw [append] at returned
  split at returned
  · split at returned
    · cases returned
    · cases returned
      intro tagged
      cases tagged
    · rename_i n converted
      cases returned
      intro _ empty
      rw [show s.data ++ data = [] from empty] at converted
      cases converted
  · cases returned
    intro tagged
    cases tagged

theorem incrBy_intFilled (filled : s.IntFilled) (returned : s.incrBy delta = .ok (s', text)) :
    s'.IntFilled := by
  rcases incrBy_cases returned with ⟨rfl, -⟩ | ⟨-, -, rfl, -⟩ | ⟨n, rfl, -⟩
  · exact filled
  · intro tagged
    cases tagged
  · exact fun _ => toStringInt_ne_nil n

theorem intFilled_kept : Kept IntFilled where
  given := fun _ filled _ => filled
  append := fun _ => append_intFilled
  incrBy := incrBy_intFilled

theorem incrBy_text (returned : s.incrBy delta = .ok (s', text)) :
    text = [] ∨ ∃ n, text = toStringInt n := by
  rcases incrBy_cases returned with ⟨-, none_⟩ | ⟨-, -, -, none_⟩ | ⟨n, -, some_⟩
  · exact Or.inl none_
  · exact Or.inl none_
  · exact Or.inr ⟨n, some_⟩

/-- An `IncrBy` that gives no text has left the string as it was. -/
theorem incrBy_nothing (filled : s.IntFilled) (returned : s.incrBy delta = .ok (s', [])) :
    s' = s := by
  rcases incrBy_cases returned with ⟨same, -⟩ | ⟨int, converted, -, -⟩ | ⟨n, -, text⟩
  · exact same
  · -- contents that passed the scan and are not empty have a value
    have scanned : classify s.data = .int := by
      rcases s.tagged with raw | ⟨-, scanned⟩
      · rw [raw] at int
        cases int
      · exact scanned
    have shaped := ((classify_int_iff s.data).mp scanned).resolve_left (filled int)
    rw [redisStrToInt_eq, if_pos shaped] at converted
    split at converted
    · cases converted
    · cases converted
  · exact absurd text.symm (toStringInt_ne_nil n)

theorem decodeValue_intFilled (decoded : (decodeValue lz).run source = .ok (s, rest)) :
    s.IntFilled := by
  cases source with
  | nil => cases decoded
  | cons c source =>
      rcases decodeValue_cases decoded with ⟨-, n, rfl⟩ | ⟨-, data, rfl⟩
      · exact fun _ => toStringInt_ne_nil n
      · exact nofun

end Str

/- What each method left behind when its command refuses. -/

namespace StrCommand

theorem addBy_refused {method : Str → Int32 → Except Fault (Str × Bytes)}
    (nothing : ∀ s n s' text, s.IntFilled → method s n = .ok (s', text) →
      textOr refused text = refused → s' = s)
    {c : StrCommand} {str str' : Str} (filled : str.IntFilled)
    (returned : addBy method c str = .ok (str', refused)) : str' = str := by
  rw [addBy] at returned
  obtain ⟨value, -, returned⟩ := bind_eq_ok.mp returned
  obtain ⟨intval, -, returned⟩ := bind_eq_ok.mp returned
  split at returned
  · cases returned
    rfl
  · obtain ⟨⟨s', text⟩, called, returned⟩ := bind_eq_ok.mp returned
    obtain ⟨rfl, reply⟩ := Prod.mk.inj (Except.ok.inj returned)
    exact nothing _ _ _ _ filled called reply

theorem onStr_refused {c : StrCommand} {str str' : Str} (filled : str.IntFilled)
    (returned : onStr c str = .ok (str', refused)) : str' = str := by
  have nothing : ∀ s n s' text, s.IntFilled → Str.incrBy s n = .ok (s', text) →
      textOr refused text = refused → s' = s := by
    intro s n s' text filled called same
    rw [eq_nil_of_textOr (Str.incrBy_text called) same] at called
    exact Str.incrBy_nothing filled called
  rw [onStr] at returned
  split at returned
  · obtain ⟨value, -, returned⟩ := bind_eq_ok.mp returned
    exact absurd returned (answered okReply_ne_refused)
  · exact kept_of_ok returned
  · exact addBy_refused nothing filled returned
  · exact addBy_refused (fun s n => nothing s (-n)) filled returned
  · obtain ⟨value, -, returned⟩ := bind_eq_ok.mp returned
    obtain ⟨result, -, returned⟩ := bind_eq_ok.mp returned
    exact absurd returned (answered (toStringSize_ne_refused _))
  · exact kept_of_ok returned

theorem onStr_set_answers {c : StrCommand} (setting : c.command = .set) (str str' : Str) :
    onStr c str ≠ .ok (str', refused) := by
  intro returned
  rw [onStr, setting] at returned
  obtain ⟨value, -, returned⟩ := bind_eq_ok.mp returned
  exact absurd returned (answered okReply_ne_refused)

end StrCommand

namespace StrList

theorem trim_false {l l' : List Str} {begin end_ : Int32}
    (returned : trim l begin end_ = .ok (l', false)) : l' = l := by
  rw [trim] at returned
  split at returned
  · cases returned
    rfl
  dsimp only at returned
  split at returned
  · cases returned
    rfl
  split at returned
  · cases returned
  · cases returned

theorem set_false {l l' : List Str} {index : Int32} {value : Str}
    (returned : set l index value = .ok (l', false)) : l' = l := by
  rw [set] at returned
  split at returned
  · cases returned
    rfl
  · obtain ⟨p, -, returned⟩ := bind_eq_ok.mp returned
    cases returned

end StrList

/-- A flag that refuses is down. -/
theorem eq_false_of_reply {ret : Bool} (same : (if ret then okReply else refused) = refused) :
    ret = false := by
  cases ret with
  | false => rfl
  | true => exact absurd same okReply_ne_refused

namespace ListCommand

theorem onList_refused {c : ListCommand} {l l' : List Str}
    (returned : onList c l = .ok (l', refused)) : l' = l := by
  unfold onList at returned
  split at returned
  · exact absurd returned (answered (toStringSize_ne_refused _))
  · exact absurd returned (answered (toStringSize_ne_refused _))
  · exact absurd returned (answered (quotedOrNil_ne_refused _))
  · exact absurd returned (answered (quotedOrNil_ne_refused _))
  · obtain ⟨texts, -, returned⟩ := bind_eq_ok.mp returned
    exact kept_of_ok returned
  · exact kept_of_ok returned
  · obtain ⟨count, -, returned⟩ := bind_eq_ok.mp returned
    obtain ⟨intval, -, returned⟩ := bind_eq_ok.mp returned
    split at returned
    · exact kept_of_ok returned
    · obtain ⟨value, -, returned⟩ := bind_eq_ok.mp returned
      rw [StrList.rem_eq] at returned
      exact kept_of_ok returned
  · obtain ⟨begin, -, returned⟩ := bind_eq_ok.mp returned
    obtain ⟨intval1, -, returned⟩ := bind_eq_ok.mp returned
    obtain ⟨end_, -, returned⟩ := bind_eq_ok.mp returned
    obtain ⟨intval2, -, returned⟩ := bind_eq_ok.mp returned
    split at returned
    · obtain ⟨⟨trimmed, ret⟩, called, returned⟩ := bind_eq_ok.mp returned
      obtain ⟨rfl, reply⟩ := Prod.mk.inj (Except.ok.inj returned)
      rw [eq_false_of_reply reply] at called
      exact StrList.trim_false called
    · exact kept_of_ok returned
  · obtain ⟨index, -, returned⟩ := bind_eq_ok.mp returned
    obtain ⟨intval, -, returned⟩ := bind_eq_ok.mp returned
    split at returned
    · exact kept_of_ok returned
    · obtain ⟨value, -, returned⟩ := bind_eq_ok.mp returned
      obtain ⟨⟨written, ret⟩, called, returned⟩ := bind_eq_ok.mp returned
      obtain ⟨rfl, reply⟩ := Prod.mk.inj (Except.ok.inj returned)
      rw [eq_false_of_reply reply] at called
      exact StrList.set_false called

theorem onList_push_answers {c : ListCommand}
    (pushing : (c.command == .lpushf || c.command == .lpushb) = true) (l l' : List Str) :
    onList c l ≠ .ok (l', refused) := by
  intro returned
  rw [onList] at returned
  rcases Bool.or_eq_true_iff.mp pushing with front | back
  · rw [beq_iff_eq.mp front] at returned
    exact absurd returned (answered (toStringSize_ne_refused _))
  · rw [beq_iff_eq.mp back] at returned
    exact absurd returned (answered (toStringSize_ne_refused _))

end ListCommand

namespace StrHash

/-- Writing the value that is there. -/
theorem put_same {h : StrHash} {key : Str} {field : Str × Str}
    (found : h.find key.data = some field) : h.put key field.2 = h := by
  apply Keyed.modify_fixed
  intro other there
  rw [found, Option.some.injEq] at there
  rw [← there]

theorem incrBy_nothing {h h' : StrHash} {key : Str} (filled : (Object.hash h).All Str.IntFilled)
    (returned : h.incrBy key delta = .ok (h', text)) (same : textOr refused text = refused) :
    h' = h := by
  rw [incrBy] at returned
  split at returned
  · exact (Prod.mk.inj (Except.ok.inj returned)).1.symm
  · rename_i field found
    obtain ⟨⟨value, ret⟩, called, returned⟩ := bind_eq_ok.mp returned
    obtain ⟨rfl, rfl⟩ := Prod.mk.inj (Except.ok.inj returned)
    have member := (h.find_eq_some_iff.mp found).1
    have old := (Object.all_hash.mp filled field member).2
    rw [eq_nil_of_textOr (Str.incrBy_text called) same] at called
    rw [Str.incrBy_nothing old called, put_same found]

end StrHash

namespace HashCommand

theorem addBy_refused {method : StrHash → Str → Int32 → Except Fault (StrHash × Bytes)}
    (nothing : ∀ h key n h' text, (Object.hash h).All Str.IntFilled →
      method h key n = .ok (h', text) → textOr refused text = refused → h' = h)
    {c : HashCommand} {tbl tbl' : StrHash} (filled : (Object.hash tbl).All Str.IntFilled)
    (returned : addBy method c tbl = .ok (tbl', refused)) : tbl' = tbl := by
  rw [addBy] at returned
  obtain ⟨delta, -, returned⟩ := bind_eq_ok.mp returned
  obtain ⟨intval, -, returned⟩ := bind_eq_ok.mp returned
  split at returned
  · exact kept_of_ok returned
  · obtain ⟨key, -, returned⟩ := bind_eq_ok.mp returned
    obtain ⟨⟨written, text⟩, called, returned⟩ := bind_eq_ok.mp returned
    obtain ⟨rfl, reply⟩ := Prod.mk.inj (Except.ok.inj returned)
    exact nothing _ _ _ _ _ filled called reply

theorem onHash_refused {c : HashCommand} {tbl tbl' : StrHash}
    (filled : (Object.hash tbl).All Str.IntFilled)
    (returned : onHash c tbl = .ok (tbl', refused)) : tbl' = tbl := by
  unfold onHash at returned
  split at returned
  · obtain ⟨result, -, returned⟩ := bind_eq_ok.mp returned
    exact absurd returned (answered okReply_ne_refused)
  · exact kept_of_ok returned
  · exact kept_of_ok returned
  · exact absurd returned (answered okReply_ne_refused)
  · exact kept_of_ok returned
  · exact kept_of_ok returned
  · exact addBy_refused (fun _ _ _ _ _ => StrHash.incrBy_nothing) filled returned
  · exact addBy_refused (fun _ _ _ _ _ => StrHash.incrBy_nothing) filled returned

theorem onHash_hset_answers {c : HashCommand} (setting : c.command = .hset) (tbl tbl' : StrHash) :
    onHash c tbl ≠ .ok (tbl', refused) := by
  intro returned
  rw [onHash, setting] at returned
  obtain ⟨result, -, returned⟩ := bind_eq_ok.mp returned
  exact absurd returned (answered okReply_ne_refused)

end HashCommand

namespace SetCommand

theorem onSet_refused {random : Nat} {get : Bytes → Option Object} {c : SetCommand}
    {st st' : StrSet} (returned : onSet random get c st = .ok (st', refused)) : st' = st := by
  unfold onSet at returned
  split at returned
  · exact absurd returned (answered (toStringInt_ne_refused _))
  · exact kept_of_ok returned
  · exact kept_of_ok returned
  · exact kept_of_ok returned
  · exact kept_of_ok returned
  · obtain ⟨result, -, returned⟩ := bind_eq_ok.mp returned
    exact absurd returned (answered (quotedOrNil_ne_refused _))
  · exact absurd returned (answered (toStringInt_ne_refused _))
  · exact combine_same returned
  · exact combine_same returned

theorem onSet_sadd_answers {random : Nat} {get : Bytes → Option Object} {c : SetCommand}
    (adding : c.command = .sadd) (st st' : StrSet) :
    onSet random get c st ≠ .ok (st', refused) := by
  intro returned
  rw [onSet, adding] at returned
  exact absurd returned (answered (toStringInt_ne_refused _))

end SetCommand

namespace LinkedZSet

theorem incrBy_nothing {z z' : LinkedZSet} {member : Str}
    (returned : z.incrBy delta member = .ok (z', text)) (same : textOr refused text = refused) :
    z' = z := by
  have called := attach_eq_ok returned
  obtain ⟨es, rep⟩ := z.2
  rcases ZEntry.absent_or_mem es member with absent | ⟨e, inside, found⟩
  · rw [rep.incrBy_miss delta absent] at called
    exact Subtype.ext (Prod.mk.inj (Except.ok.inj called)).1.symm
  · obtain ⟨z'', incremented, -⟩ := rep.incrBy_mem inside delta found
    rw [incremented] at called
    cases called
    have empty := eq_nil_of_textOr (Or.inr ⟨_, rfl⟩) same
    exact absurd empty (Str.toStringInt_ne_nil _)

end LinkedZSet

namespace ZSetCommand

theorem onZSet_refused {c : ZSetCommand} {zst zst' : LinkedZSet}
    (returned : onZSet c zst = .ok (zst', refused)) : zst' = zst := by
  rcases onZSet_cases returned with same | ⟨cnt, -, reply⟩ | ⟨cnt, -, reply⟩ |
    ⟨delta, member, text, called, reply⟩
  · exact same
  · exact absurd reply.symm (toStringInt_ne_refused cnt)
  · exact absurd reply.symm (toStringInt_ne_refused cnt)
  · exact LinkedZSet.incrBy_nothing called reply.symm

theorem onZSet_zadd_answers {c : ZSetCommand} (adding : c.command = .zadd)
    (zst zst' : LinkedZSet) : onZSet c zst ≠ .ok (zst', refused) := by
  intro returned
  rw [onZSet, adding] at returned
  obtain ⟨result, -, returned⟩ := bind_eq_ok.mp returned
  exact absurd returned (answered (toStringInt_ne_refused _))

end ZSetCommand

namespace Db

/-- The frame: what a refusing method leaves as it was, the database keeps, and a command
that creates its object does not refuse. -/
theorem execOn_refused {α : Type} {db db' : Db} {kind : ObjectKind α} {key : Bytes}
    {creates : Bool} {method : α → Except Fault (α × Reply)}
    (keeps : ∀ old value, db.get key = some (kind.wrap old) → method old = .ok (value, refused) →
      value = old)
    (answers : creates = true → ∀ value, method kind.fresh ≠ .ok (value, refused))
    (returned : db.execOn kind key creates method = .ok (db', refused)) : db' = db := by
  rcases execOn_cases returned with ⟨same, -⟩ | ⟨-, creating, value, called, -⟩ |
    ⟨old, value, found, called, rfl⟩
  · exact same
  · exact absurd called (answers creating value)
  · rw [keeps old value found called]
    apply store_same
    intro other there
    rw [found, Option.some.injEq] at there
    exact there.symm

theorem all_of_get {P : Str → Prop} {db : Db} (all : db.All P) {key : Bytes} {object : Object}
    (found : db.get key = some object) : object.All P := by
  obtain ⟨kv, there, rfl⟩ := get_eq_some_iff.mp found
  exact (all key kv there).2

end Db

theorem DbCommand.exec_refused {now : UInt64} {c : DbCommand} {db db' : Db}
    {timer : Option ExpireTimer} (returned : exec now c db = .ok (db', refused, timer)) :
    db' = db ∧ timer = none := by
  unfold exec at returned
  split at returned
  · have reply := (Prod.mk.inj (Prod.mk.inj (Except.ok.inj returned)).2).1
    exact absurd reply (toStringSize_ne_refused _)
  · obtain ⟨value, -, returned⟩ := bind_eq_ok.mp returned
    obtain ⟨time, -, returned⟩ := bind_eq_ok.mp returned
    split at returned
    · cases returned
      exact ⟨rfl, rfl⟩
    · have reply := (Prod.mk.inj (Prod.mk.inj (Except.ok.inj returned)).2).1
      exact absurd reply okReply_ne_refused
  · obtain ⟨same, rest⟩ := Prod.mk.inj (Except.ok.inj returned)
    exact ⟨same.symm, (Prod.mk.inj rest).2.symm⟩
  · have reply := (Prod.mk.inj (Prod.mk.inj (Except.ok.inj returned)).2).1
    exact absurd reply okReply_ne_refused

/-- A refusal of a command on one database leaves that database as it was. -/
theorem Command.onDb_refused {env : Env} {command : Command} {db db' : Db}
    {timer : Option ExpireTimer} (all : db.All Str.IntFilled)
    (returned : command.onDb env db = .ok (db', refused, timer)) : db' = db ∧ timer = none := by
  cases command with
  | server c | cli c =>
      obtain ⟨same, rest⟩ := Prod.mk.inj (Except.ok.inj returned)
      exact ⟨same.symm, (Prod.mk.inj rest).2.symm⟩
  | db c => exact DbCommand.exec_refused returned
  | str c =>
      obtain ⟨executed, untimed⟩ := untimed_eq_ok returned
      refine ⟨Db.execOn_refused ?_ ?_ executed, untimed⟩
      · exact fun old value found => StrCommand.onStr_refused
          (Object.all_str.mp (Db.all_of_get all found))
      · exact fun setting => StrCommand.onStr_set_answers (beq_iff_eq.mp setting) _
  | list c =>
      obtain ⟨executed, untimed⟩ := untimed_eq_ok returned
      refine ⟨Db.execOn_refused ?_ ?_ executed, untimed⟩
      · exact fun old value _ => ListCommand.onList_refused
      · exact fun pushing => ListCommand.onList_push_answers pushing _
  | hash c =>
      obtain ⟨executed, untimed⟩ := untimed_eq_ok returned
      refine ⟨Db.execOn_refused ?_ ?_ executed, untimed⟩
      · exact fun old value found => HashCommand.onHash_refused (Db.all_of_get all found)
      · exact fun setting => HashCommand.onHash_hset_answers (beq_iff_eq.mp setting) _
  | set c =>
      obtain ⟨executed, untimed⟩ := untimed_eq_ok returned
      refine ⟨Db.execOn_refused ?_ ?_ executed, untimed⟩
      · exact fun old value _ => SetCommand.onSet_refused
      · exact fun adding => SetCommand.onSet_sadd_answers (beq_iff_eq.mp adding) _
  | zset c =>
      obtain ⟨executed, untimed⟩ := untimed_eq_ok returned
      refine ⟨Db.execOn_refused ?_ ?_ executed, untimed⟩
      · exact fun old value _ => ZSetCommand.onZSet_refused
      · exact fun adding => ZSetCommand.onZSet_zadd_answers (beq_iff_eq.mp adding) _

namespace Server

/-- While `CREATE` can still make a database, the number it starts to search at is small,
and so are the numbers it finds. -/
structure Counted (server : Server) : Prop where
  marks : server.numHash.length = server.databases.length
  source : server.databases.length < 16 →
    0 ≤ server.numberSource.toInt ∧ server.numberSource.toInt ≤ 16 * server.databases.length

theorem unusedNumber_near (numHash : List Int32) (rounds : Nat) (n : Int32) :
    ∃ k ≤ rounds, unusedNumber numHash rounds n = n + Int32.ofNat k := by
  induction rounds generalizing n with
  | zero => exact ⟨0, Nat.le_refl 0, (Int32.add_zero n).symm⟩
  | succ rounds ih =>
      rw [unusedNumber]
      split
      · obtain ⟨k, near, found⟩ := ih (n + 1)
        exact ⟨k + 1, by omega, found.trans (add_ofNat_succ n k)⟩
      · exact ⟨0, Nat.zero_le _, (Int32.add_zero n).symm⟩

/-- The number `CREATE` finds is not negative, and still small. -/
theorem Counted.unused (counted : server.Counted) (few : server.databases.length < 16) :
    let unused := unusedNumber server.numHash (server.numHash.length + 1) server.numberSource
    0 ≤ unused.toInt ∧ unused.toInt ≤ 16 * (server.databases.length + 1 : Nat) := by
  obtain ⟨low, high⟩ := counted.source few
  have marks := counted.marks
  obtain ⟨k, near, found⟩ :=
    unusedNumber_near server.numHash (server.numHash.length + 1) server.numberSource
  have small : (Int32.ofNat k).toInt = k := Int32.toInt_ofNat_of_lt (by omega)
  have sum : (server.numberSource + Int32.ofNat k).toInt = server.numberSource.toInt + k := by
    rw [Int32.toInt_add, small, Int.bmod]
    omega
  dsimp only
  rw [found, sum]
  omega

theorem started_counted (databases : List Db) : (started databases).Counted := by
  cases databases with
  | nil => exact ⟨rfl, fun _ => ⟨by decide, by decide⟩⟩
  | cons db rest =>
      have length : ∀ count, (registered count).1.length = count := by
        intro count
        induction count with
        | zero => rfl
        | succ count ih => rw [registered, List.length_cons, ih]
      refine ⟨length (rest.length + 1), fun few => ?_⟩
      have small : rest.length < 15 := by
        have := few
        change rest.length + 1 < 16 at this
        omega
      have source : (started (db :: rest)).numberSource = Int32.ofNat rest.length := by
        change (registered (rest.length + 1)).2 = _
        rw [registered_succ (by omega)]
      have value : (Int32.ofNat rest.length).toInt = rest.length :=
        Int32.toInt_ofNat_of_lt (by omega)
      have sized : (started (db :: rest)).databases.length = rest.length + 1 := rfl
      rw [source, value, sized]
      omega

theorem Counted.addDatabase {server : Server} (counted : server.Counted) {number source : Int32}
    (small : server.databases.length + 1 < 16 →
      0 ≤ source.toInt ∧ source.toInt ≤ 16 * (server.databases.length + 1 : Nat)) :
    (server.addDatabase number source).Counted := by
  have sized : (server.addDatabase number source).databases.length =
      server.databases.length + 1 := by
    rw [Server.addDatabase, List.length_append, List.length_singleton]
  constructor
  · rw [sized]
    exact congrArg (· + 1) counted.marks
  · rw [sized]
    exact small

theorem Counted.suGetDb (counted : server.Counted) (number : Int32) :
    (server.suGetDb number).1.Counted := by
  rw [Server.suGetDb]
  split
  · exact counted
  · refine counted.addDatabase fun few => ?_
    obtain ⟨low, high⟩ := counted.source (by omega)
    exact ⟨low, by omega⟩

theorem Counted.select (counted : server.Counted) (password : Bytes) (number : Int32)
    (pswd : Option Bytes) : (server.select password number pswd).1.Counted := by
  rw [Server.select]
  split
  · exact counted.suGetDb number
  · exact counted

theorem Counted.createDb (counted : server.Counted) {number : Int32}
    (created : server.createDb = some (server', number)) : server'.Counted ∧ number ≠ -1 := by
  obtain ⟨few, rfl, rfl⟩ := createDb_some created
  obtain ⟨low, high⟩ := counted.unused (by omega)
  refine ⟨counted.addDatabase fun _ => ⟨low, high⟩, ?_⟩
  intro minus
  rw [minus] at low
  exact absurd low (by decide)

end Server

/- Whatever the file holds, its strings are read by `Str::DecodeValue`. -/

section Loaded

variable {lz : Lzfse} {P : Str → Prop}
  (decodes : ∀ {source rest : Bytes} {s : Str}, (Str.decodeValue lz).run source = .ok (s, rest) → P s)

include decodes

theorem Object.decodeValue_all {type : Option ObjectType} {object : Object}
    (decoded : (decodeValue lz type).run source = .ok (some object, rest)) : object.All P := by
  unfold decodeValue at decoded
  split at decoded
  · obtain ⟨⟨s, input⟩, read, decoded⟩ := bind_eq_ok.mp decoded
    cases decoded
    exact all_str.mpr (decodes read)
  · obtain ⟨⟨l, input⟩, read, decoded⟩ := bind_eq_ok.mp decoded
    cases decoded
    obtain ⟨⟨len, input'⟩, -, looped⟩ := bind_eq_ok.mp read
    refine loop_preserves (fun l => ∀ s ∈ l, P s) ?_ len.toNat ?_ looped
    · intro acc input next rest kept round
      obtain ⟨⟨s, input⟩, first, round⟩ := bind_eq_ok.mp round
      cases round
      intro other member
      rcases List.mem_append.mp member with old | new
      · exact kept other old
      · rw [List.mem_singleton.mp new]
        exact decodes first
    · exact fun s member => absurd member List.not_mem_nil
  · obtain ⟨⟨h, input⟩, read, decoded⟩ := bind_eq_ok.mp decoded
    cases decoded
    obtain ⟨⟨len, input'⟩, -, looped⟩ := bind_eq_ok.mp read
    refine all_hash.mpr (loop_preserves (fun h : StrHash =>
      ∀ field ∈ h.items, P field.1 ∧ P field.2) ?_ len.toNat ?_ looped)
    · intro acc input next rest kept round
      obtain ⟨⟨k, input⟩, first, round⟩ := bind_eq_ok.mp round
      obtain ⟨⟨v, input⟩, second, round⟩ := bind_eq_ok.mp round
      cases round
      intro other member
      rcases Keyed.mem_insert member with rfl | old
      · exact ⟨decodes first, decodes second⟩
      · exact kept other old
    · exact fun s member => absurd member List.not_mem_nil
  · obtain ⟨⟨h, input⟩, read, decoded⟩ := bind_eq_ok.mp decoded
    cases decoded
    obtain ⟨⟨len, input'⟩, -, looped⟩ := bind_eq_ok.mp read
    refine loop_preserves (fun s : StrSet => ∀ str ∈ s.items, P str) ?_ len.toNat ?_ looped
    · intro acc input next rest kept round
      obtain ⟨⟨str, input⟩, first, round⟩ := bind_eq_ok.mp round
      cases round
      intro other member
      rcases Keyed.mem_insert member with rfl | old
      · exact decodes first
      · exact kept other old
    · exact fun s member => absurd member List.not_mem_nil
  · obtain ⟨⟨z, input⟩, read, decoded⟩ := bind_eq_ok.mp decoded
    cases decoded
    have read := LinkedZSet.attach_eq_ok read
    obtain ⟨⟨len, input'⟩, -, looped⟩ := bind_eq_ok.mp read
    have kept : ∃ linked : z.1.Linked, (Object.zset ⟨z.1, linked⟩).All P := by
      refine loop_preserves (fun z : ZSet =>
        ∃ linked : z.Linked, (Object.zset ⟨z, linked⟩).All P) ?_ len.toNat ?_ looped
      · rintro acc input next rest ⟨linked, kept⟩ round
        obtain ⟨⟨score, input⟩, -, round⟩ := bind_eq_ok.mp round
        obtain ⟨⟨member, input⟩, second, round⟩ := bind_eq_ok.mp round
        cases round
        exact ⟨ZSet.add_linked linked _ _, LinkedZSet.add_all kept _ (decodes second)⟩
      · exact ⟨ZSet.empty_linked, fun s member => absurd member List.not_mem_nil⟩
    exact kept.2
  · cases decoded

theorem KeyValue.decode_all {kv : LoadedKeyValue}
    (decoded : (decode lz).run source = .ok (kv, rest)) :
    P kv.key ∧ ∀ object, kv.value = some object → object.All P := by
  obtain ⟨⟨c, input⟩, -, decoded⟩ := bind_eq_ok.mp decoded
  dsimp only at decoded
  split at decoded
  · obtain ⟨⟨time, input⟩, -, decoded⟩ := bind_eq_ok.mp decoded
    obtain ⟨⟨c, input⟩, -, decoded⟩ := bind_eq_ok.mp decoded
    obtain ⟨⟨key, input⟩, named, decoded⟩ := bind_eq_ok.mp decoded
    obtain ⟨⟨value, input⟩, valued, decoded⟩ := bind_eq_ok.mp decoded
    cases decoded
    refine ⟨decodes named, fun object there => ?_⟩
    cases there
    exact Object.decodeValue_all decodes valued
  · obtain ⟨⟨key, input⟩, named, decoded⟩ := bind_eq_ok.mp decoded
    obtain ⟨⟨value, input⟩, valued, decoded⟩ := bind_eq_ok.mp decoded
    cases decoded
    refine ⟨decodes named, fun object there => ?_⟩
    cases there
    exact Object.decodeValue_all decodes valued

theorem Db.load_all {db : Db} (loaded : (load lz).run source = .ok (db.loaded, rest)) :
    db.All P := by
  obtain ⟨⟨s, input⟩, -, loaded⟩ := bind_eq_ok.mp loaded
  dsimp only at loaded
  split at loaded
  · cases loaded
  obtain ⟨⟨number, input⟩, -, loaded⟩ := bind_eq_ok.mp loaded
  obtain ⟨⟨n, input⟩, -, loaded⟩ := bind_eq_ok.mp loaded
  obtain ⟨⟨map, input⟩, looped, loaded⟩ := bind_eq_ok.mp loaded
  have listed : ∀ kv ∈ map.items, P kv.key ∧ ∀ object, kv.value = some object → object.All P := by
    refine loop_preserves (fun map : Keyed (Entry.name (V := Option Object)) =>
      ∀ kv ∈ map.items, P kv.key ∧ ∀ object, kv.value = some object → object.All P) ?_ n.toNat ?_
      looped
    · intro acc input next rest kept round
      obtain ⟨⟨kv, input⟩, first, round⟩ := bind_eq_ok.mp round
      cases round
      intro other member
      rcases Keyed.mem_insert member with rfl | old
      · exact KeyValue.decode_all decodes first
      · exact kept other old
    · exact fun s member => absurd member List.not_mem_nil
  have same : map = db.loaded.keyValueMap := by
    have whole := (Prod.mk.inj (Except.ok.inj loaded)).1
    exact congrArg Store.keyValueMap whole
  intro name kv found
  have member := (db.keyValueMap.find_eq_some_iff.mp found).1
  have entry := listed (KeyValue.loaded kv) (by rw [same]; exact List.mem_map_of_mem member)
  exact ⟨entry.1, entry.2 kv.value rfl⟩

end Loaded

theorem mem_rdbLoadDatabases {fuel : Nat} {loaded : List LoadedDb}
    (returned : rdbLoadDatabases lz fuel source = .ok (loaded, rest)) {db : LoadedDb}
    (member : db ∈ loaded) : ∃ source rest, (Db.load lz).run source = .ok (db, rest) := by
  induction fuel generalizing source loaded rest with
  | zero =>
      cases returned
      exact absurd member List.not_mem_nil
  | succ fuel ih =>
      simp only [rdbLoadDatabases] at returned
      split at returned
      · cases returned
        exact absurd member List.not_mem_nil
      · obtain ⟨⟨first, input⟩, head, returned⟩ := bind_eq_ok.mp returned
        obtain ⟨⟨later, input'⟩, tail, returned⟩ := bind_eq_ok.mp returned
        cases returned
        rcases List.mem_cons.mp member with rfl | other
        · exact ⟨_, _, head⟩
        · exact ih tail other

theorem mem_rdbLoad {loaded : List LoadedDb} (returned : rdbLoad lz source = .ok loaded)
    {db : LoadedDb} (member : db ∈ loaded) :
    ∃ source rest, (Db.load lz).run source = .ok (db, rest) := by
  obtain ⟨⟨magic, input⟩, -, returned⟩ := bind_eq_ok.mp returned
  dsimp only at returned
  split at returned
  · cases returned
    exact absurd member List.not_mem_nil
  · obtain ⟨⟨databases, input⟩, read, returned⟩ := bind_eq_ok.mp returned
    cases returned
    exact mem_rdbLoadDatabases read member

namespace Server

/-- The states of a server that was started on some file, with the value of every key. A
file of no databases starts the server on an empty one. -/
def Ran (server : Server) : Prop :=
  ∃ lz source databases, rdbLoad lz source = .ok (databases.map Db.loaded) ∧
    Relation.ReflTransGen Step (started databases) server

/-- What holds in all of them: `CREATE` has small numbers to search, and no string that is
tagged `INT` is empty. -/
structure Steady (server : Server) : Prop where
  counted : server.Counted
  strings : ∀ db ∈ server.databases, db.All Str.IntFilled

theorem started_steady {databases : List Db}
    (loaded : rdbLoad lz source = .ok (databases.map Db.loaded)) : (started databases).Steady := by
  refine ⟨started_counted databases, ?_⟩
  cases databases with
  | nil =>
      intro db member
      rw [List.mem_singleton.mp member]
      exact Db.empty_all 0
  | cons first rest =>
      intro db member
      obtain ⟨input, output, read⟩ := mem_rdbLoad loaded (List.mem_map_of_mem member)
      exact Db.load_all Str.decodeValue_intFilled read

theorem Steady.setDatabase (steady : server.Steady) {index : Nat} {db : Db}
    (all : db.All Str.IntFilled) : (server.setDatabase index db).Steady := by
  refine ⟨⟨?_, ?_⟩, fun other member => ?_⟩
  · rw [Server.setDatabase, List.length_set]
    exact steady.counted.marks
  · rw [Server.setDatabase, List.length_set]
    exact steady.counted.source
  · rcases List.mem_or_eq_of_mem_set member with old | rfl
    · exact steady.strings other old
    · exact all

theorem Counted.execCli (counted : server.Counted) {env : Env} {client : Nat} {c : CliCommand}
    {outcome : Outcome} (returned : server.execCli env client c = .ok outcome) :
    outcome.server.Counted ∧ (outcome.reply = some refused → outcome.server = server) ∧
      outcome.timers = [] := by
  rcases execCli_cases returned with ⟨reply, -, rfl⟩ | ⟨number, index, -, rfl⟩ |
    ⟨after, number, created, rfl⟩
  · exact ⟨counted, fun _ => rfl, rfl⟩
  · refine ⟨?_, fun refusing => ?_, rfl⟩
    · have selected := counted.select env.password number c.pswd
      exact ⟨selected.marks, selected.source⟩
    · have text := (List.cons.inj (Option.some.inj refusing)).1
      exact absurd (List.cons.inj text).1 (by decide)
  · obtain ⟨kept, other⟩ := counted.createDb created
    refine ⟨kept, fun refusing => ?_, rfl⟩
    rw [if_neg other, Option.some.injEq] at refusing
    exact absurd refusing (toStringInt_ne_refused _)

theorem Steady.execCli (steady : server.Steady) {env : Env} {client : Nat} {c : CliCommand}
    {outcome : Outcome} (returned : server.execCli env client c = .ok outcome) :
    outcome.server.Steady := by
  refine ⟨(steady.counted.execCli returned).1, fun db member => ?_⟩
  obtain ⟨index, there⟩ := List.mem_iff_getElem?.mp member
  rcases execCli_grows returned index db there with old | new
  · exact steady.strings db (List.mem_of_getElem? old)
  · obtain ⟨number, keyValueMap⟩ := db
    subst new
    exact Db.empty_all number

theorem Steady.execServer (steady : server.Steady) (env : Env) (client : Nat) (c : ServerCommand) :
    (server.execServer env client c).server.Steady := by
  obtain ⟨reply, -, same | ⟨-, -, left⟩⟩ := server.execServer_cases env client c
  · exact same ▸ steady
  · exact left ▸ ⟨⟨steady.counted.marks, steady.counted.source⟩, steady.strings⟩

theorem Step.steady (step : Step server server') (steady : server.Steady) : server'.Steady := by
  cases step with
  | connect client new => exact ⟨⟨steady.counted.marks, steady.counted.source⟩, steady.strings⟩
  | disconnect client => exact ⟨⟨steady.counted.marks, steady.counted.source⟩, steady.strings⟩
  | request env client parsed executed =>
      rcases Command.exec_cases executed with ⟨c, -, rfl⟩ | ⟨c, -, returned⟩ | ⟨same, -⟩ |
        ⟨valid, index, db, db', reply, timer, -, there, ran, rfl⟩
      · exact steady.execServer env client c
      · exact steady.execCli returned
      · exact same ▸ steady
      · exact steady.setDatabase (Command.onDb_all Str.intFilled_kept
          (requestToCommandExec_filled parsed) valid ran
          (steady.strings db (List.mem_of_getElem? there)))
  | expire there key =>
      exact steady.setDatabase (Db.del_all (steady.strings _ (List.mem_of_getElem? there)) key)
  | rehash there same =>
      exact steady.setDatabase (same.all (steady.strings _ (List.mem_of_getElem? there)))

theorem Ran.steady (ran : server.Ran) : server.Steady := by
  obtain ⟨lz, source, databases, loaded, steps⟩ := ran
  induction steps with
  | refl => exact started_steady loaded
  | tail _ step ih => exact step.steady ih

theorem Reachable.ran (reached : server.Reachable) : server.Ran :=
  ⟨Lzfse.storedBlocks, bytes "RDB", [], rfl, reached⟩

/-- A command other than `FORK` and `ENDFORKING` that answers `[" "]` has left the server as it
was, with its databases and its clients, and has handed no timer to the queue. -/
theorem refused_changes_nothing {server : Server} (ran : server.Ran) {env : Env} {client : Nat}
    {command : Command} (other : ∀ c, command ≠ .server c) {outcome : Outcome}
    (executed : command.exec env server client = .ok outcome)
    (refusal : outcome.reply = some refused) :
    outcome.server = server ∧ outcome.timers = [] := by
  have steady := ran.steady
  rcases Command.exec_cases executed with ⟨c, named, -⟩ | ⟨c, -, returned⟩ | ⟨same, -, quiet⟩ |
    ⟨valid, index, db, db', reply, timer, -, there, run, rfl⟩
  · exact absurd named (other c)
  · obtain ⟨-, kept, untimed⟩ := steady.counted.execCli returned
    exact ⟨kept refusal, untimed⟩
  · refine ⟨same, quiet.resolve_right fun ⟨_, ok, _⟩ => ?_⟩
    rw [refusal, Option.some.injEq] at ok
    exact okReply_ne_refused ok.symm
  · rw [Option.some.injEq] at refusal
    rw [refusal] at run
    obtain ⟨rfl, rfl⟩ := Command.onDb_refused (steady.strings db (List.mem_of_getElem? there)) run
    exact ⟨setDatabase_same there, rfl⟩

/-- `INCRBY` on digits with a sign in front, which are not tagged `INT`. -/
theorem refused_changes_nothing_incrBy :
    ∃ server, oneClient.serve quietEnv 0 [[bytes "SET", bytes "k", bytes "+1"]] = .ok server ∧
      server.Ran ∧
      requestToCommandExec [bytes "INCRBY", bytes "k", bytes "1"] =
        .ok (some (.str ⟨true, .incrBy, bytes "k", some (bytes "1")⟩)) ∧
      ∃ outcome, Command.exec quietEnv server 0 (.str ⟨true, .incrBy, bytes "k", some (bytes "1")⟩) =
          .ok outcome ∧
        outcome.reply = some refused ∧ outcome.server = server ∧ outcome.timers = [] := by
  refine oneClient_serves _ rfl fun reached => ⟨reached.ran, rfl, _, rfl, rfl, ?_⟩
  exact @refused_changes_nothing _ reached.ran quietEnv 0
    (.str ⟨true, .incrBy, bytes "k", some (bytes "1")⟩) (fun _ => nofun) _ rfl rfl

end Server

end ForkRedis
