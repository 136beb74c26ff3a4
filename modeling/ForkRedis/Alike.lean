import ForkRedis.Batches
import ForkRedis.Updates

set_option autoImplicit false

/- Databases that are the same up to the order in which hash containers list their
elements: whatever is executed on both leaves them so, as long as it is not `SPOP`, which
takes the first element there is. -/
namespace ForkRedis

open Decimal Lists Fallible

/- Alike values of each type. The tag of a string matters where the string can be
incremented; the strings that are only compared are alike by contents. -/

def StrList.Alike (l l' : List Str) : Prop := l.map Str.data = l'.map Str.data

def StrHash.Alike (h h' : StrHash) : Prop :=
  Keyed.Alike (fun field field' => field.2 = field'.2) h h'

def StrSet.Alike (s s' : StrSet) : Prop := Keyed.Alike (fun _ _ => True) s s'

theorem StrHash.Alike.refl (h : StrHash) : Alike h h := by
  refine Keyed.Alike.refl ?_ h
  exact fun _ => rfl

theorem StrSet.Alike.refl (s : StrSet) : Alike s s := Keyed.Alike.refl (fun _ => trivial) s

instance : DecidableRel StrHash.Alike := fun h h' =>
  inferInstanceAs (Decidable (Keyed.Alike (fun field field' => field.2 = field'.2) h h'))

instance : DecidableRel StrSet.Alike := fun s s' =>
  inferInstanceAs (Decidable (Keyed.Alike (fun _ _ => True) s s'))

namespace LinkedZSet

def pairs (z : LinkedZSet) : List (Bytes × Int32) :=
  z.entries.map fun entry => (entry.1.data, entry.2)

def Alike (z z' : LinkedZSet) : Prop := z.pairs = z'.pairs

end LinkedZSet

namespace Object

inductive Alike : Object → Object → Prop where
  | str (s : Str) : Alike (.str s) (.str s)
  | list {l l' : List Str} (alike : StrList.Alike l l') : Alike (.list l) (.list l')
  | hash {h h' : StrHash} (alike : StrHash.Alike h h') : Alike (.hash h) (.hash h')
  | set {s s' : StrSet} (alike : StrSet.Alike s s') : Alike (.set s) (.set s')
  | zset {z z' : LinkedZSet} (alike : z.Alike z') : Alike (.zset z) (.zset z')

theorem Alike.refl (object : Object) : object.Alike object := by
  cases object with
  | str s => exact .str s
  | list l => exact .list rfl
  | hash h => exact .hash (StrHash.Alike.refl h)
  | set s => exact .set (StrSet.Alike.refl s)
  | zset z => exact .zset rfl

theorem Alike.contents {object other : Object} (alike : object.Alike other) :
    object.contents = other.contents := by
  cases alike with
  | str s => rfl
  | list alike => exact congrArg Contents.list alike
  | @hash h h' alike =>
      refine congrArg Contents.hash (funext fun key => ?_)
      have found := alike key
      generalize h.find key = field at found
      generalize h'.find key = field' at found
      cases found with
      | none => rfl
      | some same => exact congrArg (fun value => some value.data) same
  | @set s s' alike =>
      refine congrArg Contents.set (Set.ext fun key => ?_)
      obtain ⟨forward, backward⟩ := Keyed.alike_iff.mp alike
      constructor
      · rintro ⟨m, member, rfl⟩
        obtain ⟨m', listed, same, -⟩ := forward m member
        exact ⟨m', listed, same⟩
      · rintro ⟨m', member, rfl⟩
        exact backward m' member
  | zset alike => exact congrArg Contents.zset alike

instance : DecidableRel Alike
  | .str s, .str s' => decidable_of_iff (s = s') ⟨fun same => same ▸ .str s, fun | .str _ => rfl⟩
  | .list l, .list l' => decidable_of_iff (l.map Str.data = l'.map Str.data)
      ⟨.list, fun | .list alike => alike⟩
  | .hash h, .hash h' => decidable_of_iff (StrHash.Alike h h') ⟨.hash, fun | .hash alike => alike⟩
  | .set s, .set s' => decidable_of_iff (StrSet.Alike s s') ⟨.set, fun | .set alike => alike⟩
  | .zset z, .zset z' => decidable_of_iff (z.pairs = z'.pairs) ⟨.zset, fun | .zset alike => alike⟩
  | .str _, .list _ | .str _, .hash _ | .str _, .set _ | .str _, .zset _
  | .list _, .str _ | .list _, .hash _ | .list _, .set _ | .list _, .zset _
  | .hash _, .str _ | .hash _, .list _ | .hash _, .set _ | .hash _, .zset _
  | .set _, .str _ | .set _, .list _ | .set _, .hash _ | .set _, .zset _
  | .zset _, .str _ | .zset _, .list _ | .zset _, .hash _ | .zset _, .set _ => isFalse nofun

end Object

/- What each command leaves of alike values is alike. -/

theorem eachPair_parallel {γ δ : Type} {R : γ → δ → Prop}
    {round : γ → Str → Str → Except Fault γ} {round' : δ → Str → Str → Except Fault δ}
    (rounds : ∀ acc acc' first second, R acc acc' →
      Parallel R (round acc first second) (round' acc' first second))
    {acc : γ} {acc' : δ} (start : R acc acc') (values : List Str) :
    Parallel R (eachPair round acc values) (eachPair round' acc' values) := by
  match values with
  | [] => exact .ok start
  | [_] => exact .error _ _
  | first :: second :: rest =>
      exact (rounds acc acc' first second start).bind fun _ _ next =>
        eachPair_parallel rounds next rest

namespace StrList

variable {l l' : List Str}

theorem Alike.length (alike : Alike l l') : l.length = l'.length := by
  have sizes := congrArg List.length alike
  rwa [List.length_map, List.length_map] at sizes

theorem Alike.eq_nil_iff (alike : Alike l l') : l = [] ↔ l' = [] := by
  rw [← List.length_eq_zero_iff, alike.length, List.length_eq_zero_iff]

theorem Alike.popFront (alike : Alike l l') : Alike (popFront l).1 (popFront l').1 := by
  have tail (l : List Str) : (StrList.popFront l).1 = l.tail := by cases l <;> rfl
  rw [Alike, tail, tail, List.map_tail, List.map_tail, alike]

theorem Alike.popBack (alike : Alike l l') : Alike (popBack l).1 (popBack l').1 := by
  have front (l : List Str) : (StrList.popBack l).1 = l.dropLast := by
    rw [StrList.popBack]
    split
    · rename_i none_last
      rw [List.getLast?_eq_none_iff.mp none_last]
      rfl
    · rfl
  rw [Alike, front, front, List.map_dropLast, List.map_dropLast, alike]

theorem Alike.trim (alike : Alike l l') (begin end_ : Int32) :
    Parallel (fun result result' => Alike result.1 result'.1) (trim l begin end_)
      (trim l' begin end_) := by
  rw [StrList.trim, StrList.trim, alike.length]
  simp only [alike.eq_nil_iff]
  split
  · exact .ok alike
  · split
    · exact .ok alike
    · split
      · refine .ok ?_
        simp only [Alike, List.map_append, List.map_take, List.map_drop]
        rw [alike]
      · exact .error _ _

theorem Alike.set (alike : Alike l l') (index : Int32) (value : Str) :
    Parallel (fun result result' => Alike result.1 result'.1) (set l index value)
      (set l' index value) := by
  rw [StrList.set, StrList.set, node, node, alike.length]
  simp only [alike.eq_nil_iff]
  split
  · exact .ok alike
  · refine Parallel.bind_same fun p => .ok ?_
    simp only [Alike, List.map_set]
    rw [alike]

end StrList

namespace ListCommand

theorem onList_alike (c : ListCommand) {l l' : List Str} (alike : StrList.Alike l l') :
    Parallel (fun result result' => StrList.Alike result.1 result'.1) (onList c l)
      (onList c l') := by
  unfold onList
  split
  · refine .ok (List.foldl_rel alike fun value _ acc acc' same => ?_)
    exact congrArg (value.data :: ·) same
  · refine .ok (List.foldl_rel alike fun value _ acc acc' same => ?_)
    simp only [StrList.Alike, StrList.pushBack, List.map_append]
    rw [same]
  · exact .ok alike.popFront
  · exact .ok alike.popBack
  · refine (Parallel.of_raises ?_).bind fun _ _ _ => .ok alike
    simp only [raises_mapM, indexTexts_raises, alike.length, ne_eq, alike.eq_nil_iff]
  · exact .ok alike
  · refine Parallel.bind_same fun count => Parallel.bind_same fun intval => ?_
    cases intval with
    | none => exact .ok alike
    | some n =>
        refine Parallel.bind_same fun value => ?_
        rw [StrList.rem_eq, StrList.rem_eq]
        exact .ok alike
  · refine Parallel.bind_same fun begin => Parallel.bind_same fun intval1 =>
      Parallel.bind_same fun end_ => Parallel.bind_same fun intval2 => ?_
    split
    · exact (alike.trim _ _).bind fun _ _ same => .ok same
    · exact .ok alike
  · refine Parallel.bind_same fun index => Parallel.bind_same fun intval => ?_
    cases intval with
    | none => exact .ok alike
    | some n =>
        exact Parallel.bind_same fun value => (alike.set n value).bind fun _ _ same => .ok same

end ListCommand

namespace StrHash

variable {h h' : StrHash}

theorem Alike.put (alike : Alike h h') (key value : Str) :
    Alike (h.put key value) (h'.put key value) :=
  Keyed.Alike.modify alike key.data _ _ fun _ _ _ => rfl

theorem Alike.set (alike : Alike h h') (key value : Str) :
    Alike (StrHash.set h key value) (StrHash.set h' key value) := by
  have found := alike key.data
  rw [StrHash.set, StrHash.set]
  generalize h.find key.data = field at found
  generalize h'.find key.data = field' at found
  cases found with
  | none => exact Keyed.Alike.insert alike rfl
  | some _ => exact alike.put key value

theorem Alike.del (alike : Alike h h') (key : Str) : Alike (h.del key) (h'.del key) :=
  Keyed.Alike.erase alike key.data

theorem Alike.incrBy (alike : Alike h h') (key : Str) (delta : Int32) :
    Parallel (fun result result' => Alike result.1 result'.1) (h.incrBy key delta)
      (h'.incrBy key delta) := by
  have found := alike key.data
  rw [StrHash.incrBy, StrHash.incrBy]
  generalize h.find key.data = field at found
  generalize h'.find key.data = field' at found
  cases found with
  | none => exact .ok alike
  | some same =>
      dsimp only
      rw [same]
      exact Parallel.bind_same fun result => .ok (alike.put key result.1)

end StrHash

namespace HashCommand

theorem addBy_alike {method : StrHash → Str → Int32 → Except Fault (StrHash × Bytes)}
    (c : HashCommand) {h h' : StrHash} (alike : StrHash.Alike h h')
    (respects : ∀ key n, Parallel (fun result result' => StrHash.Alike result.1 result'.1)
      (method h key n) (method h' key n)) :
    Parallel (fun result result' => StrHash.Alike result.1 result'.1) (addBy method c h)
      (addBy method c h') := by
  refine Parallel.bind_same fun delta => Parallel.bind_same fun intval => ?_
  cases intval with
  | none => exact .ok alike
  | some n => exact Parallel.bind_same fun key => (respects key n).bind fun _ _ same => .ok same

theorem onHash_alike (c : HashCommand) {h h' : StrHash} (alike : StrHash.Alike h h') :
    Parallel (fun result result' => StrHash.Alike result.1 result'.1) (onHash c h)
      (onHash c h') := by
  unfold onHash
  split
  · refine (eachPair_parallel ?_ alike c.values).bind fun _ _ same => .ok same
    exact fun _ _ key value same => .ok (same.set key value)
  · exact .ok alike
  · exact .ok alike
  · exact .ok (List.foldl_rel alike fun key _ _ _ same => same.del key)
  · exact .ok alike
  · exact .ok alike
  · exact addBy_alike c alike alike.incrBy
  · exact addBy_alike c alike fun key n => alike.incrBy key (-n)

end HashCommand

namespace StrSet

variable {s s' : StrSet}

theorem Alike.add (alike : Alike s s') (m : Str) : Alike (s.add m).1 (s'.add m).1 :=
  Keyed.Alike.insert alike trivial

theorem Alike.rem (alike : Alike s s') (m : Str) : Alike (s.rem m).1 (s'.rem m).1 :=
  Keyed.Alike.erase alike m.data

end StrSet

namespace SetCommand

theorem combine_alike (method : StrSet → StrSet → Bool → List Str)
    (get get' : Bytes → Option Object) (c : SetCommand) {s s' : StrSet}
    (alike : StrSet.Alike s s') :
    Parallel (fun result result' => StrSet.Alike result.1 result'.1) (combine method get c s)
      (combine method get' c s') := by
  refine Parallel.bind_same fun another => ?_
  split <;> split <;> exact .ok alike

theorem onSet_alike (random : Nat) (get get' : Bytes → Option Object) {c : SetCommand}
    (stays : c.command ≠ .spop) {s s' : StrSet} (alike : StrSet.Alike s s') :
    Parallel (fun result result' => StrSet.Alike result.1 result'.1) (onSet random get c s)
      (onSet random get' c s') := by
  unfold onSet
  split
  · refine .ok ?_
    simp only [foldl_counted]
    exact List.foldl_rel alike fun m _ _ _ same => same.add m
  · exact .ok alike
  · exact .ok alike
  · exact .ok alike
  · exact .ok alike
  · contradiction
  · refine .ok ?_
    simp only [foldl_counted]
    exact List.foldl_rel alike fun m _ _ _ same => same.rem m
  · exact combine_alike _ get get' c alike
  · exact combine_alike _ get get' c alike

end SetCommand

namespace LinkedZSet

theorem pairs_add (z : LinkedZSet) (score : Int32) (member : Str) :
    (z.add score member).1.pairs =
      if ∃ pair ∈ z.pairs, pair.1 = member.data then z.pairs
      else z.pairs ++ [(member.data, score)] := by
  have there : (∃ pair ∈ z.pairs, pair.1 = member.data) ↔
      ∃ entry ∈ z.entries, entry.1.data = member.data := by
    simp only [pairs, List.mem_map, exists_exists_and_eq_and]
  rw [pairs, entries_add]
  simp only [there]
  split
  · rfl
  · rw [List.map_append, List.map_singleton]
    rfl

theorem mem_pairs_iff (z : LinkedZSet) (score : Int32) (member : Str) :
    (∃ entry ∈ z.entries, entry.1.data = member.data ∧ entry.2 = score) ↔
      (member.data, score) ∈ z.pairs := by
  simp only [pairs, List.mem_map, Prod.mk.injEq]

theorem pairs_rem {z z' : LinkedZSet} {score : Int32} {member : Str} {removed : Bool}
    (returned : z.rem score member = .ok (z', removed)) :
    z'.pairs = if (member.data, score) ∈ z.pairs then
      z.pairs.filter fun pair => pair.1 != member.data else z.pairs := by
  rw [pairs, entries_rem returned]
  simp only [mem_pairs_iff]
  split
  · rw [pairs, List.filter_map]
    rfl
  · rfl

theorem pairs_incrBy {z z' : LinkedZSet} {delta : Int32} {member : Str} {text : Bytes}
    (returned : z.incrBy delta member = .ok (z', text)) :
    z'.pairs = z.pairs.map fun pair =>
      if pair.1 = member.data then (pair.1, pair.2 + delta) else pair := by
  rw [pairs, entries_incrBy returned, pairs, List.map_map, List.map_map]
  apply List.map_congr_left
  intro entry _
  simp only [Function.comp_apply]
  split <;> rfl

theorem card_eq (z : LinkedZSet) : z.1.card = z.pairs.length := by
  obtain ⟨es, rep⟩ := z.2
  rw [ZSet.card, rep.seq, pairs, entries_eq rep, List.length_map, List.length_map, List.length_map]

variable {z z' : LinkedZSet}

theorem Alike.add (alike : z.Alike z') (score : Int32) (member : Str) :
    (z.add score member).1.Alike (z'.add score member).1 := by
  rw [Alike, pairs_add, pairs_add, alike]

theorem Alike.rem (alike : z.Alike z') (score : Int32) (member : Str) :
    Parallel (fun result result' => Alike result.1 result'.1) (z.rem score member)
      (z'.rem score member) := by
  have both : Raises (z.rem score member) ↔ Raises (z'.rem score member) := by
    rw [rem_raises, rem_raises, mem_pairs_iff, mem_pairs_iff, alike]
  generalize first : z.rem score member = result at both
  generalize second : z'.rem score member = result' at both
  cases Parallel.of_raises both with
  | error fault fault' => exact .error fault fault'
  | ok _ =>
      refine .ok ?_
      rw [Alike, pairs_rem first, pairs_rem second, alike]

theorem Alike.incrBy (alike : z.Alike z') (delta : Int32) (member : Str) :
    Parallel (fun result result' => Alike result.1 result'.1) (z.incrBy delta member)
      (z'.incrBy delta member) := by
  obtain ⟨result, first⟩ := not_raises_iff.mp (z.incrBy_returns delta member)
  obtain ⟨result', second⟩ := not_raises_iff.mp (z'.incrBy_returns delta member)
  rw [first, second]
  refine .ok ?_
  rw [Alike, pairs_incrBy first, pairs_incrBy second, alike]

end LinkedZSet

namespace ZSetCommand

theorem scored_alike {method : LinkedZSet → Int32 → Str → Except Fault (LinkedZSet × Bool)}
    (respects : ∀ z z' n member, LinkedZSet.Alike z z' →
      Parallel (fun result result' => LinkedZSet.Alike result.1 result'.1) (method z n member)
        (method z' n member))
    (acc acc' : LinkedZSet × Int32) (score member : Str) (alike : acc.1.Alike acc'.1) :
    Parallel (fun next next' => LinkedZSet.Alike next.1 next'.1) (scored method acc score member)
      (scored method acc' score member) := by
  refine Parallel.bind_same fun intval => ?_
  cases intval with
  | none => exact .ok alike
  | some n => exact (respects acc.1 acc'.1 n member alike).bind fun _ _ same => .ok same

/-- A command that only asks, and of alike sets faults on both or on none. -/
theorem asks_alike {z z' : LinkedZSet} (alike : z.Alike z') {answer answer' : Except Fault Reply}
    (both : Raises answer ↔ Raises answer') :
    Parallel (fun result result' => LinkedZSet.Alike result.1 result'.1)
      (answer >>= fun reply => .ok (z, reply)) (answer' >>= fun reply => .ok (z', reply)) :=
  (Parallel.of_raises both).bind fun _ _ _ => .ok alike

theorem between_alike {z z' : LinkedZSet} (alike : z.Alike z')
    {answer answer' : Int32 → Int32 → Except Fault Reply} (c : ZSetCommand)
    (both : ∀ low high, Raises (answer low high) ↔ Raises (answer' low high)) :
    Parallel (fun result result' => LinkedZSet.Alike result.1 result'.1)
      (between answer c >>= fun reply => .ok (z, reply))
      (between answer' c >>= fun reply => .ok (z', reply)) := by
  refine asks_alike alike ?_
  unfold between
  simp only [raises_bind]
  refine or_congr_right (exists_congr fun low => and_congr_right fun _ => or_congr_right
    (exists_congr fun intval1 => and_congr_right fun _ => or_congr_right
      (exists_congr fun high => and_congr_right fun _ => or_congr_right
        (exists_congr fun intval2 => and_congr_right fun _ => ?_))))
  cases intval1 with
  | none => exact Iff.rfl
  | some low =>
      cases intval2 with
      | none => exact Iff.rfl
      | some high => exact both low high

theorem onZSet_alike (c : ZSetCommand) {z z' : LinkedZSet} (alike : z.Alike z') :
    Parallel (fun result result' => LinkedZSet.Alike result.1 result'.1) (onZSet c z)
      (onZSet c z') := by
  have neither {α β : Type} {first : Except Fault α} {second : Except Fault β}
      (returns : ¬ Raises first) (returns' : ¬ Raises second) : Raises first ↔ Raises second :=
    iff_of_false returns returns'
  unfold onZSet
  split
  · refine (eachPair_parallel (scored_alike ?_) alike c.values).bind fun _ _ same => .ok same
    exact fun _ _ n member same => .ok (same.add n member)
  · exact .ok alike
  · refine (eachPair_parallel (scored_alike ?_) alike c.values).bind fun _ _ same => .ok same
    exact fun _ _ n member same => same.rem n member
  · exact between_alike alike c fun _ _ => neither (not_raises_ok _) (not_raises_ok _)
  · exact Parallel.bind_same fun low => Parallel.bind_same fun high => .ok alike
  · refine Parallel.bind_same fun delta => Parallel.bind_same fun intval => ?_
    cases intval with
    | none => exact .ok alike
    | some n =>
        exact Parallel.bind_same fun member => (alike.incrBy n member).bind fun _ _ same => .ok same
  · refine Parallel.bind_same fun delta => Parallel.bind_same fun intval => ?_
    cases intval with
    | none => exact .ok alike
    | some n =>
        exact Parallel.bind_same fun member =>
          (alike.incrBy (-1) member).bind fun _ _ same => .ok same
  · refine between_alike alike c fun low high => ?_
    simp only [pure_eq_ok, raises_bind_ok, LinkedZSet.range_raises, LinkedZSet.card_eq]
    rw [alike]
  · refine between_alike alike c fun low high => ?_
    simp only [pure_eq_ok, raises_bind_ok]
    exact neither (z.rangeByScore_returns low high) (z'.rangeByScore_returns low high)
  · refine Parallel.bind_same fun low => Parallel.bind_same fun high => ?_
    exact (Parallel.of_raises (neither (z.rangeByLex_returns low high)
      (z'.rangeByLex_returns low high))).bind fun _ _ _ => .ok alike
  · refine Parallel.bind_same fun member => ?_
    exact (Parallel.of_raises (neither (z.rank_returns member)
      (z'.rank_returns member))).bind fun _ _ _ => .ok alike
  · refine Parallel.bind_same fun member => ?_
    exact (Parallel.of_raises (neither (z.score_returns member)
      (z'.score_returns member))).bind fun _ _ _ => .ok alike

end ZSetCommand

/- Databases. -/

structure KeyValue.Alike (kv kv' : KeyValue) : Prop where
  value : kv.value.Alike kv'.value
  expiry : kv.expireTimeUs = kv'.expireTimeUs

/-- Alike entries under every key. -/
def Db.Alike (db other : Db) : Prop :=
  Keyed.Alike KeyValue.Alike db.keyValueMap other.keyValueMap

instance : DecidableRel KeyValue.Alike := fun kv kv' =>
  decidable_of_iff (kv.value.Alike kv'.value ∧ kv.expireTimeUs = kv'.expireTimeUs)
    ⟨fun ⟨value, expiry⟩ => ⟨value, expiry⟩, fun ⟨value, expiry⟩ => ⟨value, expiry⟩⟩

instance : DecidableRel Db.Alike := fun db other =>
  inferInstanceAs (Decidable (Keyed.Alike KeyValue.Alike db.keyValueMap other.keyValueMap))

/-- What a type of objects needs for the frame of its commands. -/
structure ObjectKind.Respects {α : Type} (kind : ObjectKind α) (R : α → α → Prop) : Prop where
  fresh : R kind.fresh kind.fresh
  wrap : ∀ {value value'}, R value value' → (kind.wrap value).Alike (kind.wrap value')
  unwrap : ∀ {object object'}, object.Alike object' →
    Option.Rel R (kind.unwrap object) (kind.unwrap object')

namespace ObjectKind

theorem str_respects : str.Respects Eq where
  fresh := rfl
  wrap := by
    rintro value _ rfl
    exact .str value
  unwrap := by
    rintro object object' alike
    cases alike with
    | str s => exact .some rfl
    | list _ | hash _ | set _ | zset _ => exact .none

theorem list_respects : list.Respects StrList.Alike where
  fresh := rfl
  wrap := .list
  unwrap := by
    rintro object object' alike
    cases alike with
    | list alike => exact .some alike
    | str _ | hash _ | set _ | zset _ => exact .none

theorem hash_respects : hash.Respects StrHash.Alike where
  fresh := StrHash.Alike.refl _
  wrap := .hash
  unwrap := by
    rintro object object' alike
    cases alike with
    | hash alike => exact .some alike
    | str _ | list _ | set _ | zset _ => exact .none

theorem set_respects : set.Respects StrSet.Alike where
  fresh := StrSet.Alike.refl _
  wrap := .set
  unwrap := by
    rintro object object' alike
    cases alike with
    | set alike => exact .some alike
    | str _ | list _ | hash _ | zset _ => exact .none

theorem zset_respects : zset.Respects LinkedZSet.Alike where
  fresh := rfl
  wrap := .zset
  unwrap := by
    rintro object object' alike
    cases alike with
    | zset alike => exact .some alike
    | str _ | list _ | hash _ | set _ => exact .none

end ObjectKind

namespace Db

variable {db other : Db}

theorem Alike.refl (db : Db) : db.Alike db :=
  Keyed.Alike.refl (fun kv => ⟨Object.Alike.refl kv.value, rfl⟩) db.keyValueMap

theorem Alike.contents (alike : db.Alike other) : db.contents = other.contents := by
  funext key
  have entries := alike key
  rw [Db.contents, Db.contents, Store.keySpace, Store.keySpace]
  generalize db.keyValueMap.find key = found at entries
  generalize other.keyValueMap.find key = found' at entries
  cases entries with
  | none => rfl
  | some same => rw [Option.map_some, Option.map_some, same.value.contents, same.expiry]

theorem Alike.store (alike : db.Alike other) (key : Bytes) {object object' : Object}
    (same : object.Alike object') : (db.store key object).Alike (other.store key object') := by
  refine Keyed.Alike.modify alike key ?_ ?_ fun _ _ entries => ⟨same, entries.expiry⟩
  all_goals exact fun _ => rfl

theorem Alike.newObject (alike : db.Alike other) (key : Bytes) (object : Object) :
    (db.newObject key object).Alike (other.newObject key object) :=
  Keyed.Alike.insert alike ⟨Object.Alike.refl object, rfl⟩

theorem Alike.del (alike : db.Alike other) (key : Bytes) :
    (db.del key).1.Alike (other.del key).1 :=
  Keyed.Alike.erase alike key

theorem Alike.makeExpireAt (alike : db.Alike other) (key : Bytes) (time : UInt64) :
    (db.makeExpireAt key time).Alike (other.makeExpireAt key time) := by
  refine Keyed.Alike.modify alike key ?_ ?_ fun _ _ entries => ⟨entries.value, rfl⟩
  all_goals exact fun _ => rfl

theorem Alike.get (alike : db.Alike other) (key : Bytes) :
    Option.Rel Object.Alike (db.get key) (other.get key) :=
  rel_map (alike key) fun _ _ entries => entries.value

theorem Alike.execOn {α : Type} (alike : db.Alike other) {kind : ObjectKind α}
    {R : α → α → Prop} (respects : kind.Respects R) (key : Bytes) (creates : Bool)
    {method method' : α → Except Fault (α × Reply)}
    (methods : ∀ value value', R value value' →
      Parallel (fun result result' => R result.1 result'.1) (method value) (method' value')) :
    Parallel (fun result result' => Db.Alike result.1 result'.1)
      (db.execOn kind key creates method) (other.execOn kind key creates method') := by
  have held := alike.get key
  rw [Db.execOn, Db.execOn]
  generalize db.get key = found at held
  generalize other.get key = found' at held
  cases held with
  | none =>
      dsimp only
      split
      · exact (methods _ _ respects.fresh).bind fun result result' same =>
          .ok ((alike.newObject key _).store key (respects.wrap same))
      · exact .ok alike
  | @some object object' same =>
      have values := respects.unwrap same
      dsimp only
      generalize kind.unwrap object = value at values
      generalize kind.unwrap object' = value' at values
      cases values with
      | none => exact .ok alike
      | some related =>
          exact (methods _ _ related).bind fun result result' equal =>
            .ok (alike.store key (respects.wrap equal))

end Db

theorem DbCommand.exec_alike (now : UInt64) (c : DbCommand) {db other : Db}
    (alike : db.Alike other) :
    Parallel (fun result result' => Db.Alike result.1 result'.1) (DbCommand.exec now c db)
      (DbCommand.exec now c other) := by
  unfold DbCommand.exec
  split
  · exact .ok (alike.del c.objName)
  · refine Parallel.bind_same fun value => Parallel.bind_same fun time => ?_
    cases time with
    | none => exact .ok alike
    | some time =>
        refine .ok ?_
        change Db.Alike (db.expireAt c.objName time).1 (other.expireAt c.objName time).1
        rw [Db.expireAt, Db.expireAt]
        have entries := alike c.objName
        generalize db.keyValueMap.find c.objName = found at entries
        generalize other.keyValueMap.find c.objName = found' at entries
        cases entries with
        | none => exact alike
        | some _ => exact alike.makeExpireAt c.objName time
  · exact .ok alike
  · exact .ok alike

namespace Command

def isSpop : Command → Bool
  | .set c => c.command == .spop
  | _ => false

theorem onDb_alike (env : Env) {command : Command} (stays : command.isSpop = false)
    {db other : Db} (alike : db.Alike other) :
    Parallel (fun result result' => Db.Alike result.1 result'.1) (command.onDb env db)
      (command.onDb env other) := by
  cases command with
  | server c | cli c => exact .ok alike
  | db c => exact DbCommand.exec_alike env.now c alike
  | str c =>
      refine (alike.execOn ObjectKind.str_respects c.objName _ ?_).map fun _ _ same => same
      rintro value _ rfl
      exact Parallel.refl (R := fun (result result' : Str × Reply) => result.1 = result'.1)
        (fun _ => rfl) _
  | list c =>
      exact (alike.execOn ObjectKind.list_respects c.objName _ fun _ _ same =>
        ListCommand.onList_alike c same).map fun _ _ same => same
  | hash c =>
      exact (alike.execOn ObjectKind.hash_respects c.objName _ fun _ _ same =>
        HashCommand.onHash_alike c same).map fun _ _ same => same
  | set c =>
      exact (alike.execOn ObjectKind.set_respects c.objName _ fun _ _ same =>
        SetCommand.onSet_alike env.random db.get other.get (beq_eq_false_iff_ne.mp stays)
          same).map fun _ _ same => same
  | zset c =>
      exact (alike.execOn ObjectKind.zset_respects c.objName _ fun _ _ same =>
        ZSetCommand.onZSet_alike c same).map fun _ _ same => same

theorem result_alike (env : Env) {command : Command} (stays : command.isSpop = false)
    {db other : Db} (alike : db.Alike other) :
    Parallel Db.Alike (command.result env db) (command.result env other) := by
  rw [result, result]
  split
  · exact (onDb_alike env stays alike).map fun _ _ same => same
  · exact .ok alike

theorem isSpop_of_toCommand {request : Request} {name : CommandName} {command : Command}
    (stays : name ≠ .set .spop) (made : toCommand request name = .ok command) :
    command.isSpop = false := by
  cases name with
  | server name =>
      obtain ⟨c, -, made⟩ := bind_eq_ok.mp made
      cases made
      rfl
  | set name =>
      cases made
      rw [isSpop, jsonToSetCommand, jsonToValuesCommand_command, beq_eq_false_iff_ne]
      exact fun same => stays (congrArg CommandName.set same)
  | cli name | db name | str name | list name | hash name | zset name =>
      cases made
      rfl

end Command

theorem Db.handle_alike (env : Env) {db other : Db} (alike : db.Alike other) {request : Request}
    (stays : commandOf request ≠ some (.set .spop)) :
    Parallel Db.Alike (db.handle env request) (other.handle env request) := by
  rw [Db.handle, Db.handle, requestToCommandExec_eq]
  cases named : commandOf request with
  | none => exact .ok alike
  | some name =>
      have other_name : name ≠ .set .spop := fun same => stays (named.trans (congrArg some same))
      dsimp only
      cases made : toCommand (request.head?.toList.map (List.map toUpper) ++ request.tail) name with
      | error fault => exact .error fault fault
      | ok command =>
          exact Command.result_alike env (Command.isSpop_of_toCommand other_name made) alike

theorem simulates_alike :
    Simulates Db.Alike fun request => commandOf request ≠ some (.set .spop) where
  refl := Db.Alike.refl
  contents := Db.Alike.contents
  handle := fun alike _ stays handled => (Db.handle_alike _ alike stays).returns handled

end ForkRedis
