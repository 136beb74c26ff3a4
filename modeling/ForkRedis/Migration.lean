import ForkRedis.Hazards
import ForkRedis.Replay
import ForkRedis.Updates
import ForkRedis.Words

set_option autoImplicit false

/- What is left of a database when the requests that `Fork` writes for it are executed on
an empty one: `FORK` and the rewrite of the log rest on this. -/
namespace ForkRedis

open Decimal Lists Fallible

variable {env : Env} {db db' : Db} {items : List KeyValue} {object : Object} {key first : Bytes}

namespace Object

/-- The command that `Fork` writes for an object. -/
def forkName : Object → Bytes
  | .str _ => bytes "SET"
  | .list _ => bytes "LPUSHB"
  | .hash _ => bytes "HSET"
  | .set _ => bytes "SADD"
  | .zset _ => bytes "ZADD"

/-- The texts it writes behind the key. -/
def forkTexts : Object → List Bytes
  | .str s => [s.data]
  | .list l => l.map Str.data
  | .hash h => h.items.flatMap fun field => [field.1.data, field.2.data]
  | .set s => s.items.map Str.data
  | .zset z => z.entries.flatMap fun entry => [toStringInt entry.2, entry.1.data]

theorem fork_words (key : Bytes) (object : Object) :
    rawCommandToRequest (object.fork key) =
      object.forkName ::
        (rawCommandToRequest key ++ object.forkTexts.flatMap rawCommandToRequest) := by
  have scanned (name : Bytes) (word : Word name) (payload : Bytes) :
      rawCommandToRequest (name ++ [space] ++ (key ++ (space :: payload))) =
        name :: (rawCommandToRequest key ++ rawCommandToRequest payload) := by
    rw [List.append_assoc, List.singleton_append,
      rawCommandToRequest_word_separator word isTokenMember_space,
      rawCommandToRequest_append key isTokenMember_space]
  cases object with
  | str s =>
      have text : ([s.data].flatMap rawCommandToRequest) = rawCommandToRequest s.data := by
        rw [List.flatMap_singleton]
      rw [forkTexts, text]
      exact scanned (bytes "SET") (by decide) s.data
  | list l =>
      rw [forkTexts, ← rawCommandToRequest_spaced]
      exact scanned (bytes "LPUSHB") (by decide) _
  | hash h =>
      rw [forkTexts, ← rawCommandToRequest_spaced]
      exact scanned (bytes "HSET") (by decide) _
  | set s =>
      rw [forkTexts, ← rawCommandToRequest_spaced]
      exact scanned (bytes "SADD") (by decide) _
  | zset z =>
      rw [forkTexts, ← rawCommandToRequest_spaced]
      exact scanned (bytes "ZADD") (by decide) _

/-- The object a command of `Fork` creates from its arguments; none if it is refused. -/
def rebuild (args : List Bytes) : Object → Except Fault (Option Object)
  | .str _ => .ok (args.head?.map fun text => .str (Str.ofData text))
  | .list _ => .ok (if args ≠ [] then some (.list (args.map Str.ofData)) else none)
  | .hash _ =>
      if args ≠ [] ∧ args.length % 2 = 0 then do
        let tbl ← eachPair (fun tbl key value => .ok (StrHash.set tbl key value)) Keyed.empty
          (args.map Str.ofData)
        return some (.hash tbl)
      else .ok none
  | .set _ => .ok (if args ≠ [] then some (.set (Keyed.ofList (args.map Str.ofData))) else none)
  | .zset _ =>
      if args ≠ [] ∧ args.length % 2 = 0 then do
        let (zst, _) ← eachPair (ZSetCommand.scored fun z n m => .ok (z.add n m))
          (LinkedZSet.empty, 0) (args.map Str.ofData)
        return some (.zset zst)
      else .ok none

end Object

/- A request of `Fork` on a database that does not have its key. -/

theorem accepted_filled {arity : Nat → Bool} {args : List Bytes}
    (filled : ∀ text ∈ first :: key :: args, text ≠ []) :
    accepted false arity (first :: key :: args) =
      if args ≠ [] ∧ arity (args.length + 2) = true then some (key, args) else none := by
  have none_empty : (first :: key :: args).any List.isEmpty = false := by
    rw [List.any_eq_false]
    intro text member
    rw [List.isEmpty_iff]
    exact filled text member
  rw [accepted, none_empty]
  cases args with
  | nil => rfl
  | cons arg args => simp

namespace Db

theorem store_newObject (absent : db.keyValueMap.find key = none) (first second : Object) :
    (db.newObject key first).store key second = db.newObject key second := by
  have others : ∀ kv ∈ db.keyValueMap.items, Entry.name kv ≠ key :=
    db.keyValueMap.find_eq_none_iff.mp absent
  have fresh (object : Object) :
      db.keyValueMap.find (Entry.name (⟨Str.ofData key, object, none⟩ : KeyValue)) = none := absent
  have named (object : Object) :
      Entry.name (⟨Str.ofData key, object, none⟩ : KeyValue) = key := rfl
  refine ext_map ?_ (Keyed.ext_items ?_)
  · rfl
  simp only [store, newObject, Keyed.modify, Keyed.insert_of_fresh (fresh _), List.map_cons, named,
    ↓reduceIte]
  congr 1
  apply map_fixed
  intro kv member
  rw [if_neg (others kv member)]

theorem execOn_absent {α : Type} (absent : db.keyValueMap.find key = none) (kind : ObjectKind α)
    (method : α → Except Fault (α × Reply)) :
    (db.execOn kind key true method).map Prod.fst =
      (method kind.fresh).map fun result => db.newObject key (kind.wrap result.1) := by
  rw [execOn, get_eq_none_iff.mpr absent]
  cases method kind.fresh with
  | error fault => rfl
  | ok result => exact congrArg Except.ok (store_newObject absent _ _)

/-- A key is added, unless there is nothing to store under it. -/
def adding (db : Db) (key : Bytes) : Option Object → Db
  | none => db
  | some object => db.newObject key object

end Db

section Families

variable {Name α : Type} {env : Env} {db : Db} {first key : Bytes}
  {args : List Bytes}

/-- A command with a vector of arguments that creates its object. -/
theorem result_values (family : ValuesCommand Name → Command) (kind : ObjectKind α)
    (method : ValuesCommand Name → α → Except Fault (α × Reply)) (name : Name)
    (arity : Nat → Bool) (valid : ∀ c, (family c).valid = c.valid)
    (runs : (family ⟨true, name, key, args.map Str.ofData⟩).onDb env db =
      untimed (db.execOn kind key true (method ⟨true, name, key, args.map Str.ofData⟩)))
    (absent : db.keyValueMap.find key = none)
    (filled : ∀ text ∈ first :: key :: args, text ≠ []) :
    (family (jsonToValuesCommand name false arity (first :: key :: args))).result env db =
      if args ≠ [] ∧ arity (args.length + 2) = true then
        (method ⟨true, name, key, args.map Str.ofData⟩ kind.fresh).map fun result =>
          db.newObject key (kind.wrap result.1)
      else .ok db := by
  have parsed := jsonToValuesCommand_eq name false arity (first :: key :: args)
  rw [accepted_filled filled] at parsed
  split
  · rename_i enough
    rw [if_pos enough] at parsed
    have made : jsonToValuesCommand name false arity (first :: key :: args) =
        ⟨true, name, key, args.map Str.ofData⟩ := parsed
    rw [made, Command.result, valid, runs, untimed_fst, Db.execOn_absent absent]
    rfl
  · rename_i few
    rw [if_neg few] at parsed
    have refused : (jsonToValuesCommand name false arity (first :: key :: args)).valid = false :=
      parsed
    rw [Command.result, valid, refused]
    rfl

end Families

namespace Db

theorem handle_named {rest : Request} {name : CommandName} {command : Command}
    (named : commandName first = some name) (upper : first.map toUpper = first)
    (made : toCommand (first :: rest) name = .ok command) :
    db.handle env (first :: rest) = command.result env db := by
  rw [handle, requestToCommandExec, upper, named]
  simp only [made, ok_bind, pure_eq_ok]

/-- The arguments are pairs when the whole request has an even number of elements. -/
theorem pairs_even_iff (args : List Bytes) :
    ((args.length + 2) % 2 == 0) = true ↔ args.length % 2 = 0 := by
  rw [beq_iff_eq]
  omega

theorem handle_absent {args : List Bytes} (absent : db.keyValueMap.find key = none)
    (named : key ≠ []) (given : ∀ text ∈ args, text ≠ []) (object : Object) :
    db.handle env (object.forkName :: key :: args) =
      (object.rebuild args).map (db.adding key) := by
  have filled (first : Bytes) (some_name : first ≠ []) :
      ∀ text ∈ first :: key :: args, text ≠ [] := by
    intro text member
    rcases List.mem_cons.mp member with rfl | member
    · exact some_name
    rcases List.mem_cons.mp member with rfl | member
    · exact named
    · exact given text member
  cases object with
  | str s =>
      rw [handle_named rfl rfl rfl]
      have parsed := jsonToKeyCommand_eq StrName.set false (bytes "SET" :: key :: args)
      rw [accepted_filled (filled (bytes "SET") (List.cons_ne_nil _ _))] at parsed
      cases args with
      | nil =>
          have refused : (jsonToStrCommand .set [bytes "SET", key]).valid = false := parsed
          change (if (jsonToStrCommand .set [bytes "SET", key]).valid = true then _ else _) = _
          rw [refused]
          rfl
      | cons text args =>
          have made : jsonToStrCommand .set (bytes "SET" :: key :: text :: args) =
              ⟨true, .set, key, some text⟩ := parsed
          change (Command.str (jsonToStrCommand .set (bytes "SET" :: _))).result env db = _
          rw [made]
          exact (untimed_fst _).trans (execOn_absent absent ObjectKind.str _)
  | list l =>
      rw [handle_named rfl rfl rfl]
      refine (result_values .list .list ListCommand.onList .lpushb (ListName.arity .lpushb)
        (fun _ => rfl) rfl absent (filled _ (List.cons_ne_nil _ _))).trans ?_
      by_cases bare : args = []
      · rw [bare]
        rfl
      · rw [if_pos ⟨bare, rfl⟩, Object.rebuild, if_pos bare]
        simp only [ListCommand.onList, Except.map, StrList.foldl_pushBack_eq]
        rfl
  | hash h =>
      rw [handle_named rfl rfl rfl]
      refine (result_values .hash .hash HashCommand.onHash .hset (HashName.arity .hset)
        (fun _ => rfl) rfl absent (filled _ (List.cons_ne_nil _ _))).trans ?_
      have even : HashName.arity .hset (args.length + 2) = true ↔ args.length % 2 = 0 :=
        pairs_even_iff args
      simp only [even, Object.rebuild]
      split
      · change Except.map _ (eachPair _ Keyed.empty (args.map Str.ofData) >>=
          fun tbl => .ok (tbl, okReply)) = _
        cases eachPair (fun tbl key value => .ok (StrHash.set tbl key value)) Keyed.empty
          (args.map Str.ofData) <;> rfl
      · rfl
  | set s =>
      rw [handle_named rfl rfl rfl]
      refine (result_values .set .set (SetCommand.onSet env.random db.get) .sadd (fun _ => true)
        (fun _ => rfl) rfl absent (filled _ (List.cons_ne_nil _ _))).trans ?_
      by_cases bare : args = []
      · rw [bare]
        rfl
      · rw [if_pos ⟨bare, rfl⟩, Object.rebuild, if_pos bare]
        simp only [SetCommand.onSet, Except.map, foldl_counted]
        rfl
  | zset z =>
      rw [handle_named rfl rfl rfl]
      refine (result_values .zset .zset ZSetCommand.onZSet .zadd (ZSetName.arity .zadd)
        (fun _ => rfl) rfl absent (filled _ (List.cons_ne_nil _ _))).trans ?_
      have even : ZSetName.arity .zadd (args.length + 2) = true ↔ args.length % 2 = 0 :=
        pairs_even_iff args
      simp only [even, Object.rebuild]
      split
      · change Except.map _ (eachPair _ (LinkedZSet.empty, 0) (args.map Str.ofData) >>=
          fun result => .ok (result.1, [toStringInt result.2])) = _
        cases eachPair (ZSetCommand.scored fun z n m => .ok (z.add n m)) (LinkedZSet.empty, 0)
          (args.map Str.ofData) <;> rfl
      · rfl

end Db

/- What the rebuilt object holds. -/

/-- A word has no sign. -/
theorem nonneg_of_word {raw : Bytes} (word : Word raw) {n : Int32}
    (converted : redisStrToInt raw = .ok (some n)) : 0 ≤ n := by
  rw [redisStrToInt_eq] at converted
  split at converted
  · split at converted
    · rename_i small
      cases converted
      cases raw with
      | nil => exact absurd rfl word.1
      | cons c abs =>
          have unsigned : c ≠ minus := by
            rintro rfl
            have member := word.2 minus List.mem_cons_self
            cases member
          rw [magnitude, if_neg unsigned] at small
          rw [intValue, if_neg unsigned, Int32.le_iff_toInt_le, Int32.toInt_ofInt_of_le]
          · exact Int.natCast_nonneg _
          · omega
          · omega
    · cases converted
  · cases converted

namespace Object

def scores : Object → List Int32
  | .zset z => z.entries.map Prod.snd
  | _ => []

/-- Something is stored, every string of it is a word, and no score is negative. -/
structure Plain (object : Object) : Prop where
  filled : object.strings ≠ []
  words : ∀ s ∈ object.strings, Word s.data
  unsigned : ∀ score ∈ object.scores, 0 ≤ score

instance (object : Object) : Decidable object.Plain :=
  decidable_of_iff (object.strings ≠ [] ∧ (∀ s ∈ object.strings, Word s.data) ∧
      (object.scores.all fun score => 0 ≤ score) = true)
    ⟨fun ⟨filled, words, unsigned⟩ => ⟨filled, words, fun score member =>
        of_decide_eq_true (List.all_eq_true.mp unsigned score member)⟩,
      fun ⟨filled, words, unsigned⟩ => ⟨filled, words, List.all_eq_true.mpr fun score member =>
        decide_eq_true (unsigned score member)⟩⟩

theorem Plain.texts (plain : object.Plain) : ∀ text ∈ object.forkTexts, Word text := by
  intro text member
  cases object with
  | str s =>
      rw [List.mem_singleton.mp member]
      exact plain.words s (List.mem_singleton_self s)
  | list l | set s =>
      obtain ⟨s, inside, rfl⟩ := List.mem_map.mp member
      exact plain.words s inside
  | hash h =>
      obtain ⟨field, inside, which⟩ := List.mem_flatMap.mp member
      rcases List.mem_pair.mp which with rfl | rfl
      · exact plain.words _ (List.mem_flatMap.mpr ⟨field, inside, List.mem_cons_self⟩)
      · exact plain.words _
          (List.mem_flatMap.mpr ⟨field, inside, List.mem_cons_of_mem _ List.mem_cons_self⟩)
  | zset z =>
      obtain ⟨entry, inside, which⟩ := List.mem_flatMap.mp member
      rcases List.mem_pair.mp which with rfl | rfl
      · exact word_toStringInt (plain.unsigned _ (List.mem_map_of_mem inside))
      · exact plain.words _ (List.mem_map_of_mem inside)

/-- Nothing but words goes into an object that is rebuilt from words. -/
theorem words_of_rebuild {args : List Bytes} (words : ∀ text ∈ args, Word text)
    {object result : Object} (made : object.rebuild args = .ok (some result)) :
    (∀ s ∈ result.strings, Word s.data) ∧ ∀ score ∈ result.scores, 0 ≤ score := by
  have given : ∀ s ∈ args.map Str.ofData, Word s.data := by
    intro s member
    obtain ⟨text, inside, rfl⟩ := List.mem_map.mp member
    exact words text inside
  cases object with
  | str s =>
      cases args with
      | nil => cases made
      | cons text args =>
          cases made
          refine ⟨?_, nofun⟩
          intro s member
          rw [List.mem_singleton.mp member]
          exact words text List.mem_cons_self
  | list l =>
      rw [rebuild] at made
      split at made
      · cases made
        exact ⟨given, nofun⟩
      · cases made
  | set s =>
      rw [rebuild] at made
      split at made
      · cases made
        exact ⟨fun s member => given s (Keyed.mem_ofList member), nofun⟩
      · cases made
  | hash h =>
      rw [rebuild] at made
      split at made
      · obtain ⟨tbl, looped, returned⟩ := bind_eq_ok.mp made
        cases returned
        refine ⟨?_, nofun⟩
        apply eachPair_keeps (fun tbl : StrHash => (Object.hash tbl).All fun s => Word s.data) ?_
          (fun _ member => absurd member List.not_mem_nil) looped
        intro acc next key hk value hv kept stored
        cases stored
        exact StrHash.set_all kept (given key hk) (given value hv)
      · cases made
  | zset z =>
      rw [rebuild] at made
      split at made
      · obtain ⟨⟨zst, cnt⟩, looped, returned⟩ := bind_eq_ok.mp made
        cases returned
        have entries := ZSetCommand.scored_keeps (fun z => ∀ entry ∈ z.entries,
          Word entry.1.data ∧ 0 ≤ entry.2) ?_ (fun _ member => absurd member List.not_mem_nil) looped
        · constructor
          · intro s member
            obtain ⟨entry, inside, rfl⟩ := List.mem_map.mp member
            exact (entries entry inside).1
          · intro score member
            obtain ⟨entry, inside, rfl⟩ := List.mem_map.mp member
            exact (entries entry inside).2
        · intro z score hs m hm n result kept converted added entry member
          cases added
          rw [LinkedZSet.entries_add] at member
          split at member
          · exact kept entry member
          · rcases List.mem_append.mp member with old | new
            · exact kept entry old
            · rw [List.mem_singleton.mp new]
              exact ⟨given m hm, nonneg_of_word (given score hs) converted⟩
      · cases made

/-- Objects with the same contents hold the same strings. -/
theorem strings_of_contents {object other : Object} (same : object.contents = other.contents)
    {s : Str} (member : s ∈ other.strings) : ∃ t ∈ object.strings, t.data = s.data := by
  cases object <;> cases other <;> try cases same
  case str.str a b =>
      rw [List.mem_singleton.mp member]
      exact ⟨a, List.mem_singleton_self a, Contents.str.inj same⟩
  case list.list a b =>
      have listed : s.data ∈ a.map Str.data := by
        rw [Contents.list.inj same]
        exact List.mem_map_of_mem member
      exact List.mem_map.mp listed
  case hash.hash a b =>
      obtain ⟨field, inside, which⟩ := List.mem_flatMap.mp member
      have found := congrFun (Contents.hash.inj same) field.1.data
      rw [b.find_of_mem inside, Option.map_some, Option.map_eq_some_iff] at found
      obtain ⟨twin, there, value⟩ := found
      obtain ⟨listed, key⟩ := a.find_eq_some_iff.mp there
      rcases List.mem_pair.mp which with rfl | rfl
      · exact ⟨twin.1, List.mem_flatMap.mpr ⟨twin, listed, List.mem_cons_self⟩, key⟩
      · exact ⟨twin.2, List.mem_flatMap.mpr ⟨twin, listed,
          List.mem_cons_of_mem _ List.mem_cons_self⟩, value⟩
  case set.set a b =>
      have listed : s.data ∈ { key | ∃ m ∈ a.items, m.data = key } := by
        rw [Contents.set.inj same]
        exact ⟨s, member, rfl⟩
      exact listed
  case zset.zset a b =>
      obtain ⟨entry, inside, rfl⟩ := List.mem_map.mp member
      have listed : (entry.1.data, entry.2) ∈ a.entries.map fun entry => (entry.1.data, entry.2) := by
        rw [Contents.zset.inj same]
        exact List.mem_map.mpr ⟨entry, inside, rfl⟩
      obtain ⟨twin, there, pair⟩ := List.mem_map.mp listed
      exact ⟨twin.1, List.mem_map_of_mem there, (Prod.mk.inj pair).1⟩

theorem scores_of_contents {object other : Object} (same : object.contents = other.contents) :
    object.scores = other.scores := by
  cases object <;> cases other <;> try cases same
  all_goals try rfl
  case zset.zset a b =>
      have pairs := congrArg (List.map Prod.snd) (Contents.zset.inj same)
      rwa [List.map_map, List.map_map] at pairs

/-- A loop over the pairs that `Fork` wrote out one after the other. -/
theorem eachPair_written {γ ι : Type} (round : γ → Str → Str → Except Fault γ) (step : γ → ι → γ)
    (first second : ι → Bytes) (items : List ι)
    (rounds : ∀ acc, ∀ item ∈ items,
      round acc (Str.ofData (first item)) (Str.ofData (second item)) = .ok (step acc item))
    (acc : γ) :
    eachPair round acc ((items.flatMap fun item => [first item, second item]).map Str.ofData) =
      .ok (items.foldl step acc) := by
  induction items generalizing acc with
  | nil => rfl
  | cons item items ih =>
      have head := rounds acc item List.mem_cons_self
      have tail := ih (fun acc other member => rounds acc other (List.mem_cons_of_mem _ member))
        (step acc item)
      simp only [List.flatMap_cons, List.cons_append, List.nil_append, List.map_cons, eachPair,
        head, ok_bind, tail, List.foldl_cons]

/-- Fields with distinct keys are all inserted. -/
theorem foldl_set {fields : List (Str × Str)} {tbl : StrHash}
    (distinct : ((fields ++ tbl.items).map fun field => field.1.data).Nodup) :
    fields.foldl (fun tbl field => StrHash.set tbl field.1 field.2) tbl =
      fields.foldl Keyed.insert tbl := by
  induction fields generalizing tbl with
  | nil => rfl
  | cons field fields ih =>
      have fresh : tbl.find field.1.data = none := by
        rw [tbl.find_eq_none_iff]
        intro other member same
        rw [List.cons_append, List.map_cons, List.nodup_cons] at distinct
        rw [← same] at distinct
        exact distinct.1 (List.mem_map_of_mem (List.mem_append_right fields member))
      have inserted : StrHash.set tbl field.1 field.2 = tbl.insert field := by
        rw [StrHash.set, fresh]
      rw [List.foldl_cons, List.foldl_cons, inserted]
      apply ih
      rw [Keyed.insert_of_fresh fresh]
      refine (List.Perm.nodup_iff ?_).mp distinct
      rw [List.cons_append]
      exact (List.perm_middle.map _).symm

theorem length_pairs {ι : Type} (first second : ι → Bytes) (items : List ι) :
    (items.flatMap fun item => [first item, second item]).length = 2 * items.length := by
  induction items with
  | nil => rfl
  | cons item items ih =>
      rw [List.flatMap_cons, List.length_append, ih]
      simp only [List.length_cons, List.length_nil]
      omega

/-- A hash is rebuilt field by field. -/
theorem rebuild_hash {h : StrHash} (filled : h.items ≠ []) :
    (Object.hash h).rebuild (Object.hash h).forkTexts =
      .ok (some (.hash (Keyed.ofList
        (h.items.map fun field => (Str.ofData field.1.data, Str.ofData field.2.data))))) := by
  have size := length_pairs (fun field : Str × Str => field.1.data) (fun field => field.2.data)
    h.items
  have guard : (Object.hash h).forkTexts ≠ [] ∧ (Object.hash h).forkTexts.length % 2 = 0 := by
    have some_field := List.length_pos_iff.mpr filled
    rw [← List.length_pos_iff, forkTexts, size]
    omega
  have looped := eachPair_written (fun tbl key value => .ok (StrHash.set tbl key value))
    (fun tbl (field : Str × Str) =>
      StrHash.set tbl (Str.ofData field.1.data) (Str.ofData field.2.data))
    (fun field => field.1.data) (fun field => field.2.data) h.items (fun _ _ _ => rfl) Keyed.empty
  have distinct : (((h.items.map fun field : Str × Str =>
      (Str.ofData field.1.data, Str.ofData field.2.data)) ++
        (Keyed.empty : StrHash).items).map fun field => field.1.data).Nodup := by
    rw [Keyed.empty, List.append_nil, List.map_map]
    exact h.distinct
  have inserted := foldl_set distinct
  rw [List.foldl_map] at inserted
  rw [rebuild, if_pos guard]
  change (eachPair _ Keyed.empty _ >>= _) = _
  rw [forkTexts, looped, ok_bind, inserted]
  rfl

/-- A sorted set is rebuilt pair by pair. -/
theorem rebuild_zset {z : LinkedZSet} (filled : z.entries ≠ [])
    (unsigned : ∀ entry ∈ z.entries, 0 ≤ entry.2) :
    (Object.zset z).rebuild (Object.zset z).forkTexts =
      .ok (some (.zset (LinkedZSet.ofEntries
        (z.entries.map fun entry => (Str.ofData entry.1.data, entry.2))))) := by
  have size := length_pairs (fun entry : Str × Int32 => toStringInt entry.2)
    (fun entry => entry.1.data) z.entries
  have guard : (Object.zset z).forkTexts ≠ [] ∧ (Object.zset z).forkTexts.length % 2 = 0 := by
    have some_entry := List.length_pos_iff.mpr filled
    rw [← List.length_pos_iff, forkTexts, size]
    omega
  have round (acc : LinkedZSet × Int32) (entry : Str × Int32) (member : entry ∈ z.entries) :
      ZSetCommand.scored (fun z n m => .ok (z.add n m)) acc (Str.ofData (toStringInt entry.2))
        (Str.ofData entry.1.data) =
          .ok (counted acc.2 (acc.1.add entry.2 (Str.ofData entry.1.data))) := by
    have converted : redisStrToInt (toStringInt entry.2) = .ok (some entry.2) :=
      redisStrToInt_toStringInt (unsigned entry member)
    rw [ZSetCommand.scored]
    change (redisStrToInt (toStringInt entry.2) >>= _) = _
    rw [converted]
    rfl
  have looped := eachPair_written (ZSetCommand.scored fun z n m => .ok (z.add n m))
    (fun acc (entry : Str × Int32) => counted acc.2 (acc.1.add entry.2 (Str.ofData entry.1.data)))
    (fun entry => toStringInt entry.2) (fun entry => entry.1.data) z.entries round
    (LinkedZSet.empty, 0)
  rw [rebuild, if_pos guard]
  change (eachPair _ (LinkedZSet.empty, 0) _ >>= _) = _
  rw [forkTexts, looped, ok_bind]
  have kept := foldl_counted (fun (z : LinkedZSet) (entry : Str × Int32) =>
    z.add entry.2 (Str.ofData entry.1.data)) z.entries LinkedZSet.empty 0
  rw [LinkedZSet.ofEntries, List.foldl_map]
  exact congrArg (fun zst => Except.ok (some (Object.zset zst))) kept

/-- Words that are read back as words rebuild what they were written from. -/
theorem Plain.rebuild (plain : object.Plain) :
    ∃ result, object.rebuild object.forkTexts = .ok (some result) ∧
      result.contents = object.contents := by
  cases object with
  | str s => exact ⟨_, rfl, rfl⟩
  | list l =>
      have some_text : l.map Str.data ≠ [] := fun none => plain.filled (List.map_eq_nil_iff.mp none)
      refine ⟨_, congrArg Except.ok (if_pos some_text), ?_⟩
      exact congrArg Contents.list (Str.map_data_ofData _)
  | set s =>
      have some_text : s.items.map Str.data ≠ [] :=
        fun none => plain.filled (List.map_eq_nil_iff.mp none)
      refine ⟨_, congrArg Except.ok (if_pos some_text), ?_⟩
      have perm : (Keyed.ofList ((s.items.map Str.data).map Str.ofData) : StrSet).items.Perm
          ((s.items.map Str.data).map Str.ofData) := by
        apply Keyed.ofList_perm
        rw [Str.map_data_ofData]
        exact s.distinct
      refine congrArg Contents.set (Set.ext fun key => ?_)
      have rebuilt : key ∈ ((s.items.map Str.data).map Str.ofData).map Str.data ↔
          key ∈ s.items.map Str.data := by rw [Str.map_data_ofData]
      rw [← (perm.map Str.data).mem_iff, List.mem_map, List.mem_map] at rebuilt
      exact rebuilt
  | hash h =>
      have some_field : h.items ≠ [] := by
        intro none
        exact plain.filled (List.flatMap_eq_nil_iff.mpr fun field member =>
          absurd (none ▸ member) List.not_mem_nil)
      refine ⟨_, rebuild_hash some_field, congrArg Contents.hash (funext fun key => ?_)⟩
      have found : (Keyed.ofList (h.items.map fun field =>
          (Str.ofData field.1.data, Str.ofData field.2.data)) : StrHash).find key =
          (h.find key).map fun field => (Str.ofData field.1.data, Str.ofData field.2.data) :=
        Keyed.find_ofList_map h (fun field => (Str.ofData field.1.data, Str.ofData field.2.data))
          (fun _ _ => rfl) key
      rw [found, Option.map_map]
      rfl
  | zset z =>
      have some_entry : z.entries ≠ [] := fun none => plain.filled (List.map_eq_nil_iff.mpr none)
      refine ⟨_, rebuild_zset some_entry fun entry member =>
        plain.unsigned _ (List.mem_map_of_mem member), ?_⟩
      have distinct : ((z.entries.map fun entry => (Str.ofData entry.1.data, entry.2)).map
          fun pair => pair.1.data).Nodup := by
        rw [List.map_map]
        exact z.entries_distinct
      rw [contents, LinkedZSet.entries_ofEntries distinct, List.map_map]
      rfl

theorem forkTexts_of_strings (none : object.strings = []) : object.forkTexts = [] := by
  cases object with
  | str s => cases none
  | list l | set s => exact List.map_eq_nil_iff.mpr none
  | hash h =>
      rw [strings, List.flatMap_eq_nil_iff] at none
      exact List.flatMap_eq_nil_iff.mpr fun field member =>
        absurd (none field member) (List.cons_ne_nil _ _)
  | zset z => rw [forkTexts, List.map_eq_nil_iff.mp none, List.flatMap_nil]

theorem rebuild_nil (object result : Object) : object.rebuild [] ≠ .ok (some result) := by
  cases object <;> exact nofun

/-- The words of what `Fork` writes rebuild an object exactly if it is plain. -/
theorem rebuild_iff (object : Object) :
    (∃ result, object.rebuild (object.forkTexts.flatMap rawCommandToRequest) = .ok (some result) ∧
      result.contents = object.contents) ↔ object.Plain := by
  constructor
  · rintro ⟨result, made, same⟩
    have scanned : ∀ text ∈ object.forkTexts.flatMap rawCommandToRequest, Word text := by
      intro text member
      obtain ⟨raw, -, inside⟩ := List.mem_flatMap.mp member
      exact word_of_mem_rawCommandToRequest inside
    obtain ⟨words, unsigned⟩ := words_of_rebuild scanned made
    refine ⟨?_, ?_, ?_⟩
    · intro none
      rw [forkTexts_of_strings none] at made
      exact rebuild_nil object result made
    · intro s member
      obtain ⟨t, there, data⟩ := strings_of_contents same member
      rw [← data]
      exact words t there
    · rw [← scores_of_contents same]
      exact unsigned
  · intro plain
    rw [flatMap_words plain.texts]
    exact plain.rebuild

end Object

/- The requests of `Fork`, entry after entry. -/

namespace KeyValue

/-- The request `Fork` writes for an entry. -/
def request (kv : KeyValue) : Request := rawCommandToRequest kv.fork

structure Plain (kv : KeyValue) : Prop where
  lasting : kv.expireTimeUs = none
  named : Word (Entry.name kv)
  value : kv.value.Plain

instance (kv : KeyValue) : Decidable kv.Plain :=
  decidable_of_iff (kv.expireTimeUs = none ∧ Word (Entry.name kv) ∧ kv.value.Plain)
    ⟨fun ⟨lasting, named, value⟩ => ⟨lasting, named, value⟩,
      fun ⟨lasting, named, value⟩ => ⟨lasting, named, value⟩⟩

theorem request_eq (kv : KeyValue) :
    kv.request = kv.value.forkName :: (rawCommandToRequest (Entry.name kv) ++
      kv.value.forkTexts.flatMap rawCommandToRequest) :=
  Object.fork_words _ _

theorem request_local (kv : KeyValue) : Request.local kv.request = true := by
  rw [request_eq]
  cases kv.value <;> rfl

end KeyValue

theorem accepted_mem {bare : Bool} {arity : Nat → Bool} {rest args : List Bytes}
    (accepts : accepted bare arity (first :: rest) = some (key, args)) : key ∈ rest := by
  cases rest with
  | nil => cases accepts
  | cons second rest =>
      rw [accepted] at accepts
      split at accepts
      · cases accepts
      · split at accepts
        · cases accepts
          exact List.mem_cons_self
        · cases accepts

theorem objName_mem_keyCommand {Name : Type} {command : Name} {bare : Bool} {rest : List Bytes}
    (valid : (jsonToKeyCommand command bare (first :: rest)).valid = true) :
    (jsonToKeyCommand command bare (first :: rest)).objName ∈ rest := by
  have parsed := jsonToKeyCommand_eq command bare (first :: rest)
  split at parsed
  · rename_i key args accepts
    rw [parsed]
    exact accepted_mem accepts
  · rw [parsed] at valid
    cases valid

theorem objName_mem_valuesCommand {Name : Type} {command : Name} {bare : Bool} {arity : Nat → Bool}
    {rest : List Bytes}
    (valid : (jsonToValuesCommand command bare arity (first :: rest)).valid = true) :
    (jsonToValuesCommand command bare arity (first :: rest)).objName ∈ rest := by
  have parsed := jsonToValuesCommand_eq command bare arity (first :: rest)
  split at parsed
  · rename_i key args accepts
    rw [parsed]
    exact accepted_mem accepts
  · rw [parsed] at valid
    cases valid

namespace Db

/-- The frame adds no key but its own. -/
theorem keys_execOn {α : Type} {kind : ObjectKind α} {creates : Bool}
    {method : α → Except Fault (α × Reply)} {reply : Reply}
    (returned : db.execOn kind key creates method = .ok (db', reply)) {name : Bytes}
    (there : db'.keyValueMap.find name ≠ none) : db.keyValueMap.find name ≠ none ∨ name = key := by
  rcases execOn_cases returned with ⟨rfl, -⟩ | ⟨absent, -, value, -, rfl⟩ | ⟨old, value, -, -, rfl⟩
  · exact Or.inl there
  · rw [find_store_newObject absent] at there
    split at there
    · rename_i same
      exact Or.inr same.symm
    · exact Or.inl there
  · rw [find_store] at there
    split at there
    · refine Or.inl fun absent => there ?_
      rw [absent]
      rfl
    · exact Or.inl there

theorem keys_handle {rest : Request} (returned : db.handle env (object.forkName :: rest) = .ok db')
    {name : Bytes} (there : db'.keyValueMap.find name ≠ none) :
    db.keyValueMap.find name ≠ none ∨ name ∈ rest := by
  cases object with
  | str s =>
      rw [handle_named rfl rfl rfl] at returned
      rcases Command.result_cases returned with rfl | ⟨valid, reply, timer, ran⟩
      · exact Or.inl there
      · refine (keys_execOn (untimed_eq_ok ran).1 there).imp_right ?_
        rintro rfl
        exact objName_mem_keyCommand valid
  | list l | hash h | set s | zset z =>
      rw [handle_named rfl rfl rfl] at returned
      rcases Command.result_cases returned with rfl | ⟨valid, reply, timer, ran⟩
      · exact Or.inl there
      · refine (keys_execOn (untimed_eq_ok ran).1 there).imp_right ?_
        rintro rfl
        exact objName_mem_valuesCommand valid

theorem keys_serve (served : db.serve env (items.map KeyValue.request) = .ok db') {name : Bytes}
    (there : db'.keyValueMap.find name ≠ none) : db.keyValueMap.find name ≠ none ∨ Word name := by
  induction items generalizing db with
  | nil =>
      cases served
      exact Or.inl there
  | cons kv items ih =>
      rw [List.map_cons, serve, List.foldlM_cons] at served
      obtain ⟨next, handled, rest⟩ := bind_eq_ok.mp served
      rcases ih rest with before | word
      · rw [KeyValue.request_eq] at handled
        rcases keys_handle handled before with old | new
        · exact Or.inl old
        · refine Or.inr ?_
          rcases List.mem_append.mp new with key | text
          · exact word_of_mem_rawCommandToRequest key
          · obtain ⟨raw, -, inside⟩ := List.mem_flatMap.mp text
            exact word_of_mem_rawCommandToRequest inside
      · exact Or.inr word

theorem find_adding {db : Db} {key : Bytes} (absent : db.keyValueMap.find key = none)
    (made : Option Object) (name : Bytes) :
    (db.adding key made).keyValueMap.find name =
      if key = name then made.map fun object => ⟨Str.ofData key, object, none⟩
      else db.keyValueMap.find name := by
  cases made with
  | none =>
      rw [adding]
      split
      · rename_i same
        rw [← same, absent]
        rfl
      · rfl
  | some object =>
      have named : Entry.name (⟨Str.ofData key, object, none⟩ : KeyValue) = key := rfl
      rw [adding, newObject, Keyed.find_insert, named]
      split
      · rename_i same
        rw [← same, absent]
        rfl
      · rfl

theorem handle_request (env : Env) {kv : KeyValue} (word : Word (Entry.name kv))
    (absent : db.keyValueMap.find (Entry.name kv) = none) :
    db.handle env kv.request =
      (kv.value.rebuild (kv.value.forkTexts.flatMap rawCommandToRequest)).map
        (db.adding (Entry.name kv)) := by
  rw [KeyValue.request_eq, rawCommandToRequest_word word, List.singleton_append]
  apply handle_absent absent word.1
  intro text member
  obtain ⟨raw, -, inside⟩ := List.mem_flatMap.mp member
  exact (word_of_mem_rawCommandToRequest inside).1

/-- Once a key was rebuilt, the others are still absent. -/
theorem absent_adding {kv : KeyValue}
    (absent : ∀ each ∈ kv :: items, db.keyValueMap.find (Entry.name each) = none)
    (other : Entry.name kv ∉ items.map Entry.name) (made : Option Object) :
    ∀ later ∈ items,
      (db.adding (Entry.name kv) made).keyValueMap.find (Entry.name later) = none := by
  intro later member
  have apart : Entry.name kv ≠ Entry.name later := fun same =>
    other (same ▸ List.mem_map_of_mem member)
  rw [find_adding (absent kv List.mem_cons_self), if_neg apart]
  exact absent later (List.mem_cons_of_mem _ member)

/-- Keys that are words and distinct are rebuilt one by one, each from its own request. -/
theorem serve_requests (env : Env) {db : Db} {items : List KeyValue}
    (words : ∀ kv ∈ items, Word (Entry.name kv)) (distinct : (items.map Entry.name).Nodup)
    (absent : ∀ kv ∈ items, db.keyValueMap.find (Entry.name kv) = none)
    (made : KeyValue → Option Object)
    (rebuilds : ∀ kv ∈ items,
      kv.value.rebuild (kv.value.forkTexts.flatMap rawCommandToRequest) = .ok (made kv)) :
    ∃ db', db.serve env (items.map KeyValue.request) = .ok db' ∧
      (∀ kv ∈ items, db'.keyValueMap.find (Entry.name kv) =
        (made kv).map fun object => ⟨Str.ofData (Entry.name kv), object, none⟩) ∧
      ∀ name ∉ items.map Entry.name, db'.keyValueMap.find name = db.keyValueMap.find name := by
  induction items generalizing db with
  | nil => exact ⟨db, rfl, nofun, fun _ _ => rfl⟩
  | cons kv items ih =>
      have first_absent := absent kv List.mem_cons_self
      obtain ⟨other, distinct⟩ := List.nodup_cons.mp distinct
      have handled := handle_request env (words kv List.mem_cons_self) first_absent
      rw [rebuilds kv List.mem_cons_self] at handled
      have found := find_adding first_absent (made kv)
      have still_absent := absent_adding absent other (made kv)
      obtain ⟨db', served, inside, outside⟩ := ih
        (fun later member => words later (List.mem_cons_of_mem _ member)) distinct still_absent
        fun later member => rebuilds later (List.mem_cons_of_mem _ member)
      refine ⟨db', ?_, ?_, ?_⟩
      · rw [List.map_cons, serve, List.foldlM_cons, handled]
        exact served
      · intro entry member
        rcases List.mem_cons.mp member with rfl | later
        · rw [outside _ other, found, if_pos rfl]
        · exact inside entry later
      · intro name missing
        rw [List.map_cons, List.mem_cons, not_or] at missing
        rw [outside name missing.2, found, if_neg (Ne.symm missing.1)]

/-- If the run returned, every request rebuilt something or was refused. -/
theorem rebuilds_of_serve (words : ∀ kv ∈ items, Word (Entry.name kv))
    (distinct : (items.map Entry.name).Nodup)
    (absent : ∀ kv ∈ items, db.keyValueMap.find (Entry.name kv) = none)
    (served : db.serve env (items.map KeyValue.request) = .ok db') :
    ∀ kv ∈ items, ∃ made,
      kv.value.rebuild (kv.value.forkTexts.flatMap rawCommandToRequest) = .ok made := by
  induction items generalizing db with
  | nil => exact nofun
  | cons kv items ih =>
      have first_absent := absent kv List.mem_cons_self
      obtain ⟨other, distinct⟩ := List.nodup_cons.mp distinct
      rw [List.map_cons, serve, List.foldlM_cons,
        handle_request env (words kv List.mem_cons_self) first_absent] at served
      obtain ⟨next, handled, rest⟩ := bind_eq_ok.mp served
      cases made : kv.value.rebuild (kv.value.forkTexts.flatMap rawCommandToRequest) with
      | error fault =>
          rw [made] at handled
          cases handled
      | ok result =>
          rw [made] at handled
          cases handled
          intro entry member
          rcases List.mem_cons.mp member with rfl | later
          · exact ⟨result, made⟩
          · exact ih (fun later member => words later (List.mem_cons_of_mem _ member)) distinct
              (absent_adding absent other result) rest entry later

end Db

namespace Db

/-- Executed on an empty database, the requests of `Fork` rebuild the entries exactly if
all of them are plain. -/
theorem serve_fork_iff (env : Env) (number : Int32) (db : Db) :
    (∃ db' : Db, Db.serve env ⟨number, Keyed.empty⟩ (db.keyValueMap.items.map KeyValue.request) =
        .ok db' ∧ db'.contents = db.contents) ↔
      ∀ kv ∈ db.keyValueMap.items, KeyValue.Plain kv := by
  have absent : ∀ kv ∈ db.keyValueMap.items, (⟨number, Keyed.empty⟩ : Db).keyValueMap.find
      (Entry.name kv) = none := fun _ _ => rfl
  constructor
  · rintro ⟨db', served, same⟩
    have view (kv : KeyValue) (member : kv ∈ db.keyValueMap.items) :
        (db'.keyValueMap.find (Entry.name kv)).map
          (fun kv => (some kv.value.contents, kv.expireTimeUs)) =
            some (some kv.value.contents, kv.expireTimeUs) := by
      have at_key := congrFun same (Entry.name kv)
      rw [contents, contents, Store.keySpace, Store.keySpace, db.keyValueMap.find_of_mem member]
        at at_key
      exact at_key
    have words : ∀ kv ∈ db.keyValueMap.items, Word (Entry.name kv) := by
      intro kv member
      have there : db'.keyValueMap.find (Entry.name kv) ≠ none := by
        intro missing
        have seen := view kv member
        rw [missing] at seen
        cases seen
      rcases keys_serve served there with before | word
      · exact absurd rfl before
      · exact word
    have rebuilds := rebuilds_of_serve words db.keyValueMap.distinct absent served
    choose! made rebuilds using rebuilds
    obtain ⟨db'', again, inside, -⟩ :=
      serve_requests env words db.keyValueMap.distinct absent made rebuilds
    rw [served] at again
    cases again
    intro kv member
    have seen := view kv member
    rw [inside kv member] at seen
    cases rebuilt : made kv with
    | none =>
        rw [rebuilt] at seen
        cases seen
    | some object =>
        rw [rebuilt] at seen
        obtain ⟨held, expiry⟩ := Prod.mk.inj (Option.some.inj seen)
        refine ⟨expiry.symm, words kv member, (Object.rebuild_iff kv.value).mp ⟨object, ?_, ?_⟩⟩
        · rw [rebuilds kv member, rebuilt]
        · exact Option.some.inj held
  · intro plain
    have each : ∀ kv ∈ db.keyValueMap.items, ∃ made,
        kv.value.rebuild (kv.value.forkTexts.flatMap rawCommandToRequest) = .ok made ∧
          made.map Object.contents = some kv.value.contents := by
      intro kv member
      obtain ⟨object, rebuilt, same⟩ := (Object.rebuild_iff kv.value).mpr (plain kv member).value
      exact ⟨some object, rebuilt, congrArg some same⟩
    choose! made rebuilds using each
    obtain ⟨db', served, inside, outside⟩ := serve_requests env
      (fun kv member => (plain kv member).named) db.keyValueMap.distinct absent
      made fun kv member => (rebuilds kv member).1
    refine ⟨db', served, funext fun key => ?_⟩
    rw [contents, contents, Store.keySpace, Store.keySpace]
    cases found : db.keyValueMap.find key with
    | none =>
        have missing : key ∉ db.keyValueMap.items.map Entry.name := by
          intro member
          obtain ⟨kv, listed, named⟩ := List.mem_map.mp member
          exact db.keyValueMap.find_eq_none_iff.mp found kv listed named
        rw [outside key missing]
        rfl
    | some kv =>
        obtain ⟨member, rfl⟩ := db.keyValueMap.find_eq_some_iff.mp found
        have held := congrArg (Option.map fun view => (some view, (none : Option UInt64)))
          (rebuilds kv member).2
        rw [Option.map_map] at held
        rw [inside kv member, Option.map_map, Option.map_some, (plain kv member).lasting]
        exact held

end Db

namespace Server

/-- The requests of `Fork` after the leading `SELECT`, executed for a client, leave the
database at its position with the contents of the one they were written from. -/
def Rebuilds (env : Env) (server : Server) (client index : Nat) (db : Db) : Prop :=
  ∃ server' db', server.serve env client ((db.fork env.password).tail.map Json11.parse) =
      .ok server' ∧ server'.databases[index]? = some db' ∧ db'.contents = db.contents

theorem rebuilds_eq {server : Server} {client index : Nat} {number : Int32}
    (attached : server.clients client = some index)
    (empty : server.databases[index]? = some ⟨number, Keyed.empty⟩) (db : Db) :
    server.Rebuilds env client index db ↔ ∃ db' : Db, Db.serve env ⟨number, Keyed.empty⟩
      (db.keyValueMap.items.map KeyValue.request) = .ok db' ∧ db'.contents = db.contents := by
  have parsed : (db.fork env.password).tail.map Json11.parse =
      db.keyValueMap.items.map KeyValue.request := by
    rw [Db.fork, List.tail_cons, List.map_map]
    exact List.map_congr_left fun kv _ => Json11.parse_dump _
  have inside := (List.getElem?_eq_some_iff.mp empty).1
  have lone : ∀ request ∈ db.keyValueMap.items.map KeyValue.request,
      Request.local request = true := by
    intro request member
    obtain ⟨kv, -, rfl⟩ := List.mem_map.mp member
    exact kv.request_local
  rw [Rebuilds, parsed, serve_local env attached empty lone]
  constructor
  · rintro ⟨server', db', served, there, same⟩
    cases alone : Db.serve env ⟨number, Keyed.empty⟩
      (db.keyValueMap.items.map KeyValue.request) with
    | error fault =>
        rw [alone] at served
        cases served
    | ok rebuilt =>
        rw [alone] at served
        cases served
        have placed : (server.setDatabase index rebuilt).databases[index]? = some rebuilt :=
          List.getElem?_set_self inside
        rw [placed] at there
        cases there
        exact ⟨db', rfl, same⟩
  · rintro ⟨db', served, same⟩
    rw [served]
    exact ⟨_, db', rfl, List.getElem?_set_self inside, same⟩

/-- `Fork` preserves a database exactly if it holds nothing but words, no negative score,
no empty container and no expiry. -/
theorem fork_rebuilds_iff (env : Env) (server : Server) (client index : Nat) (number : Int32)
    (attached : server.clients client = some index)
    (empty : server.databases[index]? = some ⟨number, Keyed.empty⟩) (db : Db) :
    server.Rebuilds env client index db ↔ ∀ kv ∈ db.keyValueMap.items, KeyValue.Plain kv :=
  (rebuilds_eq attached empty db).trans (Db.serve_fork_iff env number db)

/-- One key of each type, rebuilt on a fresh server. -/
theorem fork_rebuilds_iff_plain :
    ∃ server, oneClient.serve quietEnv 0 [[bytes "SET", bytes "k", bytes "v1"],
        [bytes "LPUSHB", bytes "l", bytes "b", bytes "a"],
        [bytes "HSET", bytes "h", bytes "f", bytes "7"],
        [bytes "SADD", bytes "s", bytes "x", bytes "y"],
        [bytes "ZADD", bytes "z", bytes "5", bytes "m", bytes "3", bytes "n"]] = .ok server ∧
      ∀ db ∈ server.databases, oneClient.Rebuilds quietEnv 0 0 db := by
  refine oneClient_serves _ rfl fun _ => ?_
  intro db member
  cases List.mem_singleton.mp member
  exact (fork_rebuilds_iff quietEnv oneClient 0 0 0 rfl rfl _).mpr (by decide)

/-- The minus sign of a score is lost, a string is cut at its first separator, and an
expiry is not written at all. -/
theorem not_fork_rebuilds :
    (∃ server, oneClient.serve quietEnv 0 [[bytes "ZADD", bytes "z", bytes "-5", bytes "m"]] =
      .ok server ∧ server.Reachable ∧ ∀ db ∈ server.databases,
        db.keyValueMap.items.map KeyValue.request =
          [[bytes "ZADD", bytes "z", bytes "5", bytes "m"]] ∧
        ¬ oneClient.Rebuilds quietEnv 0 0 db) ∧
    (∃ server, oneClient.serve quietEnv 0 [[bytes "SET", bytes "k", bytes "a b"]] =
      .ok server ∧ server.Reachable ∧ ∀ db ∈ server.databases,
        db.keyValueMap.items.map KeyValue.request =
          [[bytes "SET", bytes "k", bytes "a", bytes "b"]] ∧
        ¬ oneClient.Rebuilds quietEnv 0 0 db) ∧
    (∃ server, oneClient.serve quietEnv 0 [[bytes "SET", bytes "k", bytes "v"],
        [bytes "EXPIRE", bytes "k", bytes "99"]] = .ok server ∧ server.Reachable ∧
      ∀ db ∈ server.databases,
        db.keyValueMap.items.map KeyValue.request = [[bytes "SET", bytes "k", bytes "v"]] ∧
        ¬ oneClient.Rebuilds quietEnv 0 0 db) := by
  have refuted {db : Db} (other : ¬ ∀ kv ∈ db.keyValueMap.items, KeyValue.Plain kv) :
      ¬ oneClient.Rebuilds quietEnv 0 0 db := by
    rw [rebuilds_eq rfl rfl, Db.serve_fork_iff]
    exact other
  refine ⟨oneClient_serves _ rfl fun reached => ⟨reached, ?_⟩,
    oneClient_serves _ rfl fun reached => ⟨reached, ?_⟩,
    oneClient_serves _ rfl fun reached => ⟨reached, ?_⟩⟩
  all_goals
    intro db member
    cases List.mem_singleton.mp member
    exact ⟨by decide, refuted (by decide)⟩

end Server

end ForkRedis
