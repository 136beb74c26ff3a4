import ForkRedis.Tags
import ForkRedis.Refusals
import ForkRedis.Locality

set_option autoImplicit false

/- The places that hold integers: strings, fields of hash tables and scores of sorted sets.
The six commands that add to them are one operation on such a place. -/
namespace ForkRedis

open Decimal Lists Fallible

variable {server server' : Server} {client index : Nat} {db db' : Db} {z : LinkedZSet}

/-- A key, or a key with a field or a member. -/
inductive Cell where
  | str (key : Bytes)
  | field (key field : Bytes)
  | member (key member : Bytes)
  deriving DecidableEq

/-- What a cell holds. -/
inductive Stored where
  | text (s : Str)
  | score (n : Int32)
  deriving DecidableEq

/-- Increments and decrements. -/
inductive Way where
  | incr
  | decr
  deriving DecidableEq

namespace LinkedZSet

def scoreOf (z : LinkedZSet) (member : Bytes) : Option Int32 :=
  (z.entries.find? fun entry => entry.1.data == member).map Prod.snd

theorem scoreOf_eq_some_iff {member : Bytes} {n : Int32} :
    z.scoreOf member = some n ↔ ∃ entry ∈ z.entries, entry.1.data = member ∧ entry.2 = n := by
  rw [scoreOf, Option.map_eq_some_iff]
  constructor
  · rintro ⟨entry, found, score⟩
    have named := List.find?_some found
    exact ⟨entry, List.mem_of_find?_eq_some found, beq_iff_eq.mp named, score⟩
  · rintro ⟨entry, listed, named, score⟩
    refine ⟨entry, find?_unique listed (beq_iff_eq.mpr named) ?_, score⟩
    intro other listed' named'
    exact List.inj_on_of_nodup_map z.entries_distinct listed' listed
      ((beq_iff_eq.mp named').trans named.symm)

theorem scoreOf_eq_none_iff {member : Bytes} :
    z.scoreOf member = none ↔ ∀ entry ∈ z.entries, entry.1.data ≠ member := by
  simp only [scoreOf, Option.map_eq_none_iff, List.find?_eq_none, beq_iff_eq]

theorem scoreOf_congr {z z' : LinkedZSet} {member : Bytes}
    (same : ∀ n, (∃ entry ∈ z'.entries, entry.1.data = member ∧ entry.2 = n) ↔
      ∃ entry ∈ z.entries, entry.1.data = member ∧ entry.2 = n) :
    z'.scoreOf member = z.scoreOf member := by
  apply Option.ext
  intro n
  rw [scoreOf_eq_some_iff, scoreOf_eq_some_iff, same]

/-- `IncrBy` finds the member, moves its score, and leaves the others. -/
theorem incrBy_scored {member : Str} {n : Int32} (held : z.scoreOf member.data = some n)
    (delta : Int32) :
    ∃ z', z.incrBy delta member = .ok (z', toStringInt (n + delta)) ∧
      z'.scoreOf member.data = some (n + delta) ∧
      ∀ other, other ≠ member.data → z'.scoreOf other = z.scoreOf other := by
  obtain ⟨es, rep⟩ := z.2
  obtain ⟨entry, listed, named, rfl⟩ := scoreOf_eq_some_iff.mp held
  rw [entries_eq rep] at listed
  obtain ⟨e, inside, rfl⟩ := List.mem_map.mp listed
  obtain ⟨z', returned, -⟩ := rep.incrBy_mem inside delta named
  obtain ⟨⟨after, text⟩, called⟩ := not_raises_iff.mp (z.incrBy_returns delta member)
  have same := (attach_eq_ok called).symm.trans returned
  cases same
  have entries := entries_incrBy called
  refine ⟨after, called, ?_, ?_⟩
  · rw [scoreOf_eq_some_iff, entries]
    refine ⟨_, List.mem_map_of_mem (entries_eq rep ▸ listed), ?_⟩
    rw [if_pos named]
    exact ⟨named, rfl⟩
  · intro other different
    apply scoreOf_congr
    intro m
    rw [entries]
    simp only [List.mem_map, exists_exists_and_eq_and]
    refine exists_congr fun entry => and_congr_right fun _ => ?_
    split
    · rename_i own
      exact iff_of_false (fun both => different (both.1.symm.trans own))
        fun both => different (both.1.symm.trans own)
    · exact Iff.rfl

theorem incrBy_unscored {member : Str} (absent : z.scoreOf member.data = none) (delta : Int32) :
    z.incrBy delta member = .ok (z, []) := by
  obtain ⟨es, rep⟩ := z.2
  have missing : ∀ e ∈ es, e.key.data ≠ member.data := by
    intro e inside
    refine scoreOf_eq_none_iff.mp absent (e.key, e.score) ?_
    rw [entries_eq rep]
    exact List.mem_map_of_mem inside
  obtain ⟨⟨after, text⟩, called⟩ := not_raises_iff.mp (z.incrBy_returns delta member)
  have same := (attach_eq_ok called).symm.trans (rep.incrBy_miss delta missing)
  obtain ⟨kept, rfl⟩ := Prod.mk.inj (Except.ok.inj same)
  rw [called, Subtype.ext kept]

end LinkedZSet

namespace Object

/-- What an object holds at a cell of its key. -/
def stored (cell : Cell) : Object → Option Stored
  | .str s => match cell with
      | .str _ => some (.text s)
      | _ => none
  | .hash h => match cell with
      | .field _ field => (h.find field).map fun field => .text field.2
      | _ => none
  | .zset z => match cell with
      | .member _ member => (z.scoreOf member).map .score
      | _ => none
  | .list _ | .set _ => none

/-- An object of the type the commands on a cell ask for. -/
def houses (cell : Cell) : Object → Bool
  | .str _ => match cell with
      | .str _ => true
      | _ => false
  | .hash _ => match cell with
      | .field _ _ => true
      | _ => false
  | .zset _ => match cell with
      | .member _ _ => true
      | _ => false
  | .list _ | .set _ => false

theorem houses_of_stored {cell : Cell} {object : Object} {held : Stored}
    (found : object.stored cell = some held) : object.houses cell = true := by
  cases object with
  | str s | hash h | zset z =>
      cases cell with
      | str key | field key field | member key member => first | rfl | cases found
  | list l | set s => cases found

end Object

namespace Stored

/-- The contents of the cell, as a reply shows them. -/
def shown : Stored → Bytes
  | .text s => s.data
  | .score n => toStringInt n

/-- The 32-bit integer a cell holds. -/
def integer : Stored → Option Int
  | .text s =>
      if intShaped s.data = true ∧ -2 ^ 31 ≤ intValue s.data ∧ intValue s.data < 2 ^ 31 then
        some (intValue s.data)
      else none
  | .score n => some n.toInt

/-- The three `IncrBy`. -/
def incrBy (stored : Stored) (delta : Int32) : Except Fault (Stored × Bytes) :=
  match stored with
  | .text s => do
      let (s, ret) ← s.incrBy delta
      return (.text s, ret)
  | .score n => .ok (.score (n + delta), toStringInt (n + delta))

theorem text_incrBy_error {s : Str} {delta : Int32} {fault : Fault}
    (raised : (text s).incrBy delta = .error fault) : s.incrBy delta = .error fault := by
  rw [incrBy] at raised
  cases called : s.incrBy delta with
  | error other =>
      rw [called] at raised
      cases raised
      rfl
  | ok result =>
      rw [called] at raised
      cases raised

end Stored

namespace Cell

def key : Cell → Bytes
  | .str key | .field key _ | .member key _ => key

/-- The key and what stands behind it are not empty, as the parser asks for. -/
def Named : Cell → Prop
  | .str key => key ≠ []
  | .field key part => key ≠ [] ∧ part ≠ []
  | .member key part => key ≠ [] ∧ part ≠ []

def stored (cell : Cell) (db : Db) : Option Stored := (db.get cell.key).bind (Object.stored cell)

/-- The request that adds to a cell, its operands in the order the code reads them. -/
def request (way : Way) (delta : Bytes) : Cell → Request
  | .str key => match way with
      | .incr => [bytes "INCRBY", key, delta]
      | .decr => [bytes "DECRBY", key, delta]
  | .field key part => match way with
      | .incr => [bytes "HINCRBY", key, part, delta]
      | .decr => [bytes "HDECRBY", key, part, delta]
  | .member key part => match way with
      | .incr => [bytes "ZINCRBY", key, delta, part]
      | .decr => [bytes "ZDECRBY", key, delta, part]

/-- The command that comes out of it. -/
def command (way : Way) (delta : Bytes) : Cell → Command
  | .str key => .str ⟨true, match way with | .incr => .incrBy | .decr => .decrBy, key, some delta⟩
  | .field key part =>
      .hash ⟨true, match way with | .incr => .hincrby | .decr => .hdecrby, key,
        [Str.ofData part, Str.ofData delta]⟩
  | .member key part =>
      .zset ⟨true, match way with | .incr => .zincrby | .decr => .zdecrby, key,
        [Str.ofData delta, Str.ofData part]⟩

/-- What the command adds: `ZDECRBY` takes one off, whatever it is given. -/
def change (way : Way) (n : Int32) : Cell → Int32
  | .str _ | .field _ _ => match way with
      | .incr => n
      | .decr => -n
  | .member _ _ => match way with
      | .incr => n
      | .decr => -1

theorem pair_accepted {Name : Type} (command : Name) {arity : Nat → Bool} (even : arity 4 = true)
    {first key a b : Bytes} (filled : ∀ text ∈ [first, key, a, b], text ≠ []) :
    jsonToValuesCommand command false arity [first, key, a, b] =
      ⟨true, command, key, [Str.ofData a, Str.ofData b]⟩ := by
  have given : ¬ [first, key, a, b].any List.isEmpty = true := by
    rw [Bool.not_eq_true, List.any_eq_false]
    intro text listed
    rw [List.isEmpty_iff]
    exact filled text listed
  have taken := jsonToValuesCommand_eq command false arity [first, key, a, b]
  have fit : (false || !([a, b] : List Bytes).isEmpty && arity ([a, b].length + 2)) = true := even
  rw [accepted, if_neg given, if_pos fit] at taken
  exact taken

theorem request_parsed {cell : Cell} (named : cell.Named) (way : Way) {delta : Bytes}
    (filled : delta ≠ []) :
    requestToCommandExec (cell.request way delta) = .ok (some (cell.command way delta)) := by
  have quad {first key a b : Bytes} (start : first ≠ []) (key_ : key ≠ []) (a_ : a ≠ [])
      (b_ : b ≠ []) : ∀ text ∈ [first, key, a, b], text ≠ [] := by
    simp only [List.forall_mem_cons, List.not_mem_nil, false_implies, implies_true, and_true]
    exact ⟨start, key_, a_, b_⟩
  cases cell with
  | str key =>
      obtain ⟨k, ks, rfl⟩ := List.exists_cons_of_ne_nil named
      obtain ⟨d, ds, rfl⟩ := List.exists_cons_of_ne_nil filled
      cases way <;> rfl
  | field key part =>
      cases way with
      | incr =>
          exact congrArg (fun c => Except.ok (some (Command.hash c)))
            (pair_accepted HashName.hincrby rfl (quad (by decide) named.1 named.2 filled))
      | decr =>
          exact congrArg (fun c => Except.ok (some (Command.hash c)))
            (pair_accepted HashName.hdecrby rfl (quad (by decide) named.1 named.2 filled))
  | member key part =>
      cases way with
      | incr =>
          exact congrArg (fun c => Except.ok (some (Command.zset c)))
            (pair_accepted ZSetName.zincrby rfl (quad (by decide) named.1 filled named.2))
      | decr =>
          exact congrArg (fun c => Except.ok (some (Command.zset c)))
            (pair_accepted ZSetName.zdecrby rfl (quad (by decide) named.1 filled named.2))

/-- What a method adds to a cell of the objects it is called on. -/
structure Steps {α : Type} (cell : Cell) (wrap : α → Object) (change : Int32 → Int32)
    (step : α → Int32 → Except Fault (α × Bytes)) : Prop where
  missing : ∀ {value n}, (wrap value).stored cell = none → step value n = .ok (value, [])
  raises : ∀ {value n old fault}, (wrap value).stored cell = some old →
    old.incrBy (change n) = .error fault → step value n = .error fault
  adds : ∀ {value n old new ret}, (wrap value).stored cell = some old →
    old.incrBy (change n) = .ok (new, ret) →
      ∃ value', step value n = .ok (value', ret) ∧ (wrap value').stored cell = some new ∧
        (∀ other : Cell, other.key = cell.key → other ≠ cell →
          (wrap value').stored other = (wrap value).stored other) ∧
        (ret = [] → new = old → value' = value)

theorem str_steps (key : Bytes) (sign : Int32 → Int32) :
    Steps (.str key) .str sign fun s n => s.incrBy (sign n) where
  missing := by
    intro s n absent
    cases absent
  raises := by
    intro s n old fault held raised
    cases held
    exact Stored.text_incrBy_error raised
  adds := by
    intro s n old new ret held added
    cases held
    obtain ⟨⟨s', text⟩, called, result⟩ := bind_eq_ok.mp added
    cases result
    refine ⟨s', called, rfl, ?_, ?_⟩
    · intro other _ different
      cases other with
      | str key' => exact absurd (congrArg Cell.str ‹_›) different
      | field key' part | member key' part => rfl
    · intro _ same
      exact Stored.text.inj same

theorem field_incrBy {h : StrHash} {part : Bytes} {field : Str × Str}
    (found : h.find part = some field) (delta : Int32) :
    h.incrBy (Str.ofData part) delta = do
      let (value, text) ← field.2.incrBy delta
      return (h.put (Str.ofData part) value, text) := by
  rw [StrHash.incrBy, show h.find (Str.ofData part).data = some field from found]

theorem field_steps (key part : Bytes) (sign : Int32 → Int32) :
    Steps (.field key part) .hash sign fun h n => h.incrBy (Str.ofData part) (sign n) where
  missing := by
    intro h n absent
    have missing : h.find (Str.ofData part).data = none := Option.map_eq_none_iff.mp absent
    rw [StrHash.incrBy, missing]
  raises := by
    intro h n old fault held raised
    obtain ⟨field, found, rfl⟩ := Option.map_eq_some_iff.mp held
    rw [field_incrBy found, Stored.text_incrBy_error raised]
    rfl
  adds := by
    intro h n old new ret held added
    obtain ⟨field, found, rfl⟩ := Option.map_eq_some_iff.mp held
    obtain ⟨⟨s', text⟩, called, result⟩ := bind_eq_ok.mp added
    cases result
    have located (part' : Bytes) : (h.put (Str.ofData part) s').find part' =
        if part = part' then (h.find part').map fun field => (field.1, s') else h.find part' :=
      h.find_modify part _ _ part'
    refine ⟨h.put (Str.ofData part) s', ?_, ?_, ?_, ?_⟩
    · rw [field_incrBy found, called]
      rfl
    · change (Keyed.find _ part).map _ = _
      rw [located, if_pos rfl, found]
      rfl
    · intro other together different
      cases other with
      | str key' | member key' part' => rfl
      | field key' part' =>
          change (Keyed.find _ part').map _ = (h.find part').map _
          rw [located, if_neg]
          intro same
          exact different (congrArg₂ Cell.field together same.symm)
    · intro _ same
      refine Keyed.modify_fixed _ fun field' found' => ?_
      cases found'.symm.trans found
      rw [Stored.text.inj same]

theorem member_steps (key part : Bytes) (sign : Int32 → Int32) :
    Steps (.member key part) .zset sign fun z n => z.incrBy (sign n) (Str.ofData part) where
  missing := by
    intro z n absent
    have missing : z.scoreOf (Str.ofData part).data = none := Option.map_eq_none_iff.mp absent
    exact LinkedZSet.incrBy_unscored missing (sign n)
  raises := by
    intro z n old fault held raised
    obtain ⟨score, -, rfl⟩ := Option.map_eq_some_iff.mp held
    cases raised
  adds := by
    intro z n old new ret held added
    obtain ⟨score, scored, rfl⟩ := Option.map_eq_some_iff.mp held
    have scored : z.scoreOf (Str.ofData part).data = some score := scored
    cases added
    obtain ⟨z', called, own, others⟩ := LinkedZSet.incrBy_scored scored (sign n)
    refine ⟨z', called, ?_, ?_, ?_⟩
    · exact congrArg (Option.map Stored.score) own
    · intro other together different
      cases other with
      | str key' | field key' part' => rfl
      | member key' part' =>
          refine congrArg (Option.map Stored.score) (others part' fun same => ?_)
          exact different (congrArg₂ Cell.member together same)
    · intro empty
      exact absurd empty (Str.toStringInt_ne_nil _)

/-- The body the six commands share. -/
def converting {α : Type} (step : α → Int32 → Except Fault (α × Bytes)) (delta : Bytes)
    (value : α) : Except Fault (α × Reply) := do
  let intval ← redisStrToInt delta
  match intval with
  | none => return (value, refused)
  | some n => do
      let (value, ret) ← step value n
      return (value, textOr refused ret)

/-- What is left in a cell of its object, and what is answered. -/
def adding (way : Way) (delta : Bytes) (db : Db) (cell : Cell) :
    Except Fault (Option Stored × Reply) := do
  let intval ← redisStrToInt delta
  match intval, cell.stored db with
  | some n, some old => do
      let (new, ret) ← old.incrBy (cell.change way n)
      return (some new, textOr refused ret)
  | _, held => return (held, refused)

/-- A database after a write to a cell. -/
structure Wrote (cell : Cell) (db db' : Db) (held : Option Stored) : Prop where
  own : cell.stored db' = held
  others : ∀ other ≠ cell, Cell.stored other db' = Cell.stored other db
  entries : ∀ key ≠ cell.key, db'.keyValueMap.find key = db.keyValueMap.find key
  expiry : (db'.keyValueMap.find cell.key).map Entry.expireTimeUs =
    (db.keyValueMap.find cell.key).map Entry.expireTimeUs

theorem Wrote.nothing (cell : Cell) (db : Db) : cell.Wrote db db (cell.stored db) where
  own := rfl
  others := fun _ _ => rfl
  entries := fun _ _ => rfl
  expiry := rfl

theorem Wrote.store {cell : Cell} {db : Db} {object object' : Object} {held : Option Stored}
    (found : db.get cell.key = some object) (own : object'.stored cell = held)
    (others : ∀ other : Cell, other.key = cell.key → other ≠ cell →
      object'.stored other = object.stored other) :
    cell.Wrote db (db.store cell.key object') held where
  own := by
    rw [stored, Db.get_store, found]
    exact own
  others := by
    intro other different
    by_cases together : other.key = cell.key
    · rw [stored, stored, together, Db.get_store, found]
      exact others other together different
    · rw [stored, stored, Db.get, Db.get, Db.find_store, if_neg (Ne.symm together)]
  entries := by
    intro key elsewhere
    rw [Db.find_store, if_neg (Ne.symm elsewhere)]
  expiry := by
    rw [Db.find_store, if_pos rfl, Option.map_map]
    rfl

/-- What a command made of a cell is what `adding` says. -/
def Shows (cell : Cell) (db : Db) (result : Except Fault (Db × Reply)) :
    Except Fault (Option Stored × Reply) → Prop
  | .error fault => result = .error fault
  | .ok (held, reply) => ∃ db', result = .ok (db', reply) ∧ cell.Wrote db db' held ∧
      (reply = refused → db' = db)

/-- A string that is not empty loses its tag never. -/
theorem incrBy_refuses {old new : Stored} {delta : Int32} {ret : Bytes}
    (filled : ∀ s, old = .text s → s.data ≠ []) (added : old.incrBy delta = .ok (new, ret))
    (refuses : textOr refused ret = refused) : ret = [] ∧ new = old := by
  cases old with
  | text s =>
      obtain ⟨⟨s', text⟩, called, result⟩ := bind_eq_ok.mp added
      cases result
      rcases Str.incrBy_cases called with ⟨rfl, rfl⟩ | ⟨tag, converted, -, -⟩ | ⟨n, -, rfl⟩
      · exact ⟨rfl, rfl⟩
      · have shaped := Str.intShaped_of_int (filled s rfl) tag
        rw [redisStrToInt_eq, if_pos shaped] at converted
        split at converted <;> cases converted
      · exact absurd (eq_nil_of_textOr (Or.inr ⟨n, rfl⟩) refuses) (Str.toStringInt_ne_nil n)
  | score n =>
      cases added
      exact absurd (eq_nil_of_textOr (Or.inr ⟨_, rfl⟩) refuses) (Str.toStringInt_ne_nil _)

theorem execOn_shows {α : Type} (kind : ObjectKind α) {cell : Cell} {way : Way}
    {step : α → Int32 → Except Fault (α × Bytes)}
    (steps : cell.Steps kind.wrap (fun n => cell.change way n) step) {value : α}
    (found : db.get cell.key = some (kind.wrap value))
    (filled : ∀ s, cell.stored db = some (.text s) → s.data ≠ []) (creates : Bool) (delta : Bytes) :
    cell.Shows db (db.execOn kind cell.key creates (converting step delta))
      (cell.adding way delta db) := by
  have held : cell.stored db = (kind.wrap value).stored cell := by
    rw [stored, found]
    rfl
  have executed : db.execOn kind cell.key creates (converting step delta) =
      (converting step delta value).map fun result =>
        (db.store cell.key (kind.wrap result.1), result.2) := by
    rw [Db.execOn, found]
    dsimp only
    rw [kind.unwrap_eq_some.mpr rfl]
    dsimp only
    cases converting step delta value <;> rfl
  have kept : db.store cell.key (kind.wrap value) = db := by
    apply Db.store_same
    intro other found'
    exact Option.some.inj (found'.symm.trans found)
  have unchanged : cell.Shows db (.ok (db.store cell.key (kind.wrap value), refused))
      (.ok (cell.stored db, refused)) := by
    rw [kept]
    exact ⟨db, rfl, Wrote.nothing cell db, fun _ => rfl⟩
  rw [executed, converting, adding]
  cases redisStrToInt delta with
  | error fault => rfl
  | ok intval =>
      simp only [ok_bind]
      cases intval with
      | none => exact unchanged
      | some n =>
          cases there : cell.stored db with
          | none =>
              rw [there] at held unchanged
              dsimp only
              rw [steps.missing held.symm]
              exact unchanged
          | some old =>
              rw [there] at held
              dsimp only
              cases added : old.incrBy (cell.change way n) with
              | error fault =>
                  rw [steps.raises held.symm added]
                  rfl
              | ok result =>
                  obtain ⟨value', called, own, others, same⟩ := steps.adds held.symm added
                  rw [called]
                  refine ⟨_, rfl, Wrote.store found own others, fun refuses => ?_⟩
                  obtain ⟨empty, again⟩ := incrBy_refuses
                    (fun s text => filled s (there.trans (congrArg some text))) added refuses
                  dsimp only
                  rw [same empty again, kept]

section Bodies

variable (key part : Bytes) (way : Way) (delta : Bytes) (env : Env) (db : Db)

theorem str_onDb : (command way delta (.str key)).onDb env db =
    untimed (db.execOn .str key false
      (converting (fun s n => s.incrBy (change way n (.str key))) delta)) := by
  cases way <;> rfl

theorem field_onDb : (command way delta (.field key part)).onDb env db =
    untimed (db.execOn .hash key false
      (converting (fun h n => h.incrBy (Str.ofData part) (change way n (.field key part)))
        delta)) := by
  cases way <;> rfl

theorem member_onDb : (command way delta (.member key part)).onDb env db =
    untimed (db.execOn .zset key false
      (converting (fun z n => z.incrBy (change way n (.member key part)) (Str.ofData part))
        delta)) := by
  cases way <;> rfl

end Bodies

/-- A request on a cell whose object is there, as one operation on the cell. -/
theorem command_shows {cell : Cell} {object : Object} (found : db.get cell.key = some object)
    (housed : object.houses cell = true)
    (filled : ∀ s, cell.stored db = some (.text s) → s.data ≠ []) (way : Way) (delta : Bytes)
    (env : Env) :
    ∃ result, (cell.command way delta).onDb env db = untimed result ∧
      cell.Shows db result (cell.adding way delta db) := by
  cases cell with
  | str key =>
      cases object with
      | str s =>
          refine ⟨_, str_onDb key way delta env db, ?_⟩
          exact execOn_shows .str (str_steps key _) found filled false delta
      | list l | hash h | set s | zset z => cases housed
  | field key part =>
      cases object with
      | hash h =>
          refine ⟨_, field_onDb key part way delta env db, ?_⟩
          exact execOn_shows .hash (field_steps key part _) found filled false delta
      | str s | list l | set s | zset z => cases housed
  | member key part =>
      cases object with
      | zset z =>
          refine ⟨_, member_onDb key part way delta env db, ?_⟩
          exact execOn_shows .zset (member_steps key part _) found filled false delta
      | str s | list l | hash h | set s => cases housed

/-- In a database without empty strings every cell that holds something has a name. -/
theorem named_of_stored {cell : Cell} (filled : db.Filled) {held : Stored}
    (there : cell.stored db = some held) : cell.Named := by
  obtain ⟨object, found, inside⟩ := Option.bind_eq_some_iff.mp there
  obtain ⟨kv, located, rfl⟩ := Db.get_eq_some_iff.mp found
  obtain ⟨key_filled, value_filled⟩ := filled cell.key kv located
  have own : kv.key.data = cell.key := (db.keyValueMap.find_eq_some_iff.mp located).2
  have key : cell.key ≠ [] := own ▸ key_filled
  cases cell with
  | str key' => exact key
  | field key' part =>
      cases value : kv.value with
      | hash h =>
          rw [value] at inside value_filled
          obtain ⟨field, found', -⟩ := Option.map_eq_some_iff.mp inside
          obtain ⟨listed, named⟩ := h.find_eq_some_iff.mp found'
          exact ⟨key, named ▸ (Object.all_hash.mp value_filled field listed).1⟩
      | str s | list l | set s | zset z =>
          rw [value] at inside
          cases inside
  | member key' part =>
      cases value : kv.value with
      | zset z =>
          rw [value] at inside value_filled
          obtain ⟨n, scored, -⟩ := Option.map_eq_some_iff.mp inside
          obtain ⟨entry, listed, named, -⟩ := LinkedZSet.scoreOf_eq_some_iff.mp scored
          exact ⟨key, named ▸ value_filled entry.1 (List.mem_map_of_mem listed)⟩
      | str s | list l | hash h | set s =>
          rw [value] at inside
          cases inside

theorem text_filled {cell : Cell} (filled : db.Filled) {s : Str}
    (there : cell.stored db = some (.text s)) : s.data ≠ [] := by
  obtain ⟨object, found, inside⟩ := Option.bind_eq_some_iff.mp there
  obtain ⟨kv, located, rfl⟩ := Db.get_eq_some_iff.mp found
  have value_filled := (filled cell.key kv located).2
  cases value : kv.value with
  | str s' =>
      rw [value] at inside value_filled
      cases cell with
      | str key =>
          cases inside
          exact Object.all_str.mp value_filled
      | field key part | member key part => cases inside
  | hash h =>
      rw [value] at inside value_filled
      cases cell with
      | field key part =>
          obtain ⟨field, found', same⟩ := Option.map_eq_some_iff.mp inside
          cases same
          obtain ⟨listed, -⟩ := h.find_eq_some_iff.mp found'
          exact (Object.all_hash.mp value_filled field listed).2
      | str key | member key part => cases inside
  | zset z =>
      rw [value] at inside
      cases cell with
      | member key part =>
          obtain ⟨n, -, same⟩ := Option.map_eq_some_iff.mp inside
          cases same
      | str key | field key part => cases inside
  | list l | set s' =>
      rw [value] at inside
      cases inside

end Cell

namespace Server

/-- A request read from a client, and what the client is answered. -/
def respond (env : Env) (client : Nat) (server : Server) (request : Request) :
    Except Fault (Server × Option Reply) := do
  match ← requestToCommandExec request with
  | none => return (server, none)
  | some command => command.perform env client server

/-- What a client finds in a cell. -/
def stored (server : Server) (client : Nat) (cell : Cell) : Option Stored :=
  (server.clients client).bind fun index => server.databases[index]?.bind cell.stored

theorem stored_eq (attached : server.clients client = some index)
    (there : server.databases[index]? = some db) (cell : Cell) :
    server.stored client cell = cell.stored db := by
  rw [stored, attached, Option.bind_some, there, Option.bind_some]

theorem stored_setDatabase (attached : server.clients client = some index)
    (there : server.databases[index]? = some db) (db' : Db) (cell : Cell) :
    (server.setDatabase index db').stored client cell = cell.stored db' := by
  have attached' : (server.setDatabase index db').clients client = some index := attached
  have there' : (server.setDatabase index db').databases[index]? = some db' :=
    List.getElem?_set_self (List.getElem?_eq_some_iff.mp there).1
  exact stored_eq attached' there' cell

theorem handle_of_respond {env : Env} {request : Request} {reply : Option Reply}
    (responded : server.respond env client request = .ok (server', reply)) :
    server.serve env client [request] = .ok server' := by
  obtain ⟨parsed, translated, performed⟩ := bind_eq_ok.mp responded
  rw [serve, List.foldlM_cons, handle, translated, ok_bind]
  cases parsed with
  | none =>
      cases performed
      rfl
  | some command =>
      obtain ⟨outcome, executed, same⟩ := map_eq_ok.mp performed
      cases same
      dsimp only
      rw [executed]
      rfl

/-- A server after a client's write to a cell: nothing else has changed. -/
structure Wrote (server server' : Server) (client : Nat) (cell : Cell) (held : Option Stored) :
    Prop where
  own : server'.stored client cell = held
  others : ∀ other ≠ cell, server'.stored client other = server.stored client other
  beside : server.Beside server'
  entries : ∀ index key, ¬ (server.clients client = some index ∧ key = cell.key) →
    server'.entry index key = server.entry index key
  expiry : ∀ index, (server'.entry index cell.key).map Entry.expireTimeUs =
    (server.entry index cell.key).map Entry.expireTimeUs

theorem Wrote.setDatabase {cell : Cell} {held : Option Stored}
    (attached : server.clients client = some index) (there : server.databases[index]? = some db)
    (number : db'.number = db.number) (wrote : cell.Wrote db db' held) :
    server.Wrote (server.setDatabase index db') client cell held where
  own := (stored_setDatabase attached there db' cell).trans wrote.own
  others := by
    intro other different
    rw [stored_setDatabase attached there, wrote.others other different, stored_eq attached there]
  beside := ⟨rfl, rfl, rfl, numbers_setDatabase there number⟩
  entries := by
    intro i key elsewhere
    rw [entry_setDatabase there]
    split
    · rename_i here
      subst here
      rw [wrote.entries key fun own => elsewhere ⟨attached, own⟩, entry_eq there]
    · rfl
  expiry := by
    intro i
    rw [entry_setDatabase there]
    split
    · rename_i here
      subst here
      rw [wrote.expiry, entry_eq there]
    · rfl

/-- A request on a cell whose object is there: it raises, or it answers and writes to the cell
only, and a refusal writes nothing. -/
theorem respond_shows (reached : server.Reachable) (attached : server.clients client = some index)
    (there : server.databases[index]? = some db) {cell : Cell} (named : cell.Named)
    {object : Object} (found : db.get cell.key = some object) (housed : object.houses cell = true)
    (way : Way) {delta : Bytes} (given : delta ≠ []) (env : Env) :
    match cell.adding way delta db with
    | .error fault => server.respond env client (cell.request way delta) = .error fault
    | .ok (held, reply) => ∃ server',
        server.respond env client (cell.request way delta) = .ok (server', some reply) ∧
        server'.Reachable ∧ server.Wrote server' client cell held ∧
        (reply = refused → server' = server) := by
  have filled : db.Filled := reached.sound.filled db (List.mem_of_getElem? there)
  obtain ⟨result, ran, shows⟩ := Cell.command_shows found housed
    (fun s text => Cell.text_filled filled text) way delta env
  have keyed : (cell.command way delta).isKeyed = true := by cases cell <;> rfl
  have valid : (cell.command way delta).valid = true := by cases cell <;> rfl
  have responded : server.respond env client (cell.request way delta) =
      (untimed result).map fun out => (server.setDatabase index out.1, some out.2.1) := by
    rw [respond, Cell.request_parsed named way given, ok_bind]
    dsimp only
    rw [Command.perform, Command.exec_attached env keyed attached there, if_pos valid, ran]
    cases result <;> rfl
  cases added : cell.adding way delta db with
  | error fault =>
      rw [added] at shows
      rw [responded, show result = .error fault from shows]
      rfl
  | ok answer =>
      rw [added] at shows
      obtain ⟨db', rfl, wrote, refuses⟩ := shows
      refine ⟨server.setDatabase index db', responded, ?_, ?_, fun answered => ?_⟩
      · exact reached.serve (handle_of_respond responded)
      · exact Wrote.setDatabase attached there (Command.number_onDb ran) wrote
      · rw [refuses answered]
        exact setDatabase_same there

/-- A request on a cell that holds something, with a delta that is accepted. -/
theorem respond_held (reached : server.Reachable) {cell : Cell} {old : Stored}
    (held : server.stored client cell = some old) (way : Way) {delta : Bytes} {n : Int32}
    (accepted : redisStrToInt delta = .ok (some n)) (env : Env) :
    match old.incrBy (cell.change way n) with
    | .error fault => server.respond env client (cell.request way delta) = .error fault
    | .ok (new, ret) => ∃ server',
        server.respond env client (cell.request way delta) =
          .ok (server', some (textOr refused ret)) ∧
        server'.Reachable ∧ server.Wrote server' client cell (some new) ∧
        (textOr refused ret = refused → server' = server) := by
  obtain ⟨index, attached, rest⟩ := Option.bind_eq_some_iff.mp held
  obtain ⟨db, there, inside⟩ := Option.bind_eq_some_iff.mp rest
  obtain ⟨object, found, inside'⟩ := Option.bind_eq_some_iff.mp inside
  have filled : db.Filled := reached.sound.filled db (List.mem_of_getElem? there)
  have given : delta ≠ [] := by
    rintro rfl
    cases accepted
  have shows := respond_shows reached attached there (Cell.named_of_stored filled inside) found
    (Object.houses_of_stored inside') way given env
  rw [Cell.adding, accepted, ok_bind, inside] at shows
  cases added : old.incrBy (cell.change way n) with
  | error fault =>
      dsimp only at shows
      rw [added] at shows
      exact shows
  | ok result =>
      dsimp only at shows
      rw [added] at shows
      exact shows

end Server

end ForkRedis
