import ForkRedis.Increments

set_option autoImplicit false

/- The requests of the README that name a member or a field, in the operand order it gives,
against what the parser and `Exec` make of them. -/
namespace ForkRedis

open Decimal Lists Fallible

/-- `zrem [key] [value]`, `zincrby/zdecrby [key] [int-value] [value]` and
`hincrby/hdecrby [key] [incr-value] [k]`. -/
inductive Documented where
  | zrem (key member : Bytes)
  | zby (way : Way) (key delta member : Bytes)
  | hby (way : Way) (key delta field : Bytes)

namespace Documented

def request : Documented → Request
  | .zrem key member => [bytes "ZREM", key, member]
  | .zby way key delta member => match way with
      | .incr => [bytes "ZINCRBY", key, delta, member]
      | .decr => [bytes "ZDECRBY", key, delta, member]
  | .hby way key delta field => match way with
      | .incr => [bytes "HINCRBY", key, delta, field]
      | .decr => [bytes "HDECRBY", key, delta, field]

/-- What the request is about. -/
def cell : Documented → Cell
  | .zrem key member | .zby _ key _ member => .member key member
  | .hby _ key _ field => .field key field

/-- The integer of a request is one `RedisStrToInt` takes. -/
def Accepted : Documented → Prop
  | .zrem _ _ => True
  | .zby _ _ delta _ | .hby _ _ delta _ => ∃ n, redisStrToInt delta = .ok (some n)

/-- No overflow occurs at an integer. -/
def Fits (v : Int) : Documented → Prop
  | .zrem _ _ => True
  | .zby way _ delta _ | .hby way _ delta _ =>
      -2 ^ 31 ≤ way.exact v (intValue delta) ∧ way.exact v (intValue delta) < 2 ^ 31

/-- The member is gone, or the integer has changed by the delta, and nothing else has. -/
def Done (server server' : Server) (client : Nat) (v : Int) : Documented → Prop
  | .zrem key member => server.Wrote server' client (.member key member) none
  | .zby way key delta member => ∃ new,
      server.Wrote server' client (.member key member) (some new) ∧
      new.integer = some (way.exact v (intValue delta))
  | .hby way key delta field => ∃ new, server.Wrote server' client (.field key field) (some new) ∧
      new.integer = some (way.exact v (intValue delta))

end Documented

/-- A request that its parser accepts. -/
def WellFormed (request : Request) : Prop :=
  ∃ command, requestToCommandExec request = .ok (some command) ∧ command.valid = true

namespace Documented

/-- The request is well-formed and, if what it is about is there and no overflow occurs, does
what it says. -/
def Acts (doc : Documented) (server : Server) (env : Env) (client : Nat) : Prop :=
  WellFormed doc.request ∧
    ∀ old v, server.stored client doc.cell = some old → old.integer = some v → doc.Fits v →
      ∃ server' reply, server.respond env client doc.request = .ok (server', some reply) ∧
        doc.Done server server' client v

end Documented

/-- Adding an integer leaves what is there as it is. -/
def Stored.Kept (held : Stored) (n : Int) : Prop :=
  held.Raw ∨ n = 0 ∧ ∃ w : Int32, held = .text (Str.ofInt w) ∧ w ≠ Int32.minValue

theorem Way.exact_eq_self_iff {way : Way} {v n : Int} : way.exact v n = v ↔ n = 0 := by
  cases way with
  | incr =>
      rw [Way.exact]
      omega
  | decr =>
      rw [Way.exact]
      omega

namespace Documented

/-- `HINCRBY key d field` adds the integer `field` to the field `d`. That is as documented when
the two texts are one, unless the value is raw or the least `int`; and else when nothing was to
be added and nothing is. -/
def Swappable (server : Server) (client : Nat) (key delta field : Bytes) (old : Stored) : Prop :=
  if field = delta then old.Raw ∧ intValue delta = 0 ∨ ¬ old.Raw ∧ ¬ old.Stuck
  else intValue delta = 0 ∧ ¬ Oversized field ∧
    (intShaped field = true → ∀ held, server.stored client (.field key delta) = some held →
      held.Kept (intValue field))

/-- No key or member is empty. `ZREM` is never right; `ZDECRBY` is when it takes one off, or is
not to do anything; `HINCRBY` and `HDECRBY` are when their operands can be exchanged. -/
def Met (server : Server) (client : Nat) : Documented → Prop
  | .zrem _ _ => False
  | .zby way key delta member => key ≠ [] ∧ member ≠ [] ∧ (way = .decr →
      ∀ v : Int32, server.stored client (.member key member) = some (.score v) →
        -2 ^ 31 ≤ v.toInt - intValue delta → v.toInt - intValue delta < 2 ^ 31 →
          intValue delta = 1)
  | .hby way key delta field => key ≠ [] ∧ field ≠ [] ∧
      ∀ old v, server.stored client (.field key field) = some old → old.integer = some v →
        -2 ^ 31 ≤ way.exact v (intValue delta) → way.exact v (intValue delta) < 2 ^ 31 →
          Swappable server client key delta field old

theorem zrem_not_wellFormed (key member : Bytes) :
    ¬ WellFormed (request (.zrem key member)) := by
  rintro ⟨command, parsed, valid⟩
  have taken := jsonToValuesCommand_eq ZSetName.zrem false ZSetName.zrem.arity
    [bytes "ZREM", key, member]
  have none : accepted false ZSetName.zrem.arity [bytes "ZREM", key, member] = none := by
    have odd : ZSetName.zrem.arity ([member].length + 2) = false := by
      rw [List.length_singleton]
      rfl
    rw [accepted, odd, Bool.and_false, Bool.or_false, if_neg Bool.false_ne_true, ite_self]
  rw [none] at taken
  have parsed' : requestToCommandExec (request (.zrem key member)) = .ok (some (.zset
      (jsonToValuesCommand ZSetName.zrem false ZSetName.zrem.arity [bytes "ZREM", key, member]))) :=
    rfl
  cases parsed'.symm.trans parsed
  exact Bool.false_ne_true (taken.symm.trans valid)

theorem pair_valid_iff {Name : Type} (command : Name) {arity : Nat → Bool} (even : arity 4 = true)
    {first key a b : Bytes} (start : first ≠ []) :
    (jsonToValuesCommand command false arity [first, key, a, b]).valid = true ↔
      key ≠ [] ∧ a ≠ [] ∧ b ≠ [] := by
  by_cases filled : ∀ text ∈ [first, key, a, b], text ≠ []
  · rw [Cell.pair_accepted command even filled]
    simp only [List.forall_mem_cons] at filled
    exact iff_of_true rfl ⟨filled.2.1, filled.2.2.1, filled.2.2.2.1⟩
  · have taken := jsonToValuesCommand_eq command false arity [first, key, a, b]
    have empty : [first, key, a, b].any List.isEmpty = true := by
      rw [List.any_eq_true]
      simp only [not_forall, not_not] at filled
      obtain ⟨text, listed, rfl⟩ := filled
      exact ⟨[], listed, rfl⟩
    rw [accepted, if_pos empty] at taken
    refine iff_of_false (by rw [taken]; exact Bool.false_ne_true) fun given => filled ?_
    simp only [List.forall_mem_cons, List.not_mem_nil, false_implies, implies_true, and_true]
    exact ⟨start, given⟩

theorem wellFormed_iff {request : Request} (command : Command)
    (parsed : requestToCommandExec request = .ok (some command)) :
    WellFormed request ↔ command.valid = true := by
  constructor
  · rintro ⟨other, parsed', valid⟩
    cases parsed.symm.trans parsed'
    exact valid
  · exact fun valid => ⟨command, parsed, valid⟩

theorem zby_wellFormed_iff (way : Way) (key delta member : Bytes) :
    WellFormed (request (.zby way key delta member)) ↔ key ≠ [] ∧ delta ≠ [] ∧ member ≠ [] := by
  cases way with
  | incr =>
      refine (wellFormed_iff (.zset (jsonToValuesCommand .zincrby false
        ZSetName.zincrby.arity [bytes "ZINCRBY", key, delta, member])) rfl).trans ?_
      exact pair_valid_iff _ rfl (by decide)
  | decr =>
      refine (wellFormed_iff (.zset (jsonToValuesCommand .zdecrby false
        ZSetName.zdecrby.arity [bytes "ZDECRBY", key, delta, member])) rfl).trans ?_
      exact pair_valid_iff _ rfl (by decide)

theorem hby_wellFormed_iff (way : Way) (key delta field : Bytes) :
    WellFormed (request (.hby way key delta field)) ↔ key ≠ [] ∧ delta ≠ [] ∧ field ≠ [] := by
  cases way with
  | incr =>
      refine (wellFormed_iff (.hash (jsonToValuesCommand .hincrby false
        HashName.hincrby.arity [bytes "HINCRBY", key, delta, field])) rfl).trans ?_
      exact pair_valid_iff _ rfl (by decide)
  | decr =>
      refine (wellFormed_iff (.hash (jsonToValuesCommand .hdecrby false
        HashName.hdecrby.arity [bytes "HDECRBY", key, delta, field])) rfl).trans ?_
      exact pair_valid_iff _ rfl (by decide)

theorem toInt_of_converted {raw : Bytes} {n : Int32}
    (converted : redisStrToInt raw = .ok (some n)) :
    n.toInt = intValue raw := by
  obtain ⟨shaped, fits⟩ := redisStrToInt_converts.mp ⟨n, converted⟩
  cases (redisStrToInt_some shaped fits).symm.trans converted
  exact (Str.toInt_intOf shaped fits).1

section Requests

variable {server : Server} {env : Env} {client : Nat} {way : Way} {key delta part : Bytes}
  {n : Int32}

/-- On a score: the increment is right, the decrement when it is by one. -/
theorem zby_done_iff (reached : server.Reachable) (converted : redisStrToInt delta = .ok (some n))
    {v : Int32} (held : server.stored client (.member key part) = some (.score v))
    (low : -2 ^ 31 ≤ way.exact v.toInt (intValue delta))
    (high : way.exact v.toInt (intValue delta) < 2 ^ 31) :
    (∃ server' reply, server.respond env client (request (.zby way key delta part)) =
        .ok (server', some reply) ∧ Done server server' client v.toInt (.zby way key delta part)) ↔
      (way = .decr → intValue delta = 1) := by
  have same : request (.zby way key delta part) = Cell.request way delta (.member key part) := by
    cases way <;> rfl
  obtain ⟨server', responded, -, wrote, -⟩ := Server.respond_held reached held way converted env
  have value := toInt_of_converted converted
  have done : (∃ server' reply, server.respond env client (request (.zby way key delta part)) =
        .ok (server', some reply) ∧ Done server server' client v.toInt (.zby way key delta part)) ↔
      (v + Cell.change way n (.member key part)).toInt = way.exact v.toInt (intValue delta) := by
    rw [same, responded]
    constructor
    · rintro ⟨other, reply, responded', new, wrote', integer⟩
      cases responded'
      cases wrote.own.symm.trans wrote'.own
      exact Option.some.inj integer
    · intro sum
      exact ⟨server', _, rfl, _, wrote, congrArg some sum⟩
  rw [done, Int32.toInt_add]
  cases way with
  | incr =>
      rw [Cell.change, value]
      exact iff_of_true (bmod_eq_self_iff.mpr ⟨low, high⟩) fun down => by cases down
  | decr =>
      have one : (-1 : Int32).toInt = -1 := rfl
      rw [← value] at low
      rw [Cell.change, one, Way.exact, ← value, imp_iff_right rfl]
      exact bmod_pred_iff v.le_toInt v.toInt_lt n.le_toInt low

end Requests

end Documented

namespace Str

/-- An addition that changes nothing. -/
theorem incrBy_same_iff {s : Str} (filled : s.data ≠ []) (delta : Int32) :
    (∃ text, s.incrBy delta = .ok (s, text)) ↔
      s.encodingType = .strRaw ∨ delta = 0 ∧ ∃ w, s = ofInt w ∧ w ≠ Int32.minValue := by
  rcases s.tagged with tag | ⟨tag, -⟩
  · exact iff_of_true ⟨[], incrBy_of_raw tag delta⟩ (Or.inl tag)
  · have counted : s.encodingType ≠ .strRaw := by
      rw [tag]
      decide
    rw [or_iff_right counted]
    constructor
    · rintro ⟨text, returned⟩
      have fits : ¬ Oversized s.data := by
        intro oversized
        obtain ⟨fault, raised⟩ := incrBy_raises.mpr ⟨tag, oversized⟩
        cases raised.symm.trans returned
      rw [incrBy_of_int filled tag fits] at returned
      have same : s = ofInt (intOf s.data + delta) :=
        (Prod.mk.inj (Except.ok.inj returned)).1.symm
      have fixed : intOf s.data = intOf s.data + delta :=
        (congrArg (fun s => intOf s.data) same).trans (intOf_toStringInt _)
      have none : delta = 0 := by grind
      refine ⟨none, _, same, ?_⟩
      rw [← fixed]
      exact intOf_ne_minValue (intShaped_of_int filled tag) fits
    · rintro ⟨rfl, w, rfl, above⟩
      have added := incrBy_of_int filled tag (mt oversized_toStringInt.mp above) 0
      have value : intOf (ofInt w).data + 0 = w := by
        rw [Int32.add_zero]
        exact intOf_toStringInt w
      rw [value] at added
      exact ⟨toStringInt w, added⟩

end Str

namespace Server

/-- A write to one cell against what a write to another is to do. -/
theorem Wrote.elsewhere_iff {server server' : Server} {client : Nat} {cell other : Cell}
    {held : Option Stored} (wrote : server.Wrote server' client other held)
    (together : other.key = cell.key) (apart : other ≠ cell) {old : Stored}
    (there : server.stored client cell = some old) (P : Stored → Prop) :
    (∃ new, server.Wrote server' client cell (some new) ∧ P new) ↔
      P old ∧ held = server.stored client other := by
  constructor
  · rintro ⟨new, wrote', holds⟩
    have kept := (wrote.others cell (Ne.symm apart)).trans there
    cases wrote'.own.symm.trans kept
    exact ⟨holds, wrote.own.symm.trans (wrote'.others other apart)⟩
  · rintro ⟨holds, same⟩
    refine ⟨old, ?_, holds⟩
    constructor
    · exact (wrote.others cell (Ne.symm apart)).trans there
    · intro third different
      by_cases own : third = other
      · rw [own, wrote.own, same]
      · exact wrote.others third own
    · exact wrote.beside
    · rw [← together]
      exact wrote.entries
    · rw [← together]
      exact wrote.expiry

end Server

namespace Stored

/-- When an addition to a string leaves the string as it is. -/
theorem incrBy_kept_iff {s : Str} (filled : s.data ≠ []) (delta : Int32) :
    (∃ text, (Stored.text s).incrBy delta = .ok (.text s, text)) ↔
      (Stored.text s).Kept delta.toInt := by
  have step : (∃ text, (Stored.text s).incrBy delta = .ok (.text s, text)) ↔
      ∃ text, s.incrBy delta = .ok (s, text) := by
    refine exists_congr fun text => ?_
    constructor
    · intro added
      obtain ⟨⟨s', text'⟩, called, same⟩ := bind_eq_ok.mp added
      cases same
      exact called
    · intro called
      rw [incrBy, called]
      rfl
  rw [step, Str.incrBy_same_iff filled, Kept]
  have raw : (Stored.text s).Raw ↔ s.encodingType = .strRaw := by
    constructor
    · rintro ⟨s', same, tag⟩
      cases same
      exact tag
    · exact fun tag => ⟨s, rfl, tag⟩
  have zero : delta.toInt = 0 ↔ delta = 0 := by
    rw [← Int32.toInt_inj]
    rfl
  simp only [raw, zero, Stored.text.injEq]

theorem kept_exact_iff {held : Stored} {way : Way} {n : Int} :
    held.Kept (way.exact 0 n) ↔ held.Kept n := by
  rw [Kept, Kept, Way.exact_eq_self_iff]

end Stored

namespace Cell

/-- When an addition to a string or field leaves it as it is. -/
theorem adding_keeps_iff {db : Db} {cell : Cell}
    (filled : ∀ s, cell.stored db = some (.text s) → s.data ≠ []) (way : Way) (delta : Bytes)
    (kind : cell.isText = true) :
    (∃ reply, cell.adding way delta db = .ok (cell.stored db, reply)) ↔
      ¬ Oversized delta ∧ (intShaped delta = true → ∀ held, cell.stored db = some held →
        held.Kept (intValue delta)) := by
  by_cases shaped : intShaped delta = true
  · by_cases oversized : Oversized delta
    · obtain ⟨fault, raised⟩ := redisStrToInt_raises.mpr oversized
      refine iff_of_false ?_ fun met => met.1 oversized
      rintro ⟨reply, added⟩
      rw [adding, raised] at added
      cases added
    · simp only [oversized, not_false_eq_true, shaped, forall_const, true_and]
      rw [adding, redisStrToInt_some shaped oversized, ok_bind]
      cases inside : cell.stored db with
      | none => exact iff_of_true ⟨refused, rfl⟩ fun held found => by cases found
      | some held =>
          simp only [Option.some.injEq, forall_eq']
          cases held with
          | score m => cases (isText_of_stored inside).trans kind
          | text s =>
              have moved : (cell.change way (intOf delta)).toInt = way.exact 0 (intValue delta) := by
                have offered : cell.Offers way := by
                  cases cell with
                  | str key | field key part => trivial
                  | member key part => cases kind
                have exact_change :=
                  change_exact offered (intOf_ne_minValue shaped oversized) 0
                rwa [Int.zero_add, (Str.toInt_intOf shaped oversized).1] at exact_change
              have kept := Stored.incrBy_kept_iff (filled s inside) (cell.change way (intOf delta))
              rw [moved, Stored.kept_exact_iff] at kept
              rw [← kept]
              constructor
              · rintro ⟨reply, added⟩
                obtain ⟨⟨new, text⟩, called, returned⟩ := bind_eq_ok.mp added
                cases returned
                exact ⟨text, called⟩
              · rintro ⟨text, called⟩
                refine ⟨textOr refused text, ?_⟩
                rw [called]
                rfl
  · rw [adding, redisStrToInt_none shaped, ok_bind]
    refine iff_of_true ⟨refused, rfl⟩ ⟨fun oversized => shaped oversized.1, ?_⟩
    exact fun named => absurd named shaped

end Cell

namespace Documented

section Requests

variable {server : Server} {env : Env} {client : Nat} {way : Way} {key delta part : Bytes}
  {n : Int32}

/-- On a field, if its name is the delta. -/
theorem hby_done_own_iff (reached : server.Reachable)
    (converted : redisStrToInt delta = .ok (some n)) {old : Stored} {v : Int}
    (held : server.stored client (.field key delta) = some old) (whole : old.integer = some v)
    (low : -2 ^ 31 ≤ way.exact v (intValue delta)) (high : way.exact v (intValue delta) < 2 ^ 31) :
    (∃ server' reply, server.respond env client (request (.hby way key delta delta)) =
        .ok (server', some reply) ∧ Done server server' client v (.hby way key delta delta)) ↔
      old.Raw ∧ intValue delta = 0 ∨ ¬ old.Raw ∧ ¬ old.Stuck := by
  have same : request (.hby way key delta delta) = Cell.request way delta (.field key delta) := by
    cases way <;> rfl
  have answer := Server.respond_held reached held way converted env
  have value := toInt_of_converted converted
  have offered : Cell.Offers way (.field key delta) := trivial
  have exact_change := Cell.change_exact offered (ne_minValue_of_converted converted) v
  rw [same]
  rcases Stored.incrBy_integer whole (Cell.change way n (.field key delta)) with
    ⟨raw, added⟩ | ⟨counted, stuck, fault, raised⟩ | ⟨counted, free, w, wrapped, added⟩
  · rw [added] at answer
    obtain ⟨server', responded, -, wrote, -⟩ := answer
    constructor
    · rintro ⟨other, reply, responded', new, wrote', integer⟩
      cases responded.symm.trans responded'
      cases wrote.own.symm.trans wrote'.own
      exact Or.inl ⟨raw, Way.exact_eq_self_iff.mp (Option.some.inj (integer.symm.trans whole))⟩
    · rintro (⟨-, zero⟩ | ⟨counted, -⟩)
      · refine ⟨server', _, responded, old, wrote, ?_⟩
        rw [whole, Way.exact_eq_self_iff.mpr zero]
      · exact absurd raw counted
  · rw [raised] at answer
    refine iff_of_false ?_ ?_
    · rintro ⟨server', reply, responded, -⟩
      cases answer.symm.trans responded
    · rintro (⟨raw, -⟩ | ⟨-, free⟩)
      · exact counted raw
      · exact free stuck
  · rw [added] at answer
    obtain ⟨server', responded, -, wrote, -⟩ := answer
    rw [exact_change, value, bmod_eq_self_iff.mpr ⟨low, high⟩] at wrapped
    refine iff_of_true ⟨server', _, responded, _, wrote, ?_⟩ (Or.inr ⟨counted, free⟩)
    rw [old.replaced_integer, wrapped]

/-- On a field with another name: the integer that names it is added to the field the delta
names. -/
theorem hby_done_other_iff (reached : server.Reachable) (given : delta ≠ [])
    {old : Stored} {v : Int} (held : server.stored client (.field key part) = some old)
    (whole : old.integer = some v) (apart : part ≠ delta) :
    (∃ server' reply, server.respond env client (request (.hby way key delta part)) =
        .ok (server', some reply) ∧ Done server server' client v (.hby way key delta part)) ↔
      intValue delta = 0 ∧ ¬ Oversized part ∧ (intShaped part = true →
        ∀ held, server.stored client (.field key delta) = some held →
          held.Kept (intValue part)) := by
  have same : request (.hby way key delta part) = Cell.request way part (.field key delta) := by
    cases way <;> rfl
  obtain ⟨index, attached, rest⟩ := Option.bind_eq_some_iff.mp held
  obtain ⟨db, there, inside⟩ := Option.bind_eq_some_iff.mp rest
  obtain ⟨object, found, inside'⟩ := Option.bind_eq_some_iff.mp inside
  have filled : db.Filled := reached.sound.filled db (List.mem_of_getElem? there)
  obtain ⟨key_given, part_given⟩ := Cell.named_of_stored filled inside
  have housed : object.houses (.field key delta) = true := by
    have housed := Object.houses_of_stored inside'
    cases object with
    | hash h => rfl
    | str s | list l | set s | zset z => cases housed
  have view := Server.stored_eq attached there (.field key delta)
  have different : Cell.field key delta ≠ Cell.field key part := fun equal =>
    apart (Cell.field.inj equal).2.symm
  have named : Cell.Named (.field key delta) := ⟨key_given, given⟩
  have shows := Server.respond_shows reached attached there named found housed way part_given env
  -- what a write to the other field is worth
  have worth {server' : Server} {stored : Option Stored} {reply : Reply}
      (responded : server.respond env client (Cell.request way part (.field key delta)) =
        .ok (server', some reply))
      (wrote : server.Wrote server' client (.field key delta) stored) :
      (∃ server' reply, server.respond env client (request (.hby way key delta part)) =
        .ok (server', some reply) ∧ Done server server' client v (.hby way key delta part)) ↔
      intValue delta = 0 ∧ stored = server.stored client (.field key delta) := by
    have together : Cell.key (.field key delta) = Cell.key (.field key part) := rfl
    have elsewhere := wrote.elsewhere_iff together different held
      (fun new => new.integer = some (way.exact v (intValue delta)))
    rw [whole, Option.some.injEq, eq_comm, Way.exact_eq_self_iff] at elsewhere
    rw [← elsewhere, same]
    constructor
    · rintro ⟨other, reply', responded', done⟩
      cases responded.symm.trans responded'
      exact done
    · exact fun done => ⟨server', reply, responded, done⟩
  have texts (s : Str) (text : Cell.stored (.field key delta) db = some (.text s)) : s.data ≠ [] :=
    Cell.text_filled filled text
  have keeps := Cell.adding_keeps_iff texts way part rfl
  rw [view, ← keeps, ← view]
  cases added : Cell.adding way part db (.field key delta) with
  | error fault =>
      rw [added] at shows
      refine iff_of_false ?_ ?_
      · rintro ⟨server', reply, responded, -⟩
        rw [same] at responded
        cases shows.symm.trans responded
      · rintro ⟨-, reply, returned⟩
        cases returned
  | ok result =>
      rw [added] at shows
      obtain ⟨server', responded, -, wrote, -⟩ := shows
      rw [worth responded wrote, view]
      refine and_congr_right fun _ => ⟨fun left => ⟨result.2, by rw [← left]⟩, ?_⟩
      rintro ⟨reply, returned⟩
      exact congrArg Prod.fst (Except.ok.inj returned)

end Requests

/-- When the documented requests act as documented. -/
theorem acts_iff {server : Server} (reached : server.Reachable) {doc : Documented}
    (accepted : doc.Accepted) (env : Env) (client : Nat) :
    doc.Acts server env client ↔ doc.Met server client := by
  cases doc with
  | zrem key member =>
      exact iff_of_false (fun acts => zrem_not_wellFormed key member acts.1) fun met => met
  | zby way key delta member =>
      obtain ⟨n, converted⟩ := accepted
      have given : delta ≠ [] := by
        rintro rfl
        cases converted
      rw [Acts, zby_wellFormed_iff, Met]
      constructor
      · rintro ⟨⟨key_given, -, member_given⟩, acts⟩
        refine ⟨key_given, member_given, fun down v held low high => ?_⟩
        have done := acts _ _ held rfl (by rw [Fits, down]; exact ⟨low, high⟩)
        subst down
        have low : -2 ^ 31 ≤ Way.exact v.toInt (intValue delta) .decr := low
        exact (zby_done_iff reached converted held low high).mp done rfl
      · rintro ⟨key_given, member_given, met⟩
        refine ⟨⟨key_given, given, member_given⟩, fun old v held whole fits => ?_⟩
        have kind := Server.isText_of_stored held
        cases old with
        | text s => cases kind
        | score m =>
            cases whole
            refine (zby_done_iff reached converted held fits.1 fits.2).mpr fun down => ?_
            subst down
            exact met rfl m held fits.1 fits.2
  | hby way key delta field =>
      obtain ⟨n, converted⟩ := accepted
      have given : delta ≠ [] := by
        rintro rfl
        cases converted
      have done {old : Stored} {v : Int} (held : server.stored client (.field key field) = some old)
          (whole : old.integer = some v) (low : -2 ^ 31 ≤ way.exact v (intValue delta))
          (high : way.exact v (intValue delta) < 2 ^ 31) :
          (∃ server' reply, server.respond env client (request (.hby way key delta field)) =
            .ok (server', some reply) ∧ Done server server' client v (.hby way key delta field)) ↔
          Swappable server client key delta field old := by
        rw [Swappable]
        split
        · rename_i own
          subst own
          exact hby_done_own_iff reached converted held whole low high
        · rename_i apart
          exact hby_done_other_iff reached given held whole apart
      rw [Acts, hby_wellFormed_iff, Met]
      constructor
      · rintro ⟨⟨key_given, -, field_given⟩, acts⟩
        refine ⟨key_given, field_given, fun old v held whole low high => ?_⟩
        exact (done held whole low high).mp (acts old v held whole ⟨low, high⟩)
      · rintro ⟨key_given, field_given, met⟩
        refine ⟨⟨key_given, given, field_given⟩, fun old v held whole fits => ?_⟩
        exact (done held whole fits.1 fits.2).mpr (met old v held whole fits.1 fits.2)

/-- An increment of a score. -/
theorem acts_iff_zincrby :
    ∃ server, Server.oneClient.serve quietEnv 0 [[bytes "ZADD", bytes "z", bytes "3", bytes "m"]] =
        .ok server ∧
      server.stored 0 (.member (bytes "z") (bytes "m")) = some (.score 3) ∧
      Acts (.zby .incr (bytes "z") (bytes "4") (bytes "m")) server quietEnv 0 := by
  obtain ⟨server, served, held⟩ : ∃ server, Server.oneClient.serve quietEnv 0
      [[bytes "ZADD", bytes "z", bytes "3", bytes "m"]] = .ok server ∧
      server.stored 0 (.member (bytes "z") (bytes "m")) = some (.score 3) :=
    ok_checked (by decide +kernel)
  have accepted : Accepted (.zby .incr (bytes "z") (bytes "4") (bytes "m")) :=
    ⟨4, by decide +kernel⟩
  refine ⟨server, served, held,
    (acts_iff (Server.oneClient_reachable.serve served) accepted quietEnv 0).mpr ?_⟩
  exact ⟨by decide, by decide, fun down => by cases down⟩

/-- `ZREM key member` is turned away, `ZDECRBY key 5 member` takes one off, and
`HINCRBY key 5 field` looks for the field `5`. -/
theorem not_acts :
    ∃ server, Server.oneClient.serve quietEnv 0 [[bytes "ZADD", bytes "z", bytes "3", bytes "m"],
        [bytes "HSET", bytes "h", bytes "f", bytes "1"]] = .ok server ∧ server.Reachable ∧
      ¬ Acts (.zrem (bytes "z") (bytes "m")) server quietEnv 0 ∧
      ¬ Acts (.zby .decr (bytes "z") (bytes "5") (bytes "m")) server quietEnv 0 ∧
      ¬ Acts (.hby .incr (bytes "h") (bytes "5") (bytes "f")) server quietEnv 0 := by
  obtain ⟨server, served, score, field, lowered, added⟩ : ∃ server,
      Server.oneClient.serve quietEnv 0 [[bytes "ZADD", bytes "z", bytes "3", bytes "m"],
        [bytes "HSET", bytes "h", bytes "f", bytes "1"]] = .ok server ∧
      server.stored 0 (.member (bytes "z") (bytes "m")) = some (.score 3) ∧
      server.stored 0 (.field (bytes "h") (bytes "f")) = some (.text (Str.ofData (bytes "1"))) ∧
      ((server.respond quietEnv 0 [bytes "ZDECRBY", bytes "z", bytes "5", bytes "m"]).toOption.all
        fun next => next.1.stored 0 (.member (bytes "z") (bytes "m")) = some (.score 2)) = true ∧
      ((server.respond quietEnv 0 [bytes "HINCRBY", bytes "h", bytes "5", bytes "f"]).toOption.all
        fun next => next.1.stored 0 (.field (bytes "h") (bytes "f")) =
          some (.text (Str.ofData (bytes "1")))) = true := ok_checked (by decide +kernel)
  refine ⟨server, served, Server.oneClient_reachable.serve served, ?_, ?_, ?_⟩
  · exact fun acts => zrem_not_wellFormed _ _ acts.1
  · intro acts
    obtain ⟨server', reply, responded, new, wrote, integer⟩ :=
      acts.2 _ 3 score rfl ⟨by decide +kernel, by decide +kernel⟩
    change server.respond quietEnv 0 [bytes "ZDECRBY", bytes "z", bytes "5", bytes "m"] = _
      at responded
    rw [responded] at lowered
    cases wrote.own.symm.trans (of_decide_eq_true lowered)
    exact absurd integer (by decide +kernel)
  · intro acts
    obtain ⟨server', reply, responded, new, wrote, integer⟩ :=
      acts.2 _ 1 field (by decide +kernel) ⟨by decide +kernel, by decide +kernel⟩
    change server.respond quietEnv 0 [bytes "HINCRBY", bytes "h", bytes "5", bytes "f"] = _
      at responded
    rw [responded] at added
    cases wrote.own.symm.trans (of_decide_eq_true added)
    exact absurd integer (by decide +kernel)

end Documented

end ForkRedis
