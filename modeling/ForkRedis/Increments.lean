import ForkRedis.Cells

set_option autoImplicit false

/- Increments against the integers: when a sum is the exact one, when it can be added to
again, and when a decrement takes an increment back. -/
namespace ForkRedis

open Decimal Lists Fallible

namespace Way

/-- The integer a request is to leave. -/
def exact (v n : Int) : Way → Int
  | .incr => v + n
  | .decr => v - n

end Way

namespace Cell

def isText : Cell → Bool
  | .str _ | .field _ _ => true
  | .member _ _ => false

end Cell

namespace Stored

def isText : Stored → Bool
  | .text _ => true
  | .score _ => false

/-- A string that `IncrBy` refuses, whatever it holds. -/
def Raw (stored : Stored) : Prop := ∃ s, stored = .text s ∧ s.encodingType = .strRaw

/-- The least `int` in a string, which `RedisStrToInt` does not take. -/
def Stuck (stored : Stored) : Prop := stored.isText = true ∧ stored.integer = some (-2 ^ 31)

/-- What an addition leaves in place of what was there. -/
def replaced (w : Int32) : Stored → Stored
  | .text _ => .text (Str.ofInt w)
  | .score _ => .score w

theorem replaced_shown (stored : Stored) (w : Int32) :
    (stored.replaced w).shown = toStringInt w := by
  cases stored <;> rfl

theorem replaced_isText (stored : Stored) (w : Int32) :
    (stored.replaced w).isText = stored.isText := by
  cases stored <;> rfl

theorem replaced_not_raw (stored : Stored) (w : Int32) : ¬ (stored.replaced w).Raw := by
  rintro ⟨s, same, tag⟩
  cases stored with
  | text s' =>
      cases same
      cases tag
  | score n => cases same

theorem integer_text_iff {s : Str} {v : Int} :
    (text s).integer = some v ↔
      intShaped s.data = true ∧ intValue s.data = v ∧ -2 ^ 31 ≤ v ∧ v < 2 ^ 31 := by
  rw [integer]
  split
  · rename_i ranged
    rw [Option.some.injEq]
    constructor
    · rintro rfl
      exact ⟨ranged.1, rfl, ranged.2⟩
    · exact fun given => given.2.1
  · rename_i outside
    refine iff_of_false (fun given => by cases given) ?_
    rintro ⟨shaped, rfl, ranged⟩
    exact outside ⟨shaped, ranged⟩

theorem replaced_integer (stored : Stored) (w : Int32) :
    (stored.replaced w).integer = some w.toInt := by
  cases stored with
  | text s =>
      refine integer_text_iff.mpr ⟨Str.intShaped_toStringInt w, ?_, w.le_toInt, w.toInt_lt⟩
      exact Str.intValue_render w.toInt
  | score n => rfl

theorem integer_range {stored : Stored} {v : Int} (whole : stored.integer = some v) :
    -2 ^ 31 ≤ v ∧ v < 2 ^ 31 := by
  cases stored with
  | text s => exact (integer_text_iff.mp whole).2.2
  | score n =>
      cases whole
      exact ⟨n.le_toInt, n.toInt_lt⟩

/-- What `IncrBy` does to an integer: it refuses a raw string, it raises at the least `int` in
a string, and elsewhere it leaves the sum as an `int` has it. -/
theorem incrBy_integer {old : Stored} {v : Int} (whole : old.integer = some v) (delta : Int32) :
    (old.Raw ∧ old.incrBy delta = .ok (old, [])) ∨
    (¬ old.Raw ∧ old.Stuck ∧ ∃ fault, old.incrBy delta = .error fault) ∨
    (¬ old.Raw ∧ ¬ old.Stuck ∧ ∃ w : Int32, w.toInt = (v + delta.toInt).bmod (2 ^ 32) ∧
      old.incrBy delta = .ok (old.replaced w, toStringInt w)) := by
  cases old with
  | text s =>
      obtain ⟨shaped, value, low, high⟩ := integer_text_iff.mp whole
      have filled : s.data ≠ [] := by
        intro empty
        rw [empty] at shaped
        cases shaped
      rcases s.tagged with tag | ⟨tag, -⟩
      · refine Or.inl ⟨⟨s, rfl, tag⟩, ?_⟩
        rw [incrBy, Str.incrBy_of_raw tag]
        rfl
      · have counted : ¬ (text s).Raw := by
          rintro ⟨s', same, raw⟩
          cases same
          cases tag.symm.trans raw
        have oversized : Oversized s.data ↔ v = -2 ^ 31 := by
          rw [Oversized, magnitude_eq, value]
          simp only [shaped, true_and]
          omega
        by_cases least : v = -2 ^ 31
        · have stuck : (text s).Stuck := ⟨rfl, least ▸ whole⟩
          obtain ⟨fault, raised⟩ := Str.incrBy_raises.mpr ⟨tag, oversized.mpr least⟩
          exact Or.inr (Or.inl ⟨counted, stuck, fault, by rw [incrBy, raised]; rfl⟩)
        · have free : ¬ (text s).Stuck := by
            intro stuck
            exact least (Option.some.inj (whole.symm.trans stuck.2))
          have fits := mt oversized.mp least
          refine Or.inr (Or.inr ⟨counted, free, intOf s.data + delta, ?_, ?_⟩)
          · rw [Int32.toInt_add, (Str.toInt_intOf shaped fits).1, value]
          · rw [incrBy, Str.incrBy_of_int filled tag fits]
            rfl
  | score n =>
      cases whole
      refine Or.inr (Or.inr ⟨?_, ?_, n + delta, Int32.toInt_add n delta, rfl⟩)
      · rintro ⟨s, same, -⟩
        cases same
      · rintro ⟨text, -⟩
        cases text

end Stored

namespace Cell

theorem isText_of_stored {cell : Cell} {db : Db} {held : Stored}
    (there : cell.stored db = some held) : held.isText = cell.isText := by
  obtain ⟨object, -, inside⟩ := Option.bind_eq_some_iff.mp there
  cases object with
  | str s =>
      cases cell with
      | str key =>
          cases inside
          rfl
      | field key part | member key part => cases inside
  | hash h =>
      cases cell with
      | field key part =>
          obtain ⟨field, -, rfl⟩ := Option.map_eq_some_iff.mp inside
          rfl
      | str key | member key part => cases inside
  | zset z =>
      cases cell with
      | member key part =>
          obtain ⟨n, -, rfl⟩ := Option.map_eq_some_iff.mp inside
          rfl
      | str key | field key part => cases inside
  | list l | set s => cases inside

/-- The five commands that add what they are given. -/
def Offers (way : Way) : Cell → Prop
  | .str _ | .field _ _ => True
  | .member _ _ => way = .incr

theorem change_exact {cell : Cell} {way : Way} (offers : cell.Offers way) {n : Int32}
    (above : n ≠ Int32.minValue) (v : Int) :
    v + (cell.change way n).toInt = way.exact v n.toInt := by
  cases cell with
  | str key | field key part =>
      cases way with
      | incr => rfl
      | decr =>
          rw [change, toInt_neg_of_ne above]
          rfl
  | member key part =>
      cases offers
      rfl

end Cell

theorem ne_minValue_of_converted {raw : Bytes} {n : Int32}
    (converted : redisStrToInt raw = .ok (some n)) : n ≠ Int32.minValue := by
  obtain ⟨shaped, fits⟩ := redisStrToInt_converts.mp ⟨n, converted⟩
  have taken := (redisStrToInt_some shaped fits).symm.trans converted
  cases taken
  exact intOf_ne_minValue shaped fits

theorem bmod_eq_self_iff {i : Int} : i.bmod (2 ^ 32) = i ↔ -2 ^ 31 ≤ i ∧ i < 2 ^ 31 := by
  rw [Int.bmod_def]
  omega

/-- One less, as an `int` has it, is so much less only if that is one. -/
theorem bmod_pred_iff {i n : Int} (low : -2 ^ 31 ≤ i) (high : i < 2 ^ 31) (delta : -2 ^ 31 ≤ n)
    (less : -2 ^ 31 ≤ i - n) : (i + -1).bmod (2 ^ 32) = i - n ↔ n = 1 := by
  rw [Int.bmod_def]
  omega

theorem render_inj {i j : Int} : render i = render j ↔ i = j := by
  constructor
  · intro same
    rw [← Str.intValue_render i, same, Str.intValue_render]
  · rintro rfl
    rfl

namespace Server

theorem isText_of_stored {server : Server} {client : Nat} {cell : Cell} {held : Stored}
    (there : server.stored client cell = some held) : held.isText = cell.isText := by
  obtain ⟨index, -, rest⟩ := Option.bind_eq_some_iff.mp there
  obtain ⟨db, -, inside⟩ := Option.bind_eq_some_iff.mp rest
  exact Cell.isText_of_stored inside

/-- A further increment of a cell is accepted, whatever it adds. -/
def Takes (server : Server) (client : Nat) (cell : Cell) : Prop :=
  ∀ env delta n, redisStrToInt delta = .ok (some n) → ∃ server' reply,
    server.respond env client (cell.request .incr delta) = .ok (server', some reply) ∧
      reply ≠ refused

theorem takes_iff {server : Server} (reached : server.Reachable) {client : Nat} {cell : Cell}
    {old : Stored} (held : server.stored client cell = some old) {v : Int}
    (whole : old.integer = some v) (counted : ¬ old.Raw) :
    server.Takes client cell ↔ ¬ old.Stuck := by
  constructor
  · intro takes stuck
    obtain ⟨server', reply, responded, -⟩ := takes quietEnv (bytes "0") 0 (by decide +kernel)
    have answer := respond_held reached held .incr
      (show redisStrToInt (bytes "0") = .ok (some 0) by decide +kernel) quietEnv
    rcases Stored.incrBy_integer whole (cell.change .incr 0) with
      ⟨raw, -⟩ | ⟨-, -, fault, raised⟩ | ⟨-, free, -⟩
    · exact counted raw
    · rw [raised] at answer
      cases responded.symm.trans answer
    · exact free stuck
  · intro free env delta n accepted
    have answer := respond_held reached held .incr accepted env
    rcases Stored.incrBy_integer whole (cell.change .incr n) with
      ⟨raw, -⟩ | ⟨-, stuck, -⟩ | ⟨-, -, w, -, added⟩
    · exact absurd raw counted
    · exact absurd stuck free
    · rw [added] at answer
      obtain ⟨server', responded, -⟩ := answer
      refine ⟨server', _, responded, ?_⟩
      rw [textOr, if_neg (Str.toStringInt_ne_nil w)]
      exact toStringInt_ne_refused w

/-- A request leaves everything as it is and says so, or it stores and answers the exact
result; what an increment stored in a string can be added to again. -/
def AddsExactly (server : Server) (env : Env) (client : Nat) (cell : Cell) (way : Way)
    (delta : Bytes) (result : Int) : Prop :=
  ∃ server' reply,
    server.respond env client (cell.request way delta) = .ok (server', some reply) ∧
    (reply = refused ∧ server' = server ∨
      reply = [render result] ∧
      (server'.stored client cell).map Stored.shown = some (render result) ∧
      (way = .incr → cell.isText = true → server'.Takes client cell))

end Server

/-- The string is raw; or it is not the least `int`, and the result is an `int` and, for an
increment of a string, not the least one. -/
def Stored.Roomy (old : Stored) (way : Way) (v n : Int) : Prop :=
  old.Raw ∨ ¬ old.Stuck ∧ -2 ^ 31 ≤ way.exact v n ∧ way.exact v n < 2 ^ 31 ∧
    (way = .incr → old.isText = true → way.exact v n ≠ -2 ^ 31)

namespace Server

theorem addsExactly_iff {server : Server} (reached : server.Reachable) {client : Nat} {cell : Cell}
    {old : Stored} (held : server.stored client cell = some old) {v : Int}
    (whole : old.integer = some v) {way : Way} (offers : cell.Offers way) {delta : Bytes}
    {n : Int32} (accepted : redisStrToInt delta = .ok (some n)) (env : Env) :
    server.AddsExactly env client cell way delta (way.exact v n.toInt) ↔
      old.Roomy way v n.toInt := by
  have answer := respond_held reached held way accepted env
  have kind := isText_of_stored held
  have exact_change := Cell.change_exact offers (ne_minValue_of_converted accepted) v
  rcases Stored.incrBy_integer whole (cell.change way n) with
    ⟨raw, added⟩ | ⟨counted, stuck, fault, raised⟩ | ⟨counted, free, w, wrapped, added⟩
  · rw [added] at answer
    obtain ⟨server', responded, -, -, same⟩ := answer
    exact iff_of_true ⟨server', refused, responded, Or.inl ⟨rfl, same rfl⟩⟩ (Or.inl raw)
  · rw [raised] at answer
    refine iff_of_false ?_ ?_
    · rintro ⟨server', reply, responded, -⟩
      cases answer.symm.trans responded
    · rintro (raw | ⟨free, -⟩)
      · exact counted raw
      · exact free stuck
  · rw [added] at answer
    obtain ⟨server', responded, reached', wrote, -⟩ := answer
    rw [textOr, if_neg (Str.toStringInt_ne_nil w)] at responded
    rw [exact_change] at wrapped
    have takes := takes_iff reached' wrote.own (old.replaced_integer w) (old.replaced_not_raw w)
    have stuck : (old.replaced w).Stuck ↔ old.isText = true ∧ w.toInt = -2 ^ 31 := by
      rw [Stored.Stuck, old.replaced_isText, old.replaced_integer, Option.some.injEq]
    have fits : w.toInt = way.exact v n.toInt ↔
        -2 ^ 31 ≤ way.exact v n.toInt ∧ way.exact v n.toInt < 2 ^ 31 := by
      rw [wrapped, bmod_eq_self_iff]
    constructor
    · rintro ⟨other, reply, responded', outcome⟩
      cases responded.symm.trans responded'
      rcases outcome with ⟨refuses, -⟩ | ⟨answered, -, further⟩
      · exact absurd refuses (toStringInt_ne_refused w)
      · have same : w.toInt = way.exact v n.toInt := render_inj.mp (List.cons.inj answered).1
        obtain ⟨low, high⟩ := fits.mp same
        refine Or.inr ⟨free, low, high, fun incr text least => ?_⟩
        refine takes.mp (further incr (kind ▸ text)) (stuck.mpr ⟨text, ?_⟩)
        rw [same, least]
    · rintro (raw | ⟨-, low, high, above⟩)
      · exact absurd raw counted
      · have same := fits.mpr ⟨low, high⟩
        refine ⟨server', _, responded, Or.inr ⟨?_, ?_, ?_⟩⟩
        · rw [toStringInt, same]
        · rw [wrote.own, Option.map_some, old.replaced_shown, toStringInt, same]
        · intro incr text
          refine takes.mpr fun stuck' => above incr (kind.trans text) ?_
          rw [← same, (stuck.mp stuck').2]

/-- A field just below the greatest `int`. -/
theorem addsExactly_iff_field :
    ∃ server, oneClient.serve quietEnv 0
        [[bytes "HSET", bytes "h", bytes "f", bytes "2147483640"]] = .ok server ∧
      server.AddsExactly quietEnv 0 (.field (bytes "h") (bytes "f")) .incr (bytes "7")
        2147483647 := by
  obtain ⟨server, served, held⟩ : ∃ server, oneClient.serve quietEnv 0
      [[bytes "HSET", bytes "h", bytes "f", bytes "2147483640"]] = .ok server ∧
      server.stored 0 (.field (bytes "h") (bytes "f")) =
        some (.text (Str.ofData (bytes "2147483640"))) := ok_checked (by decide +kernel)
  have whole : (Stored.text (Str.ofData (bytes "2147483640"))).integer = some 2147483640 := by
    decide +kernel
  have accepted : redisStrToInt (bytes "7") = .ok (some 7) := by decide +kernel
  have offered : Cell.Offers .incr (.field (bytes "h") (bytes "f")) := trivial
  refine ⟨server, served, (addsExactly_iff (oneClient_reachable.serve served) held whole offered
    accepted quietEnv).mpr (Or.inr ⟨?_, by decide, by decide, ?_⟩)⟩
  · rintro ⟨-, least⟩
    cases whole.symm.trans least
  · intro _ _
    decide

/-- One more than the greatest `int`, and one less than the least but one, to which nothing can
then be added. -/
theorem not_addsExactly :
    (∃ server, oneClient.serve quietEnv 0 [[bytes "SET", bytes "k", bytes "2147483647"]] =
        .ok server ∧ server.Reachable ∧
      server.stored 0 (.str (bytes "k")) = some (.text (Str.ofData (bytes "2147483647"))) ∧
      ¬ server.AddsExactly quietEnv 0 (.str (bytes "k")) .incr (bytes "1") 2147483648) ∧
    ∃ server, oneClient.serve quietEnv 0 [[bytes "SET", bytes "k", bytes "-2147483647"],
        [bytes "DECRBY", bytes "k", bytes "1"]] = .ok server ∧ server.Reachable ∧
      server.stored 0 (.str (bytes "k")) = some (.text (Str.ofData (bytes "-2147483648"))) ∧
      ¬ server.AddsExactly quietEnv 0 (.str (bytes "k")) .incr (bytes "5") (-2147483643) := by
  constructor
  · obtain ⟨server, served, held, run⟩ : ∃ server, oneClient.serve quietEnv 0
        [[bytes "SET", bytes "k", bytes "2147483647"]] = .ok server ∧
        server.stored 0 (.str (bytes "k")) = some (.text (Str.ofData (bytes "2147483647"))) ∧
        (server.respond quietEnv 0 [bytes "INCRBY", bytes "k", bytes "1"]).toOption.map Prod.snd =
          some (some [bytes "-2147483648"]) := ok_checked (by decide +kernel)
    refine ⟨server, served, oneClient_reachable.serve served, held, ?_⟩
    rintro ⟨server', reply, responded, outcome⟩
    change server.respond quietEnv 0 [bytes "INCRBY", bytes "k", bytes "1"] = _ at responded
    rw [responded] at run
    obtain rfl : reply = [bytes "-2147483648"] := Option.some.inj (Option.some.inj run)
    rcases outcome with ⟨refuses, -⟩ | ⟨answered, -⟩
    · exact absurd refuses (by decide +kernel)
    · exact absurd answered (by decide +kernel)
  · obtain ⟨server, served, held, run⟩ : ∃ server, oneClient.serve quietEnv 0
        [[bytes "SET", bytes "k", bytes "-2147483647"], [bytes "DECRBY", bytes "k", bytes "1"]] =
          .ok server ∧
        server.stored 0 (.str (bytes "k")) = some (.text (Str.ofData (bytes "-2147483648"))) ∧
        (server.respond quietEnv 0 [bytes "INCRBY", bytes "k", bytes "5"]).toOption.isNone = true :=
      ok_checked (by decide +kernel)
    refine ⟨server, served, oneClient_reachable.serve served, held, ?_⟩
    rintro ⟨server', reply, responded, -⟩
    change server.respond quietEnv 0 [bytes "INCRBY", bytes "k", bytes "5"] = _ at responded
    rw [responded] at run
    cases run

/-- After an increment and a decrement by the same delta the cell holds the integer again. -/
def Undoes (server : Server) (env env' : Env) (client : Nat) (cell : Cell) (delta : Bytes)
    (v : Int) : Prop :=
  ∃ server₁ reply₁ server₂ reply₂,
    server.respond env client (cell.request .incr delta) = .ok (server₁, some reply₁) ∧
    server₁.respond env' client (cell.request .decr delta) = .ok (server₂, some reply₂) ∧
    (server₂.stored client cell).bind Stored.integer = some v

end Server

/-- The string is raw, or neither it nor the sum is the least `int`; a score goes up by one. -/
def Stored.Reversible (old : Stored) (v n : Int) : Prop :=
  old.Raw ∨ if old.isText then v ≠ -2 ^ 31 ∧ v + n ≠ -2 ^ 31 else n = 1

namespace Server

/-- The decrement after an increment that added. -/
theorem decr_integer_iff {server : Server} (reached : server.Reachable) {client : Nat}
    {cell : Cell} {old : Stored} {w : Int32}
    (held : server.stored client cell = some (old.replaced w)) {v : Int}
    (whole : old.integer = some v) (free : ¬ old.Stuck) {n : Int32} (sum : w.toInt = v + n.toInt)
    {delta : Bytes} (accepted : redisStrToInt delta = .ok (some n))
    (kind : old.isText = cell.isText) (env : Env) :
    (∃ server' reply,
      server.respond env client (cell.request .decr delta) = .ok (server', some reply) ∧
      (server'.stored client cell).bind Stored.integer = some v) ↔
      if old.isText then v ≠ -2 ^ 31 ∧ v + n.toInt ≠ -2 ^ 31 else n.toInt = 1 := by
  have answer := respond_held reached held .decr accepted env
  have range := Stored.integer_range whole
  rcases Stored.incrBy_integer (old.replaced_integer w) (cell.change .decr n) with
    ⟨raw, -⟩ | ⟨-, stuck, fault, raised⟩ | ⟨-, unstuck, w', wrapped, added⟩
  · exact absurd raw (old.replaced_not_raw w)
  · obtain ⟨text, least⟩ := stuck
    rw [old.replaced_isText] at text
    rw [old.replaced_integer, Option.some.injEq, sum] at least
    rw [raised] at answer
    rw [if_pos text]
    refine iff_of_false ?_ fun room => room.2 least
    rintro ⟨server', reply, responded, -⟩
    cases answer.symm.trans responded
  · rw [added] at answer
    obtain ⟨server', responded, -, wrote, -⟩ := answer
    have left : (∃ server' reply,
        server.respond env client (cell.request .decr delta) = .ok (server', some reply) ∧
        (server'.stored client cell).bind Stored.integer = some v) ↔ w'.toInt = v := by
      constructor
      · rintro ⟨other, reply, responded', again⟩
        cases responded.symm.trans responded'
        rw [wrote.own, Option.bind_some, Stored.replaced_integer] at again
        exact Option.some.inj again
      · intro same
        refine ⟨server', _, responded, ?_⟩
        rw [wrote.own, Option.bind_some, Stored.replaced_integer, same]
    rw [left, wrapped, sum]
    cases cell with
    | str key | field key part =>
        have text : old.isText = true := kind
        rw [if_pos text]
        have above : v ≠ -2 ^ 31 := fun least => free ⟨text, least ▸ whole⟩
        have above' : v + n.toInt ≠ -2 ^ 31 := by
          intro least
          refine unstuck ⟨(old.replaced_isText w).trans text, ?_⟩
          rw [old.replaced_integer, sum, least]
        refine iff_of_true ?_ ⟨above, above'⟩
        have exact_change : (-n).toInt = -n.toInt :=
          toInt_neg_of_ne (ne_minValue_of_converted accepted)
        rw [Cell.change, exact_change, Int.add_neg_cancel_right]
        exact bmod_eq_self_iff.mpr range
    | member key part =>
        have score : old.isText = false := kind
        rw [score, if_neg Bool.false_ne_true]
        have one : (-1 : Int32).toInt = -1 := rfl
        have back : v = w.toInt - n.toInt := by omega
        rw [Cell.change, one, ← sum, back]
        exact bmod_pred_iff w.le_toInt w.toInt_lt n.le_toInt (back ▸ range.1)

theorem undoes_iff {server : Server} (reached : server.Reachable) {client : Nat} {cell : Cell}
    {old : Stored} (held : server.stored client cell = some old) {v : Int}
    (whole : old.integer = some v) {delta : Bytes} {n : Int32}
    (accepted : redisStrToInt delta = .ok (some n)) (low : -2 ^ 31 ≤ v + n.toInt)
    (high : v + n.toInt < 2 ^ 31) (env env' : Env) :
    server.Undoes env env' client cell delta v ↔ old.Reversible v n.toInt := by
  have first := respond_held reached held .incr accepted env
  have kind := isText_of_stored held
  have upward : cell.change .incr n = n := by cases cell <;> rfl
  rw [upward] at first
  rcases Stored.incrBy_integer whole n with
    ⟨raw, added⟩ | ⟨counted, stuck, fault, raised⟩ | ⟨counted, free, w, wrapped, added⟩
  · rw [added] at first
    obtain ⟨server₁, responded₁, -, -, same₁⟩ := first
    obtain rfl : server₁ = server := same₁ rfl
    have second := respond_held reached held .decr accepted env'
    rcases Stored.incrBy_integer whole (cell.change .decr n) with
      ⟨-, added'⟩ | ⟨counted, -⟩ | ⟨counted, -⟩
    · rw [added'] at second
      obtain ⟨server₂, responded₂, -, wrote₂, -⟩ := second
      refine iff_of_true ⟨_, _, server₂, _, responded₁, responded₂, ?_⟩ (Or.inl raw)
      rw [wrote₂.own]
      exact whole
    · exact absurd raw counted
    · exact absurd raw counted
  · rw [raised] at first
    refine iff_of_false ?_ ?_
    · rintro ⟨server₁, reply₁, -, -, responded₁, -⟩
      cases first.symm.trans responded₁
    · rintro (raw | rest)
      · exact counted raw
      · rw [if_pos stuck.1] at rest
        exact rest.1 (Option.some.inj (whole.symm.trans stuck.2))
  · rw [added] at first
    obtain ⟨server₁, responded₁, reached₁, wrote₁, -⟩ := first
    have sum : w.toInt = v + n.toInt := by
      rw [wrapped, bmod_eq_self_iff.mpr ⟨low, high⟩]
    rw [Stored.Reversible, or_iff_right counted,
      ← decr_integer_iff reached₁ wrote₁.own whole free sum accepted kind env']
    constructor
    · rintro ⟨other, reply₁, server₂, reply₂, responded, responded₂, again⟩
      cases responded₁.symm.trans responded
      exact ⟨server₂, reply₂, responded₂, again⟩
    · rintro ⟨server₂, reply₂, responded₂, again⟩
      exact ⟨server₁, _, server₂, reply₂, responded₁, responded₂, again⟩

/-- A score that goes up by one, and down again. -/
theorem undoes_iff_score :
    ∃ server, oneClient.serve quietEnv 0 [[bytes "ZADD", bytes "z", bytes "-3", bytes "m"]] =
        .ok server ∧
      server.Undoes quietEnv quietEnv 0 (.member (bytes "z") (bytes "m")) (bytes "1") (-3) := by
  obtain ⟨server, served, held⟩ : ∃ server, oneClient.serve quietEnv 0
      [[bytes "ZADD", bytes "z", bytes "-3", bytes "m"]] = .ok server ∧
      server.stored 0 (.member (bytes "z") (bytes "m")) = some (.score (-3)) :=
    ok_checked (by decide +kernel)
  have whole : (Stored.score (-3)).integer = some (-3) := by decide
  have accepted : redisStrToInt (bytes "1") = .ok (some 1) := by decide +kernel
  exact ⟨server, served, (undoes_iff (oneClient_reachable.serve served) held whole accepted
    (by decide) (by decide) quietEnv quietEnv).mpr (Or.inr rfl)⟩

/-- A score that goes up by five, and down by one. -/
theorem not_undoes :
    ∃ server, oneClient.serve quietEnv 0 [[bytes "ZADD", bytes "z", bytes "0", bytes "m"]] =
        .ok server ∧ server.Reachable ∧
      server.stored 0 (.member (bytes "z") (bytes "m")) = some (.score 0) ∧
      ¬ server.Undoes quietEnv quietEnv 0 (.member (bytes "z") (bytes "m")) (bytes "5") 0 := by
  obtain ⟨server, served, held, run⟩ : ∃ server, oneClient.serve quietEnv 0
      [[bytes "ZADD", bytes "z", bytes "0", bytes "m"]] = .ok server ∧
      server.stored 0 (.member (bytes "z") (bytes "m")) = some (.score 0) ∧
      ((server.respond quietEnv 0 [bytes "ZINCRBY", bytes "z", bytes "5", bytes "m"]).toOption.all
        fun next => (next.1.respond quietEnv 0
          [bytes "ZDECRBY", bytes "z", bytes "5", bytes "m"]).toOption.all fun last =>
            last.1.stored 0 (.member (bytes "z") (bytes "m")) = some (.score 4)) = true :=
    ok_checked (by decide +kernel)
  refine ⟨server, served, oneClient_reachable.serve served, held, ?_⟩
  rintro ⟨server₁, reply₁, server₂, reply₂, responded₁, responded₂, again⟩
  change server.respond quietEnv 0 [bytes "ZINCRBY", bytes "z", bytes "5", bytes "m"] = _
    at responded₁
  change server₁.respond quietEnv 0 [bytes "ZDECRBY", bytes "z", bytes "5", bytes "m"] = _
    at responded₂
  rw [responded₁] at run
  change ((server₁.respond quietEnv 0 [bytes "ZDECRBY", bytes "z", bytes "5",
    bytes "m"]).toOption.all _) = true at run
  rw [responded₂] at run
  rw [of_decide_eq_true run] at again
  cases again

end Server

end ForkRedis
