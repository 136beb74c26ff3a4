import ForkRedis.Reach
import ForkRedis.Persistence
import ForkRedis.Indexes

set_option autoImplicit false

/- Which requests bring the server down: the hazards of each command, and that there are
no others. -/
namespace ForkRedis

open Decimal Lists Fallible

variable {args : List Bytes} {raw : Bytes} {request : Request}

/-- An integer whose digits `std::stoi` does not fit into an `int`. -/
def Oversized (raw : Bytes) : Prop := intShaped raw = true ∧ 2 ^ 31 ≤ magnitude raw

instance (raw : Bytes) : Decidable (Oversized raw) := inferInstanceAs (Decidable (_ ∧ _))

/-- The `int` of an integer that is not oversized. -/
def intOf (raw : Bytes) : Int32 := Int32.ofInt (intValue raw)

theorem redisStrToInt_raises : Raises (redisStrToInt raw) ↔ Oversized raw := by
  rw [redisStrToInt_eq, Oversized]
  by_cases shaped : intShaped raw = true
  · by_cases small : magnitude raw < 2 ^ 31
    · simp only [shaped, small, ↓reduceIte, not_raises_ok, true_and, false_iff]
      omega
    · simp only [shaped, small, ↓reduceIte, raises_error, true_and, true_iff]
      omega
  · simp only [shaped, Bool.false_eq_true, ↓reduceIte, not_raises_ok, false_and]

theorem magnitude_lt (shaped : intShaped raw = true) (fits : ¬ Oversized raw) :
    magnitude raw < 2 ^ 31 := by
  simp only [Oversized, shaped, true_and] at fits
  omega

theorem redisStrToInt_some (shaped : intShaped raw = true) (fits : ¬ Oversized raw) :
    redisStrToInt raw = .ok (some (intOf raw)) := by
  simp only [redisStrToInt_eq, shaped, magnitude_lt shaped fits, ↓reduceIte, intOf]

theorem redisStrToInt_none (other : ¬ intShaped raw = true) : redisStrToInt raw = .ok none := by
  simp only [redisStrToInt_eq, other, Bool.false_eq_true, ↓reduceIte]

theorem redisStrToInt_converts :
    (∃ n, redisStrToInt raw = .ok (some n)) ↔ intShaped raw = true ∧ ¬ Oversized raw := by
  by_cases shaped : intShaped raw = true
  · by_cases oversized : Oversized raw
    · obtain ⟨fault, raised⟩ := redisStrToInt_raises.mpr oversized
      simp only [raised, reduceCtorEq, exists_false, oversized, not_true_eq_false, and_false]
    · simp only [redisStrToInt_some shaped oversized, Except.ok.injEq, Option.some.injEq,
        exists_eq', shaped, oversized, not_false_eq_true, and_self]
  · simp only [redisStrToInt_none shaped, Except.ok.injEq, reduceCtorEq, exists_false, shaped,
      false_and]

theorem intOf_toStringInt (n : Int32) : intOf (toStringInt n) = n := by
  rw [intOf, toStringInt, Str.intValue_render, Int32.ofInt_toInt]

/-- The decimal of the least `int` is the only one that is not read back. -/
theorem oversized_toStringInt {n : Int32} :
    Oversized (toStringInt n) ↔ n = Int32.minValue := by
  have low := n.le_toInt
  have high := n.toInt_lt
  have least : n = Int32.minValue ↔ n.toInt = -2 ^ 31 := Int32.toInt_inj.symm
  rw [Oversized, Str.intShaped_toStringInt, magnitude_eq, toStringInt, Str.intValue_render, least,
    eq_self, true_and]
  omega

/-- A conversion, and what is done with its result when it cannot go wrong without one. -/
theorem convert_raises {α : Type} {next : Option Int32 → Except Fault α}
    (skips : ¬ Raises (next none)) :
    Raises (redisStrToInt raw >>= next) ↔
      Oversized raw ∨ intShaped raw = true ∧ Raises (next (some (intOf raw))) := by
  rw [raises_bind, redisStrToInt_raises]
  by_cases oversized : Oversized raw
  · simp only [oversized, true_or]
  · simp only [oversized, false_or]
    by_cases shaped : intShaped raw = true
    · simp only [redisStrToInt_some shaped oversized, Except.ok.injEq, exists_eq_left', shaped,
        true_and]
    · simp only [redisStrToInt_none shaped, Except.ok.injEq, exists_eq_left', skips, shaped,
        Bool.false_eq_true, false_and]

/-- Two conversions are both made before either result is looked at. -/
theorem convert_two_raises {α : Type} {low high : Bytes}
    {next : Option Int32 → Option Int32 → Except Fault α} (skipsLow : ∀ n, ¬ Raises (next none n))
    (skipsHigh : ∀ n, ¬ Raises (next n none)) :
    Raises (redisStrToInt low >>= fun a => redisStrToInt high >>= next a) ↔
      Oversized low ∨ Oversized high ∨ intShaped low = true ∧ intShaped high = true ∧
        Raises (next (some (intOf low)) (some (intOf high))) := by
  rw [raises_bind, redisStrToInt_raises]
  by_cases oversized : Oversized low
  · simp only [oversized, true_or]
  · simp only [oversized, false_or]
    by_cases shaped : intShaped low = true
    · simp only [redisStrToInt_some shaped oversized, Except.ok.injEq, exists_eq_left',
        convert_raises (skipsHigh _), shaped, true_and]
    · simp only [redisStrToInt_none shaped, Except.ok.injEq, exists_eq_left',
        convert_raises (skipsHigh _), skipsLow, and_false, or_false, shaped, Bool.false_eq_true,
        false_and]

/-- `RedisStrToInt` never returns the least `int`. -/
theorem intOf_ne_minValue (shaped : intShaped raw = true) (fits : ¬ Oversized raw) :
    intOf raw ≠ Int32.minValue := by
  have small := magnitude_lt shaped fits
  rw [magnitude_eq] at small
  intro least
  have value := congrArg Int32.toInt least
  rw [intOf, Int32.toInt_ofInt_of_le (by omega) (by omega)] at value
  have minimum : Int32.minValue.toInt = -2 ^ 31 := rfl
  omega

namespace Str

theorem append_raises {s : Str} {data : Bytes} :
    Raises (s.append data) ↔ s.encodingType = .int ∧ Oversized (s.data ++ data) := by
  rw [← redisStrToInt_raises, append]
  by_cases tag : s.encodingType = .int
  · simp only [tag, ↓reduceIte, true_and]
    split
    · rename_i converted
      simp only [converted, raises_error]
    · rename_i converted
      simp only [converted, not_raises_ok]
    · rename_i converted
      simp only [converted, not_raises_ok]
  · simp only [tag, ↓reduceIte, not_raises_ok, false_and]

theorem incrBy_raises {s : Str} {delta : Int32} :
    Raises (s.incrBy delta) ↔ s.encodingType = .int ∧ Oversized s.data := by
  rw [incrBy]
  by_cases tag : s.encodingType = .int
  · simp only [tag, ne_eq, not_true_eq_false, ↓reduceIte, true_and]
    refine (convert_raises ?_).trans ?_
    · exact not_raises_ok _
    · simp only [pure_eq_ok, not_raises_ok, and_false, or_false]
  · simp only [tag, ne_eq, not_false_eq_true, ↓reduceIte, not_raises_ok, false_and]

end Str

namespace StrName

/-- The hazards of a command with its arguments on the string it finds. -/
def Hazard : StrName → List Bytes → Str → Prop
  | .incrBy, delta :: _, s | .decrBy, delta :: _, s =>
      Oversized delta ∨ intShaped delta = true ∧ s.encodingType = .int ∧ Oversized s.data
  | .append, data :: _, s => s.encodingType = .int ∧ Oversized (s.data ++ data)
  | _, _, _ => False

end StrName

namespace ListName

/-- The hazards of a command with its arguments on the list it finds. -/
def Hazard : ListName → List Bytes → List Str → Prop
  | .lindex, args, l => ∃ index ∈ args,
      Oversized index ∨ intShaped index = true ∧ l ≠ [] ∧ Misplaced l.length (intOf index)
  | .lset, index :: _, l =>
      Oversized index ∨ intShaped index = true ∧ l ≠ [] ∧ Misplaced l.length (intOf index)
  | .lrem, count :: _, _ => Oversized count
  | .ltrim, begin :: end_ :: _, l =>
      Oversized begin ∨ Oversized end_ ∨
        intShaped begin = true ∧ intShaped end_ = true ∧ l ≠ [] ∧
          ¬ toInt (legalRange (UInt64.ofNat l.length) (intOf end_)) <
            toInt (legalRange (UInt64.ofNat l.length) (intOf begin)) ∧
          ¬ (0 ≤ toInt (legalRange (UInt64.ofNat l.length) (intOf begin)) ∧
            (toInt (legalRange (UInt64.ofNat l.length) (intOf end_))).toInt.toNat < l.length)
  | _, _, _ => False

end ListName

namespace HashName

/-- The hazards of a command with its arguments on the hash table it finds. -/
def Hazard : HashName → List Bytes → StrHash → Prop
  | .hincrby, key :: delta :: _, h | .hdecrby, key :: delta :: _, h =>
      Oversized delta ∨ intShaped delta = true ∧
        ∃ field, h.find key = some field ∧ field.2.encodingType = .int ∧ Oversized field.2.data
  | _, _, _ => False

end HashName

namespace SetName

/-- `Pop` of the only member reads through `end()`. -/
def Hazard : SetName → StrSet → Prop
  | .spop, s => s.items.length = 1
  | _, _ => False

end SetName

/-- The scores among the arguments of `ZADD` and `ZREM`. -/
def scores : List Bytes → List Bytes
  | score :: _ :: rest => score :: scores rest
  | _ => []

namespace ZSetName

/-- The hazards of a command with its arguments on a sorted set of some size. -/
def Hazard : ZSetName → List Bytes → Nat → Prop
  | .zadd, args, _ | .zrem, args, _ => ∃ score ∈ scores args, Oversized score
  | .zincrby, delta :: _, _ | .zdecrby, delta :: _, _ => Oversized delta
  | .zcount, low :: high :: _, _ | .zrangebyscore, low :: high :: _, _ =>
      Oversized low ∨ Oversized high
  | .zrange, low :: high :: _, size =>
      Oversized low ∨ Oversized high ∨
        intShaped low = true ∧ intShaped high = true ∧ size ≠ 0 ∧
          legalRange (UInt64.ofNat size) (intOf low) < legalRange (UInt64.ofNat size) (intOf high) ∧
          size ≤ (legalRange (UInt64.ofNat size) (intOf high)).toNat
  | _, _, _ => False

end ZSetName

/- Each method raises exactly in the hazards of its command. -/

/-- A command of a family that accepted its arguments. -/
def Fitting (bare : Bool) (arity : Nat → Bool) (args : List Bytes) : Prop :=
  (bare || (!args.isEmpty && arity (args.length + 2))) = true

/-- Commands that take pairs of arguments have at least one pair. -/
theorem Fitting.pairs (fitting : Fitting false (fun size => size % 2 == 0) args) :
    args.length % 2 = 0 ∧ ∃ first second rest, args = first :: second :: rest := by
  simp only [Fitting, Bool.false_or, Bool.and_eq_true, Bool.not_eq_true', beq_iff_eq,
    List.isEmpty_eq_false_iff, Nat.add_mod_right] at fitting
  obtain ⟨filled, even⟩ := fitting
  match args with
  | [] => contradiction
  | [_] => cases even
  | first :: second :: rest => exact ⟨even, first, second, rest, rfl⟩

/-- The loop over pairs raises in the first round that does, whatever came before it. -/
theorem eachPair_raises {γ : Type} (round : γ → Str → Str → Except Fault γ) (bad : Bytes → Prop)
    (raises : ∀ acc first second, Raises (round acc (Str.ofData first) second) ↔ bad first)
    {args : List Bytes} (even : args.length % 2 = 0) (acc : γ) :
    Raises (eachPair round acc (args.map Str.ofData)) ↔ ∃ first ∈ scores args, bad first := by
  match args with
  | [] => simp only [List.map_nil, eachPair, not_raises_ok, scores, List.not_mem_nil, false_and,
      exists_false]
  | [_] => cases even
  | first :: second :: rest =>
      have shorter : rest.length % 2 = 0 := by
        simp only [List.length_cons] at even
        omega
      have later := eachPair_raises round bad raises shorter
      simp only [List.map_cons, eachPair, raises_bind, raises, scores, List.mem_cons,
        exists_eq_or_imp, later]
      by_cases wrong : bad first
      · simp only [wrong, true_or]
      · simp only [wrong, false_or]
        have returns := not_raises_iff.mp ((raises acc first (Str.ofData second)).not.mpr wrong)
        obtain ⟨next, returned⟩ := returns
        simp only [returned, Except.ok.injEq, exists_eq_left']

namespace StrCommand

theorem addBy_raises {method : Str → Int32 → Except Fault (Str × Bytes)} {c : StrCommand}
    {delta : Bytes} (given : c.value = some delta) {str : Str}
    (raises : ∀ n, Raises (method str n) ↔ str.encodingType = .int ∧ Oversized str.data) :
    Raises (addBy method c str) ↔ Oversized delta ∨
      intShaped delta = true ∧ str.encodingType = .int ∧ Oversized str.data := by
  rw [addBy, given]
  simp only [optionalValue, ok_bind]
  refine (convert_raises ?_).trans ?_
  · exact not_raises_ok _
  · simp only [pure_eq_ok, raises_bind_ok, raises]

theorem onStr_raises {name : StrName} (fitting : Fitting name.bare (fun _ => true) args)
    (key : Bytes) (str : Str) :
    Raises (onStr ⟨true, name, key, if name.bare then none else args.head?⟩ str) ↔
      name.Hazard args str := by
  cases args with
  | nil =>
      cases name with
      | get | len => exact iff_of_false (not_raises_ok _) id
      | set | append | incrBy | decrBy => cases fitting
  | cons arg rest =>
      cases name with
      | get | len | set => exact iff_of_false (not_raises_ok _) id
      | incrBy => exact addBy_raises rfl fun _ => Str.incrBy_raises
      | decrBy => exact addBy_raises rfl fun _ => Str.incrBy_raises
      | append =>
          simp only [onStr, StrName.bare, Bool.false_eq_true, ↓reduceIte, List.head?_cons,
            optionalValue, ok_bind, pure_eq_ok, raises_bind_ok, Str.append_raises, StrName.Hazard]

end StrCommand

namespace ListCommand

theorem indexTexts_raises {l : List Str} {value : Str} :
    Raises (indexTexts l value) ↔ Oversized value.data ∨
      intShaped value.data = true ∧ l ≠ [] ∧ Misplaced l.length (intOf value.data) := by
  rw [indexTexts]
  refine (convert_raises ?_).trans ?_
  · exact not_raises_ok _
  · simp only [pure_eq_ok, raises_bind_ok, StrList.index_raises]

theorem onList_raises {name : ListName} (fitting : Fitting name.bare name.arity args) (key : Bytes)
    (l : List Str) :
    Raises (onList ⟨true, name, key, if name.bare then [] else args.map Str.ofData⟩ l) ↔
      name.Hazard args l := by
  cases name with
  | lpushf | lpushb | lpopf | lpopb | llen => exact iff_of_false (not_raises_ok _) id
  | lindex =>
      simp only [onList, ListName.bare, Bool.false_eq_true, ↓reduceIte, pure_eq_ok, raises_bind_ok,
        raises_mapM, List.mem_map, exists_exists_and_eq_and, indexTexts_raises, Str.ofData,
        ListName.Hazard]
  | lrem =>
      match args with
      | [] | [_] => cases fitting
      | count :: value :: rest =>
          refine (convert_raises ?_).trans ?_
          · exact not_raises_ok _
          · simp only [StrList.rem_eq]
            exact or_iff_left fun raised => absurd raised.2 (not_raises_ok _)
  | lset =>
      match args with
      | [] | [_] => cases fitting
      | index :: value :: rest =>
          refine (convert_raises ?_).trans ?_
          · exact not_raises_ok _
          · change _ ∨ _ ∧ Raises (StrList.set l (intOf index) (Str.ofData value) >>= _) ↔ _
            simp only [pure_eq_ok, raises_bind_ok, StrList.set_raises]
            rfl
  | ltrim =>
      match args with
      | [] | [_] => cases fitting
      | begin :: end_ :: rest =>
          refine (convert_two_raises ?_ ?_).trans ?_
          · exact fun _ => not_raises_ok _
          · intro n
            cases n <;> exact not_raises_ok _
          · simp only [pure_eq_ok, raises_bind_ok, StrList.trim_raises]
            rfl

end ListCommand

namespace StrHash

theorem incrBy_raises (h : StrHash) (key : Str) (delta : Int32) :
    Raises (h.incrBy key delta) ↔ ∃ field, h.find key.data = some field ∧
      field.2.encodingType = .int ∧ Oversized field.2.data := by
  rw [incrBy]
  cases h.find key.data with
  | none => simp only [not_raises_ok, reduceCtorEq, false_and, exists_false]
  | some field =>
      simp only [pure_eq_ok, raises_bind_ok, Str.incrBy_raises, Option.some.injEq, exists_eq_left']

theorem decrBy_raises (h : StrHash) (key : Str) (delta : Int32) :
    Raises (h.decrBy key delta) ↔ ∃ field, h.find key.data = some field ∧
      field.2.encodingType = .int ∧ Oversized field.2.data :=
  incrBy_raises h key (-delta)

end StrHash

namespace SetCommand

theorem combine_returns {method : StrSet → StrSet → Bool → List Str}
    {get : Bytes → Option Object} {c : SetCommand} {another : Bytes} {rest : List Bytes}
    (given : c.values = (another :: rest).map Str.ofData) (s : StrSet) :
    ¬ Raises (combine method get c s) := by
  rw [combine, given]
  simp only [List.map_cons, valueAt, List.getElem?_cons_zero, ok_bind]
  split <;> exact not_raises_ok _

theorem onSet_raises {name : SetName} (fitting : Fitting name.bare (fun _ => true) args)
    (random : Nat) (get : Bytes → Option Object) (key : Bytes) (s : StrSet) :
    Raises (onSet random get ⟨true, name, key, if name.bare then [] else args.map Str.ofData⟩ s) ↔
      name.Hazard s := by
  cases name with
  | sadd | scard | sismember | smembers | srandmember | srem =>
      exact iff_of_false (not_raises_ok _) id
  | sinter | sdiff =>
      cases args with
      | nil => cases fitting
      | cons another rest => exact iff_of_false (combine_returns rfl s) id
  | spop =>
      simp only [onSet, pure_eq_ok, raises_bind_ok, StrSet.pop, SetName.Hazard]
      cases s.items with
      | nil => simp only [not_raises_ok, List.length_nil, Nat.zero_ne_one]
      | cons first rest =>
          cases rest with
          | nil => simp only [raises_error, List.length_cons, List.length_nil]
          | cons second rest => simp only [not_raises_ok, List.length_cons, false_iff]; omega

end SetCommand

namespace HashCommand

theorem addBy_raises {method : StrHash → Str → Int32 → Except Fault (StrHash × Bytes)}
    {h : StrHash} (raises : ∀ key n, Raises (method h key n) ↔ ∃ field,
      h.find key.data = some field ∧ field.2.encodingType = .int ∧ Oversized field.2.data)
    {c : HashCommand} {key delta : Bytes} {rest : List Bytes}
    (given : c.values = (key :: delta :: rest).map Str.ofData) :
    Raises (addBy method c h) ↔ Oversized delta ∨ intShaped delta = true ∧ ∃ field,
      h.find key = some field ∧ field.2.encodingType = .int ∧ Oversized field.2.data := by
  rw [addBy, given]
  refine (convert_raises ?_).trans ?_
  · exact not_raises_ok _
  · change _ ∨ _ ∧ Raises (method h (Str.ofData key) (intOf delta) >>= _) ↔ _
    simp only [pure_eq_ok, raises_bind_ok, raises]
    rfl

theorem onHash_raises {name : HashName} (fitting : Fitting name.bare name.arity args) (key : Bytes)
    (h : StrHash) :
    Raises (onHash ⟨true, name, key, if name.bare then [] else args.map Str.ofData⟩ h) ↔
      name.Hazard args h := by
  cases name with
  | hget | hexist | hdel | hlen | hgetall => exact iff_of_false (not_raises_ok _) id
  | hset =>
      have stored := eachPair_raises (fun tbl key value => .ok (StrHash.set tbl key value))
        (fun _ => False) (fun _ _ _ => iff_of_false (not_raises_ok _) id) fitting.pairs.1 h
      simp only [onHash, HashName.bare, Bool.false_eq_true, ↓reduceIte, pure_eq_ok, raises_bind_ok,
        stored, and_false, exists_false, HashName.Hazard]
  | hincrby =>
      obtain ⟨-, field, delta, rest, rfl⟩ := fitting.pairs
      exact addBy_raises (StrHash.incrBy_raises h) rfl
  | hdecrby =>
      obtain ⟨-, field, delta, rest, rfl⟩ := fitting.pairs
      exact addBy_raises (StrHash.decrBy_raises h) rfl

end HashCommand

namespace LinkedZSet

theorem attach_raises {β : Type} {result : Except Fault (ZSet × β)}
    {keeps : ∀ r, result = .ok r → r.1.Linked} : Raises (attach result keeps) ↔ Raises result := by
  cases result with
  | error fault => exact iff_of_true (raises_error fault) (raises_error fault)
  | ok r => exact iff_of_false (not_raises_ok _) (not_raises_ok _)

/-- Only a member that has the least score cannot be removed. -/
theorem rem_raises (z : LinkedZSet) {score : Int32} {member : Str} :
    Raises (z.rem score member) ↔ score = Int32.minValue ∧
      ∃ entry ∈ z.entries, entry.1.data = member.data ∧ entry.2 = score := by
  obtain ⟨es, rep⟩ := z.2
  rw [rem, attach_raises]
  simp only [entries_eq rep, List.mem_map, exists_exists_and_eq_and]
  by_cases found : ∃ e ∈ es, e.key.data = member.data ∧ e.score = score
  · rw [and_iff_left found]
    obtain ⟨e, inside, same, rfl⟩ := found
    by_cases least : e.score = Int32.minValue
    · rw [rep.rem_least inside same least]
      exact iff_of_true (raises_error _) least
    · obtain ⟨z', returned, -⟩ := rep.rem_mem inside same least
      rw [returned]
      exact iff_of_false (not_raises_ok _) least
  · rw [rep.rem_miss score fun e inside same hit => found ⟨e, inside, same, hit⟩]
    exact iff_of_false (not_raises_ok _) fun raised => found raised.2

theorem rem_returns (z : LinkedZSet) {score : Int32} (above : score ≠ Int32.minValue)
    (member : Str) : ¬ Raises (z.rem score member) :=
  fun raised => above (z.rem_raises.mp raised).1

theorem incrBy_returns (z : LinkedZSet) (delta : Int32) (member : Str) :
    ¬ Raises (z.incrBy delta member) := by
  obtain ⟨z', text, returned, -⟩ := ZSet.incrBy_linked z.2 delta member
  rw [incrBy, attach_raises, returned]
  exact not_raises_ok _

/-- The reads of a member's score through the two iterators. -/
theorem seqAt_find_returns (z : LinkedZSet) {member : Str} {entry : MemberNode}
    (found : z.1.find member = some entry) : ∃ node, z.1.seqAt entry.pos = .ok node := by
  obtain ⟨es, rep⟩ := z.2
  obtain ⟨e, inside, rfl, -⟩ := rep.find_eq_some found
  exact ⟨e.seqNode, rep.seqAt_of_mem inside⟩

theorem rank_returns (z : LinkedZSet) (member : Str) : ¬ Raises (z.1.rank member) := by
  rw [ZSet.rank]
  split
  · exact not_raises_ok _
  · rename_i entry found
    obtain ⟨node, read⟩ := z.seqAt_find_returns found
    rw [read]
    exact not_raises_ok _

theorem score_returns (z : LinkedZSet) (member : Str) : ¬ Raises (z.1.score member) := by
  rw [ZSet.score]
  split
  · exact not_raises_ok _
  · rename_i entry found
    obtain ⟨node, read⟩ := z.seqAt_find_returns found
    rw [read]
    exact not_raises_ok _

theorem rangeByScore_returns (z : LinkedZSet) (low high : Int32) :
    ¬ Raises (z.1.rangeByScore low high) := by
  obtain ⟨es, rep⟩ := z.2
  rw [ZSet.rangeByScore]
  split
  · exact not_raises_ok _
  · rw [raises_mapM]
    rintro ⟨rank, visited, raised⟩
    have inMap := (List.dropWhile_sublist _).subset ((List.takeWhile_sublist _).subset visited)
    obtain ⟨e, inside, rfl⟩ := List.mem_map.mp (rep.ranks.mem_iff.mp inMap)
    simp only [ZEntry.rankNode, rep.memberAt_of_mem inside, ok_bind, pure_eq_ok,
      not_raises_ok] at raised

theorem rangeByLex_returns (z : LinkedZSet) (low high : Str) :
    ¬ Raises (z.1.rangeByLex low high) := by
  obtain ⟨es, rep⟩ := z.2
  rw [ZSet.rangeByLex]
  split
  · exact not_raises_ok _
  · rw [raises_mapM]
    rintro ⟨node, visited, raised⟩
    have inMap := (List.dropWhile_sublist _).subset ((List.takeWhile_sublist _).subset visited)
    obtain ⟨e, inside, rfl⟩ := rep.mem_memberMap inMap
    simp only [ZEntry.memberNode, rep.seqAt_of_mem inside, ok_bind, pure_eq_ok,
      not_raises_ok] at raised

theorem range_raises (z : LinkedZSet) (low high : Int32) :
    Raises (z.1.range low high) ↔ z.1.card ≠ 0 ∧
      legalRange (UInt64.ofNat z.1.card) low < legalRange (UInt64.ofNat z.1.card) high ∧
      z.1.card ≤ (legalRange (UInt64.ofNat z.1.card) high).toNat := by
  obtain ⟨es, rep⟩ := z.2
  rw [ZSet.range, ZSet.card, ne_eq, List.length_eq_zero_iff]
  by_cases empty : z.1.sequenceList = []
  · simp only [empty, ↓reduceIte, not_raises_ok, not_true_eq_false, false_and]
  · simp only [empty, ↓reduceIte, not_false_eq_true, true_and]
    split
    · rename_i crossed
      exact iff_of_false (not_raises_ok _) fun past => UInt64.not_le.mpr past.1 crossed
    · rename_i ordered
      split
      · rename_i past
        exact iff_of_true (raises_error _) ⟨UInt64.not_le.mp ordered, past⟩
      · rename_i inside
        refine iff_of_false ?_ fun past => inside past.2
        rw [raises_mapM]
        rintro ⟨node, visited, raised⟩
        have inSeq := List.mem_of_mem_take (List.mem_of_mem_drop visited)
        rw [rep.seq] at inSeq
        obtain ⟨e, listed, rfl⟩ := List.mem_map.mp inSeq
        simp only [ZEntry.seqNode, rep.memberAt_of_mem listed, ok_bind, pure_eq_ok,
          not_raises_ok] at raised

end LinkedZSet

namespace ZSetCommand

/-- A round of `ZADD` or `ZREM` raises on an oversized score only. -/
theorem scored_raises {method : LinkedZSet → Int32 → Str → Except Fault (LinkedZSet × Bool)}
    (returns : ∀ z n member, n ≠ Int32.minValue → ¬ Raises (method z n member))
    (acc : LinkedZSet × Int32) (score : Bytes) (member : Str) :
    Raises (scored method acc (Str.ofData score) member) ↔ Oversized score := by
  rw [scored]
  by_cases oversized : Oversized score
  · refine (convert_raises ?_).trans ?_
    · exact not_raises_ok _
    · exact iff_of_true (Or.inl oversized) oversized
  · refine (convert_raises ?_).trans ?_
    · exact not_raises_ok _
    · simp only [Str.ofData, oversized, false_or, iff_false, not_and]
      intro shaped
      simp only [pure_eq_ok, raises_bind_ok]
      exact returns acc.1 _ member (intOf_ne_minValue shaped oversized)

theorem between_raises {answer : Int32 → Int32 → Except Fault Reply} {c : ZSetCommand}
    {low high : Bytes} {rest : List Bytes}
    (given : c.values = (low :: high :: rest).map Str.ofData) :
    Raises (between answer c) ↔ Oversized low ∨ Oversized high ∨
      intShaped low = true ∧ intShaped high = true ∧ Raises (answer (intOf low) (intOf high)) := by
  rw [between, given]
  refine (convert_two_raises ?_ ?_).trans ?_
  · exact fun _ => not_raises_ok _
  · intro n
    cases n <;> exact not_raises_ok _
  · exact Iff.rfl

theorem onZSet_raises {name : ZSetName} (fitting : Fitting name.bare name.arity args) (key : Bytes)
    (z : LinkedZSet) :
    Raises (onZSet ⟨true, name, key, if name.bare then [] else args.map Str.ofData⟩ z) ↔
      name.Hazard args z.1.card := by
  cases name with
  | zcard => exact iff_of_false (not_raises_ok _) id
  | zadd =>
      have looped := eachPair_raises (scored fun z n m => .ok (z.add n m)) Oversized
        (scored_raises fun _ _ _ _ => not_raises_ok _) fitting.pairs.1 (z, 0)
      simp only [onZSet, ZSetName.bare, Bool.false_eq_true, ↓reduceIte, pure_eq_ok, raises_bind_ok,
        looped, ZSetName.Hazard]
  | zrem =>
      have looped := eachPair_raises (scored LinkedZSet.rem) Oversized
        (scored_raises fun z _ member above => z.rem_returns above member) fitting.pairs.1 (z, 0)
      simp only [onZSet, ZSetName.bare, Bool.false_eq_true, ↓reduceIte, pure_eq_ok, raises_bind_ok,
        looped, ZSetName.Hazard]
  | zcount =>
      obtain ⟨-, low, high, rest, rfl⟩ := fitting.pairs
      simp only [onZSet, pure_eq_ok, raises_bind_ok]
      rw [between_raises rfl]
      simp only [not_raises_ok, and_false, or_false, ZSetName.Hazard]
  | zlexcount =>
      obtain ⟨-, low, high, rest, rfl⟩ := fitting.pairs
      exact iff_of_false (not_raises_ok _) id
  | zincrby =>
      obtain ⟨-, delta, member, rest, rfl⟩ := fitting.pairs
      refine (convert_raises ?_).trans ?_
      · exact not_raises_ok _
      · change _ ∨ _ ∧ Raises (z.incrBy (intOf delta) (Str.ofData member) >>= _) ↔ _
        simp only [pure_eq_ok, raises_bind_ok, LinkedZSet.incrBy_returns, and_false, or_false]
        rfl
  | zdecrby =>
      obtain ⟨-, delta, member, rest, rfl⟩ := fitting.pairs
      refine (convert_raises ?_).trans ?_
      · exact not_raises_ok _
      · change _ ∨ _ ∧ Raises (z.incrBy (-1) (Str.ofData member) >>= _) ↔ _
        simp only [pure_eq_ok, raises_bind_ok, LinkedZSet.incrBy_returns, and_false, or_false]
        rfl
  | zrange =>
      obtain ⟨-, low, high, rest, rfl⟩ := fitting.pairs
      simp only [onZSet, pure_eq_ok, raises_bind_ok]
      rw [between_raises rfl]
      simp only [raises_bind_ok, LinkedZSet.range_raises, ZSetName.Hazard]
  | zrangebyscore =>
      obtain ⟨-, low, high, rest, rfl⟩ := fitting.pairs
      simp only [onZSet, pure_eq_ok, raises_bind_ok]
      rw [between_raises rfl]
      simp only [raises_bind_ok, LinkedZSet.rangeByScore_returns, and_false, or_false,
        ZSetName.Hazard]
  | zrangebylex =>
      obtain ⟨-, low, high, rest, rfl⟩ := fitting.pairs
      simp only [onZSet, ZSetName.bare, Bool.false_eq_true, ↓reduceIte, List.map_cons, valueAt,
        List.getElem?_cons_zero, List.getElem?_cons_succ, ok_bind, pure_eq_ok, raises_bind_ok,
        LinkedZSet.rangeByLex_returns, ZSetName.Hazard]
  | zrank =>
      cases args with
      | nil => cases fitting
      | cons member rest =>
          simp only [onZSet, ZSetName.bare, Bool.false_eq_true, ↓reduceIte, List.map_cons, valueAt,
            List.getElem?_cons_zero, ok_bind, pure_eq_ok, raises_bind_ok, LinkedZSet.rank_returns,
            ZSetName.Hazard]
  | zscore =>
      cases args with
      | nil => cases fitting
      | cons member rest =>
          simp only [onZSet, ZSetName.bare, Bool.false_eq_true, ↓reduceIte, List.map_cons, valueAt,
            List.getElem?_cons_zero, ok_bind, pure_eq_ok, raises_bind_ok, LinkedZSet.score_returns,
            ZSetName.Hazard]

end ZSetCommand

/- Databases: the frame of the commands raises when the method it calls does. -/

theorem redisStrToSize_raises :
    Raises (redisStrToSize raw) ↔ raw.all isDigit = true ∧ 2 ^ 64 ≤ value raw := by
  rw [redisStrToSize]
  by_cases empty : raw = []
  · subst empty
    exact iff_of_false (not_raises_ok _) fun large => absurd large.2 (by decide)
  · by_cases digits : raw.all isDigit = true
    · simp only [empty, digits, ↓reduceIte, pure_eq_ok, raises_bind_ok,
        stoull_digits empty digits, true_and]
      split
      · rename_i small
        exact iff_of_false (not_raises_ok _) (by omega)
      · rename_i large
        exact iff_of_true (raises_error _) (by omega)
    · simp only [empty, digits, ↓reduceIte, not_raises_ok, Bool.false_eq_true, false_and]

namespace Db

theorem execOn_raises {α : Type} (db : Db) (kind : ObjectKind α) (key : Bytes) (creates : Bool)
    (method : α → Except Fault (α × Reply)) :
    Raises (db.execOn kind key creates method) ↔
      (creates = true ∧ db.get key = none ∧ Raises (method kind.fresh)) ∨
      ∃ value, db.get key = some (kind.wrap value) ∧ Raises (method value) := by
  rw [execOn]
  cases db.get key with
  | none =>
      simp only [reduceCtorEq, false_and, exists_false, or_false, true_and]
      split
      · rename_i creating
        simp only [pure_eq_ok, raises_bind_ok, creating, true_and]
      · rename_i refusing
        simp only [not_raises_ok, refusing, Bool.false_eq_true, false_and]
  | some object =>
      simp only [reduceCtorEq, false_and, and_false, false_or, Option.some.injEq]
      split
      · rename_i other
        refine iff_of_false (not_raises_ok _) ?_
        rintro ⟨value, same, -⟩
        rw [kind.unwrap_eq_some.mpr same] at other
        cases other
      · rename_i value unwrapped
        simp only [pure_eq_ok, raises_bind_ok, kind.unwrap_eq_some.mp unwrapped]
        constructor
        · exact fun raised => ⟨value, rfl, raised⟩
        · rintro ⟨other, same, raised⟩
          have equal : some value = some other :=
            (kind.unwrap_eq_some.mpr rfl).symm.trans (kind.unwrap_eq_some.mpr same)
          cases equal
          exact raised

end Db

namespace CommandName

def bare : CommandName → Bool
  | .db name => name.bare
  | .str name => name.bare
  | .list name => name.bare
  | .hash name => name.bare
  | .set name => name.bare
  | .zset name => name.bare
  | .server _ | .cli _ => false

def arity : CommandName → Nat → Bool
  | .list name => name.arity
  | .hash name => name.arity
  | .zset name => name.arity
  | _ => fun _ => true

/-- The hazards of a command with its key and arguments in a database. Of the commands
that create their object, only `ZADD` has one. -/
def Hazard (db : Db) (key : Bytes) (args : List Bytes) : CommandName → Prop
  | .db .expire => ∃ time ∈ args.head?, time.all isDigit = true ∧ 2 ^ 64 ≤ value time
  | .str name => ∃ s, db.get key = some (.str s) ∧ name.Hazard args s
  | .list name => ∃ l, db.get key = some (.list l) ∧ name.Hazard args l
  | .hash name => ∃ h, db.get key = some (.hash h) ∧ name.Hazard args h
  | .set name => ∃ s, db.get key = some (.set s) ∧ name.Hazard s
  | .zset name =>
      (name = .zadd ∧ db.get key = none ∧ name.Hazard args 0) ∨
        ∃ z, db.get key = some (.zset z) ∧ name.Hazard args z.1.card
  | _ => False

end CommandName

theorem StrCommand.exec_raises {name : StrName} (fitting : Fitting name.bare (fun _ => true) args)
    (key : Bytes) (db : Db) :
    Raises (StrCommand.exec ⟨true, name, key, if name.bare then none else args.head?⟩ db) ↔
      (CommandName.str name).Hazard db key args := by
  rw [StrCommand.exec, Db.execOn_raises]
  simp only [onStr_raises fitting]
  refine or_iff_right ?_
  rintro ⟨creating, -, hazard⟩
  cases beq_iff_eq.mp creating
  exact hazard

theorem ListCommand.exec_raises {name : ListName} (fitting : Fitting name.bare name.arity args)
    (key : Bytes) (db : Db) :
    Raises (ListCommand.exec ⟨true, name, key, if name.bare then [] else args.map Str.ofData⟩ db) ↔
      (CommandName.list name).Hazard db key args := by
  rw [ListCommand.exec, Db.execOn_raises]
  simp only [onList_raises fitting]
  refine or_iff_right ?_
  rintro ⟨creating, -, hazard⟩
  cases name <;> first | exact hazard | cases creating

theorem HashCommand.exec_raises {name : HashName} (fitting : Fitting name.bare name.arity args)
    (key : Bytes) (db : Db) :
    Raises (HashCommand.exec ⟨true, name, key, if name.bare then [] else args.map Str.ofData⟩ db) ↔
      (CommandName.hash name).Hazard db key args := by
  rw [HashCommand.exec, Db.execOn_raises]
  simp only [onHash_raises fitting]
  refine or_iff_right ?_
  rintro ⟨creating, -, hazard⟩
  cases beq_iff_eq.mp creating
  exact hazard

theorem SetCommand.exec_raises {name : SetName} (fitting : Fitting name.bare (fun _ => true) args)
    (random : Nat) (key : Bytes) (db : Db) :
    Raises (SetCommand.exec random
      ⟨true, name, key, if name.bare then [] else args.map Str.ofData⟩ db) ↔
      (CommandName.set name).Hazard db key args := by
  rw [SetCommand.exec, Db.execOn_raises]
  simp only [onSet_raises fitting]
  refine or_iff_right ?_
  rintro ⟨creating, -, hazard⟩
  cases beq_iff_eq.mp creating
  exact hazard

theorem ZSetCommand.exec_raises {name : ZSetName} (fitting : Fitting name.bare name.arity args)
    (key : Bytes) (db : Db) :
    Raises (ZSetCommand.exec ⟨true, name, key, if name.bare then [] else args.map Str.ofData⟩ db) ↔
      (CommandName.zset name).Hazard db key args := by
  rw [ZSetCommand.exec, Db.execOn_raises]
  simp only [onZSet_raises fitting, beq_iff_eq]
  exact Iff.rfl

theorem DbCommand.exec_raises {name : DbName} (fitting : Fitting name.bare (fun _ => true) args)
    (now : UInt64) (key : Bytes) (db : Db) :
    Raises (DbCommand.exec now ⟨true, name, key, if name.bare then none else args.head?⟩ db) ↔
      (CommandName.db name).Hazard db key args := by
  cases name with
  | del | «when» | rewrite => exact iff_of_false (not_raises_ok _) id
  | expire =>
      cases args with
      | nil => cases fitting
      | cons time rest =>
          have converted : Raises (DbCommand.exec now
              ⟨true, .expire, key, if DbName.bare .expire then none else (time :: rest).head?⟩ db) ↔
              Raises (redisStrToSize time) := by
            change Raises (redisStrToSize time >>= _) ↔ _
            refine raises_bind.trans (or_iff_left ?_)
            rintro ⟨n, -, raised⟩
            cases n <;> exact not_raises_ok _ raised
          rw [converted, redisStrToSize_raises]
          simp only [CommandName.Hazard, List.head?_cons, Option.mem_def, Option.some.injEq,
            exists_eq_left']

/- The server. -/

theorem accepted_fitting {bare : Bool} {arity : Nat → Bool} {key : Bytes}
    (accepts : accepted bare arity request = some (key, args)) : Fitting bare arity args := by
  unfold accepted at accepts
  split at accepts
  · split at accepts
    · cases accepts
    · split at accepts
      · rename_i fitting
        cases accepts
        exact fitting
      · cases accepts
  · cases accepts

/-- The first element only has to be there: its letters do not matter. -/
theorem accepted_toUpper (bare : Bool) (arity : Nat → Bool) (first : Bytes) (rest : List Bytes) :
    accepted bare arity (first.map toUpper :: rest) = accepted bare arity (first :: rest) := by
  cases rest with
  | nil => rfl
  | cons key args =>
      have same : (first.map toUpper).isEmpty = first.isEmpty := List.isEmpty_map
      rw [accepted, List.any_cons, same]
      rfl

/-- The text behind the first `':'` of an address does not begin with a 32-bit integer. -/
def BadPort (info : Bytes) : Prop :=
  colon ∈ info ∧ ¬ ∃ n, strtol (info.drop (info.idxOf colon + 1)) = some n ∧
    -2 ^ 31 ≤ n ∧ n < 2 ^ 31

theorem stoi_raises {str : Bytes} :
    Raises (stoi str) ↔ ¬ ∃ n, strtol str = some n ∧ -2 ^ 31 ≤ n ∧ n < 2 ^ 31 := by
  rw [stoi]
  cases strtol str with
  | none => simp only [raises_error, reduceCtorEq, false_and, exists_false, not_false_eq_true]
  | some n =>
      simp only [Option.some.injEq, exists_eq_left']
      split
      · rename_i inside
        exact iff_of_false (not_raises_ok _) (not_not_intro inside)
      · rename_i outside
        exact iff_of_true (raises_error _) outside

namespace Server

/-- The hazards of a request for a command: an oversized integer or an address of a bad
form in the request itself, or something in the database of the client. -/
def HazardFor (server : Server) (client : Nat) (request : Request) : CommandName → Prop
  | .server .fork => ∃ info args,
      accepted true (fun _ => true) request = some (info, args) ∧ BadPort info
  | .cli .select => ∃ number, request[1]? = some number ∧ Oversized number
  | name => ∃ key args, accepted name.bare name.arity request = some (key, args) ∧
      ∃ index db, server.clients client = some index ∧ server.databases[index]? = some db ∧
        name.Hazard db key args

/-- The request names a command and is a hazard for it. -/
def Hazardous (server : Server) (client : Nat) (request : Request) : Prop :=
  ∃ name, commandName ((request.headD []).map toUpper) = some name ∧
    server.HazardFor client request name

/-- `RequestToCommandExec` does not raise, and the command it returns can be executed. -/
def Handles (env : Env) (server : Server) (client : Nat) (request : Request) : Prop :=
  ∃ parsed, requestToCommandExec request = .ok parsed ∧
    ∀ command ∈ parsed, ∃ outcome, command.exec env server client = .ok outcome

theorem onClientDb_raises (server : Server) (client : Nat)
    (run : Db → Except Fault (Db × Reply × Option ExpireTimer)) :
    Raises (server.onClientDb client run) ↔ ∃ index db, server.clients client = some index ∧
      server.databases[index]? = some db ∧ Raises (run db) := by
  rw [onClientDb]
  cases attached : server.clients client with
  | none => simp only [not_raises_ok, reduceCtorEq, false_and, exists_false]
  | some index =>
      have inside := server.attached client index attached
      simp only [List.getElem?_eq_getElem inside, pure_eq_ok, raises_bind_ok, Option.some.injEq]
      constructor
      · exact fun raised => ⟨index, server.databases[index], rfl,
          List.getElem?_eq_getElem inside, raised⟩
      · rintro ⟨_, db, rfl, there, raised⟩
        rw [List.getElem?_eq_getElem inside] at there
        cases there
        exact raised

/-- A family of commands on a database: one raises if its request is accepted and the
client's database holds a hazard for it. -/
theorem execValid_raises {env : Env} {bare : Bool} {arity : Nat → Bool} {request : Request}
    {Family : Type} (wrap : Family → Command) {c : Family} {made : Bytes → List Bytes → Family}
    {hazard : Db → Bytes → List Bytes → Prop}
    (spec : match accepted bare arity request with
      | some (key, args) => c = made key args
      | none => (wrap c).valid = false)
    (valid : ∀ key args, (wrap (made key args)).valid = true)
    (raises : ∀ key args, Fitting bare arity args → ∀ db,
      Raises ((wrap (made key args)).onDb env db) ↔ hazard db key args)
    (server : Server) (client : Nat) :
    Raises (server.execValid client (wrap c).valid ((wrap c).onDb env)) ↔
      ∃ key args, accepted bare arity request = some (key, args) ∧ ∃ index db,
        server.clients client = some index ∧ server.databases[index]? = some db ∧
          hazard db key args := by
  cases accepts : accepted bare arity request with
  | none =>
      rw [accepts] at spec
      rw [spec]
      exact iff_of_false (not_raises_ok _) nofun
  | some pair =>
      obtain ⟨key, args⟩ := pair
      rw [accepts] at spec
      cases spec
      rw [valid, execValid, if_pos rfl, onClientDb_raises]
      simp only [raises key args (accepted_fitting accepts)]
      constructor
      · exact fun found => ⟨key, args, rfl, found⟩
      · rintro ⟨_, _, same, found⟩
        cases same
        exact found

theorem handles_iff {env : Env} {server : Server} {client : Nat} :
    server.Handles env client request ↔ ¬ Raises (requestToCommandExec request >>= fun parsed =>
      parsed.elim (.ok none) fun command => (command.exec env server client).map some) := by
  rw [raises_bind, not_or, not_raises_iff]
  constructor
  · rintro ⟨parsed, translated, executes⟩
    refine ⟨⟨parsed, translated⟩, ?_⟩
    rintro ⟨other, same, raised⟩
    rw [translated] at same
    cases same
    cases parsed with
    | none => exact not_raises_ok _ raised
    | some command =>
        obtain ⟨outcome, executed⟩ := executes command rfl
        rw [Option.elim_some, executed] at raised
        exact not_raises_ok _ raised
  · rintro ⟨⟨parsed, translated⟩, executes⟩
    refine ⟨parsed, translated, fun command given => not_raises_iff.mp fun raised => ?_⟩
    cases given
    exact executes ⟨_, translated, raises_map.mpr raised⟩

theorem execCli_select_raises {env : Env} {server : Server} {client : Nat} :
    Raises (server.execCli env client (jsonToCliCommand .select request)) ↔
      ∃ number, request[1]? = some number ∧ Oversized number := by
  match request with
  | [] | [_] => exact iff_of_false (not_raises_ok _) nofun
  | first :: number :: rest =>
      have taken : jsonToCliCommand .select (first :: number :: rest) = ⟨true, .select, number,
          if (first :: number :: rest).length = 3 then (first :: number :: rest)[2]? else none⟩ := by
        simp [jsonToCliCommand]
      rw [taken]
      change Raises (redisStrToInt number >>= _) ↔ _
      rw [convert_raises]
      · simp only [List.getElem?_cons_succ, List.getElem?_cons_zero, Option.some.injEq,
          exists_eq_left']
        refine or_iff_left fun raised => ?_
        cases attached : server.clients client with
        | none =>
            rw [attached] at raised
            exact not_raises_ok _ raised.2
        | some index =>
            rw [attached] at raised
            exact not_raises_ok _ raised.2
      · exact not_raises_ok _

theorem execCli_other_returns (env : Env) (server : Server) (client : Nat) (name : CliName)
    (other : name ≠ .select) (request : Request) :
    ¬ Raises (server.execCli env client (jsonToCliCommand name request)) := by
  cases name with
  | select => contradiction
  | create =>
      have made : jsonToCliCommand .create request = ⟨true, .create, [], none⟩ := rfl
      rw [made, execCli]
      simp only [Bool.not_true, Bool.false_eq_true, ↓reduceIte]
      split
      · exact not_raises_ok _
      · split <;> exact not_raises_ok _
  | showAll =>
      have made : jsonToCliCommand .showAll request = ⟨true, .showAll, [], none⟩ := rfl
      rw [made, execCli]
      simp only [Bool.not_true, Bool.false_eq_true, ↓reduceIte]
      split <;> exact not_raises_ok _

theorem jsonToBase_eq_accepted (request : Request) :
    jsonToBase request = (accepted true (fun _ => true) request).map Prod.fst := by
  match request with
  | [] | [_] => rfl
  | first :: key :: args =>
      rw [jsonToBase_cons, accepted]
      split <;> rfl

theorem jsonToServerCommand_raises :
    Raises (jsonToServerCommand .fork request) ↔ ∃ info args,
      accepted true (fun _ => true) request = some (info, args) ∧ BadPort info := by
  rw [jsonToServerCommand, if_neg nofun, jsonToBase_eq_accepted]
  cases accepted true (fun _ => true) request with
  | none => exact iff_of_false (not_raises_ok _) nofun
  | some pair =>
      obtain ⟨info, args⟩ := pair
      have raises : Raises (if colon ∉ info then Except.ok (⟨some .fork, [], none⟩ : ServerCommand)
          else do
            let port ← stoi (info.drop (info.idxOf colon + 1))
            return ⟨some .fork, info.take (info.idxOf colon), some port.toInt16⟩) ↔ BadPort info := by
        rw [BadPort]
        split
        · rename_i plain
          simp only [not_raises_ok, plain, false_and]
        · rename_i addressed
          simp only [pure_eq_ok, raises_bind_ok, stoi_raises, not_not.mp addressed, true_and]
      refine raises.trans ⟨fun bad => ⟨info, args, rfl, bad⟩, ?_⟩
      rintro ⟨_, _, same, bad⟩
      cases same
      exact bad

theorem toCommand_raises (env : Env) (server : Server) (client : Nat) (request : Request)
    (name : CommandName) :
    Raises (toCommand request name >>= fun command => command.exec env server client) ↔
      server.HazardFor client request name := by
  cases name with
  | server name =>
      cases name with
      | fork =>
          rw [HazardFor, ← jsonToServerCommand_raises]
          have parsed : Raises (toCommand request (.server .fork)) ↔
              Raises (jsonToServerCommand .fork request) := raises_bind_ok
          rw [raises_bind, parsed]
          refine or_iff_left ?_
          rintro ⟨command, made, raised⟩
          obtain ⟨c, -, returned⟩ := bind_eq_ok.mp made
          cases returned
          exact not_raises_ok _ raised
      | endForking => exact iff_of_false (not_raises_ok _) fun ⟨_, _, _, _, _, _, _, hazard⟩ => hazard
  | cli name =>
      cases name with
      | select => exact execCli_select_raises
      | create =>
          exact iff_of_false (execCli_other_returns env server client .create nofun request)
            fun ⟨_, _, _, _, _, _, _, hazard⟩ => hazard
      | showAll =>
          exact iff_of_false (execCli_other_returns env server client .showAll nofun request)
            fun ⟨_, _, _, _, _, _, _, hazard⟩ => hazard
  | db name =>
      by_cases rewriting : name = .rewrite
      · cases rewriting
        refine iff_of_false ?_ fun ⟨_, _, _, _, _, _, _, hazard⟩ => hazard
        have made : toCommand request (.db .rewrite) = .ok (.db ⟨true, .rewrite, [], none⟩) := rfl
        rw [made, ok_bind, Command.exec]
        simp only [↓reduceIte]
        split <;> exact not_raises_ok _
      · have data := execValid_raises Command.db (jsonToKeyCommand_eq name name.bare request)
          (fun _ _ => rfl) (fun key args fitting db =>
            DbCommand.exec_raises fitting env.now key db) server client
        refine Iff.trans ?_ data
        simp only [toCommand, jsonToDbCommand, rewriting, ↓reduceIte, ok_bind, Command.exec,
          jsonToKeyCommand_command]
  | str name =>
      exact execValid_raises Command.str (jsonToKeyCommand_eq name name.bare request)
        (fun _ _ => rfl) (fun key args fitting db =>
          raises_map.trans (StrCommand.exec_raises fitting key db)) server client
  | list name =>
      exact execValid_raises Command.list (jsonToValuesCommand_eq name name.bare name.arity request)
        (fun _ _ => rfl) (fun key args fitting db =>
          raises_map.trans (ListCommand.exec_raises fitting key db)) server client
  | hash name =>
      exact execValid_raises Command.hash (jsonToValuesCommand_eq name name.bare name.arity request)
        (fun _ _ => rfl) (fun key args fitting db =>
          raises_map.trans (HashCommand.exec_raises fitting key db)) server client
  | set name =>
      exact execValid_raises Command.set (jsonToValuesCommand_eq name name.bare (fun _ => true) request)
        (fun _ _ => rfl) (fun key args fitting db =>
          raises_map.trans (SetCommand.exec_raises fitting env.random key db)) server client
  | zset name =>
      exact execValid_raises Command.zset (jsonToValuesCommand_eq name name.bare name.arity request)
        (fun _ _ => rfl) (fun key args fitting db =>
          raises_map.trans (ZSetCommand.exec_raises fitting key db)) server client

theorem hazardFor_toUpper (server : Server) (client : Nat) (first : Bytes) (rest : List Bytes)
    (name : CommandName) :
    server.HazardFor client (first.map toUpper :: rest) name ↔
      server.HazardFor client (first :: rest) name := by
  unfold HazardFor
  simp only [accepted_toUpper, List.getElem?_cons_succ]

/-- Whatever the state of the server is, a request is handled exactly if it is none of
the hazards. -/
theorem handles_iff_not_hazardous (env : Env) (server : Server) (client : Nat)
    (request : Request) :
    server.Handles env client request ↔ ¬ server.Hazardous client request := by
  rw [handles_iff]
  refine not_congr ?_
  cases request with
  | nil =>
      refine iff_of_false (not_raises_ok _) ?_
      rintro ⟨name, named, -⟩
      cases named
  | cons first rest =>
      rw [Hazardous, List.headD_cons, requestToCommandExec]
      cases commandName (first.map toUpper) with
      | none =>
          refine iff_of_false (not_raises_ok _) ?_
          rintro ⟨name, same, -⟩
          cases same
      | some name =>
          have raises := toCommand_raises env server client (first.map toUpper :: rest) name
          rw [hazardFor_toUpper] at raises
          simp only [Option.some.injEq, exists_eq_left', ← raises, bind_assoc, pure_bind,
            Option.elim_some, raises_bind, raises_map]

/-- A stored value makes a harmless request a fatal one: `SET` takes any digits, and
`INCRBY` then cannot convert them. -/
theorem not_handles_incrBy :
    ∃ server, oneClient.serve quietEnv 0 [[bytes "SET", bytes "k", bytes "2147483648"]] = .ok server ∧
      server.Reachable ∧
      requestToCommandExec [bytes "INCRBY", bytes "k", bytes "1"] =
        .ok (some (.str ⟨true, .incrBy, bytes "k", some (bytes "1")⟩)) ∧
      Command.exec quietEnv server 0 (.str ⟨true, .incrBy, bytes "k", some (bytes "1")⟩) =
        .error .outOfRange ∧
      ¬ server.Handles quietEnv 0 [bytes "INCRBY", bytes "k", bytes "1"] := by
  refine oneClient_serves _ rfl fun reached => ⟨reached, rfl, rfl, ?_⟩
  rintro ⟨parsed, translated, executes⟩
  cases translated
  obtain ⟨outcome, executed⟩ := executes _ rfl
  cases executed

end Server

end ForkRedis
