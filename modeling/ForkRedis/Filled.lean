import ForkRedis.Dump
import ForkRedis.Exec

set_option autoImplicit false

/- No command stores an empty string: requests with one are refused, and the methods of
the objects do not make any. The frames are those of any property that strings which are
not empty have and that `Append` and `IncrBy` keep. -/
namespace ForkRedis

open Lists Fallible

variable {s : Str} {h : StrHash} {reply : Reply} {db db' : Db}

/- Commands that come from a request carry no empty string. -/

structure KeyCommand.Filled {Name : Type} (c : KeyCommand Name) : Prop where
  key : c.valid = true → c.objName ≠ []
  value : ∀ value, c.value = some value → value ≠ []

structure ValuesCommand.Filled {Name : Type} (c : ValuesCommand Name) : Prop where
  key : c.valid = true → c.objName ≠ []
  values : ∀ s ∈ c.values, s.data ≠ []

theorem jsonToBase_eq_some {source : Request} {objName : Bytes}
    (based : jsonToBase source = some objName) :
    (∀ text ∈ source, text ≠ []) ∧ objName ∈ source := by
  rw [jsonToBase] at based
  split at based
  · cases based
  · split at based
    · cases based
    · rename_i filled
      refine ⟨?_, List.mem_of_getElem? based⟩
      intro text member empty
      exact filled (List.any_eq_true.mpr ⟨text, member, by rw [empty]; rfl⟩)

theorem jsonToKeyCommand_filled {Name : Type} (command : Name) (bare : Bool) (source : Request) :
    (jsonToKeyCommand command bare source).Filled := by
  have none_given : ∀ value, (none : Option Bytes) = some value → value ≠ [] := by
    intro value given
    cases given
  rw [jsonToKeyCommand]
  cases based : jsonToBase source with
  | none => exact ⟨fun valid => absurd valid Bool.false_ne_true, none_given⟩
  | some objName =>
      obtain ⟨filled, named⟩ := jsonToBase_eq_some based
      dsimp only
      split
      · exact ⟨fun _ => filled _ named, none_given⟩
      split
      · exact ⟨fun valid => absurd valid Bool.false_ne_true, none_given⟩
      · exact ⟨fun _ => filled _ named, fun value third => filled _ (List.mem_of_getElem? third)⟩

theorem jsonToValuesCommand_filled {Name : Type} (command : Name) (bare : Bool)
    (arity : Nat → Bool) (source : Request) :
    (jsonToValuesCommand command bare arity source).Filled := by
  have none_listed : ∀ s ∈ ([] : List Str), s.data ≠ [] :=
    fun s listed => absurd listed List.not_mem_nil
  have refused : ¬ (false = true) := Bool.false_ne_true
  rw [jsonToValuesCommand]
  cases based : jsonToBase source with
  | none => exact ⟨fun valid => absurd valid refused, none_listed⟩
  | some objName =>
      obtain ⟨filled, named⟩ := jsonToBase_eq_some based
      dsimp only
      split
      · exact ⟨fun _ => filled _ named, none_listed⟩
      split
      · exact ⟨fun valid => absurd valid refused, none_listed⟩
      split
      · exact ⟨fun valid => absurd valid refused, none_listed⟩
      · refine ⟨fun _ => filled _ named, ?_⟩
        intro s member
        obtain ⟨text, inside, rfl⟩ := List.mem_map.mp member
        exact filled text (List.mem_of_mem_drop inside)

/-- The commands that store strings. -/
def Command.Filled : Command → Prop
  | .str c => c.Filled
  | .list c => c.Filled
  | .hash c => c.Filled
  | .set c => c.Filled
  | .zset c => c.Filled
  | _ => True

theorem toCommand_filled {request : Request} {name : CommandName} {command : Command}
    (parsed : toCommand request name = .ok command) : command.Filled := by
  cases name with
  | server name =>
      obtain ⟨c, -, returned⟩ := bind_eq_ok.mp parsed
      cases returned
      trivial
  | cli name =>
      cases parsed
      trivial
  | db name =>
      cases parsed
      trivial
  | str name =>
      cases parsed
      exact jsonToKeyCommand_filled _ _ _
  | list name | hash name | set name | zset name =>
      cases parsed
      exact jsonToValuesCommand_filled _ _ _ _

theorem requestToCommandExec_filled {request : Request} {command : Command}
    (parsed : requestToCommandExec request = .ok (some command)) : command.Filled := by
  obtain ⟨first, rest, name, -, -, made⟩ := requestToCommandExec_some parsed
  exact toCommand_filled made

/- Objects whose strings have a property, and the methods that keep them so. -/

namespace Object

def All (P : Str → Prop) (object : Object) : Prop := ∀ s ∈ object.strings, P s

def Filled (object : Object) : Prop := ∀ s ∈ object.strings, s.data ≠ []

theorem all_str {P : Str → Prop} : (Object.str s).All P ↔ P s := by
  simp only [All, strings, List.mem_singleton, forall_eq]

theorem all_hash {P : Str → Prop} :
    (Object.hash h).All P ↔ ∀ field ∈ h.items, P field.1 ∧ P field.2 := by
  constructor
  · intro all field member
    exact ⟨all _ (List.mem_flatMap.mpr ⟨field, member, List.mem_cons_self⟩),
      all _ (List.mem_flatMap.mpr ⟨field, member, List.mem_cons_of_mem _ List.mem_cons_self⟩)⟩
  · intro fields s member
    obtain ⟨field, inside, which⟩ := List.mem_flatMap.mp member
    rcases List.mem_pair.mp which with rfl | rfl
    · exact (fields field inside).1
    · exact (fields field inside).2

end Object

/-- What every round keeps, the loop over pairs keeps. -/
theorem eachPair_keeps {γ : Type} {round : γ → Str → Str → Except Fault γ} (keep : γ → Prop)
    {values : List Str} (step : ∀ acc next, ∀ first ∈ values, ∀ second ∈ values,
      keep acc → round acc first second = .ok next → keep next)
    {acc result : γ} (start : keep acc) (returned : eachPair round acc values = .ok result) :
    keep result := by
  induction acc, values using eachPair.induct (γ := γ) with
  | case1 acc =>
      cases returned
      exact start
  | case2 => cases returned
  | case3 acc first second rest ih =>
      rw [eachPair] at returned
      obtain ⟨next, head, tail⟩ := bind_eq_ok.mp returned
      refine ih next ?_ ?_ tail
      · intro acc next a ha b hb
        exact step acc next a (List.mem_cons_of_mem _ (List.mem_cons_of_mem _ ha)) b
          (List.mem_cons_of_mem _ (List.mem_cons_of_mem _ hb))
      · exact step acc next first List.mem_cons_self second
          (List.mem_cons_of_mem _ List.mem_cons_self) start head

namespace Str

theorem append_filled {s s' : Str} {data : Bytes} {size : Nat} (filled : s.data ≠ [])
    (returned : s.append data = .ok (s', size)) : s'.data ≠ [] := by
  have joined : s.data ++ data ≠ [] := List.append_ne_nil_of_left_ne_nil filled data
  rw [append] at returned
  split at returned
  · split at returned
    · cases returned
    · cases returned
      exact joined
    · cases returned
      exact joined
  · cases returned
    exact joined

/-- What an `IncrBy` that returns has done: nothing, taken the tag away, or added. -/
theorem incrBy_cases {s s' : Str} {delta : Int32} {text : Bytes}
    (returned : s.incrBy delta = .ok (s', text)) :
    (s' = s ∧ text = []) ∨
    (s.encodingType = .int ∧ redisStrToInt s.data = .ok none ∧ s' = raw s.data ∧ text = []) ∨
    ∃ n, s' = ofInt n ∧ text = toStringInt n := by
  rw [incrBy] at returned
  split at returned
  · cases returned
    exact Or.inl ⟨rfl, rfl⟩
  · rename_i tag
    obtain ⟨intval, converted, result⟩ := bind_eq_ok.mp returned
    split at result
    · cases result
      exact Or.inr (Or.inl ⟨not_not.mp tag, converted, rfl, rfl⟩)
    · cases result
      exact Or.inr (Or.inr ⟨_, rfl, rfl⟩)

theorem incrBy_filled {s s' : Str} {delta : Int32} {text : Bytes} (filled : s.data ≠ [])
    (returned : s.incrBy delta = .ok (s', text)) : s'.data ≠ [] := by
  rcases incrBy_cases returned with ⟨rfl, -⟩ | ⟨-, -, rfl, -⟩ | ⟨n, rfl, -⟩
  · exact filled
  · exact filled
  · exact toStringInt_ne_nil n

/-- A property the strings of a database keep, whatever commands are executed. -/
structure Kept (P : Str → Prop) : Prop where
  given : ∀ s : Str, s.data ≠ [] → P s
  append : ∀ {s s' : Str} {data : Bytes} {size : Nat}, P s → s.append data = .ok (s', size) → P s'
  incrBy : ∀ {s s' : Str} {delta : Int32} {text : Bytes}, P s →
    s.incrBy delta = .ok (s', text) → P s'

theorem filled_kept : Kept fun s => s.data ≠ [] := ⟨fun _ filled => filled, append_filled, incrBy_filled⟩

end Str

variable {P : Str → Prop}

namespace StrCommand

theorem addBy_all {method : Str → Int32 → Except Fault (Str × Bytes)}
    (keeps : ∀ s n s' text, P s → method s n = .ok (s', text) → P s') {c : StrCommand}
    {str str' : Str} (holds : P str) (returned : addBy method c str = .ok (str', reply)) :
    P str' := by
  rw [addBy] at returned
  obtain ⟨value, -, returned⟩ := bind_eq_ok.mp returned
  obtain ⟨intval, -, returned⟩ := bind_eq_ok.mp returned
  split at returned
  · cases returned
    exact holds
  · obtain ⟨result, called, returned⟩ := bind_eq_ok.mp returned
    cases returned
    exact keeps _ _ _ _ holds called

/-- Only `SET` is called on a string that is still empty. -/
theorem onStr_all (kept : Str.Kept P) {c : StrCommand} (args : c.Filled) {str str' : Str}
    (holds : c.command ≠ .set → P str) (returned : onStr c str = .ok (str', reply)) : P str' := by
  rw [onStr] at returned
  split at returned
  · obtain ⟨value, given, returned⟩ := bind_eq_ok.mp returned
    cases returned
    exact kept.given _ (args.value _ (optionalValue_eq_ok.mp given))
  all_goals
    rename_i name
    have old := holds (by rw [name]; exact nofun)
  · cases returned
    exact old
  · exact addBy_all (fun _ _ _ _ => kept.incrBy) old returned
  · exact addBy_all (fun _ _ _ _ => kept.incrBy) old returned
  · obtain ⟨value, given, returned⟩ := bind_eq_ok.mp returned
    obtain ⟨result, called, returned⟩ := bind_eq_ok.mp returned
    cases returned
    exact kept.append old called
  · cases returned
    exact old

end StrCommand

namespace StrList

/-- `Rem` never removes anything. -/
theorem rem_eq (l : List Str) (count : Int32) (value : Str) : rem l count value = .ok (l, 0) := by
  rw [rem]
  split
  · rfl
  · dsimp only
    split
    · rfl
    · rename_i absent
      have none_left : l.countP (fun str => str.data == value.data) = 0 := not_not.mp absent
      simp only [none_left, Nat.zero_min, remForward, ok_bind, pure_eq_ok, List.reverse_reverse,
        ite_self]

theorem mem_trim {l l' : List Str} {begin end_ : Int32} {ret : Bool}
    (returned : trim l begin end_ = .ok (l', ret)) (member : s ∈ l') : s ∈ l := by
  rw [trim] at returned
  split at returned
  · cases returned
    exact member
  dsimp only at returned
  split at returned
  · cases returned
    exact member
  split at returned
  · cases returned
    rcases List.mem_append.mp member with front | back
    · exact List.mem_of_mem_take front
    · exact List.mem_of_mem_drop back
  · cases returned

theorem mem_set {l l' : List Str} {index : Int32} {value : Str} {ret : Bool}
    (returned : set l index value = .ok (l', ret)) (member : s ∈ l') : s ∈ l ∨ s = value := by
  rw [set] at returned
  split at returned
  · cases returned
    exact Or.inl member
  · obtain ⟨p, -, returned⟩ := bind_eq_ok.mp returned
    cases returned
    exact List.mem_or_eq_of_mem_set member

theorem mem_foldl_pushFront {values l : List Str} (member : s ∈ values.foldl pushFront l) :
    s ∈ values ∨ s ∈ l := by
  induction values generalizing l with
  | nil => exact Or.inr member
  | cons first values ih =>
      rcases ih member with later | before
      · exact Or.inl (List.mem_cons_of_mem _ later)
      · rcases List.mem_cons.mp before with rfl | old
        · exact Or.inl List.mem_cons_self
        · exact Or.inr old

theorem foldl_pushBack_eq (values l : List Str) : values.foldl pushBack l = l ++ values := by
  induction values generalizing l with
  | nil => rw [List.foldl_nil, List.append_nil]
  | cons first values ih => rw [List.foldl_cons, ih, pushBack, List.append_assoc, List.singleton_append]

theorem mem_popFront {l : List Str} (member : s ∈ (popFront l).1) : s ∈ l := by
  cases l with
  | nil => exact member
  | cons first rest => exact List.mem_cons_of_mem _ member

theorem mem_popBack {l : List Str} (member : s ∈ (popBack l).1) : s ∈ l := by
  rw [popBack] at member
  split at member
  · cases member
  · exact l.dropLast_sublist.subset member

end StrList

namespace ListCommand

/-- Every string of the list was in it before, or is an argument. -/
theorem onList_mem {c : ListCommand} {l l' : List Str} (returned : onList c l = .ok (l', reply))
    (member : s ∈ l') : s ∈ l ∨ s ∈ c.values := by
  unfold onList at returned
  split at returned
  · cases returned
    exact (StrList.mem_foldl_pushFront member).symm
  · cases returned
    rw [StrList.foldl_pushBack_eq] at member
    exact List.mem_append.mp member
  · cases returned
    exact Or.inl (StrList.mem_popFront member)
  · cases returned
    exact Or.inl (StrList.mem_popBack member)
  · obtain ⟨texts, -, returned⟩ := bind_eq_ok.mp returned
    cases returned
    exact Or.inl member
  · cases returned
    exact Or.inl member
  · obtain ⟨count, -, returned⟩ := bind_eq_ok.mp returned
    obtain ⟨intval, -, returned⟩ := bind_eq_ok.mp returned
    split at returned
    · cases returned
      exact Or.inl member
    · obtain ⟨value, -, returned⟩ := bind_eq_ok.mp returned
      rw [StrList.rem_eq] at returned
      cases returned
      exact Or.inl member
  · obtain ⟨begin, -, returned⟩ := bind_eq_ok.mp returned
    obtain ⟨intval1, -, returned⟩ := bind_eq_ok.mp returned
    obtain ⟨end_, -, returned⟩ := bind_eq_ok.mp returned
    obtain ⟨intval2, -, returned⟩ := bind_eq_ok.mp returned
    split at returned
    · obtain ⟨result, called, returned⟩ := bind_eq_ok.mp returned
      cases returned
      exact Or.inl (StrList.mem_trim called member)
    · cases returned
      exact Or.inl member
  · obtain ⟨index, -, returned⟩ := bind_eq_ok.mp returned
    obtain ⟨intval, -, returned⟩ := bind_eq_ok.mp returned
    split at returned
    · cases returned
      exact Or.inl member
    · obtain ⟨value, given, returned⟩ := bind_eq_ok.mp returned
      obtain ⟨result, called, returned⟩ := bind_eq_ok.mp returned
      cases returned
      rcases StrList.mem_set called member with old | rfl
      · exact Or.inl old
      · exact Or.inr (List.mem_of_getElem? (valueAt_eq_ok.mp given))

end ListCommand

namespace StrHash

theorem put_all {key value : Str} (all : (Object.hash h).All P) (new : P value) :
    (Object.hash (h.put key value)).All P := by
  rw [Object.all_hash] at all ⊢
  intro field member
  obtain ⟨old, inside, rfl⟩ := List.mem_map.mp member
  split
  · exact ⟨(all old inside).1, new⟩
  · exact all old inside

theorem set_all {key value : Str} (all : (Object.hash h).All P) (named : P key) (new : P value) :
    (Object.hash (h.set key value)).All P := by
  rw [set]
  split
  · exact put_all all new
  · rw [Object.all_hash] at all ⊢
    intro field member
    rcases Keyed.mem_insert member with rfl | old
    · exact ⟨named, new⟩
    · exact all field old

theorem del_all {key : Str} (all : (Object.hash h).All P) : (Object.hash (h.del key)).All P := by
  rw [Object.all_hash] at all ⊢
  exact fun field member => all field (List.mem_filter.mp member).1

theorem incrBy_all (kept : Str.Kept P) {h h' : StrHash} {key : Str} {delta : Int32} {text : Bytes}
    (all : (Object.hash h).All P) (returned : h.incrBy key delta = .ok (h', text)) :
    (Object.hash h').All P := by
  rw [incrBy] at returned
  split at returned
  · cases returned
    exact all
  · rename_i field found
    obtain ⟨⟨value, ret⟩, called, returned⟩ := bind_eq_ok.mp returned
    cases returned
    have old := (Object.all_hash.mp all field (h.find_eq_some_iff.mp found).1).2
    exact put_all all (kept.incrBy old called)

end StrHash

namespace HashCommand

theorem addBy_all {method : StrHash → Str → Int32 → Except Fault (StrHash × Bytes)}
    (keeps : ∀ h key n h' text, (Object.hash h).All P → method h key n = .ok (h', text) →
      (Object.hash h').All P)
    {c : HashCommand} {tbl tbl' : StrHash} {reply : Reply} (all : (Object.hash tbl).All P)
    (returned : addBy method c tbl = .ok (tbl', reply)) : (Object.hash tbl').All P := by
  rw [addBy] at returned
  obtain ⟨delta, -, returned⟩ := bind_eq_ok.mp returned
  obtain ⟨intval, -, returned⟩ := bind_eq_ok.mp returned
  split at returned
  · cases returned
    exact all
  · obtain ⟨key, -, returned⟩ := bind_eq_ok.mp returned
    obtain ⟨result, called, returned⟩ := bind_eq_ok.mp returned
    cases returned
    exact keeps _ _ _ _ _ all called

theorem onHash_all (kept : Str.Kept P) {c : HashCommand} (args : c.Filled) {tbl tbl' : StrHash}
    (all : (Object.hash tbl).All P) (returned : onHash c tbl = .ok (tbl', reply)) :
    (Object.hash tbl').All P := by
  unfold onHash at returned
  split at returned
  · obtain ⟨result, looped, returned⟩ := bind_eq_ok.mp returned
    cases returned
    refine eachPair_keeps (fun h => (Object.hash h).All P) ?_ all looped
    intro acc next key hk value hv before stored
    cases stored
    exact StrHash.set_all before (kept.given _ (args.values key hk))
      (kept.given _ (args.values value hv))
  · cases returned
    exact all
  · cases returned
    exact all
  · cases returned
    exact List.foldlRecOn (motive := fun h => (Object.hash h).All P) _ _ all
      fun h before key _ => StrHash.del_all before
  · cases returned
    exact all
  · cases returned
    exact all
  · exact addBy_all (fun _ _ _ _ _ => StrHash.incrBy_all kept) all returned
  · exact addBy_all (fun _ _ _ _ _ => StrHash.incrBy_all kept) all returned

end HashCommand

namespace SetCommand

theorem combine_same {method : StrSet → StrSet → Bool → List Str} {get : Bytes → Option Object}
    {c : SetCommand} {st st' : StrSet} (returned : combine method get c st = .ok (st', reply)) :
    st' = st := by
  rw [combine] at returned
  obtain ⟨another, -, returned⟩ := bind_eq_ok.mp returned
  split at returned
  · cases returned
    rfl
  · cases returned
    rfl

/-- Every member was there before, or is an argument. -/
theorem onSet_mem {random : Nat} {get : Bytes → Option Object} {c : SetCommand} {st st' : StrSet}
    (returned : onSet random get c st = .ok (st', reply)) (member : s ∈ st'.items) :
    s ∈ st.items ∨ s ∈ c.values := by
  unfold onSet at returned
  split at returned
  · cases returned
    revert member
    refine List.foldlRecOn (motive := fun acc : StrSet × Int32 =>
      s ∈ acc.1.items → s ∈ st.items ∨ s ∈ c.values) _ _ Or.inl ?_
    intro acc kept m listed inside
    rcases Keyed.mem_insert inside with rfl | old
    · exact Or.inr listed
    · exact kept old
  · cases returned
    exact Or.inl member
  · cases returned
    exact Or.inl member
  · cases returned
    exact Or.inl member
  · cases returned
    exact Or.inl member
  · obtain ⟨result, popped, returned⟩ := bind_eq_ok.mp returned
    cases returned
    unfold StrSet.pop at popped
    split at popped
    · cases popped
      exact Or.inl member
    · split at popped
      · cases popped
      · cases popped
        exact Or.inl (List.mem_filter.mp member).1
  · cases returned
    revert member
    refine List.foldlRecOn (motive := fun acc : StrSet × Int32 =>
      s ∈ acc.1.items → s ∈ st.items ∨ s ∈ c.values) _ _ Or.inl ?_
    exact fun acc kept m _ inside => kept (List.mem_filter.mp inside).1
  · rw [combine_same returned] at member
    exact Or.inl member
  · rw [combine_same returned] at member
    exact Or.inl member

end SetCommand

theorem LinkedZSet.add_all {z : LinkedZSet} {member : Str} (all : (Object.zset z).All P)
    (score : Int32) (new : P member) : (Object.zset (z.add score member).1).All P := by
  intro s inside
  obtain ⟨entry, there, rfl⟩ := List.mem_map.mp inside
  rw [entries_add] at there
  split at there
  · exact all _ (List.mem_map_of_mem there)
  · rcases List.mem_append.mp there with old | added
    · exact all _ (List.mem_map_of_mem old)
    · rw [List.mem_singleton.mp added]
      exact new

namespace ZSetCommand

/-- What a command can do to a `ZSet`: nothing, add or remove pairs, or change one
score. The last three say so in their replies. -/
theorem onZSet_cases {c : ZSetCommand} {zst zst' : LinkedZSet}
    (returned : onZSet c zst = .ok (zst', reply)) :
    zst' = zst ∨
    (∃ cnt, eachPair (scored fun z n m => .ok (z.add n m)) (zst, 0) c.values = .ok (zst', cnt) ∧
      reply = [toStringInt cnt]) ∨
    (∃ cnt, eachPair (scored LinkedZSet.rem) (zst, 0) c.values = .ok (zst', cnt) ∧
      reply = [toStringInt cnt]) ∨
    (∃ n member text, zst.incrBy n member = .ok (zst', text) ∧
      reply = textOr refused text) := by
  unfold onZSet at returned
  split at returned
  · obtain ⟨result, looped, returned⟩ := bind_eq_ok.mp returned
    cases returned
    exact Or.inr (Or.inl ⟨_, looped, rfl⟩)
  · cases returned
    exact Or.inl rfl
  · obtain ⟨result, looped, returned⟩ := bind_eq_ok.mp returned
    cases returned
    exact Or.inr (Or.inr (Or.inl ⟨_, looped, rfl⟩))
  · obtain ⟨answer, -, returned⟩ := bind_eq_ok.mp returned
    cases returned
    exact Or.inl rfl
  · obtain ⟨low, -, returned⟩ := bind_eq_ok.mp returned
    obtain ⟨high, -, returned⟩ := bind_eq_ok.mp returned
    cases returned
    exact Or.inl rfl
  · obtain ⟨delta, -, returned⟩ := bind_eq_ok.mp returned
    obtain ⟨intval, -, returned⟩ := bind_eq_ok.mp returned
    split at returned
    · cases returned
      exact Or.inl rfl
    · obtain ⟨member, -, returned⟩ := bind_eq_ok.mp returned
      obtain ⟨result, called, returned⟩ := bind_eq_ok.mp returned
      cases returned
      exact Or.inr (Or.inr (Or.inr ⟨_, _, _, called, rfl⟩))
  · obtain ⟨delta, -, returned⟩ := bind_eq_ok.mp returned
    obtain ⟨intval, -, returned⟩ := bind_eq_ok.mp returned
    split at returned
    · cases returned
      exact Or.inl rfl
    · obtain ⟨member, -, returned⟩ := bind_eq_ok.mp returned
      obtain ⟨result, called, returned⟩ := bind_eq_ok.mp returned
      cases returned
      exact Or.inr (Or.inr (Or.inr ⟨_, _, _, called, rfl⟩))
  · obtain ⟨answer, -, returned⟩ := bind_eq_ok.mp returned
    cases returned
    exact Or.inl rfl
  · obtain ⟨answer, -, returned⟩ := bind_eq_ok.mp returned
    cases returned
    exact Or.inl rfl
  · obtain ⟨low, -, returned⟩ := bind_eq_ok.mp returned
    obtain ⟨high, -, returned⟩ := bind_eq_ok.mp returned
    obtain ⟨res, -, returned⟩ := bind_eq_ok.mp returned
    cases returned
    exact Or.inl rfl
  · obtain ⟨member, -, returned⟩ := bind_eq_ok.mp returned
    obtain ⟨text, -, returned⟩ := bind_eq_ok.mp returned
    cases returned
    exact Or.inl rfl
  · obtain ⟨member, -, returned⟩ := bind_eq_ok.mp returned
    obtain ⟨text, -, returned⟩ := bind_eq_ok.mp returned
    cases returned
    exact Or.inl rfl

/-- `ZADD` and `ZREM` keep what their method keeps. -/
theorem scored_keeps {method : LinkedZSet → Int32 → Str → Except Fault (LinkedZSet × Bool)}
    (keep : LinkedZSet → Prop) {values : List Str}
    (step : ∀ z, ∀ score ∈ values, ∀ member ∈ values, ∀ n result, keep z →
      redisStrToInt score.data = .ok (some n) → method z n member = .ok result → keep result.1)
    {z z' : LinkedZSet} {cnt cnt' : Int32} (start : keep z)
    (returned : eachPair (scored method) (z, cnt) values = .ok (z', cnt')) : keep z' := by
  refine eachPair_keeps (fun acc : LinkedZSet × Int32 => keep acc.1) ?_ start returned
  intro acc next score scores member listed kept round
  rw [scored] at round
  obtain ⟨intval, converted, round⟩ := bind_eq_ok.mp round
  cases intval with
  | none =>
      cases round
      exact kept
  | some n =>
      obtain ⟨result, called, round⟩ := bind_eq_ok.mp round
      cases round
      exact step acc.1 score scores member listed n result kept converted called

theorem onZSet_all (given : ∀ s : Str, s.data ≠ [] → P s) {c : ZSetCommand} (args : c.Filled)
    {zst zst' : LinkedZSet} (all : (Object.zset zst).All P)
    (returned : onZSet c zst = .ok (zst', reply)) : (Object.zset zst').All P := by
  rcases onZSet_cases returned with rfl | ⟨cnt, looped, -⟩ | ⟨cnt, looped, -⟩ |
    ⟨n, member, text, called, -⟩
  · exact all
  · refine scored_keeps (fun z => (Object.zset z).All P) ?_ all looped
    intro z score _ member listed n result kept _ added
    cases added
    exact LinkedZSet.add_all kept n (given _ (args.values member listed))
  · refine scored_keeps (fun z => (Object.zset z).All P) ?_ all looped
    intro z score _ member _ n result kept _ removed s inside
    rw [Object.strings, LinkedZSet.entries_rem removed] at inside
    split at inside
    · exact kept s ((List.filter_sublist.map _).subset inside)
    · exact kept s inside
  · intro s inside
    rw [Object.strings, LinkedZSet.entries_incrBy called, List.map_map] at inside
    obtain ⟨entry, listed, rfl⟩ := List.mem_map.mp inside
    have unnamed : (Prod.fst ∘ fun entry : Str × Int32 =>
        if entry.1.data = member.data then (entry.1, entry.2 + n) else entry) entry = entry.1 := by
      rw [Function.comp_apply]
      split <;> rfl
    rw [unnamed]
    exact all _ (List.mem_map_of_mem listed)

end ZSetCommand

/- Databases. -/

namespace Db

/-- Every key has a property, and every string an object contains. -/
def All (P : Str → Prop) (db : Db) : Prop :=
  ∀ key kv, db.keyValueMap.find key = some kv → P kv.key ∧ kv.value.All P

/-- No key is empty, and no string an object contains. -/
def Filled (db : Db) : Prop :=
  ∀ key kv, db.keyValueMap.find key = some kv → kv.key.data ≠ [] ∧ kv.value.Filled

theorem filled_iff_all : db.Filled ↔ db.All fun s => s.data ≠ [] := Iff.rfl

theorem strings_of_filled (filled : db.Filled) : ∀ s ∈ db.strings, s.data ≠ [] := by
  intro s inside
  obtain ⟨kv, member, which⟩ := List.mem_flatMap.mp inside
  obtain ⟨key, value⟩ := filled _ kv (db.keyValueMap.find_of_mem member)
  rcases List.mem_cons.mp which with rfl | inValue
  · exact key
  · exact value s inValue

theorem empty_all (number : Int32) : All P ⟨number, Keyed.empty⟩ := by
  intro key kv found
  cases found

/-- The frame keeps a property of all strings if the method does. -/
theorem execOn_all {α : Type} {db db' : Db} {kind : ObjectKind α} {key : Bytes}
    {creates : Bool} {method : α → Except Fault (α × Reply)} {reply : Reply}
    (all : db.All P) (named : P (Str.ofData key))
    (made : creates = true → ∀ value answer, method kind.fresh = .ok (value, answer) →
      (kind.wrap value).All P)
    (keeps : ∀ old value answer, (kind.wrap old).All P → method old = .ok (value, answer) →
      (kind.wrap value).All P)
    (returned : db.execOn kind key creates method = .ok (db', reply)) : db'.All P := by
  rcases execOn_cases returned with ⟨rfl, -⟩ | ⟨absent, creating, value, called, rfl⟩ |
    ⟨old, value, found, called, rfl⟩
  · exact all
  · intro k kv there
    rw [find_store_newObject absent] at there
    split at there
    · cases there
      exact ⟨named, made creating value reply called⟩
    · exact all k kv there
  · intro k kv there
    rw [find_store] at there
    split at there
    · obtain ⟨before, present, rfl⟩ := Option.map_eq_some_iff.mp there
      obtain ⟨entry, located, holds⟩ := get_eq_some_iff.mp found
      have object := (all key entry located).2
      rw [holds] at object
      exact ⟨(all k before present).1, keeps old value reply object called⟩
    · exact all k kv there

theorem del_all (all : db.All P) (key : Bytes) : (db.del key).1.All P := by
  intro k kv there
  rw [del, Keyed.find_erase] at there
  split at there
  · cases there
  · exact all k kv there

theorem expireAt_all (all : db.All P) (key : Bytes) (time : UInt64) :
    (db.expireAt key time).1.All P := by
  rw [expireAt]
  split
  · exact all
  · intro k kv there
    change (db.makeExpireAt key time).keyValueMap.find k = some kv at there
    rw [find_makeExpireAt] at there
    split at there
    · obtain ⟨before, present, rfl⟩ := Option.map_eq_some_iff.mp there
      exact all k before present
    · exact all k kv there

theorem number_expireAt (db : Db) (key : Bytes) (time : UInt64) :
    (db.expireAt key time).1.number = db.number := by
  rw [expireAt]
  split <;> rfl

end Db

theorem StrCommand.exec_all (kept : Str.Kept P) {c : StrCommand} (args : c.Filled)
    (valid : c.valid = true) (all : db.All P) (returned : StrCommand.exec c db = .ok (db', reply)) :
    db'.All P := by
  refine Db.execOn_all all (kept.given _ (args.key valid)) ?_ ?_ returned
  · intro creating value answer called
    have setting : c.command = .set := beq_iff_eq.mp creating
    exact Object.all_str.mpr (onStr_all kept args (absurd setting) called)
  · intro old value answer before called
    exact Object.all_str.mpr (onStr_all kept args (fun _ => Object.all_str.mp before) called)

theorem ListCommand.exec_all (given : ∀ s : Str, s.data ≠ [] → P s) {c : ListCommand}
    (args : c.Filled) (valid : c.valid = true) (all : db.All P)
    (returned : ListCommand.exec c db = .ok (db', reply)) : db'.All P := by
  have keeps : ∀ old value answer, (Object.list old).All P → onList c old = .ok (value, answer) →
      (Object.list value).All P := by
    intro old value answer before called s member
    rcases onList_mem called member with inside | argument
    · exact before s inside
    · exact given s (args.values s argument)
  refine Db.execOn_all all (given _ (args.key valid)) ?_ keeps returned
  exact fun _ value answer => keeps [] value answer nofun

theorem HashCommand.exec_all (kept : Str.Kept P) {c : HashCommand} (args : c.Filled)
    (valid : c.valid = true) {db db' : Db} {reply : Reply} (all : db.All P)
    (returned : HashCommand.exec c db = .ok (db', reply)) : db'.All P := by
  refine Db.execOn_all all (kept.given _ (args.key valid)) ?_ ?_ returned
  · exact fun _ value answer => onHash_all kept args nofun
  · exact fun old value answer => onHash_all kept args

theorem SetCommand.exec_all (given : ∀ s : Str, s.data ≠ [] → P s) {random : Nat} {c : SetCommand}
    (args : c.Filled) (valid : c.valid = true) (all : db.All P)
    (returned : SetCommand.exec random c db = .ok (db', reply)) : db'.All P := by
  have keeps : ∀ old value answer, (Object.set old).All P →
      onSet random db.get c old = .ok (value, answer) → (Object.set value).All P := by
    intro old value answer before called s member
    rcases onSet_mem called member with inside | argument
    · exact before s inside
    · exact given s (args.values s argument)
  refine Db.execOn_all all (given _ (args.key valid)) ?_ keeps returned
  exact fun _ value answer => keeps Keyed.empty value answer nofun

theorem ZSetCommand.exec_all (given : ∀ s : Str, s.data ≠ [] → P s) {c : ZSetCommand}
    (args : c.Filled) (valid : c.valid = true) (all : db.All P)
    (returned : ZSetCommand.exec c db = .ok (db', reply)) : db'.All P := by
  refine Db.execOn_all all (given _ (args.key valid)) ?_ ?_ returned
  · exact fun _ value answer => onZSet_all given args nofun
  · exact fun old value answer => onZSet_all given args

end ForkRedis
