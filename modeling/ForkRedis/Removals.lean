import ForkRedis.Filled
import Mathlib.Data.List.Perm.Basic

set_option autoImplicit false

/- `List::Rem` and `Set::Pop` against what they are called for: the occurrences of a value
that a removal should take, and the member that a pop should give. -/
namespace ForkRedis

open Lists Fallible

namespace StrList

/-- How often a value occurs. -/
def occurrences (value : Str) (l : List Str) : Nat := l.countP fun str => str.data == value.data

/-- A list without the first `n` occurrences of a value. -/
def withoutFirst (value : Str) : Nat → List Str → List Str
  | 0, l => l
  | _ + 1, [] => []
  | n + 1, first :: rest =>
      if first.data = value.data then withoutFirst value n rest
      else first :: withoutFirst value (n + 1) rest

def withoutLast (value : Str) (n : Nat) (l : List Str) : List Str :=
  (withoutFirst value n l.reverse).reverse

/-- What a removal should leave, and how much it should say it removed. -/
def removed (l : List Str) (count : Int32) (value : Str) : List Str × Nat :=
  let n := min count.toInt.natAbs (occurrences value l)
  (if 0 < count then withoutFirst value n l else withoutLast value n l, n)

theorem occurrences_cons_same {value first : Str} (same : first.data = value.data)
    (rest : List Str) : occurrences value (first :: rest) = occurrences value rest + 1 :=
  List.countP_cons_of_pos (beq_iff_eq.mpr same)

theorem occurrences_cons_other {value first : Str} (other : first.data ≠ value.data)
    (rest : List Str) : occurrences value (first :: rest) = occurrences value rest :=
  List.countP_cons_of_neg (mt beq_iff_eq.mp other)

theorem occurrences_reverse (value : Str) (l : List Str) :
    occurrences value l.reverse = occurrences value l := by
  rw [occurrences, List.countP_reverse, occurrences]

/-- The loop, called for no more occurrences than there are, stays inside the list and
erases the first ones. -/
theorem remForward_eq {value : Str} {n : Nat} {l : List Str} (enough : n ≤ occurrences value l) :
    remForward value n l = .ok (withoutFirst value n l) := by
  induction l generalizing n with
  | nil =>
      have none_left : n = 0 := Nat.le_zero.mp enough
      rw [none_left]
      rfl
  | cons first rest ih =>
      cases n with
      | zero => rfl
      | succ n =>
          rw [remForward, withoutFirst]
          by_cases same : first.data = value.data
          · rw [occurrences_cons_same same] at enough
            rw [if_pos same, if_pos same, ih (Nat.le_of_succ_le_succ enough)]
            split
            · rename_i last
              rw [last]
              cases n with
              | zero => rfl
              | succ n => rfl
            · rfl
          · rw [occurrences_cons_other same] at enough
            rw [if_neg same, if_neg same, ih enough]
            rfl

theorem removed_of_none {l : List Str} {count : Int32} {value : Str}
    (none_left : min count.toInt.natAbs (occurrences value l) = 0) :
    removed l count value = (l, 0) := by
  rw [removed, none_left, withoutLast, withoutFirst, withoutFirst, List.reverse_reverse, ite_self]

/-- The loops of `Rem` are right for every number of occurrences they could be asked for, but
the guard before them lets nothing through: the removal is the one asked for only if there
is nothing to remove. -/
theorem rem_removes_iff (l : List Str) (count : Int32) (value : Str) :
    (rem l count value = .ok (removed l count value) ↔
      count = 0 ∨ occurrences value l = 0) ∧
    ∀ n ≤ occurrences value l, remForward value n l = .ok (withoutFirst value n l) ∧
      (remForward value n l.reverse).map List.reverse = .ok (withoutLast value n l) := by
  have nothing : min count.toInt.natAbs (occurrences value l) = 0 ↔
      count = 0 ∨ occurrences value l = 0 := by
    rw [Nat.min_eq_zero_iff, Int.natAbs_eq_zero]
    exact or_congr_left ⟨fun zero => Int32.toInt_inj.mp zero, fun zero => by rw [zero]; rfl⟩
  refine ⟨?_, fun n enough => ⟨remForward_eq enough, ?_⟩⟩
  · rw [rem_eq, ← nothing]
    constructor
    · intro same
      have counts := congrArg Prod.snd (Except.ok.inj same)
      exact counts.symm
    · intro none_left
      rw [removed_of_none none_left]
  · rw [remForward_eq (by rw [occurrences_reverse]; exact enough)]
    rfl

/-- One of two occurrences should go, and none does. -/
theorem not_rem_removes :
    rem [Str.ofData (bytes "a"), Str.ofData (bytes "b"), Str.ofData (bytes "a")] 1
      (Str.ofData (bytes "a")) =
        .ok ([Str.ofData (bytes "a"), Str.ofData (bytes "b"), Str.ofData (bytes "a")], 0) ∧
    removed [Str.ofData (bytes "a"), Str.ofData (bytes "b"), Str.ofData (bytes "a")] 1
      (Str.ofData (bytes "a")) = ([Str.ofData (bytes "b"), Str.ofData (bytes "a")], 1) := by
  decide +kernel

end StrList

namespace StrSet

/-- Pops in a row: what each of them returned. -/
def popTimes : Nat → StrSet → Except Fault (List Str)
  | 0, _ => .ok []
  | n + 1, s => do
      let (s, m) ← pop s
      let later ← popTimes n s
      return m :: later

/-- A pop removes the member that it returns, and pops until nothing is left return every
member once. -/
structure PopsReturned (s : StrSet) : Prop where
  one : s.items ≠ [] → ∃ s' m, pop s = .ok (s', m) ∧ m ∈ s.items ∧
    s'.items.Perm (s.items.erase m)
  all : ∃ popped, popTimes s.items.length s = .ok popped ∧ popped.Perm s.items

theorem pop_single {s : StrSet} {m : Str} (only : s.items = [m]) : pop s = .error .undefined := by
  rw [pop, only]

/-- Of several members, the first is removed and the second is returned. -/
theorem pop_several {s : StrSet} {first second : Str} {rest : List Str}
    (several : s.items = first :: second :: rest) :
    ∃ s', pop s = .ok (s', second) ∧ s'.items = second :: rest := by
  refine ⟨s.erase first.data, ?_, Keyed.items_erase_first several⟩
  rw [pop, several]

/-- A set that is popped until it is empty is asked for the element past the last one. -/
theorem popTimes_raises {s : StrSet} {n : Nat} (size : s.items.length = n + 1) :
    popTimes (n + 1) s = .error .undefined := by
  induction n generalizing s with
  | zero =>
      obtain ⟨m, only⟩ := List.length_eq_one_iff.mp size
      rw [popTimes, pop_single only]
      rfl
  | succ n ih =>
      match listed : s.items with
      | [] | [_] =>
          rw [listed] at size
          cases size
      | first :: second :: rest =>
          obtain ⟨s', popped, left⟩ := pop_several listed
          have fewer : s'.items.length = n + 1 := by
            rw [listed, List.length_cons] at size
            rw [left]
            omega
          rw [popTimes, popped, ok_bind]
          dsimp only
          rw [ih fewer]
          rfl

theorem PopsReturned.empty {s : StrSet} (pops : s.PopsReturned) : s.items = [] := by
  obtain ⟨popped, returned, -⟩ := pops.all
  cases size : s.items.length with
  | zero => exact List.length_eq_zero_iff.mp size
  | succ n =>
      rw [size, popTimes_raises size] at returned
      cases returned

/-- No pop from a set that holds something does what it should. -/
theorem popsReturned_iff (s : StrSet) : s.PopsReturned ↔ s.items = [] := by
  refine ⟨fun pops => pops.empty, fun empty => ⟨fun filled => absurd empty filled, [], ?_, ?_⟩⟩
  · rw [empty]
    rfl
  · rw [empty]

/-- Of two members one is removed and the other is returned; the only member of a set is
removed, and what is returned is read past the end. -/
theorem not_popsReturned :
    (∃ s s' : StrSet, s.items = [Str.ofData (bytes "x"), Str.ofData (bytes "y")] ∧
      pop s = .ok (s', Str.ofData (bytes "y")) ∧ s'.items = [Str.ofData (bytes "y")] ∧
      ¬ s.PopsReturned) ∧
    ∃ s : StrSet, s.items = [Str.ofData (bytes "x")] ∧ pop s = .error .undefined ∧
      ¬ s.PopsReturned := by
  let two : StrSet := ⟨[Str.ofData (bytes "x"), Str.ofData (bytes "y")], by decide⟩
  let one : StrSet := ⟨[Str.ofData (bytes "x")], by decide⟩
  obtain ⟨left, popped, items⟩ := @pop_several two _ _ [] rfl
  exact ⟨⟨two, left, rfl, popped, items, fun pops => List.cons_ne_nil _ _ pops.empty⟩,
    one, rfl, pop_single rfl, fun pops => List.cons_ne_nil _ _ pops.empty⟩

end StrSet

end ForkRedis
