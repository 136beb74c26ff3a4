import Mathlib.Data.List.Basic
import Mathlib.Data.List.Perm.Basic
import Mathlib.Data.List.Nodup
import Mathlib.Data.List.TakeWhile
import Mathlib.Data.List.Forall2

set_option autoImplicit false

/- Lists in the order of a key: searches from a bound, the windows between two bounds, and
the position of an element as the number of elements below it. -/
namespace Sorted

variable {α β κ : Type}

/-- A predicate that fails from some element on is searched for by walking. -/
theorem takeWhile_eq_filter {p : α → Bool} {l : List α}
    (down : l.Pairwise fun a b => p b = true → p a = true) : l.takeWhile p = l.filter p := by
  induction l with
  | nil => rfl
  | cons a l ih =>
      obtain ⟨first, rest⟩ := List.pairwise_cons.mp down
      by_cases holds : p a = true
      · rw [List.takeWhile_cons_of_pos holds, List.filter_cons_of_pos holds, ih rest]
      · have none : l.filter p = [] := List.filter_eq_nil_iff.mpr fun b member later =>
          holds (first b member later)
        rw [List.takeWhile_cons_of_neg holds, List.filter_cons_of_neg holds, none]

theorem dropWhile_eq_filter {p : α → Bool} {l : List α}
    (down : l.Pairwise fun a b => p b = true → p a = true) :
    l.dropWhile p = l.filter fun a => !p a := by
  induction l with
  | nil => rfl
  | cons a l ih =>
      obtain ⟨first, rest⟩ := List.pairwise_cons.mp down
      by_cases holds : p a = true
      · rw [List.dropWhile_cons_of_pos holds, ih rest,
          List.filter_cons_of_neg (by rw [holds]; decide)]
      · have all : l.filter (fun a => !p a) = l := List.filter_eq_self.mpr fun b member => by
          rw [Bool.not_eq_true']
          exact Bool.eq_false_iff.mpr fun later => holds (first b member later)
        rw [List.dropWhile_cons_of_neg holds, List.filter_cons_of_pos (by simpa using holds), all]

/-- A container that holds the images of `l` in some order lists the elements of `l` in some
order. -/
theorem exists_order {nodes : List β} {l : List α} {node : α → β}
    (perm : nodes.Perm (l.map node)) :
    ∃ order : List α, order.Perm l ∧ nodes = order.map node := by
  have matched : List.Forall₂ (fun b a => b = node a) (l.map node) l := by
    rw [List.forall₂_map_left_iff, List.forall₂_same]
    exact fun _ _ => rfl
  obtain ⟨order, listed, same⟩ := List.perm_comp_forall₂ perm matched
  refine ⟨order, same, ?_⟩
  exact (List.forall₂_eq_eq_eq ▸ List.forall₂_map_right_iff.mpr listed :
    nodes = order.map node)

section Window

variable [LE κ] [LT κ] [Std.IsLinearOrder κ] [Std.LawfulOrderLT κ]

/-- What a walk finds between two bounds of the key. -/
theorem window_eq_filter [DecidableLE κ] [DecidableLT κ] {key : α → κ} {l : List α}
    (sorted : l.Pairwise fun a b => key a ≤ key b) (low high : κ) :
    (l.dropWhile fun a => key a < low).takeWhile (fun a => key a ≤ high) =
      l.filter fun a => low ≤ key a ∧ key a ≤ high := by
  have above : l.dropWhile (fun a => key a < low) = l.filter fun a => low ≤ key a := by
    rw [dropWhile_eq_filter]
    · apply List.filter_congr
      intro a _
      rw [← decide_not, decide_eq_decide, Std.not_lt]
    · apply sorted.imp
      intro a b ordered below
      exact decide_eq_true (Std.lt_of_le_of_lt ordered (of_decide_eq_true below))
  rw [above, takeWhile_eq_filter]
  · rw [List.filter_filter]
    apply List.filter_congr
    intro a _
    rw [← Bool.decide_and, decide_eq_decide, and_comm]
  · apply (sorted.sublist List.filter_sublist).imp
    intro a b ordered below
    exact decide_eq_true (Std.le_trans ordered (of_decide_eq_true below))

/-- Bounds that are crossed enclose nothing. -/
theorem window_eq_nil [DecidableLE κ] {key : α → κ} {l : List α} {low high : κ} (crossed : high < low) :
    (l.filter fun a => low ≤ key a ∧ key a ≤ high) = [] := by
  apply List.filter_eq_nil_iff.mpr
  intro a _ inside
  obtain ⟨lower, upper⟩ := of_decide_eq_true inside
  exact Std.lt_irrefl (Std.lt_of_lt_of_le crossed (Std.le_trans lower upper))

/-- The search for the first element with the key of `a` stops at `a` itself if and only if
no element before it has that key. -/
theorem length_below_eq_iff [DecidableLT κ] {key : α → κ} {l : List α}
    (sorted : l.Pairwise fun a b => key a ≤ key b) {i : Nat} {a : α} (at_ : l[i]? = some a) :
    (l.takeWhile fun b => key b < key a).length = i ↔ ∀ b ∈ l.take i, key b ≠ key a := by
  induction l generalizing i with
  | nil => cases at_
  | cons b l ih =>
      obtain ⟨least, rest⟩ := List.pairwise_cons.mp sorted
      cases i with
      | zero =>
          obtain rfl : b = a := by simpa using at_
          rw [List.takeWhile_cons_of_neg (by simpa using Std.lt_irrefl)]
          simp
      | succ i =>
          have member : l[i]? = some a := by simpa using at_
          have ordered := least a (List.mem_of_getElem? member)
          rw [List.take_succ_cons, List.forall_mem_cons, List.takeWhile_cons, ← ih rest member]
          by_cases below : key b < key a
          · rw [if_pos (decide_eq_true below), List.length_cons, Nat.add_right_cancel_iff,
              and_iff_right (Std.ne_of_lt below)]
          · have same : key b = key a := Std.le_antisymm ordered (Std.not_lt.mp below)
            rw [if_neg (by simpa using below), List.length_nil]
            exact iff_of_false (by omega) fun differ => differ.1 same

end Window

theorem mem_of_filter_eq [DecidableEq κ] {key : α → κ} {l l' : List α}
    (same : ∀ k, (l.filter fun a => key a = k) = l'.filter fun a => key a = k) {a : α}
    (member : a ∈ l) : a ∈ l' := by
  have found : a ∈ l.filter fun x => key x = key a :=
    List.mem_filter.mpr ⟨member, decide_eq_true rfl⟩
  rw [same] at found
  exact (List.mem_filter.mp found).1

/-- Sorted lists that agree key by key are equal. -/
theorem eq_of_filter_eq [DecidableEq κ] [LE κ] [Std.IsPartialOrder κ] (key : α → κ)
    {l l' : List α}
    (sorted : l.Pairwise fun a b => key a ≤ key b) (sorted' : l'.Pairwise fun a b => key a ≤ key b)
    (same : ∀ k, (l.filter fun a => key a = k) = l'.filter fun a => key a = k) : l = l' := by
  have there : ∀ a ∈ l, a ∈ l' := fun _ => mem_of_filter_eq same
  have back : ∀ a ∈ l', a ∈ l := fun _ => mem_of_filter_eq fun k => (same k).symm
  induction l generalizing l' with
  | nil => exact (List.eq_nil_iff_forall_not_mem.mpr fun a member => nomatch back a member).symm
  | cons a l ih =>
      cases l' with
      | nil => exact nomatch there a List.mem_cons_self
      | cons b l' =>
          obtain ⟨least, rest⟩ := List.pairwise_cons.mp sorted
          obtain ⟨least', rest'⟩ := List.pairwise_cons.mp sorted'
          -- each head is in the other list, so the heads have one key, the least
          have lower : key a ≤ key b := by
            rcases List.mem_cons.mp (back b List.mem_cons_self) with rfl | later
            · exact Std.le_refl (key b)
            · exact least b later
          have upper : key b ≤ key a := by
            rcases List.mem_cons.mp (there a List.mem_cons_self) with rfl | later
            · exact Std.le_refl (key a)
            · exact least' a later
          have equal : key b = key a := Std.le_antisymm upper lower
          have first := same (key a)
          simp only [List.filter_cons, equal, decide_true, ↓reduceIte, List.cons.injEq] at first
          obtain rfl := first.1
          have others : ∀ k, (l.filter fun x => key x = k) = l'.filter fun x => key x = k := by
            intro k
            have parts := same k
            rw [List.filter_cons, List.filter_cons] at parts
            split at parts
            · exact (List.cons.inj parts).2
            · exact parts
          rw [ih rest rest' others (fun _ => mem_of_filter_eq others)
            fun _ => mem_of_filter_eq fun k => (others k).symm]

/-- A part of a list of distinct elements is taken from one place only. -/
theorem slice_inj {l : List α} (nodup : l.Nodup) {b e b' e' : Nat} (filled : b ≤ e)
    (inside : e < l.length) (inside' : e' < l.length)
    (same : (l.take (e' + 1)).drop b' = (l.take (e + 1)).drop b) : b' = b ∧ e' = e := by
  have lengths := congrArg List.length same
  rw [List.length_drop, List.length_drop, List.length_take, List.length_take] at lengths
  have heads := congrArg (fun part => part[0]?) same
  simp only [List.getElem?_drop, List.getElem?_take, Nat.add_zero] at heads
  rw [if_pos (by omega), if_pos (by omega)] at heads
  have begins : b' = b :=
    (List.getElem?_inj (by omega) nodup).mp heads
  exact ⟨begins, by omega⟩

end Sorted
