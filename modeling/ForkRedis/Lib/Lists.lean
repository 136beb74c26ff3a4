import Mathlib.Data.List.Basic
import Mathlib.Data.List.Perm.Basic
import Mathlib.Data.List.Nodup
import Mathlib.Data.List.TakeWhile

set_option autoImplicit false

/- Lists searched by a key that at most one element carries. -/
namespace Lists

variable {α : Type}

/-- A search for a property only `a` has finds `a`. -/
theorem find?_unique {l : List α} {p : α → Bool} {a : α} (member : a ∈ l) (holds : p a = true)
    (only : ∀ x ∈ l, p x = true → x = a) : l.find? p = some a := by
  cases found : l.find? p with
  | none => exact absurd holds (List.find?_eq_none.mp found a member)
  | some x => rw [only x (List.mem_of_find?_eq_some found) (List.find?_some found)]

theorem eraseP_unique [DecidableEq α] {l : List α} {p : α → Bool} {a : α}
    (only : ∀ x ∈ l, p x = true ↔ x = a) : l.eraseP p = l.erase a := by
  induction l with
  | nil => rfl
  | cons x l ih =>
      have rest := ih fun y member => only y (List.mem_cons_of_mem x member)
      by_cases hit : p x = true
      · have same := (only x List.mem_cons_self).mp hit
        subst same
        rw [List.eraseP_cons_of_pos hit, List.erase_cons_head]
      · have differs : x ≠ a := fun same => hit ((only x List.mem_cons_self).mpr same)
        rw [List.eraseP_cons_of_neg hit, List.erase_cons_tail (by simpa using differs), rest]

/-- A container that holds the images of `l` in some order, each under an address of its own,
loses the image of `a` alone when the address of `a` is erased. -/
theorem eraseP_perm_map {β κ : Type} [DecidableEq α] [DecidableEq κ] {l : List α} {a : α}
    {nodes : List β} {node : α → β} (addr : β → κ) (perm : nodes.Perm (l.map node))
    (distinct : (l.map fun x => addr (node x)).Nodup) (member : a ∈ l) :
    (nodes.eraseP fun n => addr n == addr (node a)).Perm ((l.erase a).map node) := by
  have nodup : (nodes.map addr).Nodup := by
    rw [(perm.map addr).nodup_iff, List.map_map]
    exact distinct
  have once : nodes.Pairwise fun m n =>
      (addr m == addr (node a)) = true → (addr n == addr (node a)) = true → False := by
    apply (List.pairwise_map.mp nodup).imp
    intro m n differ first second
    simp only [beq_iff_eq] at first second
    exact differ (first.trans second.symm)
  have erased := perm.eraseP (fun n => addr n == addr (node a)) once
  rw [List.eraseP_map, eraseP_unique (a := a)] at erased
  · exact erased
  · intro x inside
    simp only [Function.comp_apply, beq_iff_eq]
    exact ⟨List.inj_on_of_nodup_map distinct inside member, fun same => by rw [same]⟩

/-- Replacing the one occurrence of `a` by `b`, as a permutation. -/
theorem map_update_perm [DecidableEq α] {l : List α} (nodup : l.Nodup) {a b : α}
    (member : a ∈ l) :
    (l.map fun x => if x = a then b else x).Perm (b :: l.erase a) := by
  have kept : (l.erase a).map (fun x => if x = a then b else x) = l.erase a := by
    rw [List.map_congr_left (g := id), List.map_id]
    intro x hx
    have differs : x ≠ a := fun same => nodup.not_mem_erase (same ▸ hx)
    rw [if_neg differs, id]
  have moved := (List.perm_cons_erase member).map fun x => if x = a then b else x
  rwa [List.map_cons, if_pos rfl, kept] at moved

theorem map_fixed {l : List α} {f : α → α} (fixed : ∀ a ∈ l, f a = a) : l.map f = l :=
  (List.map_congr_left fixed).trans (List.map_id l)

theorem eq_of_map_eq {β : Type} {f : α → β} {l l' : List α}
    (injective : ∀ a ∈ l, ∀ b ∈ l', f a = f b → a = b) (same : l.map f = l'.map f) : l = l' := by
  induction l generalizing l' with
  | nil => exact (List.map_eq_nil_iff.mp same.symm).symm
  | cons a l ih =>
      obtain ⟨b, rest, rfl, head, tail⟩ := List.map_eq_cons_iff.mp same.symm
      rw [injective a List.mem_cons_self b List.mem_cons_self head.symm]
      congr 1
      refine ih (fun x listed y listed' => ?_) tail.symm
      exact injective x (List.mem_cons_of_mem a listed) y (List.mem_cons_of_mem b listed')

theorem rel_map {α β γ δ : Type} {R : α → β → Prop} {S : γ → δ → Prop} {a : Option α}
    {b : Option β} (rel : Option.Rel R a b) {f : α → γ} {g : β → δ}
    (related : ∀ x y, R x y → S (f x) (g y)) : Option.Rel S (a.map f) (b.map g) := by
  cases rel with
  | none => exact .none
  | some same => exact .some (related _ _ same)

end Lists
