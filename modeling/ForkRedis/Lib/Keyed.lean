import Mathlib.Data.List.Perm.Basic
import Mathlib.Data.List.Nodup
import ForkRedis.Lib.Lists

set_option autoImplicit false

/- A hash container: elements with distinct keys, listed in some iteration order.
The order is an accident of the container, so results about contents are stated
through `find`. -/
namespace Lists

variable {α κ : Type}

/-- Elements in iteration order, no two with one key. -/
structure Keyed (key : α → κ) where
  items : List α
  distinct : (items.map key).Nodup

namespace Keyed

variable {key : α → κ}

def empty : Keyed key := ⟨[], List.nodup_nil⟩

theorem ext_items {m m' : Keyed key} (same : m.items = m'.items) : m = m' := by
  cases m
  cases m'
  cases same
  rfl

instance [DecidableEq α] : DecidableEq (Keyed key) := fun m m' =>
  decidable_of_iff (m.items = m'.items) ⟨ext_items, fun same => by rw [same]⟩

theorem eq_of_key (m : Keyed key) {a b : α} (ha : a ∈ m.items) (hb : b ∈ m.items)
    (same : key a = key b) : a = b :=
  List.inj_on_of_nodup_map m.distinct ha hb same

variable [DecidableEq κ]

variable {m m' : Keyed key} {a : α} {items : List α}

def find (m : Keyed key) (k : κ) : Option α := m.items.find? fun a => key a == k

theorem find_eq_some_iff (m : Keyed key) {k : κ} : m.find k = some a ↔ a ∈ m.items ∧ key a = k := by
  constructor
  · intro found
    have named := List.find?_some found
    exact ⟨List.mem_of_find?_eq_some found, beq_iff_eq.mp named⟩
  · rintro ⟨member, rfl⟩
    have named : (key a == key a) = true := beq_self_eq_true (key a)
    refine find?_unique (p := fun b => key b == key a) member named ?_
    intro b hb same
    exact m.eq_of_key hb member (beq_iff_eq.mp same)

theorem find_eq_none_iff (m : Keyed key) {k : κ} :
    m.find k = none ↔ ∀ a ∈ m.items, key a ≠ k := by
  simp only [find, List.find?_eq_none, beq_iff_eq]

theorem find_of_mem (m : Keyed key) (member : a ∈ m.items) : m.find (key a) = some a :=
  m.find_eq_some_iff.mpr ⟨member, rfl⟩

/-- Insertion leaves an element that is already there. -/
def insert (m : Keyed key) (a : α) : Keyed key :=
  if fresh : m.find (key a) = none then
    { items := a :: m.items
      distinct := by
        apply List.nodup_cons.mpr ⟨?_, m.distinct⟩
        intro inside
        obtain ⟨b, hb, same⟩ := List.mem_map.mp inside
        exact m.find_eq_none_iff.mp fresh b hb same }
  else m

/-- Erasure of the element with a key, if there is one. -/
def erase (m : Keyed key) (k : κ) : Keyed key where
  items := m.items.filter fun a => key a != k
  distinct := m.distinct.sublist (List.filter_sublist.map key)

/-- An edit in place of the element with a key. -/
def modify (m : Keyed key) (k : κ) (f : α → α) (keeps : ∀ a, key (f a) = key a) : Keyed key where
  items := m.items.map fun a => if key a = k then f a else a
  distinct := by
    rw [List.map_map, List.map_congr_left (g := key)]
    · exact m.distinct
    · intro a _
      simp only [Function.comp_apply]
      split
      · exact keeps a
      · rfl

@[simp] theorem find_empty (k : κ) : (empty : Keyed key).find k = none := rfl

theorem insert_of_fresh (fresh : m.find (key a) = none) : (m.insert a).items = a :: m.items := by
  rw [insert, dif_pos fresh]

theorem insert_of_found {a b : α} (found : m.find (key a) = some b) : m.insert a = m := by
  rw [insert, dif_neg (by rw [found]; exact Option.some_ne_none b)]

theorem find_insert (m : Keyed key) (a : α) (k : κ) :
    (m.insert a).find k =
      if key a = k then some ((m.find k).getD a) else m.find k := by
  cases found : m.find (key a) with
  | some b =>
      rw [insert_of_found found]
      split
      · rename_i same
        rw [← same, found, Option.getD_some]
      · rfl
  | none =>
      rw [find, insert_of_fresh found, List.find?_cons]
      by_cases same : key a = k
      · rw [← same, found, beq_self_eq_true, if_pos rfl, Option.getD_none]
      · rw [beq_eq_false_iff_ne.mpr same, if_neg same]
        rfl

theorem find_erase (m : Keyed key) (k k' : κ) :
    (m.erase k).find k' = if k = k' then none else m.find k' := by
  split
  · rename_i same
    subst same
    rw [find_eq_none_iff]
    intro a member
    simpa only [bne_iff_ne] using (List.mem_filter.mp member).2
  · rename_i differs
    apply Option.ext
    intro a
    simp only [find_eq_some_iff, erase, List.mem_filter, bne_iff_ne, ne_eq]
    constructor
    · rintro ⟨⟨member, -⟩, same⟩
      exact ⟨member, same⟩
    · rintro ⟨member, same⟩
      exact ⟨⟨member, fun equal => differs (equal.symm.trans same)⟩, same⟩

theorem items_erase_first {rest : List α} (listed : m.items = a :: rest) :
    (m.erase (key a)).items = rest := by
  have distinct := m.distinct
  rw [listed, List.map_cons, List.nodup_cons] at distinct
  have kept : rest.filter (fun b => key b != key a) = rest := by
    rw [List.filter_eq_self]
    intro b member
    rw [bne_iff_ne]
    exact fun same => distinct.1 (same ▸ List.mem_map_of_mem member)
  change m.items.filter (fun b => key b != key a) = rest
  rw [listed, List.filter_cons, bne_self_eq_false, if_neg Bool.false_ne_true, kept]

theorem find_modify (m : Keyed key) (k : κ) (f : α → α) (keeps : ∀ a, key (f a) = key a) (k' : κ) :
    (m.modify k f keeps).find k' = if k = k' then (m.find k').map f else m.find k' := by
  have keyed (a : α) : key (if key a = k then f a else a) = key a := by
    split
    · exact keeps a
    · rfl
  simp only [find, modify, List.find?_map]
  have search : ((fun a => key a == k') ∘ fun a => if key a = k then f a else a) =
      fun a => key a == k' := by
    funext a
    rw [Function.comp_apply, keyed]
  rw [search]
  cases found : m.items.find? fun a => key a == k' with
  | none => simp only [Option.map_none, ite_self]
  | some a =>
      have named := List.find?_some found
      have same : key a = k' := beq_iff_eq.mp named
      simp only [Option.map_some, same, eq_comm (a := k')]
      split <;> rfl

/-- An edit that changes nothing, be it that the key is not there. -/
theorem modify_fixed {k : κ} {f : α → α} (keeps : ∀ a, key (f a) = key a)
    (fixed : ∀ a, m.find k = some a → f a = a) : m.modify k f keeps = m := by
  apply ext_items
  apply map_fixed
  intro a member
  split
  · rename_i same
    exact fixed a (m.find_eq_some_iff.mpr ⟨member, same⟩)
  · rfl

theorem modify_modify (m : Keyed key) (k : κ) {f g : α → α} (keeps : ∀ a, key (f a) = key a)
    (keeps' : ∀ a, key (g a) = key a) (last : ∀ a, g (f a) = g a) :
    (m.modify k f keeps).modify k g keeps' = m.modify k g keeps' := by
  apply ext_items
  simp only [modify, List.map_map]
  apply List.map_congr_left
  intro a _
  by_cases same : key a = k
  · simp only [Function.comp_apply, if_pos same, keeps, last]
  · simp only [Function.comp_apply, if_neg same]

theorem erase_modify (m : Keyed key) (k k' : κ) {f : α → α} (keeps : ∀ a, key (f a) = key a) :
    (m.modify k f keeps).erase k' = (m.erase k').modify k f keeps := by
  apply ext_items
  simp only [modify, erase, List.filter_map]
  congr 2
  funext a
  simp only [Function.comp_apply]
  split
  · rw [keeps]
  · rfl

/-- A container filled in order; a later element with a key already there is dropped. -/
def ofList (items : List α) : Keyed key := items.foldl insert empty

theorem mem_insert {a b : α} (member : b ∈ (m.insert a).items) : b = a ∨ b ∈ m.items := by
  cases found : m.find (key a) with
  | none =>
      rw [insert_of_fresh found] at member
      exact List.mem_cons.mp member
  | some c =>
      rw [insert_of_found found] at member
      exact Or.inr member

theorem mem_foldl_insert {b : α} (member : b ∈ (items.foldl insert m).items) :
    b ∈ items ∨ b ∈ m.items := by
  induction items generalizing m with
  | nil => exact Or.inr member
  | cons a items ih =>
      rcases ih member with later | before
      · exact Or.inl (List.mem_cons_of_mem a later)
      · rcases mem_insert before with rfl | old
        · exact Or.inl List.mem_cons_self
        · exact Or.inr old

theorem mem_ofList {b : α} (member : b ∈ (ofList items : Keyed key).items) : b ∈ items :=
  (mem_foldl_insert member).resolve_right List.not_mem_nil

/-- With distinct keys nothing is dropped. -/
theorem foldl_insert_of_distinct (distinct : ((items ++ m.items).map key).Nodup) :
    (items.foldl insert m).items = items.reverse ++ m.items := by
  induction items generalizing m with
  | nil => rfl
  | cons a items ih =>
      have fresh : m.find (key a) = none := by
        rw [find_eq_none_iff]
        intro b member same
        rw [List.cons_append, List.map_cons, List.nodup_cons] at distinct
        rw [← same] at distinct
        exact distinct.1 (List.mem_map_of_mem (List.mem_append_right items member))
      have grown := insert_of_fresh fresh
      rw [List.foldl_cons, ih, grown, List.reverse_cons, List.append_assoc, List.singleton_append]
      rw [grown]
      refine (List.Perm.nodup_iff ?_).mp distinct
      rw [List.cons_append]
      exact (List.perm_middle.map key).symm

theorem ofList_perm (items : List α) (distinct : (items.map key).Nodup) :
    (ofList items : Keyed key).items.Perm items := by
  have filled := foldl_insert_of_distinct (m := (empty : Keyed key))
    (by rw [empty, List.append_nil]; exact distinct)
  rw [ofList, filled, empty, List.append_nil]
  exact items.reverse_perm

theorem length_insert_le (m : Keyed key) (a : α) :
    (m.insert a).items.length ≤ m.items.length + 1 := by
  cases found : m.find (key a) with
  | none => rw [insert_of_fresh found, List.length_cons]
  | some b =>
      rw [insert_of_found found]
      omega

theorem length_ofList_le (items : List α) :
    (ofList items : Keyed key).items.length ≤ items.length := by
  have general : ∀ m : Keyed key,
      (items.foldl insert m).items.length ≤ m.items.length + items.length := by
    induction items with
    | nil => exact fun m => Nat.le_refl _
    | cons a items ih =>
        intro m
        have rest := ih (m.insert a)
        have first := length_insert_le m a
        rw [List.foldl_cons, List.length_cons]
        omega
  have whole := general empty
  rwa [empty, List.length_nil, Nat.zero_add] at whole

/-- What is inserted later only fills what is missing. -/
theorem find_foldl_insert (items : List α) (m : Keyed key) (k : κ) :
    (items.foldl insert m).find k = (m.find k).or (items.find? fun a => key a == k) := by
  induction items generalizing m with
  | nil => exact (Option.or_none ..).symm
  | cons a items ih =>
      rw [List.foldl_cons, ih, find_insert, List.find?_cons]
      by_cases named : key a = k
      · rw [if_pos named, beq_iff_eq.mpr named]
        cases m.find k <;> rfl
      · rw [if_neg named, beq_eq_false_iff_ne.mpr named]

theorem find_ofList (items : List α) (k : κ) :
    (ofList items : Keyed key).find k = items.find? fun a => key a == k := by
  rw [ofList, find_foldl_insert, find_empty, Option.none_or]

theorem ofList_ne_nil (filled : items ≠ []) : (ofList items : Keyed key).items ≠ [] := by
  intro empty
  obtain ⟨a, member⟩ := List.exists_mem_of_ne_nil items filled
  have missing : items.find? (fun b => key b == key a) = none := by
    rw [← find_ofList items (key a), find, empty, List.find?_nil]
  exact List.find?_eq_none.mp missing a member (beq_self_eq_true (key a))

/-- Elements that are changed without their keys are inserted in the same places. -/
theorem items_ofList_map {β : Type} {key' : β → κ} (f : α → β) (keeps : ∀ a, key' (f a) = key a)
    (items : List α) :
    (ofList (items.map f) : Keyed key').items = (ofList items : Keyed key).items.map f := by
  have searched (m : Keyed key) (m' : Keyed key') (same : m'.items = m.items.map f) (k : κ) :
      m'.find k = (m.find k).map f := by
    rw [find, find, same, List.find?_map]
    congr 2
    funext a
    rw [Function.comp_apply, keeps]
  have general : ∀ (m : Keyed key) (m' : Keyed key'), m'.items = m.items.map f →
      ((items.map f).foldl insert m').items = (items.foldl insert m).items.map f := by
    induction items with
    | nil => exact fun m m' same => same
    | cons a items ih =>
        intro m m' same
        apply ih
        have found := searched m m' same (key a)
        cases there : m.find (key a) with
        | none =>
            rw [there, Option.map_none, ← keeps] at found
            rw [insert_of_fresh found, insert_of_fresh there, same, List.map_cons]
        | some b =>
            rw [there, Option.map_some, ← keeps] at found
            rw [insert_of_found found, insert_of_found there, same]
  exact general empty empty rfl

theorem find_of_perm (perm : m.items.Perm m'.items) (k : κ) : m.find k = m'.find k := by
  apply Option.ext
  intro a
  rw [find_eq_some_iff, find_eq_some_iff, perm.mem_iff]

theorem perm_of_find (same : ∀ k, m.find k = m'.find k) : m.items.Perm m'.items := by
  refine (List.perm_ext_iff_of_nodup (m.distinct.of_map key) (m'.distinct.of_map key)).mpr ?_
  intro a
  have found := congrArg (· = some a) (same (key a))
  simpa only [find_eq_some_iff, and_true, eq_iff_iff] using found

/-- A container rebuilt from elements that keep their keys. -/
theorem find_ofList_map {β : Type} {key' : β → κ} (m : Keyed key) (f : α → β)
    (keeps : ∀ a ∈ m.items, key' (f a) = key a) (k : κ) :
    (ofList (m.items.map f) : Keyed key').find k = (m.find k).map f := by
  have same : (m.items.map f).map key' = m.items.map key := by
    rw [List.map_map]
    exact List.map_congr_left keeps
  have perm := ofList_perm (m.items.map f) (same ▸ m.distinct)
  apply Option.ext
  intro b
  simp only [find_eq_some_iff, perm.mem_iff, List.mem_map, Option.map_eq_some_iff]
  constructor
  · rintro ⟨⟨a, member, rfl⟩, named⟩
    exact ⟨a, ⟨member, (keeps a member).symm.trans named⟩, rfl⟩
  · rintro ⟨a, ⟨member, named⟩, rfl⟩
    exact ⟨⟨a, member, rfl⟩, (keeps a member).trans named⟩

/-- Containers with related elements under the same keys, in whatever order. -/
def Alike (R : α → α → Prop) (m m' : Keyed key) : Prop :=
  ∀ k, Option.Rel R (m.find k) (m'.find k)

namespace Alike

variable {R : α → α → Prop} {m m' : Keyed key}

theorem refl (same : ∀ a, R a a) (m : Keyed key) : m.Alike R m := by
  intro k
  cases m.find k with
  | none => exact .none
  | some a => exact .some (same a)

theorem insert (alike : m.Alike R m') (same : R a a) : (m.insert a).Alike R (m'.insert a) := by
  intro k
  rw [find_insert, find_insert]
  split
  · have found := alike k
    generalize m.find k = first at found
    generalize m'.find k = second at found
    cases found with
    | none => exact .some same
    | some related => exact .some related
  · exact alike k

theorem erase (alike : m.Alike R m') (k : κ) : (m.erase k).Alike R (m'.erase k) := by
  intro k'
  rw [find_erase, find_erase]
  split
  · exact .none
  · exact alike k'

theorem modify (alike : m.Alike R m') (k : κ) {f g : α → α} (keeps : ∀ a, key (f a) = key a)
    (keeps' : ∀ a, key (g a) = key a) (related : ∀ a b, R a b → R (f a) (g b)) :
    (m.modify k f keeps).Alike R (m'.modify k g keeps') := by
  intro k'
  rw [find_modify, find_modify]
  split
  · exact rel_map (alike k') related
  · exact alike k'

end Alike

theorem alike_iff {R : α → α → Prop} :
    m.Alike R m' ↔ (∀ a ∈ m.items, ∃ b ∈ m'.items, key b = key a ∧ R a b) ∧
      ∀ b ∈ m'.items, ∃ a ∈ m.items, key a = key b := by
  constructor
  · intro alike
    constructor
    · intro a member
      have found := alike (key a)
      rw [m.find_of_mem member] at found
      generalize there : m'.find (key a) = other at found
      cases found with
      | some related =>
          obtain ⟨listed, same⟩ := m'.find_eq_some_iff.mp there
          exact ⟨_, listed, same, related⟩
    · intro b member
      have found := alike (key b)
      rw [m'.find_of_mem member] at found
      generalize there : m.find (key b) = other at found
      cases found with
      | some related =>
          obtain ⟨listed, same⟩ := m.find_eq_some_iff.mp there
          exact ⟨_, listed, same⟩
  · rintro ⟨forward, backward⟩ k
    cases found : m.find k with
    | none =>
        have absent : m'.find k = none := by
          rw [find_eq_none_iff]
          intro b member same
          obtain ⟨a, listed, equal⟩ := backward b member
          exact m.find_eq_none_iff.mp found a listed (equal.trans same)
        rw [absent]
        exact .none
    | some a =>
        obtain ⟨member, same⟩ := m.find_eq_some_iff.mp found
        obtain ⟨b, listed, equal, related⟩ := forward a member
        rw [m'.find_eq_some_iff.mpr ⟨listed, equal.trans same⟩]
        exact .some related

instance {R : α → α → Prop} [DecidableRel R] (m m' : Keyed key) : Decidable (m.Alike R m') :=
  decidable_of_iff _ alike_iff.symm

end Keyed

end Lists
