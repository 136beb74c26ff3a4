import Mathlib.Data.List.Forall2

set_option autoImplicit false

/- Computations in `Except`: how a sequence of them returns or faults. -/
namespace Fallible

variable {ε α β : Type}
  {first : Except ε α} {second : Except ε β} {items : List α} {f : α → Except ε β}

@[simp] theorem ok_bind (value : α) (next : α → Except ε β) :
    (Except.ok value >>= next) = next value := rfl

@[simp] theorem error_bind (fault : ε) (next : α → Except ε β) :
    (Except.error fault >>= next) = .error fault := rfl

@[simp] theorem pure_eq_ok (value : α) : (pure value : Except ε α) = .ok value := rfl

theorem bind_eq_ok {next : α → Except ε β} {result : β} :
    (first >>= next) = .ok result ↔ ∃ value, first = .ok value ∧ next value = .ok result := by
  cases first with
  | error fault => simp only [error_bind, reduceCtorEq, false_and, exists_false]
  | ok value => simp only [ok_bind, Except.ok.injEq, exists_eq_left']

theorem map_eq_ok {x : Except ε α} {f : α → β} {b : β} :
    x.map f = .ok b ↔ ∃ a, x = .ok a ∧ f a = b := by
  cases x with
  | error fault => simp only [Except.map, reduceCtorEq, false_and, exists_false]
  | ok a => simp only [Except.map, Except.ok.injEq, exists_eq_left']

/-- A computation either returns or faults. -/
theorem ok_or_error (computation : Except ε α) :
    (∃ value, computation = .ok value) ∨ ∃ fault, computation = .error fault := by
  cases computation with
  | error fault => exact Or.inr ⟨fault, rfl⟩
  | ok value => exact Or.inl ⟨value, rfl⟩

/-- A computation that returns, computed. -/
theorem ok_checked {computation : Except ε α} {check : α → Prop} [DecidablePred check]
    (checked : (computation.toOption.any fun value => decide (check value)) = true) :
    ∃ value, computation = .ok value ∧ check value := by
  cases computation with
  | error fault => cases checked
  | ok value => exact ⟨value, rfl, of_decide_eq_true checked⟩

theorem mapM_eq_ok {results : List β} :
    items.mapM f = .ok results ↔ List.Forall₂ (fun item result => f item = .ok result)
      items results := by
  induction items generalizing results with
  | nil =>
      simp only [List.mapM_nil, pure_eq_ok, Except.ok.injEq, List.forall₂_nil_left_iff]
      exact eq_comm
  | cons item items ih =>
      rw [List.mapM_cons, List.forall₂_cons_left_iff]
      simp only [bind_eq_ok, ih, pure_eq_ok, Except.ok.injEq]
      constructor
      · rintro ⟨first, head, rest, tail, rfl⟩
        exact ⟨first, rest, head, tail, rfl⟩
      · rintro ⟨first, rest, head, tail, rfl⟩
        exact ⟨first, head, rest, tail, rfl⟩

theorem bind_error_iff {next : α → Except ε β} :
    (∃ fault, (first >>= next) = .error fault) ↔
      (∃ fault, first = .error fault) ∨
        ∃ value, first = .ok value ∧ ∃ fault, next value = .error fault := by
  cases first with
  | error fault => simp only [error_bind, Except.error.injEq, exists_eq', reduceCtorEq, false_and,
      exists_false, or_false]
  | ok value => simp only [ok_bind, reduceCtorEq, exists_false, Except.ok.injEq, exists_eq_left',
      false_or]

/-- Of two computations in sequence one has to fault for the sequence to fault. -/
theorem seq_error_iff {γ : Type} (combine : α → β → γ) :
    (∃ fault, (do
      let a ← first
      let b ← second
      return combine a b) = .error fault) ↔
      (∃ fault, first = .error fault) ∨ ∃ fault, second = .error fault := by
  cases first with
  | error fault => simp only [error_bind, Except.error.injEq, exists_eq', true_or]
  | ok a =>
      cases second with
      | error fault => simp only [ok_bind, error_bind, Except.error.injEq, exists_eq', or_true]
      | ok b => simp only [ok_bind, pure_eq_ok, reduceCtorEq, exists_false, or_self]

/-- A traversal that returns maps its items one by one. -/
theorem mapM_pointwise (missing : β) {results : List β} (returned : items.mapM f = .ok results) :
    (∀ item ∈ items, f item = .ok ((f item).toOption.getD missing)) ∧
      results = items.map fun item => (f item).toOption.getD missing := by
  have each := mapM_eq_ok.mp returned
  clear returned
  induction each with
  | nil => exact ⟨fun _ member => absurd member List.not_mem_nil, rfl⟩
  | cons head _ ih =>
      constructor
      · intro item member
        rcases List.mem_cons.mp member with rfl | later
        · rw [head]
          rfl
        · exact ih.1 item later
      · rw [List.map_cons, ← ih.2, head]
        rfl

theorem mapM_congr {f g : α → Except ε β} (same : ∀ item ∈ items, f item = g item) :
    items.mapM f = items.mapM g := by
  induction items with
  | nil => rfl
  | cons item items ih =>
      rw [List.mapM_cons, List.mapM_cons, same item List.mem_cons_self,
        ih fun other member => same other (List.mem_cons_of_mem item member)]

/-- A traversal faults exactly when one of its items does. -/
theorem mapM_error_iff :
    (∃ fault, items.mapM f = .error fault) ↔ ∃ item ∈ items, ∃ fault, f item = .error fault := by
  induction items with
  | nil => simp only [List.mapM_nil, pure_eq_ok, reduceCtorEq, exists_false, List.not_mem_nil,
      false_and]
  | cons item items ih =>
      rw [List.mapM_cons]
      simp only [List.mem_cons, exists_eq_or_imp]
      cases head : f item with
      | error fault => simp only [error_bind, Except.error.injEq, exists_eq', true_or]
      | ok first =>
          simp only [ok_bind, reduceCtorEq, exists_false, false_or]
          rw [← ih]
          cases items.mapM f with
          | error fault => simp only [error_bind, Except.error.injEq, exists_eq']
          | ok rest => simp only [ok_bind, pure_eq_ok, reduceCtorEq, exists_false]

/-- The computation ends in a fault. -/
def Raises (computation : Except ε α) : Prop := ∃ fault, computation = .error fault

@[simp] theorem not_raises_ok (value : α) : ¬ Raises (Except.ok value : Except ε α) := nofun

@[simp] theorem raises_error (fault : ε) : Raises (Except.error fault : Except ε α) := ⟨fault, rfl⟩

theorem not_raises_iff {computation : Except ε α} :
    ¬ Raises computation ↔ ∃ value, computation = .ok value := by
  cases computation with
  | error fault => simp only [raises_error, not_true_eq_false, reduceCtorEq, exists_false]
  | ok value => simp only [not_raises_ok, not_false_eq_true, Except.ok.injEq, exists_eq']

theorem raises_bind {next : α → Except ε β} :
    Raises (first >>= next) ↔ Raises first ∨ ∃ value, first = .ok value ∧ Raises (next value) :=
  bind_error_iff

/-- What is done with the result of a computation after it cannot fault. -/
@[simp] theorem raises_bind_ok {next : α → β} :
    Raises (first >>= fun value => .ok (next value)) ↔ Raises first := by
  rw [raises_bind]
  simp only [not_raises_ok, and_false, exists_false, or_false]

@[simp] theorem raises_map {next : α → β} : Raises (first.map next) ↔ Raises first := by
  cases first with
  | error fault => exact ⟨fun _ => raises_error fault, fun _ => raises_error fault⟩
  | ok value => exact ⟨fun raised => absurd raised (not_raises_ok _), fun raised =>
      absurd raised (not_raises_ok _)⟩

theorem raises_mapM : Raises (items.mapM f) ↔ ∃ item ∈ items, Raises (f item) :=
  mapM_error_iff

/-- Two computations that fault together, or return related values. -/
inductive Parallel (R : α → β → Prop) : Except ε α → Except ε β → Prop where
  | error (fault fault' : ε) : Parallel R (.error fault) (.error fault')
  | ok {a : α} {b : β} (related : R a b) : Parallel R (.ok a) (.ok b)

namespace Parallel

variable {γ δ : Type} {R : α → β → Prop} {S : γ → δ → Prop}

theorem refl {R : α → α → Prop} (same : ∀ a, R a a) (computation : Except ε α) :
    Parallel R computation computation := by
  cases computation with
  | error fault => exact .error fault fault
  | ok a => exact .ok (same a)

theorem of_raises (both : Raises first ↔ Raises second) :
    Parallel (fun _ _ => True) first second := by
  cases first with
  | error fault =>
      obtain ⟨fault', rfl⟩ := both.mp (raises_error fault)
      exact .error fault fault'
  | ok a =>
      obtain ⟨b, rfl⟩ := not_raises_iff.mp (both.not.mp (not_raises_ok a))
      exact .ok trivial

theorem bind (runs : Parallel R first second) {next : α → Except ε γ} {next' : β → Except ε δ}
    (nexts : ∀ a b, R a b → Parallel S (next a) (next' b)) :
    Parallel S (first >>= next) (second >>= next') := by
  cases runs with
  | error fault fault' => exact .error fault fault'
  | ok related => exact nexts _ _ related

theorem bind_same {next : α → Except ε γ} {next' : α → Except ε δ}
    (nexts : ∀ a, Parallel S (next a) (next' a)) :
    Parallel S (first >>= next) (first >>= next') := by
  cases first with
  | error fault => exact .error fault fault
  | ok a => exact nexts a

theorem map (runs : Parallel R first second) {f : α → γ} {g : β → δ}
    (related : ∀ a b, R a b → S (f a) (g b)) : Parallel S (first.map f) (second.map g) := by
  cases runs with
  | error fault fault' => exact .error fault fault'
  | ok same => exact .ok (related _ _ same)

theorem returns (runs : Parallel R first second) {b : β} (returned : second = .ok b) :
    ∃ a, first = .ok a ∧ R a b := by
  cases runs with
  | error fault fault' => cases returned
  | ok related =>
      cases returned
      exact ⟨_, rfl, related⟩

theorem returns_left (runs : Parallel R first second) {a : α} (returned : first = .ok a) :
    ∃ b, second = .ok b ∧ R a b := by
  cases runs with
  | error fault fault' => cases returned
  | ok related =>
      cases returned
      exact ⟨_, rfl, related⟩

end Parallel

end Fallible
