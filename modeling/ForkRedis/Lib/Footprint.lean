import Mathlib.Data.Set.Lattice
import Mathlib.Order.CompletePartialOrder

set_option autoImplicit false

/- Operations on a state that is looked at place by place: the places an operation reads,
those it writes, and when two operations commute. -/
namespace Footprint

variable {σ κ ν ε ρ : Type}

/-- On the given states an operation changes no place but those it writes, and its answer
and what it writes depend on the places it reads only. -/
structure Within (states : Set σ) (look : σ → κ → ν) (reads writes : Set κ)
    (operation : σ → Except ε (σ × ρ)) : Prop where
  covered : writes ⊆ reads
  stays : ∀ {s s' answer}, s ∈ states → operation s = .ok (s', answer) → s' ∈ states
  frame : ∀ {s s' answer}, s ∈ states → operation s = .ok (s', answer) →
    ∀ k ∉ writes, look s' k = look s k
  depends : ∀ {s t s' answer}, s ∈ states → t ∈ states → (∀ k ∈ reads, look s k = look t k) →
    operation s = .ok (s', answer) →
      ∃ t', operation t = .ok (t', answer) ∧ ∀ k ∈ writes, look t' k = look s' k

variable {states : Set σ} {look : σ → κ → ν} {reads writes reads' writes' : Set κ}
  {first second : σ → Except ε (σ × ρ)}

/-- Operations of which neither writes what the other reads can be exchanged: the other order
returns as well, with the same answers and the same places. -/
theorem Within.commute (one : Within states look reads writes first)
    (other : Within states look reads' writes' second) (apart : Disjoint writes reads')
    (apart' : Disjoint writes' reads) {s s₁ s₂ : σ} {answer answer' : ρ} (start : s ∈ states)
    (ran : first s = .ok (s₁, answer)) (then_ : second s₁ = .ok (s₂, answer')) :
    ∃ t₁ t₂, second s = .ok (t₁, answer') ∧ first t₁ = .ok (t₂, answer) ∧
      t₂ ∈ states ∧ s₂ ∈ states ∧ ∀ k, look t₂ k = look s₂ k := by
  have between := one.stays start ran
  obtain ⟨t₁, early, written'⟩ := other.depends between start
    (fun k read => one.frame start ran k fun write => apart.notMem_of_mem_left write read) then_
  have between' := other.stays start early
  obtain ⟨t₂, late, written⟩ := one.depends start between'
    (fun k read => (other.frame start early k fun write =>
      apart'.notMem_of_mem_left write read).symm) ran
  refine ⟨t₁, t₂, early, late, one.stays between' late, other.stays between then_, fun k => ?_⟩
  by_cases mine : k ∈ writes
  · have notYours : k ∉ writes' := fun yours =>
      apart.notMem_of_mem_left mine (other.covered yours)
    rw [written k mine, other.frame between then_ k notYours]
  · rw [one.frame between' late k mine]
    by_cases yours : k ∈ writes'
    · exact written' k yours
    · rw [other.frame start early k yours, other.frame between then_ k yours,
        one.frame start ran k mine]

end Footprint
