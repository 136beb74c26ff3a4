import ForkRedis.Lib.Fallible

set_option autoImplicit false

/- Loops whose rounds can fault: a rule for their total correctness. -/
namespace Loop

open Fallible

variable {ε σ α : Type}

/-- So many rounds of a loop, each of which goes on with a state or leaves with a result. -/
def run (endless : ε) (round : σ → Except ε (σ ⊕ α)) : Nat → σ → Except ε α
  | 0, _ => .error endless
  | rounds + 1, state =>
      match round state with
      | .error fault => .error fault
      | .ok (.inl next) => run endless round rounds next
      | .ok (.inr result) => .ok result

/-- A loop that keeps an invariant and brings down a measure in each round it goes on from
returns what its rounds do not change. -/
theorem run_eq {endless : ε} {round : σ → Except ε (σ ⊕ α)} (invariant : σ → Prop)
    (measure : σ → Nat) (result : σ → α)
    (step : ∀ state, invariant state → round state = .ok (.inr (result state)) ∨
      ∃ next, round state = .ok (.inl next) ∧ invariant next ∧ measure next < measure state ∧
        result next = result state)
    {rounds : Nat} {state : σ} (start : invariant state) (enough : measure state < rounds) :
    run endless round rounds state = .ok (result state) := by
  induction rounds generalizing state with
  | zero => exact absurd enough (Nat.not_lt_zero _)
  | succ rounds ih =>
      rw [run]
      rcases step state start with left | ⟨next, goes, kept, smaller, same⟩
      · rw [left]
      · rw [goes]
        show run endless round rounds next = _
        rw [ih kept (by omega), same]

end Loop
