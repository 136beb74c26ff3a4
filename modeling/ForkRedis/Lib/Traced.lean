import ForkRedis.Lib.Fallible

set_option autoImplicit false

/- Computations next to the accesses they make, those before a failure included. -/

/-- What a computation came to, and what it touched on the way, in order. -/
structure Traced (τ ε α : Type) where
  trace : List τ
  result : Except ε α

namespace Traced

variable {τ ε α β γ : Type}

/-- A computation that touches nothing. -/
def lift (result : Except ε α) : Traced τ ε α := ⟨[], result⟩

/-- One access, and what is found there. -/
def access (place : τ) (found : Except ε α) : Traced τ ε α := ⟨[place], found⟩

/-- What comes behind a failure is not run. -/
def andThen (first : Traced τ ε α) (next : α → Traced τ ε β) : Traced τ ε β :=
  match first.result with
  | .error fault => ⟨first.trace, .error fault⟩
  | .ok value => ⟨first.trace ++ (next value).trace, (next value).result⟩

instance : Monad (Traced τ ε) where
  pure value := lift (.ok value)
  bind := andThen

variable {allowed : τ → Prop}

/-- A computation comes to what one without accesses comes to, and every access it makes is
one that is allowed. -/
structure Follows (allowed : τ → Prop) (traced : Traced τ ε α) (plain : Except ε α) : Prop where
  result : traced.result = plain
  accesses : ∀ place ∈ traced.trace, allowed place

namespace Follows

theorem lift (plain : Except ε α) : Follows allowed (lift plain) plain :=
  ⟨rfl, fun _ touched => absurd touched List.not_mem_nil⟩

theorem pure (value : α) : Follows allowed (Pure.pure value) (.ok value : Except ε α) :=
  Follows.lift _

theorem access {place : τ} (inside : allowed place) (found : Except ε α) :
    Follows allowed (access place found) found := by
  refine ⟨rfl, fun other touched => ?_⟩
  rw [List.mem_singleton.mp touched]
  exact inside

theorem bind {first : Traced τ ε α} {next : α → Traced τ ε β} {plain : Except ε α}
    {plainNext : α → Except ε β} (start : Follows allowed first plain)
    (rest : ∀ value, plain = .ok value → Follows allowed (next value) (plainNext value)) :
    Follows allowed (first >>= next) (plain >>= plainNext) := by
  obtain ⟨rfl, inside⟩ := start
  change Follows allowed (andThen first next) _
  rw [andThen]
  cases came : first.result with
  | error fault => exact ⟨rfl, inside⟩
  | ok value =>
      have later := rest value came
      refine ⟨later.result, fun place touched => ?_⟩
      rcases List.mem_append.mp touched with early | late
      · exact inside place early
      · exact later.accesses place late

/-- A start that is known to return. -/
theorem bind_ok {first : Traced τ ε α} {next : α → Traced τ ε β} {value : α} {plain : Except ε β}
    (start : Follows allowed first (.ok value)) (rest : Follows allowed (next value) plain) :
    Follows allowed (first >>= next) plain := by
  have both : Follows allowed (first >>= next) (.ok value >>= fun _ => plain) := by
    refine bind start fun other same => ?_
    cases same
    exact rest
  exact both

end Follows

end Traced
