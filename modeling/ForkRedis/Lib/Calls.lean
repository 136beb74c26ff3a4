import ForkRedis.Lib.Fallible

set_option autoImplicit false

/- A computation that works on an object by calling its methods. Each call is atomic; what
is between two calls does not touch the object, and another thread may run there. -/

/-- The calls a computation makes, one after the other. What it does next depends on what
the last method returned. -/
inductive Calls (σ ε ρ : Type) : Type 1 where
  | done (result : ρ)
  | fault (error : ε)
  | call {β : Type} (method : σ → Except ε (σ × β)) (next : β → Calls σ ε ρ)

namespace Calls

open Fallible

variable {σ τ ε ρ α γ : Type}

/-- All calls without interruption. -/
def run : Calls σ ε ρ → σ → Except ε (σ × ρ)
  | .done result, object => .ok (object, result)
  | .fault error, _ => .error error
  | .call method next, object => do
      let called ← method object
      (next called.2).run called.1

def bind : Calls σ ε α → (α → Calls σ ε ρ) → Calls σ ε ρ
  | .done result, after => after result
  | .fault error, _ => .fault error
  | .call method next, after => .call method fun returned => (next returned).bind after

/-- A computation of one call. -/
def method (called : σ → Except ε (σ × ρ)) : Calls σ ε ρ := .call called .done

/-- A computation that does not look at the object. -/
def lift : Except ε ρ → Calls σ ε ρ
  | .ok result => .done result
  | .error error => .fault error

/-- A loop over a list, with an accumulator. -/
def fold (round : γ → α → Calls σ ε γ) : γ → List α → Calls σ ε γ
  | acc, [] => .done acc
  | acc, item :: items => (round acc item).bind fun next => fold round next items

/-- The results of a loop over a list. -/
def collect (round : α → Calls σ ε γ) : List α → Calls σ ε (List γ)
  | [] => .done []
  | item :: items => (round item).bind fun first =>
      (collect round items).bind fun rest => .done (first :: rest)

/-- The same calls on an object of which the one they are meant for is a part. -/
def focus (unwrap : τ → Except ε σ) (wrap : σ → τ) : Calls σ ε ρ → Calls τ ε ρ
  | .done result => .done result
  | .fault error => .fault error
  | .call method next =>
      .call (fun object => do
        let inner ← unwrap object
        let called ← method inner
        return (wrap called.1, called.2)) fun returned => (next returned).focus unwrap wrap

theorem run_bind (first : Calls σ ε α) (after : α → Calls σ ε ρ) (object : σ) :
    (first.bind after).run object =
      first.run object >>= fun ran => (after ran.2).run ran.1 := by
  induction first generalizing object with
  | done result => rfl
  | fault error => rfl
  | call method next ih =>
      rw [bind, run, run, bind_assoc]
      congr 1
      funext called
      exact ih called.2 called.1

@[simp] theorem run_method (m : σ → Except ε (σ × ρ)) (object : σ) :
    (method m).run object = m object := by
  rw [method, run]
  cases m object with
  | error fault => rfl
  | ok called => rfl

@[simp] theorem run_lift (result : Except ε ρ) (object : σ) :
    (lift result).run object = result.map (Prod.mk object) := by
  cases result <;> rfl

theorem run_fold (round : γ → α → Calls σ ε γ) (items : List α) (acc : γ) (object : σ) :
    (fold round acc items).run object =
      items.foldlM (fun state item => (round state.2 item).run state.1) (object, acc) := by
  induction items generalizing acc object with
  | nil => rfl
  | cons item items ih =>
      rw [fold, run_bind, List.foldlM_cons]
      congr 1
      funext state
      exact ih state.2 state.1

/-- A loop of calls that cannot fail. -/
theorem run_fold_ok {round : γ → α → Calls σ ε γ} {step : σ × γ → α → σ × γ}
    (calls : ∀ state item, (round state.2 item).run state.1 = .ok (step state item))
    (items : List α) (acc : γ) (object : σ) :
    (fold round acc items).run object = .ok (items.foldl step (object, acc)) := by
  rw [run_fold]
  generalize (object, acc) = state
  induction items generalizing state with
  | nil => rfl
  | cons item items ih => rw [List.foldlM_cons, calls, ok_bind, ih, List.foldl_cons]

/-- A loop of calls that leave the object as it is. -/
theorem run_collect {round : α → Calls σ ε γ} {answer : α → Except ε γ} {object : σ}
    (reads : ∀ item, (round item).run object = (answer item).map (Prod.mk object))
    (items : List α) :
    (collect round items).run object = (items.mapM answer).map (Prod.mk object) := by
  induction items with
  | nil => rfl
  | cons item items ih =>
      rw [collect, run_bind, reads, List.mapM_cons]
      cases answer item with
      | error fault => rfl
      | ok first =>
          simp only [Except.map, ok_bind, run_bind, ih]
          cases items.mapM answer with
          | error fault => rfl
          | ok rest => rfl

theorem run_focus {unwrap : τ → Except ε σ} {wrap : σ → τ}
    (inverse : ∀ object, unwrap (wrap object) = .ok object) (calls : Calls σ ε ρ) (object : σ) :
    (calls.focus unwrap wrap).run (wrap object) =
      (calls.run object).map fun ran => (wrap ran.1, ran.2) := by
  induction calls generalizing object with
  | done result => rfl
  | fault error => rfl
  | call method next ih =>
      rw [focus, run, run, inverse, ok_bind]
      cases method object with
      | error fault => rfl
      | ok called => exact ih called.2 called.1

end Calls
