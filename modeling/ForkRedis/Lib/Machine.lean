import Mathlib.Data.Option.Basic

set_option autoImplicit false

/- Machines that are driven by events: a function gives the state after an event, if the
event can happen at all. Threads that interleave are one machine whose events are the
steps of each. -/
namespace Machine

universe u v

variable {State : Type u} {Event : Type v} (next : State → Event → Option State)

/-- The state after some events. -/
def run : State → List Event → Option State
  | state, [] => some state
  | state, event :: events => (next state event).bind fun after => run after events

/-- The states a run goes through, the first and the last among them. -/
def visited : State → List Event → List State
  | state, [] => [state]
  | state, event :: events => state :: (next state event).elim [] fun after => visited after events

/-- Every event of a run meets a condition in the state it happens in. -/
def Meets (condition : State → Event → Prop) : State → List Event → Prop
  | _, [] => True
  | state, event :: events =>
      condition state event ∧ ∀ after ∈ next state event, Meets condition after events

instance decidableMeets (condition : State → Event → Prop)
    [∀ state event, Decidable (condition state event)] :
    (state : State) → (events : List Event) → Decidable (Meets next condition state events)
  | _, [] => inferInstanceAs (Decidable True)
  | state, event :: events =>
      have _ := fun after => decidableMeets condition after events
      inferInstanceAs (Decidable (condition state event ∧
        ∀ after ∈ next state event, Meets next condition after events))

variable {next}

theorem mem_visited_start (state : State) (events : List Event) :
    state ∈ visited next state events := by
  cases events <;> exact List.mem_cons_self

theorem mem_visited_append {state middle : State} {events later : List Event}
    (ran : run next state events = some middle) : middle ∈ visited next state (events ++ later) := by
  induction events generalizing state with
  | nil =>
      cases ran
      exact mem_visited_start middle later
  | cons event events ih =>
      obtain ⟨after, stepped, rest⟩ := Option.bind_eq_some_iff.mp ran
      rw [List.cons_append, visited, stepped]
      exact List.mem_cons_of_mem _ (ih rest)

theorem visited_subset_append (state : State) (events later : List Event) :
    visited next state events ⊆ visited next state (events ++ later) := by
  induction events generalizing state with
  | nil =>
      intro reached there
      rw [List.mem_singleton.mp there]
      exact mem_visited_start state later
  | cons event events ih =>
      rw [List.cons_append, visited, visited]
      apply List.cons_subset_cons
      cases next state event with
      | none => exact List.Subset.refl []
      | some after => exact ih after

theorem later_subset_visited {state middle : State} {events : List Event}
    (ran : run next state events = some middle) (later : List Event) :
    visited next middle later ⊆ visited next state (events ++ later) := by
  induction events generalizing state with
  | nil =>
      cases ran
      exact List.Subset.refl _
  | cons event events ih =>
      obtain ⟨after, stepped, rest⟩ := Option.bind_eq_some_iff.mp ran
      rw [List.cons_append, visited, stepped]
      exact List.subset_cons_of_subset state (ih rest)

theorem run_append (state : State) (events later : List Event) :
    run next state (events ++ later) =
      (run next state events).bind fun middle => run next middle later := by
  induction events generalizing state with
  | nil => rfl
  | cons event events ih => simp only [List.cons_append, run, Option.bind_assoc, ih]

/-- A run on given events, computed. -/
theorem run_checked {state : State} {events : List Event} {check : State → Prop}
    [DecidablePred check]
    (checked : ((run next state events).any fun final => decide (check final)) = true) :
    ∃ final, run next state events = some final ∧ check final := by
  rw [Option.any_eq_true] at checked
  obtain ⟨final, ran, checks⟩ := checked
  exact ⟨final, ran, of_decide_eq_true checks⟩

theorem meets_cons {condition : State → Event → Prop} {state after : State} {event : Event}
    {events : List Event} (met : condition state event) (stepped : next state event = some after)
    (later : Meets next condition after events) : Meets next condition state (event :: events) := by
  refine ⟨met, fun other same => ?_⟩
  rw [Option.mem_def, stepped] at same
  cases same
  exact later

theorem meets_congr {condition other : State → Event → Prop}
    (same : ∀ state event, condition state event ↔ other state event) (state : State)
    (events : List Event) :
    Meets next condition state events ↔ Meets next other state events := by
  induction events generalizing state with
  | nil => exact Iff.rfl
  | cons event events ih =>
      rw [Meets, Meets, same state event]
      simp only [ih]

/-- What every step that meets the condition keeps, a run that meets it keeps. -/
theorem run_keeps {condition : State → Event → Prop} (keep : State → Prop)
    (step : ∀ state event after, keep state → condition state event →
      next state event = some after → keep after) :
    ∀ {state final : State} {events : List Event}, keep state → Meets next condition state events →
      run next state events = some final → keep final := by
  intro state final events start meets ran
  induction events generalizing state with
  | nil =>
      cases ran
      exact start
  | cons event events ih =>
      obtain ⟨after, stepped, later⟩ := Option.bind_eq_some_iff.mp ran
      exact ih (step state event after start meets.1 stepped) (meets.2 after stepped) later

/-- What every step keeps, a run keeps. -/
theorem run_preserves (keep : State → Prop)
    (step : ∀ state event after, keep state → next state event = some after → keep after)
    {state final : State} {events : List Event} (start : keep state)
    (ran : run next state events = some final) : keep final := by
  have meets : ∀ (events : List Event) state, Meets next (fun _ _ => True) state events := by
    intro events
    induction events with
    | nil => exact fun _ => trivial
    | cons event events ih => exact fun _ => ⟨trivial, fun after _ => ih after⟩
  exact run_keeps keep (fun state event after kept _ => step state event after kept) start
    (meets events state) ran

/-- What every step keeps holds in each state a run goes through. -/
theorem visited_preserves (keep : State → Prop)
    (step : ∀ state event after, keep state → next state event = some after → keep after)
    {state : State} {events : List Event} (start : keep state) :
    ∀ reached ∈ visited next state events, keep reached := by
  induction events generalizing state with
  | nil =>
      intro reached there
      rw [List.mem_singleton.mp there]
      exact start
  | cons event events ih =>
      intro reached there
      rw [visited] at there
      rcases List.mem_cons.mp there with rfl | there
      · exact start
      · cases stepped : next state event with
        | none =>
            rw [stepped] at there
            cases there
        | some after =>
            rw [stepped] at there
            exact ih (step state event after start stepped) reached there

/-- Where a step leads from good states to good ones exactly when it meets the condition,
a run stays in good states exactly when all its steps do. -/
theorem visited_iff {condition : State → Event → Prop} (keep good : State → Prop)
    (keeps : ∀ state event after, keep state → next state event = some after → keep after)
    (step : ∀ state event after, keep state → next state event = some after →
      (good after ↔ condition state event))
    {state final : State} {events : List Event} (kept : keep state) (start : good state)
    (ran : run next state events = some final) :
    (∀ reached ∈ visited next state events, good reached) ↔ Meets next condition state events := by
  induction events generalizing state with
  | nil =>
      refine ⟨fun _ => trivial, fun _ reached there => ?_⟩
      rw [List.mem_singleton.mp there]
      exact start
  | cons event events ih =>
      obtain ⟨after, stepped, later⟩ := Option.bind_eq_some_iff.mp ran
      have first := step state event after kept stepped
      have rest := fun safe => ih (keeps state event after kept stepped) safe later
      constructor
      · intro stays
        rw [visited, stepped] at stays
        have safe : good after :=
          stays after (List.mem_cons_of_mem _ (mem_visited_start after events))
        refine meets_cons (first.mp safe) stepped ((rest safe).mp fun reached there => ?_)
        exact stays reached (List.mem_cons_of_mem _ there)
      · intro meets reached there
        rw [visited, stepped] at there
        rcases List.mem_cons.mp there with rfl | there
        · exact start
        · exact (rest (first.mpr meets.1)).mpr (meets.2 after stepped) reached there

/-- What every step keeps of the events so far and the state, a run keeps. -/
theorem run_traces (keep : List Event → State → Prop)
    (step : ∀ past state event after, keep past state → next state event = some after →
      keep (past ++ [event]) after)
    {state final : State} {past events : List Event} (start : keep past state)
    (ran : run next state events = some final) : keep (past ++ events) final := by
  induction events generalizing state past with
  | nil =>
      cases ran
      rwa [List.append_nil]
  | cons event events ih =>
      obtain ⟨after, stepped, later⟩ := Option.bind_eq_some_iff.mp ran
      have kept := ih (step past state event after start stepped) later
      rwa [List.append_assoc] at kept

/-- What is known of a state and the states before it, and what every step keeps of that. -/
theorem run_recalls (keep : List State → State → Prop)
    (grows : ∀ {moments more state}, moments ⊆ more → keep moments state → keep more state)
    (step : ∀ moments state event after, state ∈ moments → keep moments state →
      next state event = some after → keep moments after)
    {state final : State} {events : List Event} (start : keep [state] state)
    (ran : run next state events = some final) : keep (visited next state events) final := by
  have traced : run next state ([] ++ events) = some final ∧
      keep (visited next state ([] ++ events)) final := by
    refine run_traces (fun past now => run next state past = some now ∧
      keep (visited next state past) now) ?_ ⟨rfl, start⟩ ran
    rintro past now event after ⟨reached, kept⟩ stepped
    have there : now ∈ visited next state (past ++ [event]) := mem_visited_append reached
    refine ⟨?_, step _ now event after there
      (grows (visited_subset_append state past [event]) kept) stepped⟩
    rw [run_append, reached, Option.bind_some, run, stepped]
    rfl
  exact traced.2

end Machine
