import ForkRedis.Lib.Machine
import Mathlib.Data.List.Basic

set_option autoImplicit false

/- Threads that share two locks, a mutex and a lock with shared and exclusive holders, and
touch the second only while they have the first. -/
namespace Nested

open Machine

inductive Op where
  | acquireOuter
  | releaseOuter
  | acquireShared
  | releaseShared
  | acquireExclusive
  | releaseExclusive
  deriving DecidableEq, Repr

/-- How a thread has the inner lock. -/
inductive Mode where
  | none
  | shared
  | exclusive
  deriving DecidableEq, Repr

/-- What each thread has still to do, and who has the locks. -/
structure State where
  threads : List (List Op)
  outer : Option Nat
  shared : List Nat
  exclusive : Option Nat
  deriving DecidableEq, Repr

variable {state after : State} {thread : Nat} {op : Op} {rest : List Op}

def State.start (programs : List (List Op)) : State := ⟨programs, none, [], none⟩

/-- An operation does not block. -/
def State.admits (state : State) : Op → Bool
  | .acquireOuter => state.outer.isNone
  | .acquireShared => state.exclusive.isNone
  | .acquireExclusive => state.exclusive.isNone && state.shared.isEmpty
  | .releaseOuter | .releaseShared | .releaseExclusive => true

/-- What an operation of a thread does to the locks. -/
def State.grant (state : State) (thread : Nat) : Op → State
  | .acquireOuter => { state with outer := some thread }
  | .releaseOuter => { state with outer := none }
  | .acquireShared => { state with shared := thread :: state.shared }
  | .releaseShared => { state with shared := state.shared.erase thread }
  | .acquireExclusive => { state with exclusive := some thread }
  | .releaseExclusive => { state with exclusive := none }

/-- The events are the threads that take their next step. -/
def next (state : State) (thread : Nat) : Option State :=
  match state.threads[thread]? with
  | some (op :: rest) =>
      if state.admits op then
        some { state.grant thread op with threads := state.threads.set thread rest }
      else none
  | _ => none

/-- A thread is not finished, and none can take a step. -/
def Deadlocked (state : State) : Prop :=
  (∃ ops ∈ state.threads, ops ≠ []) ∧ ∀ thread < state.threads.length, next state thread = none

instance (state : State) : Decidable (Deadlocked state) :=
  inferInstanceAs (Decidable (_ ∧ _))

/-- A program that starts with these locks in hand takes the inner lock, and gives it back,
only while it has the outer one, and ends with neither. -/
def Disciplined : Bool → Mode → List Op → Prop
  | outer, mode, [] => outer = false ∧ mode = .none
  | outer, mode, .acquireOuter :: rest => outer = false ∧ Disciplined true mode rest
  | outer, mode, .releaseOuter :: rest => outer = true ∧ Disciplined false mode rest
  | outer, mode, .acquireShared :: rest =>
      outer = true ∧ mode = .none ∧ Disciplined true .shared rest
  | outer, mode, .releaseShared :: rest =>
      outer = true ∧ mode = .shared ∧ Disciplined true .none rest
  | outer, mode, .acquireExclusive :: rest =>
      outer = true ∧ mode = .none ∧ Disciplined true .exclusive rest
  | outer, mode, .releaseExclusive :: rest =>
      outer = true ∧ mode = .exclusive ∧ Disciplined true .none rest

/-- How the state has it that a thread holds the inner lock. -/
def State.mode (state : State) (thread : Nat) : Mode :=
  if state.exclusive = some thread then .exclusive
  else if thread ∈ state.shared then .shared
  else .none

theorem State.mode_eq_exclusive_iff :
    state.mode thread = .exclusive ↔ state.exclusive = some thread := by
  unfold mode
  split
  · simp_all
  · split <;> simp_all

theorem State.mode_eq_none_iff :
    state.mode thread = .none ↔ state.exclusive ≠ some thread ∧ thread ∉ state.shared := by
  unfold mode
  split
  · simp_all
  · split <;> simp_all

theorem State.mode_eq_shared_iff :
    state.mode thread = .shared ↔ state.exclusive ≠ some thread ∧ thread ∈ state.shared := by
  unfold State.mode
  split
  · simp_all
  · split <;> simp_all

theorem State.mode_congr {state other : State}
    (exclusive : state.exclusive = some thread ↔ other.exclusive = some thread)
    (shared : thread ∈ state.shared ↔ thread ∈ other.shared) :
    state.mode thread = other.mode thread :=
  if_congr exclusive rfl (if_congr shared rfl rfl)

/-- Every thread is where its program says it is, and an exclusive holder is alone. -/
structure Consistent (state : State) : Prop where
  programs : ∀ thread ops, state.threads[thread]? = some ops →
    Disciplined (decide (state.outer = some thread)) (state.mode thread) ops
  present : ∀ thread, state.outer = some thread → thread < state.threads.length
  distinct : state.shared.Nodup
  alone : state.exclusive ≠ none → state.shared = []

/-- Everything a step of a thread can do. -/
structure Step (state : State) (thread : Nat) (op : Op) (rest : List Op) (after : State) :
    Prop where
  current : state.threads[thread]? = some (op :: rest)
  admitted : state.admits op = true
  same : after = { state.grant thread op with threads := state.threads.set thread rest }

theorem next_step (stepped : next state thread = some after) :
    ∃ op rest, Step state thread op rest after := by
  unfold next at stepped
  split at stepped
  · rename_i op rest current
    split at stepped
    · rename_i admitted
      exact ⟨op, rest, current, admitted, (Option.some.inj stepped).symm⟩
    · cases stepped
  · cases stepped

theorem next_eq_none_iff (current : state.threads[thread]? = some (op :: rest)) :
    next state thread = none ↔ state.admits op = false := by
  simp only [next, current]
  split
  · simp_all
  · simp_all

/-- The flags of a thread before one of its operations, and after it. -/
theorem Disciplined.uncons {outer : Bool} {mode : Mode}
    (disciplined : Disciplined outer mode (op :: rest)) :
    (op = .acquireOuter ∧ outer = false ∧ Disciplined true mode rest) ∨
      outer = true ∧
        ((op = .releaseOuter ∧ Disciplined false mode rest) ∨
          (op = .acquireShared ∧ mode = .none ∧ Disciplined true .shared rest) ∨
          (op = .releaseShared ∧ mode = .shared ∧ Disciplined true .none rest) ∨
          (op = .acquireExclusive ∧ mode = .none ∧ Disciplined true .exclusive rest) ∨
          (op = .releaseExclusive ∧ mode = .exclusive ∧ Disciplined true .none rest)) := by
  cases op <;> simp_all [Disciplined]

/-- What the locks of a thread are behind one of its operations, its program expects. -/
theorem grant_own {state : State} {thread : Nat} {op : Op} {rest : List Op}
    (distinct : state.shared.Nodup) (alone : state.exclusive ≠ none → state.shared = [])
    (disciplined :
      Disciplined (decide (state.outer = some thread)) (state.mode thread) (op :: rest)) :
    Disciplined (decide ((state.grant thread op).outer = some thread))
      ((state.grant thread op).mode thread) rest := by
  rcases disciplined.uncons with ⟨rfl, _, later⟩ | ⟨held, ⟨rfl, later⟩ | ⟨rfl, mode, later⟩ |
    ⟨rfl, mode, later⟩ | ⟨rfl, mode, later⟩ | ⟨rfl, mode, later⟩⟩
  · rw [show decide ((state.grant thread .acquireOuter).outer = some thread) = true from
      decide_eq_true rfl]
    exact later
  · exact later
  · have after : (state.grant thread .acquireShared).mode thread = .shared :=
      State.mode_eq_shared_iff.mpr ⟨(State.mode_eq_none_iff.mp mode).1, List.mem_cons_self⟩
    rw [after,
      show decide ((state.grant thread .acquireShared).outer = some thread) = true from held]
    exact later
  · have after : (state.grant thread .releaseShared).mode thread = .none :=
      State.mode_eq_none_iff.mpr ⟨(State.mode_eq_shared_iff.mp mode).1, distinct.not_mem_erase⟩
    rw [after,
      show decide ((state.grant thread .releaseShared).outer = some thread) = true from held]
    exact later
  · have after : (state.grant thread .acquireExclusive).mode thread = .exclusive :=
      State.mode_eq_exclusive_iff.mpr rfl
    rw [after,
      show decide ((state.grant thread .acquireExclusive).outer = some thread) = true from held]
    exact later
  · have only : state.shared = [] := by
      apply alone
      rw [State.mode_eq_exclusive_iff.mp mode]
      exact Option.some_ne_none thread
    have after : (state.grant thread .releaseExclusive).mode thread = .none := by
      refine State.mode_eq_none_iff.mpr ⟨(Option.some_ne_none thread).symm, ?_⟩
      show thread ∉ state.shared
      rw [only]
      exact List.not_mem_nil
    rw [after,
      show decide ((state.grant thread .releaseExclusive).outer = some thread) = true from held]
    exact later

/-- An operation changes nothing about the locks another thread has. -/
theorem grant_other {state : State} {thread other : Nat} {op : Op} {rest : List Op}
    (apart : other ≠ thread)
    (disciplined :
      Disciplined (decide (state.outer = some thread)) (state.mode thread) (op :: rest))
    (admitted : state.admits op = true) :
    ((state.grant thread op).outer = some other ↔ state.outer = some other) ∧
      ((state.grant thread op).exclusive = some other ↔ state.exclusive = some other) ∧
      (other ∈ (state.grant thread op).shared ↔ other ∈ state.shared) := by
  rcases disciplined.uncons with ⟨rfl, _, _⟩ | ⟨held, ⟨rfl, _⟩ | ⟨rfl, _⟩ | ⟨rfl, _⟩ | ⟨rfl, _⟩ |
    ⟨rfl, mode, _⟩⟩
  · have free : state.outer = none := Option.isNone_iff_eq_none.mp admitted
    exact ⟨by simp [State.grant, free, apart.symm], Iff.rfl, Iff.rfl⟩
  · have mine := of_decide_eq_true held
    exact ⟨by simp [State.grant, mine, apart.symm], Iff.rfl, Iff.rfl⟩
  · exact ⟨Iff.rfl, Iff.rfl, by simp [State.grant, apart]⟩
  · exact ⟨Iff.rfl, Iff.rfl, List.mem_erase_of_ne apart⟩
  · have free : state.exclusive = none :=
      Option.isNone_iff_eq_none.mp (Bool.and_eq_true_iff.mp admitted).1
    exact ⟨Iff.rfl, by simp [State.grant, free, apart.symm], Iff.rfl⟩
  · have mine := State.mode_eq_exclusive_iff.mp mode
    exact ⟨Iff.rfl, by simp [State.grant, mine, apart.symm], Iff.rfl⟩

theorem Consistent.step (consistent : Consistent state) (step : Step state thread op rest after) :
    Consistent after := by
  obtain ⟨current, admitted, rfl⟩ := step
  have disciplined := consistent.programs thread _ current
  have within : thread < state.threads.length := (List.getElem?_eq_some_iff.mp current).1
  refine ⟨fun other ops found => ?_, fun holder held => ?_, ?_, fun taken => ?_⟩
  · by_cases same : other = thread
    · subst same
      rw [List.getElem?_set_self within] at found
      cases found
      exact grant_own consistent.distinct consistent.alone disciplined
    · rw [List.getElem?_set_ne (Ne.symm same)] at found
      obtain ⟨outer, exclusive, shared⟩ := grant_other same disciplined admitted
      have expected := consistent.programs other ops found
      rw [← State.mode_congr exclusive shared, ← decide_eq_decide.mpr outer] at expected
      exact expected
  · rw [List.length_set]
    by_cases same : holder = thread
    · exact same ▸ within
    · exact consistent.present holder ((grant_other same disciplined admitted).1.mp held)
  · show (state.grant thread op).shared.Nodup
    rcases disciplined.uncons with ⟨rfl, _⟩ | ⟨_, ⟨rfl, _⟩ | ⟨rfl, mode, _⟩ | ⟨rfl, _⟩ | ⟨rfl, _⟩ |
      ⟨rfl, _⟩⟩
    · exact consistent.distinct
    · exact consistent.distinct
    · exact List.nodup_cons.mpr ⟨(State.mode_eq_none_iff.mp mode).2, consistent.distinct⟩
    · exact consistent.distinct.erase thread
    · exact consistent.distinct
    · exact consistent.distinct
  · show (state.grant thread op).shared = []
    cases op with
    | acquireOuter => exact consistent.alone taken
    | releaseOuter => exact consistent.alone taken
    | acquireShared => exact absurd (Option.isNone_iff_eq_none.mp admitted) taken
    | releaseShared =>
        show state.shared.erase thread = []
        rw [consistent.alone taken, List.erase_nil]
    | acquireExclusive => exact List.isEmpty_iff.mp (Bool.and_eq_true_iff.mp admitted).2
    | releaseExclusive => exact absurd rfl taken

theorem Consistent.keeps (state : State) (thread : Nat) (after : State)
    (consistent : Consistent state) (stepped : next state thread = some after) :
    Consistent after := by
  obtain ⟨op, rest, step⟩ := next_step stepped
  exact consistent.step step

theorem consistent_start {programs : List (List Op)}
    (disciplined : ∀ program ∈ programs, Disciplined false .none program) :
    Consistent (State.start programs) where
  programs _ ops found := disciplined ops (List.mem_of_getElem? found)
  present _ held := absurd held.symm (Option.some_ne_none _)
  distinct := List.nodup_nil
  alone _ := rfl

/-- The thread with the outer lock waits for the inner one. -/
def Stuck (state : State) : Prop :=
  ∃ thread op rest, state.outer = some thread ∧ state.threads[thread]? = some (op :: rest) ∧
    state.admits op = false

/-- A thread without the outer lock is about to take it. -/
theorem Consistent.acquires (consistent : Consistent state)
    (current : state.threads[thread]? = some (op :: rest)) (without : state.outer ≠ some thread) :
    op = .acquireOuter := by
  rcases (consistent.programs thread _ current).uncons with ⟨same, _⟩ | ⟨held, _⟩
  · exact same
  · exact absurd (of_decide_eq_true held) without

/-- The thread with the outer lock is not finished. -/
theorem Consistent.unfinished (consistent : Consistent state) (held : state.outer = some thread) :
    ∃ op rest, state.threads[thread]? = some (op :: rest) := by
  have within := consistent.present thread held
  have current := List.getElem?_eq_getElem within
  have disciplined := consistent.programs thread _ current
  cases program : state.threads[thread] with
  | nil =>
      rw [program, held] at disciplined
      have ended : decide (some thread = some thread) = false := disciplined.1
      simp at ended
  | cons op rest => exact ⟨op, rest, by rw [current, program]⟩

theorem Consistent.deadlocked_iff (consistent : Consistent state) :
    Deadlocked state ↔ Stuck state := by
  constructor
  · intro deadlocked
    obtain ⟨⟨ops, listed, unfinished⟩, halted⟩ := deadlocked
    cases holder : state.outer with
    | none =>
        -- with the mutex free the unfinished thread could take it
        obtain ⟨thread, within, found⟩ := List.mem_iff_getElem.mp listed
        obtain ⟨op, rest, rfl⟩ := List.exists_cons_of_ne_nil unfinished
        have current := (List.getElem?_eq_getElem within).trans (congrArg some found)
        have blocked := (next_eq_none_iff current).mp (halted thread within)
        rw [consistent.acquires current (by rw [holder]; simp), State.admits, holder] at blocked
        cases blocked
    | some thread =>
        obtain ⟨op, rest, current⟩ := consistent.unfinished holder
        have blocked := (next_eq_none_iff current).mp
          (halted thread (consistent.present thread holder))
        exact ⟨thread, op, rest, holder, current, blocked⟩
  · intro stuck
    obtain ⟨holder, op, rest, held, current, blocked⟩ := stuck
    refine ⟨⟨op :: rest, List.mem_of_getElem? current, List.cons_ne_nil op rest⟩, ?_⟩
    intro thread within
    by_cases same : thread = holder
    · rw [same]
      exact (next_eq_none_iff current).mpr blocked
    · have found := List.getElem?_eq_getElem within
      cases program : state.threads[thread] with
      | nil => simp only [next, found, program]
      | cons first later =>
          rw [program] at found
          apply (next_eq_none_iff found).mpr
          have without : state.outer ≠ some thread := by
            rw [held]
            exact fun equal => same (Option.some.inj equal).symm
          rw [consistent.acquires found without, State.admits, held]
          rfl

/-- No other thread has the inner lock in a way that would make an operation wait. -/
def unopposed (state : State) (thread : Nat) : Op → Bool
  | .acquireShared => state.exclusive.all (· == thread)
  | .acquireExclusive => state.exclusive.all (· == thread) && state.shared.all (· == thread)
  | _ => true

/-- The operation of a thread behind its next one is unopposed. -/
def clear (state : State) (thread : Nat) : Bool :=
  match state.threads[thread]? with
  | some (_ :: following :: _) => unopposed state thread following
  | _ => true

theorem unopposed_congr {state other : State} (op : Op)
    (exclusive : ∀ holder ≠ thread, (state.exclusive = some holder ↔ other.exclusive = some holder))
    (shared : ∀ holder ≠ thread, (holder ∈ state.shared ↔ holder ∈ other.shared)) :
    unopposed state thread op = unopposed other thread op := by
  have exclusives : state.exclusive.all (· == thread) = other.exclusive.all (· == thread) := by
    rw [Bool.eq_iff_iff]
    simp only [Option.all_eq_true, beq_iff_eq]
    grind
  have shareds : state.shared.all (· == thread) = other.shared.all (· == thread) := by
    rw [Bool.eq_iff_iff]
    simp only [List.all_eq_true, beq_iff_eq]
    grind
  cases op with
  | acquireShared => exact exclusives
  | acquireExclusive => rw [unopposed, unopposed, exclusives, shareds]
  | _ => rfl

/-- For a thread without the inner lock, only others can be in the way. -/
theorem admits_eq_unopposed (without : state.mode thread = .none) (inner : op ≠ .acquireOuter) :
    state.admits op = unopposed state thread op := by
  obtain ⟨exclusive, shared⟩ := State.mode_eq_none_iff.mp without
  have exclusives : state.exclusive.isNone = state.exclusive.all (· == thread) := by
    cases holder : state.exclusive with
    | none => rfl
    | some other =>
        have apart : other ≠ thread := fun same => exclusive (by rw [holder, same])
        simp [apart]
  have shareds : state.shared.isEmpty = state.shared.all (· == thread) := by
    cases holders : state.shared with
    | nil => rfl
    | cons other others =>
        have apart : other ≠ thread := fun same => shared (by rw [holders, same]; simp)
        simp [apart]
  cases op with
  | acquireOuter => exact absurd rfl inner
  | acquireShared => exact exclusives
  | acquireExclusive => rw [State.admits, unopposed, exclusives, shareds]
  | _ => rfl

/-- Only the thread that took the last step can have the outer lock. -/
theorem Consistent.holder_eq {thread holder : Nat} (consistent : Consistent state)
    (step : Step state thread op rest after) (held : after.outer = some holder) :
    holder = thread := by
  obtain ⟨current, admitted, rfl⟩ := step
  by_contra apart
  have disciplined := consistent.programs thread _ current
  have before : state.outer = some holder := (grant_other apart disciplined admitted).1.mp held
  have without : state.outer ≠ some thread := by
    rw [before]
    exact fun equal => apart (Option.some.inj equal)
  rw [consistent.acquires current without, State.admits, before] at admitted
  cases admitted

/-- Behind a step of the thread with the outer lock, its operation is admitted exactly when
it was unopposed before. -/
theorem Consistent.admits_following {op following : Op} {later : List Op}
    (consistent : Consistent state) (step : Step state thread op (following :: later) after)
    (held : after.outer = some thread) :
    after.admits following = unopposed state thread following := by
  have reached := consistent.step step
  obtain ⟨current, admitted, rfl⟩ := step
  have within : thread < state.threads.length := (List.getElem?_eq_some_iff.mp current).1
  have disciplined := consistent.programs thread _ current
  have frame (holder : Nat) (apart : holder ≠ thread) :=
    (grant_other apart disciplined admitted).2
  have same := unopposed_congr following (fun holder apart => (frame holder apart).1)
    (fun holder apart => (frame holder apart).2)
  have expected := reached.programs thread _ (List.getElem?_set_self within)
  rcases expected.uncons with ⟨_, free, _⟩ | ⟨_, ⟨rfl, _⟩ | ⟨rfl, mode, _⟩ | ⟨rfl, _⟩ |
    ⟨rfl, mode, _⟩ | ⟨rfl, _⟩⟩
  · exact absurd held (of_decide_eq_false free)
  · rfl
  · exact (admits_eq_unopposed mode (by decide)).trans same
  · rfl
  · exact (admits_eq_unopposed mode (by decide)).trans same
  · rfl

/-- A step leaves its thread waiting for the inner lock exactly when the operation behind
it is opposed. -/
theorem Consistent.stuck_iff (consistent : Consistent state)
    (step : Step state thread op rest after) : ¬ Stuck after ↔ clear state thread = true := by
  have reached := consistent.step step
  have within : thread < state.threads.length := (List.getElem?_eq_some_iff.mp step.current).1
  have current : after.threads[thread]? = some rest := by
    rw [step.same]
    exact List.getElem?_set_self within
  have only {holder : Nat} (held : after.outer = some holder) : holder = thread :=
    consistent.holder_eq step held
  cases rest with
  | nil =>
      refine iff_of_true ?_ (by simp only [clear, step.current])
      intro stuck
      obtain ⟨holder, op, rest, held, found, _⟩ := stuck
      rw [only held, current] at found
      cases found
  | cons following later =>
      have cleared : clear state thread = unopposed state thread following := by
        simp only [clear, step.current]
      rw [cleared]
      by_cases held : after.outer = some thread
      · have admits := consistent.admits_following step held
        rw [← admits]
        constructor
        · intro free
          by_contra blocked
          exact free ⟨thread, following, later, held, current, Bool.eq_false_iff.mpr blocked⟩
        · intro free stuck
          obtain ⟨holder, op, rest, held, found, blocked⟩ := stuck
          rw [only held, current] at found
          cases found
          rw [free] at blocked
          cases blocked
      · rw [reached.acquires current held]
        refine iff_of_true ?_ rfl
        intro stuck
        obtain ⟨holder, _, _, taken, _⟩ := stuck
        exact held (only taken ▸ taken)

/-- From the start of disciplined programs, a run stays free of deadlock exactly when each
of its steps is clear. -/
theorem deadlockFree_iff {programs : List (List Op)}
    (disciplined : ∀ program ∈ programs, Disciplined false .none program) {events : List Nat}
    {final : State} (ran : run next (State.start programs) events = some final) :
    (∀ reached ∈ visited next (State.start programs) events, ¬ Deadlocked reached) ↔
      Meets next (fun state thread => clear state thread = true) (State.start programs) events := by
  have consistent := consistent_start disciplined
  refine visited_iff Consistent (¬ Deadlocked ·) Consistent.keeps ?_ consistent ?_ ran
  · intro state thread after consistent stepped
    obtain ⟨op, rest, step⟩ := next_step stepped
    rw [(consistent.step step).deadlocked_iff]
    exact consistent.stuck_iff step
  · rw [consistent.deadlocked_iff]
    intro stuck
    obtain ⟨thread, _, _, held, _⟩ := stuck
    cases held

theorem consistent_visited {programs : List (List Op)}
    (disciplined : ∀ program ∈ programs, Disciplined false .none program) {events : List Nat} :
    ∀ reached ∈ visited next (State.start programs) events, Consistent reached :=
  visited_preserves Consistent Consistent.keeps (consistent_start disciplined)

end Nested
