import ForkRedis.Lib.Machine
import Mathlib.Logic.Function.Basic
import Mathlib.Data.List.Basic

set_option autoImplicit false

/- `CommandQue` and the queue of client events, `cli_que_` of the `Handler`: threads that
push under a mutex and notify all that wait, and threads that wait for the queue to be
filled. `BlockPop` gives the mutex back behind one element, `ioClient` when it has emptied
the queue. -/
namespace ForkRedis.Queues

open Machine

variable {Item : Type}

/-- Where a thread is: in `Push` or `Handle`, with the mutex, before the insertion, behind it,
or behind the notification; or on its way to an element. -/
inductive Phase (Item : Type) where
  | outside
  | pushing (item : Item)
  | pushed
  | notified
  | checking
  | asleep
  | woken
  | taking
  | took
  deriving DecidableEq, Repr

/-- The thread has the mutex. -/
def Phase.inside : Phase Item → Bool
  | .outside | .asleep | .woken => false
  | _ => true

/-- `takes` is a record of who took what out. -/
structure State (Item : Type) where
  que : List Item
  mtx : Option Nat
  phase : Nat → Phase Item
  takes : List (Nat × Item)

/-- `wake` is a wake-up without a notification. -/
inductive Event (Item : Type) where
  | lock (thread : Nat) (item : Item)
  | insert (thread : Nat) (item : Item)
  | notify (thread : Nat)
  | unlock (thread : Nat)
  | call (thread : Nat)
  | check (thread : Nat)
  | wake (thread : Nat)
  | relock (thread : Nat)
  | take (thread : Nat)

def start : State Item := ⟨[], none, fun _ => .outside, []⟩

/-- What was pushed in a run. -/
def pushes (events : List (Event Item)) : List Item :=
  events.filterMap fun
    | .insert _ item => some item
    | _ => none

namespace State

def moved (state : State Item) (thread : Nat) (phase : Phase Item) : State Item :=
  { state with phase := Function.update state.phase thread phase }

/-- The thread takes the mutex. -/
def entered (state : State Item) (thread : Nat) (phase : Phase Item) : State Item :=
  { state.moved thread phase with mtx := some thread }

/-- The thread gives the mutex back. -/
def left (state : State Item) (thread : Nat) (phase : Phase Item) : State Item :=
  { state.moved thread phase with mtx := none }

def inserted (state : State Item) (thread : Nat) (item : Item) : State Item :=
  { state.moved thread .pushed with que := state.que ++ [item] }

def rouse : Phase Item → Phase Item
  | .asleep => .woken
  | other => other

/-- `notify_all`. -/
def roused (state : State Item) (thread : Nat) : State Item :=
  { state with
    phase := Function.update (fun other => rouse (state.phase other)) thread .notified }

def dequeued (state : State Item) (thread : Nat) (item : Item) (rest : List Item) : State Item :=
  { state.moved thread .took with
    que := rest
    takes := state.takes ++ [(thread, item)] }

end State

/-- `drains` tells `ioClient` from `BlockPop`: behind an element it goes on with the next. -/
def next [DecidableEq Item] (drains : Bool) (state : State Item) : Event Item → Option (State Item)
  | .lock thread item =>
      match state.mtx, state.phase thread with
      | none, .outside => some (state.entered thread (.pushing item))
      | _, _ => none
  | .insert thread item =>
      if state.phase thread = .pushing item then some (state.inserted thread item) else none
  | .notify thread =>
      match state.phase thread with
      | .pushed => some (state.roused thread)
      | _ => none
  | .unlock thread =>
      match state.phase thread with
      | .notified => some (state.left thread .outside)
      | .took => if drains ∧ state.que ≠ [] then none else some (state.left thread .outside)
      | _ => none
  | .call thread =>
      match state.mtx, state.phase thread with
      | none, .outside => some (state.entered thread .checking)
      | _, _ => none
  | .check thread =>
      match state.phase thread with
      | .checking =>
          if state.que = [] then some (state.left thread .asleep)
          else some (state.moved thread .taking)
      | .took => if drains ∧ state.que ≠ [] then some (state.moved thread .taking) else none
      | _ => none
  | .wake thread =>
      match state.phase thread with
      | .asleep => some (state.moved thread .woken)
      | _ => none
  | .relock thread =>
      match state.mtx, state.phase thread with
      | none, .woken => some (state.entered thread .checking)
      | _, _ => none
  | .take thread =>
      match state.phase thread, state.que with
      | .taking, item :: rest => some (state.dequeued thread item rest)
      | _, _ => none

/-- Everything an event can do. -/
inductive Step (state : State Item) : Event Item → State Item → Prop where
  | lock (thread : Nat) (item : Item) (free : state.mtx = none) :
      Step state (.lock thread item) (state.entered thread (.pushing item))
  | insert (thread : Nat) (item : Item) (at_ : state.phase thread = .pushing item) :
      Step state (.insert thread item) (state.inserted thread item)
  | notify (thread : Nat) (at_ : state.phase thread = .pushed) :
      Step state (.notify thread) (state.roused thread)
  | unlock (thread : Nat) (inside : (state.phase thread).inside = true)
      (done : state.phase thread ≠ .pushed) :
      Step state (.unlock thread) (state.left thread .outside)
  | call (thread : Nat) (free : state.mtx = none) :
      Step state (.call thread) (state.entered thread .checking)
  | sleep (thread : Nat) (at_ : state.phase thread = .checking) (empty : state.que = []) :
      Step state (.check thread) (state.left thread .asleep)
  | check (thread : Nat) (inside : (state.phase thread).inside = true)
      (done : state.phase thread ≠ .pushed) (filled : state.que ≠ []) :
      Step state (.check thread) (state.moved thread .taking)
  | wake (thread : Nat) (at_ : state.phase thread = .asleep) :
      Step state (.wake thread) (state.moved thread .woken)
  | relock (thread : Nat) (free : state.mtx = none) :
      Step state (.relock thread) (state.entered thread .checking)
  | take (thread : Nat) (item : Item) (rest : List Item) (at_ : state.phase thread = .taking)
      (que : state.que = item :: rest) :
      Step state (.take thread) (state.dequeued thread item rest)

theorem next_step [DecidableEq Item] {drains : Bool} {state after : State Item}
    {event : Event Item} (stepped : next drains state event = some after) :
    Step state event after := by
  cases event with
  | lock thread item =>
      simp only [next] at stepped
      split at stepped
      · rename_i free _
        cases stepped
        exact .lock thread item free
      · cases stepped
  | insert thread item =>
      obtain ⟨at_, same⟩ := Option.ite_none_right_eq_some.mp stepped
      cases same
      exact .insert thread item at_
  | notify thread =>
      simp only [next] at stepped
      split at stepped
      · rename_i at_
        cases stepped
        exact .notify thread at_
      · cases stepped
  | unlock thread =>
      simp only [next] at stepped
      split at stepped
      · rename_i at_
        cases stepped
        exact .unlock thread (by rw [at_]; rfl) (by rw [at_]; nofun)
      · rename_i at_
        split at stepped
        · cases stepped
        · cases stepped
          exact .unlock thread (by rw [at_]; rfl) (by rw [at_]; nofun)
      · cases stepped
  | call thread =>
      simp only [next] at stepped
      split at stepped
      · rename_i free _
        cases stepped
        exact .call thread free
      · cases stepped
  | check thread =>
      simp only [next] at stepped
      split at stepped
      · rename_i at_
        split at stepped
        · rename_i empty
          cases stepped
          exact .sleep thread at_ empty
        · rename_i filled
          cases stepped
          exact .check thread (by rw [at_]; rfl) (by rw [at_]; nofun) filled
      · rename_i at_
        split at stepped
        · rename_i more
          cases stepped
          exact .check thread (by rw [at_]; rfl) (by rw [at_]; nofun) more.2
        · cases stepped
      · cases stepped
  | wake thread =>
      simp only [next] at stepped
      split at stepped
      · rename_i at_
        cases stepped
        exact .wake thread at_
      · cases stepped
  | relock thread =>
      simp only [next] at stepped
      split at stepped
      · rename_i free _
        cases stepped
        exact .relock thread free
      · cases stepped
  | take thread =>
      simp only [next] at stepped
      split at stepped
      · rename_i item rest at_ que
        cases stepped
        exact .take thread item rest at_ que
      · cases stepped

/-- Nothing is lost, repeated or reordered. -/
def Kept (past : List (Event Item)) (state : State Item) : Prop :=
  state.takes.map Prod.snd ++ state.que = pushes past

theorem kept_start : Kept [] (start : State Item) := rfl

theorem Kept.step {past : List (Event Item)} {state after : State Item} {event : Event Item}
    (kept : Kept past state) (stepped : Step state event after) : Kept (past ++ [event]) after := by
  rw [Kept, pushes, List.filterMap_append]
  cases stepped with
  | insert thread item at_ => exact (List.append_assoc ..).symm.trans (congrArg (· ++ [item]) kept)
  | take thread item rest at_ que =>
      show (state.takes ++ [(thread, item)]).map Prod.snd ++ rest = pushes past ++ []
      rw [← kept, que, List.map_append, List.append_assoc, List.append_nil]
      rfl
  | _ => exact kept.trans (List.append_nil _).symm

/-- What holds in every state: the mutex has one owner, who asks for an element finds one, and
who sleeps while the queue is filled is about to be notified. -/
structure Sound (state : State Item) : Prop where
  owner : ∀ thread, (state.phase thread).inside = true ↔ state.mtx = some thread
  found : ∀ thread, state.phase thread = .taking → state.que ≠ []
  alert : ∀ thread, state.phase thread = .asleep →
    state.que = [] ∨ ∃ other, state.phase other = .pushed

theorem sound_start : Sound (start : State Item) where
  owner _ := by simp [start, Phase.inside]
  found _ at_ := nomatch at_
  alert _ at_ := nomatch at_

namespace State

theorem moved_phase (state : State Item) (thread other : Nat) (phase : Phase Item) :
    (state.moved thread phase).phase other =
      if other = thread then phase else state.phase other :=
  Function.update_apply _ _ _ _

theorem roused_phase (state : State Item) (thread other : Nat) :
    (state.roused thread).phase other =
      if other = thread then .notified else rouse (state.phase other) :=
  Function.update_apply (fun other => rouse (state.phase other)) thread .notified other

theorem rouse_inside (phase : Phase Item) : (rouse phase).inside = phase.inside := by
  cases phase <;> rfl

theorem rouse_eq_taking {phase : Phase Item} (taking : rouse phase = .taking) :
    phase = .taking := by
  cases phase <;> first | rfl | cases taking

theorem rouse_ne_asleep (phase : Phase Item) : rouse phase ≠ .asleep := by
  cases phase <;> exact nofun

end State

namespace Sound

variable {state : State Item} (sound : Sound state) {thread : Nat}

include sound

/-- The owner of the mutex is the only thread inside. -/
theorem alone {other : Nat} (inside : (state.phase thread).inside = true)
    (also : (state.phase other).inside = true) : other = thread := by
  have first := (sound.owner thread).mp inside
  have second := (sound.owner other).mp also
  rw [first] at second
  exact (Option.some.inj second).symm

theorem outside_of_free (free : state.mtx = none) (other : Nat) :
    (state.phase other).inside = false := by
  by_contra inside
  have owns := (sound.owner other).mp (by simpa using inside)
  rw [free] at owns
  cases owns

/-- The owner stays the only thread inside when it moves on. -/
theorem owner_moved (inside : (state.phase thread).inside = true) {phase : Phase Item}
    (still : phase.inside = true) (other : Nat) :
    ((state.moved thread phase).phase other).inside = true ↔ state.mtx = some other := by
  rw [State.moved_phase]
  split
  · rename_i same
    subst same
    exact ⟨fun _ => (sound.owner other).mp inside, fun _ => still⟩
  · exact sound.owner other

theorem entered (free : state.mtx = none) {phase : Phase Item} (inside : phase.inside = true)
    (idle : phase ≠ .taking) : Sound (state.entered thread phase) where
  owner other := by
    show ((state.moved thread phase).phase other).inside = true ↔ some thread = some other
    rw [State.moved_phase]
    split
    · rename_i same
      simp [same, inside]
    · rename_i apart
      simp [sound.outside_of_free free other, Ne.symm apart]
  found other at_ := by
    change (state.moved thread phase).phase other = .taking at at_
    rw [State.moved_phase] at at_
    split at at_
    · exact absurd at_ idle
    · have outside := sound.outside_of_free free other
      rw [at_] at outside
      cases outside
  alert other at_ := by
    change (state.moved thread phase).phase other = .asleep at at_
    rw [State.moved_phase] at at_
    split at at_
    · rw [at_] at inside
      cases inside
    · rcases sound.alert other at_ with empty | ⟨pusher, pushed⟩
      · exact Or.inl empty
      · have outside := sound.outside_of_free free pusher
        rw [pushed] at outside
        cases outside

/-- A thread that gives the mutex back owes no notification, and goes to sleep only on an
empty queue. -/
theorem left (inside : (state.phase thread).inside = true) (done : state.phase thread ≠ .pushed)
    {phase : Phase Item} (outside : phase.inside = false) (rests : phase = .asleep → state.que = []) :
    Sound (state.left thread phase) where
  owner other := by
    show ((state.moved thread phase).phase other).inside = true ↔ none = some other
    rw [State.moved_phase]
    split
    · simp [outside]
    · rename_i apart
      refine ⟨fun also => absurd (sound.alone inside also) apart, nofun⟩
  found other at_ := by
    change (state.moved thread phase).phase other = .taking at at_
    rw [State.moved_phase] at at_
    split at at_
    · rw [at_] at outside
      cases outside
    · exact sound.found other at_
  alert other at_ := by
    change (state.moved thread phase).phase other = .asleep at at_
    rw [State.moved_phase] at at_
    split at at_
    · exact Or.inl (rests at_)
    · rcases sound.alert other at_ with empty | ⟨pusher, pushed⟩
      · exact Or.inl empty
      · have same := sound.alone inside (by rw [pushed]; rfl)
        subst same
        exact absurd pushed done

theorem inserted {item : Item} (at_ : state.phase thread = .pushing item) :
    Sound (state.inserted thread item) where
  owner := sound.owner_moved (by rw [at_]; rfl) rfl
  found _ _ := List.append_ne_nil_of_right_ne_nil _ (List.cons_ne_nil _ _)
  alert _ _ := Or.inr ⟨thread, (state.moved_phase thread thread .pushed).trans (if_pos rfl)⟩

theorem roused (at_ : state.phase thread = .pushed) : Sound (state.roused thread) where
  owner other := by
    rw [State.roused_phase]
    split
    · rename_i same
      exact ⟨fun _ => (sound.owner other).mp (by rw [same, at_]; rfl), fun _ => rfl⟩
    · rw [State.rouse_inside]
      exact sound.owner other
  found other taking := by
    rw [State.roused_phase] at taking
    split at taking
    · cases taking
    · exact sound.found other (State.rouse_eq_taking taking)
  alert other asleep := by
    rw [State.roused_phase] at asleep
    split at asleep
    · cases asleep
    · exact absurd asleep (State.rouse_ne_asleep _)

theorem checked (inside : (state.phase thread).inside = true) (done : state.phase thread ≠ .pushed)
    (filled : state.que ≠ []) : Sound (state.moved thread .taking) where
  owner := sound.owner_moved inside rfl
  found _ _ := filled
  alert other at_ := by
    rw [State.moved_phase] at at_
    split at at_
    · cases at_
    · rcases sound.alert other at_ with empty | ⟨pusher, pushed⟩
      · exact absurd empty filled
      · have same := sound.alone inside (by rw [pushed]; rfl)
        subst same
        exact absurd pushed done

theorem woken (at_ : state.phase thread = .asleep) : Sound (state.moved thread .woken) where
  owner other := by
    show _ ↔ state.mtx = some other
    rw [State.moved_phase]
    split
    · rename_i same
      rw [← sound.owner other, same, at_]
      rfl
    · exact sound.owner other
  found other taking := by
    rw [State.moved_phase] at taking
    split at taking
    · cases taking
    · exact sound.found other taking
  alert other asleep := by
    rw [State.moved_phase] at asleep
    split at asleep
    · cases asleep
    · refine (sound.alert other asleep).imp id fun ⟨pusher, pushed⟩ => ⟨pusher, ?_⟩
      rw [State.moved_phase, if_neg]
      · exact pushed
      · rintro rfl
        rw [at_] at pushed
        cases pushed

theorem taken {item : Item} {rest : List Item} (at_ : state.phase thread = .taking)
    (que : state.que = item :: rest) :
    Sound (state.dequeued thread item rest) where
  owner := sound.owner_moved (by rw [at_]; rfl) rfl
  found other taking := by
    change (state.moved thread .took).phase other = .taking at taking
    rw [State.moved_phase] at taking
    split at taking
    · cases taking
    · rename_i apart
      exact absurd (sound.alone (by rw [at_]; rfl) (by rw [taking]; rfl)) apart
  alert other asleep := by
    change (state.moved thread .took).phase other = .asleep at asleep
    rw [State.moved_phase] at asleep
    split at asleep
    · cases asleep
    · rcases sound.alert other asleep with empty | ⟨pusher, pushed⟩
      · rw [que] at empty
        cases empty
      · have inside : (state.phase thread).inside = true := by rw [at_]; rfl
        have same := sound.alone inside (by rw [pushed]; rfl)
        rw [same, at_] at pushed
        cases pushed

theorem step {after : State Item} {event : Event Item} (stepped : Step state event after) :
    Sound after := by
  cases stepped with
  | lock thread item free => exact sound.entered free rfl nofun
  | insert thread item at_ => exact sound.inserted at_
  | notify thread at_ => exact sound.roused at_
  | unlock thread inside done => exact sound.left inside done rfl nofun
  | call thread free => exact sound.entered free rfl nofun
  | sleep thread at_ empty =>
      exact sound.left (by rw [at_]; rfl) (by rw [at_]; nofun) rfl fun _ => empty
  | check thread inside done filled => exact sound.checked inside done filled
  | wake thread at_ => exact sound.woken at_
  | relock thread free => exact sound.entered free rfl nofun
  | take thread item rest at_ que => exact sound.taken at_ que

end Sound

theorem sound_run [DecidableEq Item] {drains : Bool} {events : List (Event Item)}
    {state : State Item} (ran : run (next drains) start events = some state) : Sound state :=
  run_preserves Sound (fun _ _ _ sound stepped => sound.step (next_step stepped)) sound_start ran

def Event.thread : Event Item → Nat
  | .lock thread _ | .insert thread _ | .notify thread | .unlock thread | .call thread => thread
  | .check thread | .wake thread | .relock thread | .take thread => thread

/-- An event of a thread that has begun: not the start of a new call, nor a wake-up that
nobody caused. -/
def Event.due : Event Item → Bool
  | .lock _ _ | .call _ | .wake _ => false
  | _ => true

/-- The thread can go on with what it has begun. -/
def Goes [DecidableEq Item] (drains : Bool) (state : State Item) (thread : Nat) : Prop :=
  ∃ event after, next drains state event = some after ∧ event.thread = thread ∧ event.due = true

/-- The owner of the mutex can go on. -/
theorem Sound.owner_goes_on [DecidableEq Item] {state : State Item} (sound : Sound state)
    (drains : Bool) {thread : Nat} (inside : (state.phase thread).inside = true) :
    Goes drains state thread := by
  cases phase : state.phase thread with
  | outside =>
      rw [phase] at inside
      cases inside
  | asleep =>
      rw [phase] at inside
      cases inside
  | woken =>
      rw [phase] at inside
      cases inside
  | pushing item =>
      exact ⟨.insert thread item, state.inserted thread item, if_pos phase, rfl, rfl⟩
  | pushed => exact ⟨.notify thread, state.roused thread, by simp only [next, phase], rfl, rfl⟩
  | notified =>
      exact ⟨.unlock thread, state.left thread .outside, by simp only [next, phase], rfl, rfl⟩
  | checking =>
      refine ⟨.check thread, if state.que = [] then state.left thread .asleep
        else state.moved thread .taking, ?_, rfl, rfl⟩
      simp only [next, phase]
      split <;> rfl
  | taking =>
      obtain ⟨item, rest, que⟩ := List.exists_cons_of_ne_nil (sound.found thread phase)
      exact ⟨.take thread, state.dequeued thread item rest, by simp only [next, phase, que], rfl, rfl⟩
  | took =>
      by_cases more : drains = true ∧ state.que ≠ []
      · refine ⟨.check thread, state.moved thread .taking, ?_, rfl, rfl⟩
        simp only [next, phase]
        exact if_pos more
      · refine ⟨.unlock thread, state.left thread .outside, ?_, rfl, rfl⟩
        simp only [next, phase]
        exact if_neg more

/-- For any number of threads on either side: what was taken and what is queued is what was
pushed, in order; who is about to take an element finds one; while the queue is filled and
nobody has the mutex, nobody is asleep; and the thread that has the mutex can go on, or while
nobody has it, whoever has been woken. -/
theorem delivers [DecidableEq Item] (drains : Bool) {events : List (Event Item)}
    {state : State Item} (ran : run (next drains) start events = some state) :
    state.takes.map Prod.snd ++ state.que = pushes events ∧
      (∀ thread, state.phase thread = .taking → state.que ≠ []) ∧
      (state.mtx = none → state.que ≠ [] → ∀ thread, state.phase thread ≠ .asleep) ∧
      ∀ thread, state.phase thread ≠ .outside → state.phase thread ≠ .asleep →
        Goes drains state (state.mtx.getD thread) := by
  have kept : Kept ([] ++ events) state :=
    run_traces Kept (fun _ _ _ _ kept stepped => kept.step (next_step stepped)) kept_start ran
  have sound := sound_run ran
  refine ⟨kept, sound.found, fun free filled thread asleep => ?_, fun thread begun awake => ?_⟩
  · rcases sound.alert thread asleep with empty | ⟨pusher, pushed⟩
    · exact filled empty
    · have outside := sound.outside_of_free free pusher
      rw [pushed] at outside
      cases outside
  · cases mtx : state.mtx with
    | some owner => exact sound.owner_goes_on drains ((sound.owner owner).mpr mtx)
    | none =>
        have outside := sound.outside_of_free mtx thread
        cases phase : state.phase thread with
        | outside => exact absurd phase begun
        | asleep => exact absurd phase awake
        | woken =>
            exact ⟨.relock thread, state.entered thread .checking,
              by simp only [next, mtx, phase], rfl, rfl⟩
        | _ =>
            rw [phase] at outside
            cases outside

/-- Two threads fall asleep on the empty queue, one of them wakes up for no reason, and the
other for an element that the first then takes. -/
theorem delivers_twice :
    ∃ state : State Nat, run (next true) start [.call 1, .check 1, .call 2, .check 2, .wake 2,
        .lock 0 7, .insert 0 7, .notify 0, .unlock 0, .relock 2, .check 2, .take 2, .unlock 2] =
          some state ∧
      (state.takes = [(2, 7)] ∧ state.phase 1 = .woken ∧ state.mtx = none) ∧
      state.takes.map Prod.snd ++ state.que = [7] ∧
      (∀ thread, state.phase thread = .taking → state.que ≠ []) ∧
      (state.mtx = none → state.que ≠ [] → ∀ thread, state.phase thread ≠ .asleep) ∧
      ∀ thread, state.phase thread ≠ .outside → state.phase thread ≠ .asleep →
        Goes true state (state.mtx.getD thread) := by
  obtain ⟨state, ran, checked⟩ : ∃ state : State Nat, run (next true) start [.call 1, .check 1,
      .call 2, .check 2, .wake 2, .lock 0 7, .insert 0 7, .notify 0, .unlock 0, .relock 2, .check 2,
      .take 2, .unlock 2] = some state ∧ state.takes = [(2, 7)] ∧ state.phase 1 = .woken ∧
        state.mtx = none :=
    run_checked (by decide)
  exact ⟨state, ran, checked, delivers true ran⟩

end ForkRedis.Queues
