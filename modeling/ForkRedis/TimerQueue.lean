import ForkRedis.Timers

set_option autoImplicit false

/- `TimerQue`: threads that push timers, and the timer thread in `BlockPop`, all under
`mtx_`. -/
namespace ForkRedis.TimerQue

open Machine

/-- Who holds `mtx_`: a thread in `Push`, before or behind the insertion, or the timer
thread. -/
inductive Holder where
  | pusher (thread : Nat)
  | pushed (thread : Nat)
  | popper
  deriving DecidableEq, Repr

/-- Where the timer thread is in `BlockPop`: at the head of the loop, behind the reading of
the clock, behind the comparison with the top, or asleep in one of the two waits. -/
inductive Phase where
  | outside
  | checking
  | read (now : UInt64)
  | early (now : UInt64)
  | due (now : UInt64)
  | sleeping
  | waiting
  | leaving
  deriving DecidableEq, Repr

variable {Timer : Type}

/-- A timer that was returned, the last clock reading before, and what stayed queued. -/
structure Delivery (Timer : Type) where
  timer : Timer
  now : UInt64
  left : List Timer

/-- A `sleep_period` with the top of the queue and the clock reading it comes from. -/
structure Sleep (Timer : Type) where
  top : Timer
  now : UInt64
  period : UInt64

/-- `deliveries` and `sleeps` are records of what `BlockPop` did so far. -/
structure State (Timer : Type) where
  que : List Timer
  mtx : Option Holder
  phase : Phase
  deliveries : List (Delivery Timer)
  sleeps : List (Sleep Timer)

/-- `wake` is the end of a wait, by its time, a notification, or neither. -/
inductive Event (Timer : Type) where
  | lock (thread : Nat)
  | push (thread : Nat) (timer : Timer)
  | unlock (thread : Nat)
  | call
  | empty
  | readClock (now : UInt64)
  | compare (position : Nat)
  | sleep (position : Nat)
  | wake
  | pop (position : Nat)
  | leave

def start : State Timer := ⟨[], none, .outside, [], []⟩

variable (expireTimeUs : Timer → UInt64)

/-- The timer at a position can be the top of the priority queue: by `TimerGreater` none
goes before it. -/
def topAt (que : List Timer) (position : Nat) : Option Timer :=
  match que[position]? with
  | none => none
  | some top =>
      if que.all (fun other => expireTimeUs top ≤ expireTimeUs other) then some top else none

def next (state : State Timer) : Event Timer → Option (State Timer)
  | .lock thread =>
      if state.mtx = none then some { state with mtx := some (.pusher thread) } else none
  | .push thread timer =>
      if state.mtx = some (.pusher thread) then
        some { state with mtx := some (.pushed thread), que := timer :: state.que }
      else none
  | .unlock thread =>
      if state.mtx = some (.pushed thread) then some { state with mtx := none } else none
  | .call =>
      if state.phase = .outside ∧ state.mtx = none then
        some { state with mtx := some .popper, phase := .checking }
      else none
  | .empty =>
      -- the predicate of the wait does not hold, so it gives the mutex up
      if state.phase = .checking ∧ state.que.isEmpty then
        some { state with mtx := none, phase := .waiting }
      else none
  | .readClock now =>
      if state.phase = .checking ∧ ¬ state.que.isEmpty then
        some { state with phase := .read now }
      else none
  | .compare position =>
      match state.phase, topAt expireTimeUs state.que position with
      | .read now, some top =>
          if now < expireTimeUs top then some { state with phase := .early now }
          else some { state with phase := .due now }
      | _, _ => none
  | .sleep position =>
      match state.phase, topAt expireTimeUs state.que position with
      | .early now, some top => some { state with
          mtx := none
          phase := .sleeping
          sleeps := ⟨top, now, expireTimeUs top - now⟩ :: state.sleeps }
      | _, _ => none
  | .wake =>
      if state.mtx = none then
        match state.phase with
        | .sleeping => some { state with mtx := some .popper, phase := .checking }
        | .waiting =>
            if state.que.isEmpty then some state
            else some { state with mtx := some .popper, phase := .checking }
        | _ => none
      else none
  | .pop position =>
      match state.phase, topAt expireTimeUs state.que position with
      | .due now, some top => some { state with
          que := state.que.eraseIdx position
          phase := .leaving
          deliveries := ⟨top, now, state.que.eraseIdx position⟩ :: state.deliveries }
      | _, _ => none
  | .leave =>
      if state.phase = .leaving then some { state with mtx := none, phase := .outside } else none

/-- The timers pushed in a run. -/
def pushes : List (Event Timer) → List Timer
  | [] => []
  | .push _ timer :: events => timer :: pushes events
  | _ :: events => pushes events

/-- The readings of the clock in a run. -/
def readings : List (Event Timer) → List UInt64
  | [] => []
  | .readClock now :: events => now :: readings events
  | _ :: events => readings events

theorem pushes_append (events later : List (Event Timer)) :
    pushes (events ++ later) = pushes events ++ pushes later := by
  induction events with
  | nil => rfl
  | cons event events ih => cases event <;> simp [pushes, ih]

theorem pushes_quiet {past : List (Event Timer)} {event : Event Timer}
    (quiet : pushes [event] = []) :
    pushes (past ++ [event]) = pushes past := by
  rw [pushes_append, quiet, List.append_nil]

theorem readings_append (events later : List (Event Timer)) :
    readings (events ++ later) = readings events ++ readings later := by
  induction events with
  | nil => rfl
  | cons event events ih => cases event <;> simp [readings, ih]

variable {expireTimeUs}

theorem topAt_some {que : List Timer} {position : Nat} {top : Timer}
    (found : topAt expireTimeUs que position = some top) :
    que[position]? = some top ∧ ∀ other ∈ que, expireTimeUs top ≤ expireTimeUs other := by
  unfold topAt at found
  split at found
  · cases found
  · rename_i candidate there
    split at found
    · rename_i least
      cases found
      refine ⟨there, fun other queued => ?_⟩
      simpa using List.all_eq_true.mp least other queued
    · cases found

variable (expireTimeUs)

/-- Everything an event can do. -/
inductive Step (state : State Timer) : Event Timer → State Timer → Prop where
  | lock (thread : Nat) (free : state.mtx = none) :
      Step state (.lock thread) { state with mtx := some (.pusher thread) }
  | push (thread : Nat) (timer : Timer) (held : state.mtx = some (.pusher thread)) :
      Step state (.push thread timer)
        { state with mtx := some (.pushed thread), que := timer :: state.que }
  | unlock (thread : Nat) (held : state.mtx = some (.pushed thread)) :
      Step state (.unlock thread) { state with mtx := none }
  | call (outside : state.phase = .outside) (free : state.mtx = none) :
      Step state .call { state with mtx := some .popper, phase := .checking }
  | empty (checking : state.phase = .checking) :
      Step state .empty { state with mtx := none, phase := .waiting }
  | readClock (now : UInt64) (checking : state.phase = .checking) :
      Step state (.readClock now) { state with phase := .read now }
  | early (position : Nat) (now : UInt64) (top : Timer) (read : state.phase = .read now)
      (found : topAt expireTimeUs state.que position = some top)
      (later : now < expireTimeUs top) :
      Step state (.compare position) { state with phase := .early now }
  | due (position : Nat) (now : UInt64) (top : Timer) (read : state.phase = .read now)
      (found : topAt expireTimeUs state.que position = some top)
      (reached : ¬ now < expireTimeUs top) :
      Step state (.compare position) { state with phase := .due now }
  | sleep (position : Nat) (now : UInt64) (top : Timer) (early : state.phase = .early now)
      (found : topAt expireTimeUs state.que position = some top) :
      Step state (.sleep position) { state with
        mtx := none
        phase := .sleeping
        sleeps := ⟨top, now, expireTimeUs top - now⟩ :: state.sleeps }
  | wake (free : state.mtx = none) :
      Step state .wake { state with mtx := some .popper, phase := .checking }
  | spurious (waiting : state.phase = .waiting) : Step state .wake state
  | pop (position : Nat) (now : UInt64) (top : Timer) (due : state.phase = .due now)
      (found : topAt expireTimeUs state.que position = some top) :
      Step state (.pop position) { state with
        que := state.que.eraseIdx position
        phase := .leaving
        deliveries := ⟨top, now, state.que.eraseIdx position⟩ :: state.deliveries }
  | leave (leaving : state.phase = .leaving) :
      Step state .leave { state with mtx := none, phase := .outside }

variable {expireTimeUs}

theorem next_step {state after : State Timer} {event : Event Timer}
    (stepped : next expireTimeUs state event = some after) :
    Step expireTimeUs state event after := by
  cases event with
  | lock thread =>
      obtain ⟨free, same⟩ := Option.ite_none_right_eq_some.mp stepped
      cases same
      exact .lock thread free
  | push thread timer =>
      obtain ⟨held, same⟩ := Option.ite_none_right_eq_some.mp stepped
      cases same
      exact .push thread timer held
  | unlock thread =>
      obtain ⟨held, same⟩ := Option.ite_none_right_eq_some.mp stepped
      cases same
      exact .unlock thread held
  | call =>
      obtain ⟨free, same⟩ := Option.ite_none_right_eq_some.mp stepped
      cases same
      exact .call free.1 free.2
  | empty =>
      obtain ⟨checking, same⟩ := Option.ite_none_right_eq_some.mp stepped
      cases same
      exact .empty checking.1
  | readClock now =>
      obtain ⟨checking, same⟩ := Option.ite_none_right_eq_some.mp stepped
      cases same
      exact .readClock now checking.1
  | compare position =>
      simp only [next] at stepped
      split at stepped
      · rename_i now top read found
        split at stepped
        · rename_i later
          cases stepped
          exact .early position now top read found later
        · rename_i reached
          cases stepped
          exact .due position now top read found reached
      · cases stepped
  | sleep position =>
      simp only [next] at stepped
      split at stepped
      · rename_i now top early found
        cases stepped
        exact .sleep position now top early found
      · cases stepped
  | wake =>
      simp only [next] at stepped
      split at stepped
      · rename_i free
        split at stepped
        · cases stepped
          exact .wake free
        · rename_i waiting
          split at stepped
          · cases stepped
            exact .spurious waiting
          · cases stepped
            exact .wake free
        · cases stepped
      · cases stepped
  | pop position =>
      simp only [next] at stepped
      split at stepped
      · rename_i now top due found
        cases stepped
        exact .pop position now top due found
      · cases stepped
  | leave =>
      obtain ⟨leaving, same⟩ := Option.ite_none_right_eq_some.mp stepped
      cases same
      exact .leave leaving

/-- The timer thread is between two points where it has `mtx_`. -/
def Phase.inside : Phase → Bool
  | .outside | .sleeping | .waiting => false
  | _ => true

/-- The clock reading the timer thread works with. -/
def Phase.reading : Phase → Option UInt64
  | .read now | .early now | .due now => some now
  | _ => none

variable (expireTimeUs)

/-- What the comparison with the top found still holds of the queue: nothing has been
pushed since, as the timer thread holds the mutex. -/
def Compared (que : List Timer) : Phase → Prop
  | .early now => ∀ timer ∈ que, now < expireTimeUs timer
  | .due now => ∃ timer ∈ que, expireTimeUs timer ≤ now
  | _ => True

/-- A timer was returned behind a reading that had reached its time, and none that stayed
is earlier. -/
def Delivery.OnTime (delivery : Delivery Timer) : Prop :=
  expireTimeUs delivery.timer ≤ delivery.now ∧
    ∀ other ∈ delivery.left, expireTimeUs delivery.timer ≤ expireTimeUs other

/-- The subtraction is the exact one. -/
def Sleep.Exact (slept : Sleep Timer) : Prop :=
  slept.period.toNat + slept.now.toNat = (expireTimeUs slept.top).toNat

/-- What holds after the events so far. -/
structure Sound (past : List (Event Timer)) (state : State Timer) : Prop where
  kept : (state.deliveries.map (·.timer) ++ state.que).Perm (pushes past)
  held : state.phase.inside = true → state.mtx = some .popper
  read : ∀ now ∈ state.phase.reading, now ∈ readings past
  compared : Compared expireTimeUs state.que state.phase
  delivered : ∀ delivery ∈ state.deliveries,
    delivery.OnTime expireTimeUs ∧ delivery.now ∈ readings past
  slept : ∀ slept ∈ state.sleeps, slept.Exact expireTimeUs

variable {expireTimeUs}

variable {past : List (Event Timer)} {state after : State Timer} {event : Event Timer}
  {mtx : Option Holder} {phase : Phase} {thread position : Nat}

theorem sound_start : Sound expireTimeUs [] (start : State Timer) where
  kept := .nil
  held inside := absurd inside Bool.false_ne_true
  read _ reading := absurd reading (Option.not_mem_none _)
  compared := trivial
  delivered _ recorded := absurd recorded List.not_mem_nil
  slept _ recorded := absurd recorded List.not_mem_nil

theorem readings_grow {now : UInt64} (made : now ∈ readings past) :
    now ∈ readings (past ++ [event]) := by
  rw [readings_append]
  exact List.mem_append_left _ made

/-- The records of what was returned before stay right. -/
theorem Sound.delivered_grow (sound : Sound expireTimeUs past state) (event : Event Timer) :
    ∀ delivery ∈ state.deliveries,
      delivery.OnTime expireTimeUs ∧ delivery.now ∈ readings (past ++ [event]) := by
  intro delivery recorded
  obtain ⟨onTime, made⟩ := sound.delivered delivery recorded
  exact ⟨onTime, readings_grow made⟩

/-- A step of the timer thread that leaves the queue and the records alone. -/
theorem Sound.move (sound : Sound expireTimeUs past state) (quiet : pushes [event] = [])
    (held : phase.inside = true → mtx = some .popper)
    (read : ∀ now ∈ phase.reading, now ∈ readings (past ++ [event]))
    (compared : Compared expireTimeUs state.que phase) :
    Sound expireTimeUs (past ++ [event]) { state with mtx := mtx, phase := phase } where
  kept := by
    rw [pushes_quiet quiet]
    exact sound.kept
  held := held
  read := read
  compared := compared
  delivered := sound.delivered_grow event
  slept := sound.slept

theorem Phase.reading_of_outside (outside : phase.inside = false) : phase.reading = none := by
  cases phase with
  | read now => cases outside
  | early now => cases outside
  | due now => cases outside
  | _ => rfl

theorem compared_of_unread {que : List Timer} (unread : phase.reading = none) :
    Compared expireTimeUs que phase := by
  cases phase with
  | early now => cases unread
  | due now => cases unread
  | _ => trivial

theorem Sound.move_unread (sound : Sound expireTimeUs past state) (quiet : pushes [event] = [])
    (unread : phase.reading = none) (held : phase.inside = true → mtx = some .popper) :
    Sound expireTimeUs (past ++ [event]) { state with mtx := mtx, phase := phase } := by
  refine sound.move quiet held (fun now reading => ?_) (compared_of_unread unread)
  rw [unread] at reading
  cases reading

/-- While another thread holds the mutex, or none does, the timer thread is not inside. -/
theorem Sound.not_inside {past : List (Event Timer)} {state : State Timer}
    (sound : Sound expireTimeUs past state) (other : state.mtx ≠ some .popper) :
    state.phase.inside = false := by
  by_contra inside
  exact other (sound.held (Bool.eq_true_of_not_eq_false inside))

/-- A step of a thread in `Push` that does not insert. -/
theorem Sound.lend (sound : Sound expireTimeUs past state) (quiet : pushes [event] = [])
    (other : state.mtx ≠ some .popper) (mtx : Option Holder) :
    Sound expireTimeUs (past ++ [event]) { state with mtx := mtx } := by
  have outside := sound.not_inside other
  refine sound.move_unread quiet (Phase.reading_of_outside outside) (fun inside => ?_)
  rw [outside] at inside
  cases inside

theorem Sound.pushed (sound : Sound expireTimeUs past state) (timer : Timer)
    (held : state.mtx = some (.pusher thread)) :
    Sound expireTimeUs (past ++ [.push thread timer])
      { state with mtx := some (.pushed thread), que := timer :: state.que } := by
  have outside := sound.not_inside (by rw [held]; simp)
  have unread := Phase.reading_of_outside outside
  refine ⟨?_, fun inside => ?_, fun now reading => ?_, compared_of_unread unread,
    sound.delivered_grow _, sound.slept⟩
  · rw [pushes_append]
    calc (state.deliveries.map (·.timer) ++ timer :: state.que).Perm
          (timer :: (state.deliveries.map (·.timer) ++ state.que)) := List.perm_middle
      _ |>.Perm (timer :: pushes past) := sound.kept.cons timer
      _ |>.Perm (pushes past ++ [timer]) := (List.perm_append_singleton timer _).symm
  · rw [outside] at inside
    cases inside
  · rw [unread] at reading
    cases reading

theorem Sound.popped (sound : Sound expireTimeUs past state) {now : UInt64} {top : Timer}
    (due : state.phase = .due now) (found : topAt expireTimeUs state.que position = some top) :
    Sound expireTimeUs (past ++ [.pop position]) { state with
      que := state.que.eraseIdx position
      phase := .leaving
      deliveries := ⟨top, now, state.que.eraseIdx position⟩ :: state.deliveries } := by
  obtain ⟨there, least⟩ := topAt_some found
  have compared := sound.compared
  rw [due] at compared
  obtain ⟨timer, queued, reached⟩ := compared
  have read : now ∈ readings past := sound.read now (by rw [due]; rfl)
  have held := sound.held (by rw [due]; rfl)
  refine ⟨?_, fun _ => held, fun _ reading => absurd reading (Option.not_mem_none _), trivial, ?_,
    sound.slept⟩
  · have taken : (top :: state.que.eraseIdx position).Perm state.que := by
      obtain ⟨within, rfl⟩ := List.getElem?_eq_some_iff.mp there
      exact List.getElem_cons_eraseIdx_perm within
    rw [pushes_quiet rfl]
    exact List.perm_middle.symm.trans ((taken.append_left _).trans sound.kept)
  · intro delivery recorded
    rcases List.mem_cons.mp recorded with rfl | recorded
    · refine ⟨⟨UInt64.le_trans (least timer queued) reached, fun other left => ?_⟩,
        readings_grow read⟩
      exact least other (List.mem_of_mem_eraseIdx left)
    · exact sound.delivered_grow _ delivery recorded

theorem Sound.slept_exactly (sound : Sound expireTimeUs past state) {now : UInt64} {top : Timer}
    (early : state.phase = .early now) (found : topAt expireTimeUs state.que position = some top) :
    Sleep.Exact expireTimeUs ⟨top, now, expireTimeUs top - now⟩ := by
  have compared := sound.compared
  rw [early] at compared
  have later : now < expireTimeUs top :=
    compared top (List.mem_of_getElem? (topAt_some found).1)
  have below : now.toNat ≤ (expireTimeUs top).toNat := Nat.le_of_lt later
  show (expireTimeUs top - now).toNat + now.toNat = (expireTimeUs top).toNat
  rw [UInt64.toNat_sub_of_le _ _ below, Nat.sub_add_cancel below]

theorem Sound.step (sound : Sound expireTimeUs past state)
    (stepped : Step expireTimeUs state event after) :
    Sound expireTimeUs (past ++ [event]) after := by
  cases stepped with
  | lock thread free => exact sound.lend rfl (by rw [free]; simp) _
  | push thread timer held => exact sound.pushed timer held
  | unlock thread held => exact sound.lend rfl (by rw [held]; simp) _
  | call outside free => exact sound.move_unread rfl rfl (fun _ => rfl)
  | empty checking => exact sound.move_unread rfl rfl (absurd · Bool.false_ne_true)
  | readClock now checking =>
      refine sound.move rfl (fun _ => sound.held (by rw [checking]; rfl)) ?_ trivial
      intro reading same
      cases same
      rw [readings_append]
      exact List.mem_append_right _ List.mem_cons_self
  | early position now top read found later =>
      refine sound.move rfl (fun _ => sound.held (by rw [read]; rfl)) ?_ ?_
      · intro reading same
        exact readings_grow (sound.read reading (by rw [read]; exact same))
      · intro timer queued
        exact UInt64.lt_of_lt_of_le later ((topAt_some found).2 timer queued)
  | due position now top read found reached =>
      refine sound.move rfl (fun _ => sound.held (by rw [read]; rfl)) ?_ ?_
      · intro reading same
        exact readings_grow (sound.read reading (by rw [read]; exact same))
      · exact ⟨top, List.mem_of_getElem? (topAt_some found).1, UInt64.not_lt.mp reached⟩
  | sleep position now top early found =>
      have moved : Sound expireTimeUs (past ++ [.sleep position])
          { state with mtx := none, phase := .sleeping } :=
        sound.move_unread rfl rfl (absurd · Bool.false_ne_true)
      refine { moved with slept := fun slept recorded => ?_ }
      rcases List.mem_cons.mp recorded with rfl | recorded
      · exact sound.slept_exactly early found
      · exact sound.slept slept recorded
  | wake free => exact sound.move_unread rfl rfl (fun _ => rfl)
  | spurious waiting =>
      exact sound.move rfl sound.held (fun now reading => readings_grow (sound.read now reading))
        sound.compared
  | pop position now top due found => exact sound.popped due found
  | leave leaving => exact sound.move_unread rfl rfl (absurd · Bool.false_ne_true)

theorem sound_run {events : List (Event Timer)}
    (ran : run (next expireTimeUs) start events = some state) : Sound expireTimeUs events state :=
  run_traces (Sound expireTimeUs) (fun _ _ _ _ sound stepped => sound.step (next_step stepped))
    sound_start ran

/-- In every run each timer that was pushed is queued or was returned, once. It was returned
behind a reading of the clock that had reached its time, when none that stayed queued was
earlier. No sleep is computed by a subtraction that wraps. -/
theorem delivers_on_time {events : List (Event Timer)} {state : State Timer}
    (ran : run (next expireTimeUs) start events = some state) :
    (state.deliveries.map (·.timer) ++ state.que).Perm (pushes events) ∧
      (∀ delivery ∈ state.deliveries,
        delivery.OnTime expireTimeUs ∧ delivery.now ∈ readings events) ∧
      ∀ slept ∈ state.sleeps, slept.Exact expireTimeUs := by
  have sound := sound_run ran
  exact ⟨sound.kept, sound.delivered, sound.slept⟩

/-- While the timer thread sleeps for one timer, another thread pushes an earlier one. -/
def overtaken : List (Event UInt64) :=
  [.lock 1, .push 1 5, .unlock 1, .call, .readClock 3, .compare 0, .sleep 0, .lock 2, .push 2 2,
    .unlock 2, .wake, .readClock 4, .compare 0, .pop 0, .leave]

theorem delivers_on_time_overtaken :
    ∃ state, run (next id) start overtaken = some state ∧
      (state.deliveries.map (·.timer) = [2] ∧ state.que = [5] ∧
        state.sleeps.map (·.period) = [2]) ∧
      (state.deliveries.map (·.timer) ++ state.que).Perm (pushes overtaken) ∧
      (∀ delivery ∈ state.deliveries,
        delivery.OnTime id ∧ delivery.now ∈ readings overtaken) ∧
      ∀ slept ∈ state.sleeps, slept.Exact id := by
  obtain ⟨state, ran, shape⟩ : ∃ state, run (next id) start overtaken = some state ∧
      (state.deliveries.map (·.timer) = [2] ∧ state.que = [5] ∧
        state.sleeps.map (·.period) = [2]) :=
    run_checked (by decide)
  exact ⟨state, ran, shape, delivers_on_time ran⟩

/-- A timer that `BlockPop` takes is one the command model may pop: its time has come by
any clock that is not behind the reading, and it is the first in the queue. -/
theorem Sound.pops_timed {past : List (Event KeyTimer)} {state after : State KeyTimer}
    {timed : Timed} (sound : Sound (·.2.expireTimeUs) past state)
    (stepped : next (·.2.expireTimeUs) state (.pop position) = some after)
    (queue : timed.queue = state.que) (free : timed.popped = none)
    (clock : ∀ now ∈ state.phase.reading, now ≤ timed.now) :
    ∃ timer, timed.next (.pop position) =
      some { timed with queue := after.que, popped := some timer } := by
  cases next_step stepped with
  | pop position now top due found =>
      obtain ⟨there, least⟩ := topAt_some found
      have compared := sound.compared
      rw [due] at compared
      obtain ⟨timer, queued, reached⟩ := compared
      have ticked : now ≤ timed.now := clock now (by rw [due]; rfl)
      have ripe : top.2.expireTimeUs ≤ timed.now :=
        UInt64.le_trans (UInt64.le_trans (least timer queued) reached) ticked
      have first : state.que.all (fun other => top.2.expireTimeUs ≤ other.2.expireTimeUs) = true :=
        List.all_eq_true.mpr fun other queued => decide_eq_true (least other queued)
      refine ⟨top, ?_⟩
      simp only [Timed.next, free, queue, there, ripe, first, decide_true, Bool.and_self,
        ↓reduceIte]

end ForkRedis.TimerQue
