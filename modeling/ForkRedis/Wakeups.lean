import ForkRedis.TimerQueue

set_option autoImplicit false

/- The condition variable of `TimerQue`: when the timer thread, asleep in `BlockPop`, is
notified, and what it may sleep through until then. -/
namespace ForkRedis.TimerQue

open Machine

variable {Timer : Type} (expireTimeUs : Timer → UInt64)

/-- What libstdc++ counts nanoseconds in. -/
def isInt64 (value : Int) : Bool := -2 ^ 63 ≤ value && value < 2 ^ 63

/-- `system_clock::now() + microseconds(sleep_period)`, in nanoseconds, from what the clock
reads: the period becomes a signed number, and an overflow is undefined. -/
def waitUntil (clock : Int) (period : UInt64) : Option Int :=
  let signed : Int := if period.toNat < 2 ^ 63 then period.toNat else period.toNat - 2 ^ 64
  let nanoseconds := 1000 * signed
  if isInt64 nanoseconds && isInt64 (clock + nanoseconds) then some (clock + nanoseconds) else none

/-- A deadline is not later than the clock reading and the period, and it is their sum for a
period that is a signed number. -/
theorem waitUntil_some {clock deadline : Int} {period : UInt64}
    (waits : waitUntil clock period = some deadline) :
    deadline ≤ clock + 1000 * period.toNat ∧
      (period.toNat < 2 ^ 63 → deadline = clock + 1000 * period.toNat) := by
  obtain ⟨-, same⟩ := Option.ite_none_right_eq_some.mp waits
  cases same
  split
  · exact ⟨le_rfl, fun _ => rfl⟩
  · rename_i large
    exact ⟨by omega, fun small => absurd small large⟩

/-- The queue, whether `notify_one` was called since the timer thread last went to sleep, and
the time point of the last `wait_until`. -/
structure Alarm (Timer : Type) where
  state : State Timer
  notified : Bool
  deadline : Int

namespace Alarm

def start : Alarm Timer := ⟨TimerQue.start, false, 0⟩

variable {alarm after : Alarm Timer} {moment : Event Timer × Int}
  {moments past : List (Event Timer × Int)}

/-- The sleep in `BlockPop` reads the clock once more, behind the reading that its period is
from. -/
def deadlineAfter (alarm : Alarm Timer) (after : State Timer) : Event Timer × Int → Option Int
  | (.sleep _, clock) => after.sleeps.head?.bind fun slept => waitUntil clock slept.period
  | _ => some alarm.deadline

/-- An event with what the clock reads then, in nanoseconds. `Push` notifies behind the
insertion, before it gives the mutex back. A wait whose condition does not hold when it wakes
up begins anew. -/
def next (alarm : Alarm Timer) (moment : Event Timer × Int) : Option (Alarm Timer) :=
  (TimerQue.next expireTimeUs alarm.state moment.1).bind fun after =>
    (alarm.deadlineAfter after moment).map fun deadline =>
      ⟨after, match moment.1 with
        | .unlock _ => true
        | .sleep _ | .empty => false
        | .wake => alarm.notified && after.phase != .waiting
        | _ => alarm.notified, deadline⟩

/-- The reading that a deadline is from. -/
def sleepReading : Event Timer × Int → Option Int
  | (.sleep _, clock) => some clock
  | _ => none

variable {expireTimeUs}

theorem run_state {alarm final : Alarm Timer}
    (ran : run (next expireTimeUs) alarm moments = some final) :
    run (TimerQue.next expireTimeUs) alarm.state (moments.map Prod.fst) = some final.state := by
  induction moments generalizing alarm with
  | nil =>
      cases ran
      rfl
  | cons moment moments ih =>
      obtain ⟨after, stepped, rest⟩ := Option.bind_eq_some_iff.mp ran
      obtain ⟨state, moved, timed⟩ := Option.bind_eq_some_iff.mp stepped
      obtain ⟨deadline, -, rfl⟩ := Option.map_eq_some_iff.mp timed
      rw [List.map_cons, run, moved]
      exact ih rest

/-- A thread in `Push` has inserted its timer and not notified yet. -/
def Pushing (state : State Timer) : Prop := ∃ thread, state.mtx = some (.pushed thread)

variable (expireTimeUs)

/-- What the timer thread may leave queued while it is asleep: nothing in the wait for a
timer, nothing earlier than the timer it sleeps for. -/
def Rests (state : State Timer) : Prop :=
  (state.phase = .waiting → state.que = []) ∧
    (state.phase = .sleeping → ∃ slept ∈ state.sleeps.head?,
      ∀ timer ∈ state.que, expireTimeUs slept.top ≤ expireTimeUs timer)

/-- The timer thread rests rightly, or has been notified, or will be. -/
def Alert (alarm : Alarm Timer) : Prop :=
  alarm.notified = true ∨ Pushing alarm.state ∨ Rests expireTimeUs alarm.state

variable {expireTimeUs}

def isAwake : Phase → Bool
  | .waiting | .sleeping => false
  | _ => true

theorem rests_of_awake {state : State Timer} (awake : isAwake state.phase = true) :
    Rests expireTimeUs state := by
  constructor
  · intro waiting
    rw [waiting] at awake
    cases awake
  · intro sleeping
    rw [sleeping] at awake
    cases awake

/-- A thread in `Push` that does not insert leaves the queue and the timer thread alone. -/
theorem Alert.lend (alert : alarm.Alert expireTimeUs) (free : ¬ Pushing alarm.state)
    (mtx : Option Holder) {deadline : Int} :
    Alert expireTimeUs ⟨{ alarm.state with mtx := mtx }, alarm.notified, deadline⟩ :=
  alert.imp id fun later => Or.inr (later.resolve_left free)

theorem Alert.step (alert : alarm.Alert expireTimeUs)
    (stepped : alarm.next expireTimeUs moment = some after) : after.Alert expireTimeUs := by
  obtain ⟨event, clock⟩ := moment
  obtain ⟨state, moved, timed⟩ := Option.bind_eq_some_iff.mp stepped
  obtain ⟨deadline, -, rfl⟩ := Option.map_eq_some_iff.mp timed
  have awake : ∀ {notified : Bool}, isAwake state.phase = true →
      Alert expireTimeUs ⟨state, notified, deadline⟩ :=
    fun awake => Or.inr (Or.inr (rests_of_awake awake))
  cases next_step moved with
  | lock thread free =>
      refine alert.lend ?_ _
      rintro ⟨pusher, held⟩
      rw [free] at held
      cases held
  | push thread timer held => exact Or.inr (Or.inl ⟨thread, rfl⟩)
  | unlock thread held => exact Or.inl rfl
  | call outside free => exact awake rfl
  | empty checking =>
      refine Or.inr (Or.inr ⟨fun _ => ?_, fun sleeping => Phase.noConfusion sleeping⟩)
      simp only [TimerQue.next] at moved
      split at moved
      · rename_i both
        exact List.isEmpty_iff.mp both.2
      · cases moved
  | readClock now checking => exact awake rfl
  | early position now top read found later => exact awake rfl
  | due position now top read found reached => exact awake rfl
  | sleep position now top early found =>
      exact Or.inr (Or.inr ⟨fun waiting => Phase.noConfusion waiting,
        fun _ => ⟨_, rfl, (topAt_some found).2⟩⟩)
  | wake free => exact awake rfl
  | spurious waiting =>
      refine Or.inr (Or.inr ⟨fun _ => ?_, fun sleeping => ?_⟩)
      · simp only [TimerQue.next, waiting] at moved
        split at moved
        · split at moved
          · rename_i empty
            exact List.isEmpty_iff.mp empty
          · rename_i filled
            have same := congrArg State.phase (Option.some.inj moved)
            rw [waiting] at same
            cases same
        · cases moved
      · rw [waiting] at sleeping
        cases sleeping
  | pop position now top due found => exact awake rfl
  | leave leaving => exact awake rfl

theorem alert_start : (start : Alarm Timer).Alert expireTimeUs :=
  Or.inr (Or.inr (rests_of_awake rfl))

theorem alert_run (ran : run (next expireTimeUs) start moments = some alarm) :
    alarm.Alert expireTimeUs :=
  run_preserves (Alert expireTimeUs) (fun _ _ _ alert stepped => alert.step stepped) alert_start ran

/-- The timer thread works with the last reading for the comparison, and while it sleeps its
deadline is from that and the last reading for a deadline. -/
structure Timed (past : List (Event Timer × Int)) (alarm : Alarm Timer) : Prop where
  read : ∀ now ∈ alarm.state.phase.reading, now ∈ (readings (past.map Prod.fst)).getLast?
  asleep : alarm.state.phase = .sleeping → ∃ slept ∈ alarm.state.sleeps.head?,
    slept.now ∈ (readings (past.map Prod.fst)).getLast? ∧
      ∃ clock ∈ (past.filterMap sleepReading).getLast?,
        waitUntil clock slept.period = some alarm.deadline

theorem timed_start : Timed [] (start : Alarm Timer) where
  read _ reading := absurd reading (Option.not_mem_none _)
  asleep sleeping := Phase.noConfusion sleeping

/-- An event that reads no clock, and behind which the timer thread sleeps only if it slept
before. -/
theorem Timed.frame {past : List (Event Timer × Int)} {alarm after : Alarm Timer}
    (timed : Timed past alarm) {moment : Event Timer × Int} (unread : readings [moment.1] = [])
    (quiet : sleepReading moment = none)
    (read : ∀ now ∈ after.state.phase.reading, now ∈ alarm.state.phase.reading)
    (asleep : after.state.phase = .sleeping → alarm.state.phase = .sleeping)
    (sleeps : after.state.sleeps = alarm.state.sleeps)
    (deadline : after.deadline = alarm.deadline) : Timed (past ++ [moment]) after := by
  have first : readings ((past ++ [moment]).map Prod.fst) = readings (past.map Prod.fst) := by
    rw [List.map_append, readings_append, List.map_singleton, unread, List.append_nil]
  have second : (past ++ [moment]).filterMap sleepReading = past.filterMap sleepReading := by
    rw [List.filterMap_append, List.filterMap_cons_none quiet, List.filterMap_nil, List.append_nil]
  constructor
  · rw [first]
    exact fun now reading => timed.read now (read now reading)
  · rw [first, second, sleeps, deadline]
    exact fun sleeping => timed.asleep (asleep sleeping)

theorem Timed.step (timed : Timed past alarm)
    (stepped : alarm.next expireTimeUs moment = some after) : Timed (past ++ [moment]) after := by
  obtain ⟨event, clock⟩ := moment
  obtain ⟨state, moved, rest⟩ := Option.bind_eq_some_iff.mp stepped
  obtain ⟨deadline, waits, rfl⟩ := Option.map_eq_some_iff.mp rest
  cases next_step moved with
  | lock | push | unlock | spurious =>
      cases waits
      exact timed.frame rfl rfl (fun _ reading => reading) id rfl rfl
  | call | empty | wake | pop | leave =>
      cases waits
      exact timed.frame rfl rfl (fun _ reading => absurd reading (Option.not_mem_none _))
        (fun sleeping => Phase.noConfusion sleeping) rfl rfl
  | readClock now checking =>
      refine ⟨fun other reading => ?_, fun sleeping => Phase.noConfusion sleeping⟩
      cases Option.mem_some_iff.mp reading
      rw [List.map_append, readings_append]
      exact List.getLast?_concat ..
  | early position now top read | due position now top read =>
      cases waits
      refine timed.frame rfl rfl (fun other reading => ?_)
        (fun sleeping => Phase.noConfusion sleeping) rfl rfl
      rw [read]
      exact reading
  | sleep position now top early found =>
      have first := timed.read now (by rw [early]; rfl)
      refine ⟨fun _ reading => absurd reading (Option.not_mem_none _), fun _ => ⟨_, rfl, ?_, clock,
        ?_, waits⟩⟩
      · rw [List.map_append, readings_append]
        show now ∈ (readings (past.map Prod.fst) ++ []).getLast?
        rwa [List.append_nil]
      · rw [List.filterMap_append]
        exact List.getLast?_concat ..

/-- The timer thread does not sleep past a timer: while it is asleep, was not notified and no
thread is about to notify it, nothing is queued, or nothing earlier than the timer it sleeps
for. The deadline is that timer's time, later by what passed from the reading of the clock
that the period is from to the one that the deadline is from. -/
theorem never_oversleeps {moments : List (Event Timer × Int)} {alarm : Alarm Timer}
    (ran : run (next expireTimeUs) start moments = some alarm) (quiet : alarm.notified = false)
    (settled : ∀ thread, alarm.state.mtx ≠ some (.pushed thread)) :
    (alarm.state.phase = .waiting → alarm.state.que = []) ∧
      (alarm.state.phase = .sleeping → ∃ slept ∈ alarm.state.sleeps.head?,
        (∀ timer ∈ alarm.state.que, expireTimeUs slept.top ≤ expireTimeUs timer) ∧
        slept.now ∈ (readings (moments.map Prod.fst)).getLast? ∧
        ∃ clock ∈ (moments.filterMap sleepReading).getLast?,
          alarm.deadline ≤ 1000 * (expireTimeUs slept.top).toNat + (clock - 1000 * slept.now.toNat) ∧
          (slept.period.toNat < 2 ^ 63 → alarm.deadline =
            1000 * (expireTimeUs slept.top).toNat + (clock - 1000 * slept.now.toNat))) := by
  have sound := sound_run (run_state ran)
  rcases alert_run ran with notified | ⟨thread, pushed⟩ | rests
  · rw [quiet] at notified
    cases notified
  · exact absurd pushed (settled thread)
  · refine ⟨rests.1, fun sleeping => ?_⟩
    obtain ⟨slept, last, least⟩ := rests.2 sleeping
    have timed : Timed ([] ++ moments) alarm :=
      run_traces Timed (fun _ _ _ _ timed stepped => timed.step stepped) timed_start ran
    obtain ⟨other, same, first, clock, second, waits⟩ := timed.asleep sleeping
    cases Option.mem_unique same last
    have exact : slept.period.toNat + slept.now.toNat = (expireTimeUs slept.top).toNat :=
      sound.slept slept (List.mem_of_mem_head? last)
    obtain ⟨bound, sum⟩ := waitUntil_some waits
    exact ⟨slept, last, least, first, clock, second, by omega, by omega⟩

/-- The timer thread sleeps for the earlier of two timers, for the two microseconds from its
reading of 3. Until the second reading there pass 7 nanoseconds. -/
theorem never_oversleeps_two :
    ∃ alarm, run (next id) start [(.lock 1, 0), (.push 1 9, 0), (.unlock 1, 0), (.lock 2, 0),
        (.push 2 5, 0), (.unlock 2, 0), (.call, 0), (.readClock 3, 3000), (.compare 0, 3005),
        (.sleep 0, 3007)] = some alarm ∧
      (alarm.notified = false ∧ alarm.state.mtx = none ∧ alarm.state.phase = .sleeping) ∧
      alarm.deadline = 5007 := by
  obtain ⟨alarm, ran, quiet, free, asleep, slept⟩ : ∃ alarm, run (next id) start
      [(.lock 1, 0), (.push 1 9, 0), (.unlock 1, 0), (.lock 2, 0), (.push 2 5, 0), (.unlock 2, 0),
        (.call, 0), (.readClock 3, 3000), (.compare 0, 3005), (.sleep 0, 3007)] = some alarm ∧
        alarm.notified = false ∧ alarm.state.mtx = none ∧ alarm.state.phase = .sleeping ∧
          alarm.state.sleeps.head?.map (fun slept => (slept.top, slept.now, slept.period)) =
            some (5, 3, 2) :=
    run_checked (by decide)
  have settled : ∀ thread, alarm.state.mtx ≠ some (.pushed thread) := by
    intro thread
    rw [free]
    exact Option.some_ne_none _ |>.symm
  obtain ⟨⟨_, _, _⟩, last, -, -, clock, second, -, exact⟩ :=
    (never_oversleeps ran quiet settled).2 asleep
  rw [Option.mem_def.mp last] at slept
  cases slept
  cases second
  exact ⟨alarm, ran, ⟨quiet, free, asleep⟩, exact (by decide)⟩

end Alarm

end ForkRedis.TimerQue
