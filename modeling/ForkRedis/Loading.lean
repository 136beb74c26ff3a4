import ForkRedis.Util
import ForkRedis.Lib.Fallible
import ForkRedis.Lib.Machine

set_option autoImplicit false

/- The start of a server that keeps a log. The constructor has read the file and truncated
it, and a thread of its own, `AOFLoad`, sends the log to the server as a client would. Before
the server begins to serve, `CheckAOFLoad` gives that thread its notice and joins it. -/
namespace ForkRedis.Loading

open Machine

/-- The main thread in `CheckAOFLoad`: before `AOFSyncNotice`, in it with the mutex, before
and behind the notification, and at `join`. -/
inductive MainPhase where
  | starting
  | noticing
  | noticed
  | joining
  | running
  deriving DecidableEq, Repr

/-- The other thread in `AOFLoad`, from `checking` to `woken` in `AOFSyncWait`. -/
inductive LoaderPhase where
  | opening
  | writing
  | checking
  | waiting
  | woken
  | closing
  | ended
  deriving DecidableEq, Repr

inductive Party where
  | main
  | loader
  deriving DecidableEq, Repr

/-- `rest` is what lies between `beg` and `end`, `transit` what the kernel has taken and
nobody has received, and `file` what there is on the disk. -/
structure State where
  main : MainPhase
  loader : LoaderPhase
  rest : Bytes
  aofMtx : Option Party
  aofLoadFlag : Bool
  transit : Bytes
  received : Bytes
  file : Bytes

/-- `fail` is a call of `socket`, `connect` or `write` that returns -1, and `wake` a wake-up
without a notification. -/
inductive Event where
  | lock (party : Party)
  | notice
  | unlock
  | join
  | connect
  | write (count : Nat)
  | fail
  | check
  | wake
  | relock
  | close
  | receive (count : Nat)
  deriving DecidableEq, Repr

/-- What `AOFLoad` sends: the file behind its magic number, if it has the right one. -/
def aofLoad (source : Bytes) : Except Fault (Option Bytes) := do
  let (magic, source) ← peekString 3 source
  return if magic = bytes "AOF" then some source else none

/-- Behind the constructor, with the file in the hands of the loading thread. -/
def start (source : Bytes) : Except Fault State := do
  match ← aofLoad source with
  | none => return ⟨.starting, .ended, [], none, false, [], [], []⟩
  | some rest => return ⟨.starting, .opening, rest, none, false, [], [], []⟩

/-- `notify_all`. -/
def rouse : LoaderPhase → LoaderPhase
  | .waiting => .woken
  | other => other

/-- The kernel takes `capacity` bytes before any of them has been received. There is no
database yet when the loading thread has been joined, so `CheckAOFLoad` writes a header. -/
def next (capacity : Nat) (state : State) : Event → Option State
  | .lock .main =>
      match state.aofMtx, state.main with
      | none, .starting => some { state with main := .noticing, aofMtx := some .main }
      | _, _ => none
  | .notice =>
      match state.main with
      | .noticing => some { state with
          main := .noticed, aofLoadFlag := true, loader := rouse state.loader }
      | _ => none
  | .unlock =>
      match state.main with
      | .noticed => some { state with main := .joining, aofMtx := none }
      | _ => none
  | .join =>
      match state.main, state.loader with
      | .joining, .ended => some { state with main := .running, file := state.file ++ bytes "AOF" }
      | _, _ => none
  | .connect =>
      match state.loader with
      | .opening => some { state with loader := .writing }
      | _ => none
  | .write count =>
      match state.loader with
      | .writing =>
          if 0 < count ∧ count ≤ state.rest.length ∧ state.transit.length + count ≤ capacity then
            some { state with
              rest := state.rest.drop count
              transit := state.transit ++ state.rest.take count }
          else none
      | _ => none
  | .fail =>
      match state.loader with
      | .opening => some { state with loader := .ended }
      | .writing => if state.rest = [] then none else some { state with loader := .ended }
      | _ => none
  | .lock .loader =>
      match state.aofMtx, state.loader with
      | none, .writing =>
          if state.rest = [] then some { state with loader := .checking, aofMtx := some .loader }
          else none
      | _, _ => none
  | .check =>
      match state.loader with
      | .checking => some { state with
          loader := if state.aofLoadFlag then .closing else .waiting, aofMtx := none }
      | _ => none
  | .wake =>
      match state.loader with
      | .waiting => some { state with loader := .woken }
      | _ => none
  | .relock =>
      match state.aofMtx, state.loader with
      | none, .woken => some { state with loader := .checking, aofMtx := some .loader }
      | _, _ => none
  | .close =>
      match state.loader with
      | .closing => some { state with loader := .ended }
      | _ => none
  | .receive count =>
      match state.main with
      | .running =>
          if count ≤ state.transit.length then
            some { state with
              transit := state.transit.drop count
              received := state.received ++ state.transit.take count }
          else none
      | _ => none

/-- The steps that `next` takes, with what it asks for. -/
inductive Step (capacity : Nat) (state : State) : Event → State → Prop where
  | lock (free : state.aofMtx = none) (at_ : state.main = .starting) :
      Step capacity state (.lock .main) { state with main := .noticing, aofMtx := some .main }
  | notice (at_ : state.main = .noticing) :
      Step capacity state .notice { state with
        main := .noticed, aofLoadFlag := true, loader := rouse state.loader }
  | unlock (at_ : state.main = .noticed) :
      Step capacity state .unlock { state with main := .joining, aofMtx := none }
  | join (at_ : state.main = .joining) (ended : state.loader = .ended) :
      Step capacity state .join { state with
        main := .running, file := state.file ++ bytes "AOF" }
  | connect (at_ : state.loader = .opening) :
      Step capacity state .connect { state with loader := .writing }
  | write (count : Nat) (at_ : state.loader = .writing) (some_ : 0 < count)
      (there : count ≤ state.rest.length) (room : state.transit.length + count ≤ capacity) :
      Step capacity state (.write count) { state with
        rest := state.rest.drop count
        transit := state.transit ++ state.rest.take count }
  | fail : Step capacity state .fail { state with loader := .ended }
  | enter (free : state.aofMtx = none) (at_ : state.loader = .writing) (done : state.rest = []) :
      Step capacity state (.lock .loader) { state with
        loader := .checking, aofMtx := some .loader }
  | check (at_ : state.loader = .checking) :
      Step capacity state .check { state with
        loader := if state.aofLoadFlag then .closing else .waiting, aofMtx := none }
  | wake (at_ : state.loader = .waiting) : Step capacity state .wake { state with loader := .woken }
  | relock (free : state.aofMtx = none) (at_ : state.loader = .woken) :
      Step capacity state .relock { state with loader := .checking, aofMtx := some .loader }
  | close (at_ : state.loader = .closing) :
      Step capacity state .close { state with loader := .ended }
  | receive (count : Nat) (at_ : state.main = .running) (there : count ≤ state.transit.length) :
      Step capacity state (.receive count) { state with
        transit := state.transit.drop count
        received := state.received ++ state.transit.take count }

theorem next_step {capacity : Nat} {state after : State} {event : Event}
    (stepped : next capacity state event = some after) : Step capacity state event after := by
  cases event with
  | lock party =>
      cases party with
      | main =>
          simp only [next] at stepped
          split at stepped
          · cases stepped
            exact .lock ‹_› ‹_›
          · cases stepped
      | loader =>
          simp only [next] at stepped
          split at stepped
          · split at stepped
            · cases stepped
              exact .enter ‹_› ‹_› ‹_›
            · cases stepped
          · cases stepped
  | notice =>
      simp only [next] at stepped
      split at stepped
      · cases stepped
        exact .notice ‹_›
      · cases stepped
  | unlock =>
      simp only [next] at stepped
      split at stepped
      · cases stepped
        exact .unlock ‹_›
      · cases stepped
  | join =>
      simp only [next] at stepped
      split at stepped
      · cases stepped
        exact .join ‹_› ‹_›
      · cases stepped
  | connect =>
      simp only [next] at stepped
      split at stepped
      · cases stepped
        exact .connect ‹_›
      · cases stepped
  | write count =>
      simp only [next] at stepped
      split at stepped
      · split at stepped
        · rename_i bounds
          cases stepped
          exact .write count ‹_› bounds.1 bounds.2.1 bounds.2.2
        · cases stepped
      · cases stepped
  | fail =>
      simp only [next] at stepped
      split at stepped
      · cases stepped
        exact .fail
      · split at stepped
        · cases stepped
        · cases stepped
          exact .fail
      · cases stepped
  | check =>
      simp only [next] at stepped
      split at stepped
      · cases stepped
        exact .check ‹_›
      · cases stepped
  | wake =>
      simp only [next] at stepped
      split at stepped
      · cases stepped
        exact .wake ‹_›
      · cases stepped
  | relock =>
      simp only [next] at stepped
      split at stepped
      · cases stepped
        exact .relock ‹_› ‹_›
      · cases stepped
  | close =>
      simp only [next] at stepped
      split at stepped
      · cases stepped
        exact .close ‹_›
      · cases stepped
  | receive count =>
      simp only [next] at stepped
      split at stepped
      · split at stepped
        · cases stepped
          exact .receive count ‹_› ‹_›
        · cases stepped
      · cases stepped

/-- What holds while no call has failed. -/
structure Sound (capacity : Nat) (stream : Bytes) (state : State) : Prop where
  mainOwns : state.aofMtx = some .main ↔ state.main = .noticing ∨ state.main = .noticed
  loaderOwns : state.aofMtx = some .loader ↔ state.loader = .checking
  flagged : state.aofLoadFlag = false ↔ state.main = .starting ∨ state.main = .noticing
  alert : state.loader = .waiting → state.aofLoadFlag = false
  kept : state.received ++ state.transit ++ state.rest = stream
  written : state.rest = [] ∨ state.loader = .opening ∨ state.loader = .writing
  unread : state.main ≠ .running →
    state.received = [] ∧ state.transit.length ≤ capacity ∧ state.file = []
  joined : state.main = .running →
    state.loader = .ended ∧ stream.length ≤ capacity ∧ state.file = bytes "AOF"

theorem sound_start {capacity : Nat} {source : Bytes} {state : State}
    (began : start source = .ok state) : Sound capacity state.rest state := by
  obtain ⟨sent, -, made⟩ := Fallible.bind_eq_ok.mp began
  cases sent with
  | none =>
      cases made
      constructor <;> simp
  | some rest =>
      cases made
      constructor <;> simp

namespace Sound

variable {capacity : Nat} {stream : Bytes} {state : State}

/-- While the loading thread is at work, the main thread has not joined it. -/
theorem not_running (sound : Sound capacity stream state) (working : state.loader ≠ .ended) :
    state.main ≠ .running :=
  fun running => working (sound.joined running).1

theorem notice (sound : Sound capacity stream state) (at_ : state.main = .noticing) :
    Sound capacity stream { state with
      main := .noticed, aofLoadFlag := true, loader := rouse state.loader } :=
  have owned : state.aofMtx = some .main := sound.mainOwns.mpr (.inl at_)
  { sound with
    mainOwns := by simp [owned]
    loaderOwns := by
      have elsewhere : state.loader ≠ .checking := fun checking => by
        simp [sound.loaderOwns.mpr checking] at owned
      cases phase : state.loader <;> simp_all [rouse]
    flagged := by simp
    alert := by cases phase : state.loader <;> simp [rouse]
    written := by
      rcases sound.written with done | opening | writing
      · exact .inl done
      · exact .inr (.inl (by rw [opening]; rfl))
      · exact .inr (.inr (by rw [writing]; rfl))
    unread := fun _ => sound.unread (by simp [at_])
    joined := nofun }

theorem step {after : State} {event : Event} (sound : Sound capacity stream state)
    (works : event ≠ .fail) (stepped : next capacity state event = some after) :
    Sound capacity stream after := by
  cases next_step stepped with
  | fail => exact absurd rfl works
  | lock free at_ =>
      exact { sound with
        mainOwns := by simp
        loaderOwns := by simp [← sound.loaderOwns, free]
        flagged := by simp [sound.flagged, at_]
        unread := fun _ => sound.unread (by simp [at_])
        joined := nofun }
  | notice at_ => exact sound.notice at_
  | unlock at_ =>
      exact { sound with
        mainOwns := by simp
        loaderOwns := by simp [← sound.loaderOwns, sound.mainOwns.mpr (.inr at_)]
        flagged := by simp [sound.flagged, at_]
        unread := fun _ => sound.unread (by simp [at_])
        joined := nofun }
  | join at_ ended =>
      obtain ⟨received, room, file⟩ := sound.unread (by simp [at_])
      have done : state.rest = [] := by simpa [ended] using sound.written
      have kept := sound.kept
      rw [received, done, List.nil_append, List.append_nil] at kept
      exact { sound with
        mainOwns := by simp [sound.mainOwns, at_]
        flagged := by simp [sound.flagged, at_]
        unread := fun differs => absurd rfl differs
        joined := fun _ => ⟨ended, kept ▸ room, by simp [file]⟩ }
  | connect at_ =>
      have running := sound.not_running (by simp [at_])
      exact { sound with
        loaderOwns := by simp [sound.loaderOwns, at_]
        alert := nofun
        written := .inr (.inr rfl)
        joined := fun joined => absurd joined running }
  | write count at_ some_ there room =>
      have running := sound.not_running (by simp [at_])
      exact { sound with
        kept := by simp [← sound.kept]
        written := .inr (.inr at_)
        unread := fun _ => by
          obtain ⟨received, -, file⟩ := sound.unread running
          exact ⟨received, by simp; omega, file⟩
        joined := fun joined => absurd joined running }
  | enter free at_ done =>
      have running := sound.not_running (by simp [at_])
      exact { sound with
        mainOwns := by simp [← sound.mainOwns, free]
        loaderOwns := by simp
        alert := nofun
        written := .inl done
        joined := fun joined => absurd joined running }
  | check at_ =>
      have running := sound.not_running (by simp [at_])
      exact { sound with
        mainOwns := by simp [← sound.mainOwns, sound.loaderOwns.mpr at_]
        loaderOwns := by cases state.aofLoadFlag <;> simp
        alert := by cases state.aofLoadFlag <;> simp
        written := .inl (by simpa [at_] using sound.written)
        joined := fun joined => absurd joined running }
  | wake at_ =>
      have running := sound.not_running (by simp [at_])
      exact { sound with
        loaderOwns := by simp [sound.loaderOwns, at_]
        alert := nofun
        written := .inl (by simpa [at_] using sound.written)
        joined := fun joined => absurd joined running }
  | relock free at_ =>
      have running := sound.not_running (by simp [at_])
      exact { sound with
        mainOwns := by simp [← sound.mainOwns, free]
        loaderOwns := by simp
        alert := nofun
        written := .inl (by simpa [at_] using sound.written)
        joined := fun joined => absurd joined running }
  | close at_ =>
      have running := sound.not_running (by simp [at_])
      exact { sound with
        loaderOwns := by simp [sound.loaderOwns, at_]
        alert := nofun
        written := .inl (by simpa [at_] using sound.written)
        joined := fun joined => absurd joined running }
  | receive count at_ there =>
      exact { sound with
        kept := by simp [← sound.kept]
        unread := fun differs => absurd at_ differs }

end Sound

theorem sound_run {capacity : Nat} {stream : Bytes} {state after : State} {events : List Event}
    (sound : Sound capacity stream state) (works : .fail ∉ events)
    (ran : run (next capacity) state events = some after) : Sound capacity stream after := by
  induction events generalizing state with
  | nil =>
      cases ran
      exact sound
  | cons event events ih =>
      obtain ⟨between, stepped, later⟩ := Option.bind_eq_some_iff.mp ran
      obtain ⟨now, then_⟩ := not_or.mp (List.mem_cons.not.mp works)
      exact ih (sound.step (Ne.symm now) stepped) then_ later

/-- What the main thread still has to do. -/
def MainPhase.ahead : MainPhase → Nat
  | .starting => 4
  | .noticing => 3
  | .noticed => 2
  | .joining => 1
  | .running => 0

/-- What the loading thread still has to do. One that waits has less before it than one that
is woken; the notice that wakes it brings the main thread on. -/
def LoaderPhase.ahead : LoaderPhase → Nat
  | .opening => 5
  | .writing => 4
  | .woken => 3
  | .checking => 2
  | .waiting | .closing => 1
  | .ended => 0

def remaining (state : State) : Nat :=
  4 * state.main.ahead + state.loader.ahead + state.rest.length

/-- One of the two threads can take a step, without a failing call, that leaves less to do. -/
def GoesOn (capacity : Nat) (state : State) : Prop :=
  ∃ event after, next capacity state event = some after ∧ event ≠ .fail ∧
    remaining after < remaining state

namespace Sound

variable {capacity : Nat} {stream : Bytes} {state : State}

/-- A log that fits always finds room for its next byte. -/
theorem write_goes_on (sound : Sound capacity stream state) (fits : stream.length ≤ capacity)
    (at_ : state.loader = .writing) (more : state.rest ≠ []) : GoesOn capacity state := by
  have filled : 0 < state.rest.length := List.length_pos_iff.mpr more
  have total := congrArg List.length sound.kept
  simp only [List.length_append] at total
  have room : 0 < 1 ∧ 1 ≤ state.rest.length ∧ state.transit.length + 1 ≤ capacity := by omega
  refine ⟨.write 1, { state with
    rest := state.rest.drop 1
    transit := state.transit ++ state.rest.take 1 }, ?_, nofun, ?_⟩
  · simp only [next, at_]
    exact if_pos room
  · simp only [remaining, List.length_drop]
    omega

/-- Outside `AOFSyncNotice` and `AOFSyncWait` nobody has the mutex. -/
theorem free (sound : Sound capacity stream state)
    (outside : state.main ≠ .noticing ∧ state.main ≠ .noticed) (elsewhere : state.loader ≠ .checking) :
    state.aofMtx = none := by
  cases owner : state.aofMtx with
  | none => rfl
  | some party =>
      cases party with
      | main => exact absurd (sound.mainOwns.mp owner) (not_or.mpr outside)
      | loader => exact absurd (sound.loaderOwns.mp owner) elsewhere

/-- With the mutex, the loading thread looks at the flag and gives the mutex back. -/
theorem check_goes_on (at_ : state.loader = .checking) : GoesOn capacity state := by
  refine ⟨.check, { state with
    loader := if state.aofLoadFlag then .closing else .waiting, aofMtx := none }, ?_, nofun, ?_⟩
  · simp only [next, at_]
  · cases flag : state.aofLoadFlag <;> simp [remaining, at_, LoaderPhase.ahead]

/-- Behind the notice, the loading thread comes to its end. -/
theorem loader_goes_on (sound : Sound capacity stream state) (fits : stream.length ≤ capacity)
    (at_ : state.main = .joining) (working : state.loader ≠ .ended) : GoesOn capacity state := by
  have outside : state.main ≠ .noticing ∧ state.main ≠ .noticed := by simp [at_]
  cases phase : state.loader with
  | opening =>
      exact ⟨.connect, { state with loader := .writing }, by simp only [next, phase], nofun,
        by simp [remaining, phase, LoaderPhase.ahead]⟩
  | writing =>
      by_cases done : state.rest = []
      · have free := sound.free outside (by simp [phase])
        exact ⟨.lock .loader, { state with loader := .checking, aofMtx := some .loader },
          by simp only [next, free, phase, done, ↓reduceIte], nofun,
          by simp [remaining, phase, LoaderPhase.ahead]⟩
      · exact sound.write_goes_on fits phase done
  | checking => exact check_goes_on phase
  | waiting =>
      -- it would have been woken by the notice
      have early := sound.flagged.mp (sound.alert phase)
      simp [at_] at early
  | woken =>
      have free := sound.free outside (by simp [phase])
      exact ⟨.relock, { state with loader := .checking, aofMtx := some .loader },
        by simp only [next, free, phase], nofun, by simp [remaining, phase, LoaderPhase.ahead]⟩
  | closing =>
      exact ⟨.close, { state with loader := .ended }, by simp only [next, phase], nofun,
        by simp [remaining, phase, LoaderPhase.ahead]⟩
  | ended => exact absurd phase working

theorem goes_on (sound : Sound capacity stream state) (fits : stream.length ≤ capacity)
    (idle : state.main ≠ .running) : GoesOn capacity state := by
  cases phase : state.main with
  | starting =>
      by_cases checking : state.loader = .checking
      · exact check_goes_on checking
      · have free := sound.free (by simp [phase]) checking
        exact ⟨.lock .main, { state with main := .noticing, aofMtx := some .main },
          by simp only [next, free, phase], nofun, by simp [remaining, phase, MainPhase.ahead]⟩
  | noticing =>
      refine ⟨.notice, { state with
        main := .noticed, aofLoadFlag := true, loader := rouse state.loader },
        by simp only [next, phase], nofun, ?_⟩
      cases at_ : state.loader <;>
        simp [remaining, phase, at_, rouse, MainPhase.ahead, LoaderPhase.ahead]
  | noticed =>
      exact ⟨.unlock, { state with main := .joining, aofMtx := none }, by simp only [next, phase],
        nofun, by simp [remaining, phase, MainPhase.ahead]⟩
  | joining =>
      by_cases ended : state.loader = .ended
      · exact ⟨.join, { state with main := .running, file := state.file ++ bytes "AOF" },
          by simp only [next, phase, ended], nofun, by simp [remaining, phase, MainPhase.ahead]⟩
      · exact sound.loader_goes_on fits phase ended
  | running => exact absurd phase idle

/-- A log that fits is loaded, from wherever the two threads are. -/
theorem comes_to_run (sound : Sound capacity stream state) (fits : stream.length ≤ capacity) :
    ∃ later final, run (next capacity) state later = some final ∧ .fail ∉ later ∧
      final.main = .running := by
  induction bound : remaining state using Nat.strong_induction_on generalizing state with
  | _ count ih =>
      by_cases running : state.main = .running
      · exact ⟨[], state, rfl, List.not_mem_nil, running⟩
      · obtain ⟨event, after, stepped, works, less⟩ := sound.goes_on fits running
        obtain ⟨later, final, ran, alike, reached⟩ :=
          ih (remaining after) (bound ▸ less) (sound.step works stepped) rfl
        refine ⟨event :: later, final, ?_, ?_, reached⟩
        · rw [run, stepped]
          exact ran
        · exact List.mem_cons.not.mpr (not_or.mpr ⟨works.symm, alike⟩)

end Sound

/-- While no call fails: from wherever the two threads are, the server can come to serve its
clients exactly if the kernel takes the whole log while nobody receives it. Then the log is
what it receives, and until then there is nothing on the disk. -/
theorem serves_iff_fits (capacity : Nat) {source : Bytes} {first state : State}
    {events : List Event} (began : start source = .ok first)
    (ran : run (next capacity) first events = some state) (works : .fail ∉ events) :
    ((∃ later final, run (next capacity) state later = some final ∧ .fail ∉ later ∧
        final.main = .running) ↔ first.rest.length ≤ capacity) ∧
      (state.main = .running → state.received ++ state.transit = first.rest) ∧
      (state.main ≠ .running → state.file = []) := by
  have sound := sound_run (sound_start began) works ran
  refine ⟨⟨?_, sound.comes_to_run⟩, fun running => ?_, fun idle => (sound.unread idle).2.2⟩
  · rintro ⟨later, final, went, alike, running⟩
    exact ((sound_run sound alike went).joined running).2.1
  · have done : state.rest = [] := by simpa [(sound.joined running).1] using sound.written
    rw [← sound.kept, done, List.append_nil]

/-- A log of five bytes, and a kernel that takes three of them. -/
theorem serves_iff_fits_three :
    ∃ first state, start (bytes "AOF[\"A\"]") = .ok first ∧
      run (next 3) first [.connect, .lock .main, .write 2, .notice, .write 1, .unlock] =
        some state ∧
      ¬ ∃ later final, run (next 3) state later = some final ∧ .fail ∉ later ∧
        final.main = .running := by
  have began : start (bytes "AOF[\"A\"]") =
      .ok ⟨.starting, .opening, bytes "[\"A\"]", none, false, [], [], []⟩ := by rfl
  obtain ⟨state, ran, -⟩ : ∃ state, run (next 3)
      ⟨.starting, .opening, bytes "[\"A\"]", none, false, [], [], []⟩
      [.connect, .lock .main, .write 2, .notice, .write 1, .unlock] = some state ∧
        state.main = .joining :=
    run_checked (by decide)
  refine ⟨_, state, began, ran, fun served => ?_⟩
  have fits := (serves_iff_fits 3 began ran (by decide)).1.mp served
  exact absurd fits (by decide)

end ForkRedis.Loading
