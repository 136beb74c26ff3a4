import ForkRedis.Lib.Nested

set_option autoImplicit false

/- `UPGradeLock`: every operation takes `mtx_` (the outer lock) by a `lock_guard` and works
on `mu_` (the inner one) under it. -/
namespace ForkRedis.UpgradeLock

open Machine Nested

def readLock : List Op := [.acquireOuter, .acquireShared, .releaseOuter]

def readUnlock : List Op := [.acquireOuter, .releaseShared, .releaseOuter]

def upGrade : List Op := [.acquireOuter, .releaseShared, .acquireExclusive, .releaseOuter]

def writeLock : List Op := [.acquireOuter, .acquireExclusive, .releaseOuter]

def writeUnlock : List Op := [.acquireOuter, .releaseExclusive, .releaseOuter]

inductive Section where
  | read
  | write
  | upgrade
  deriving DecidableEq, Repr

def Section.ops : Section → List Op
  | .read => readLock ++ readUnlock
  | .write => writeLock ++ writeUnlock
  | .upgrade => readLock ++ (upGrade ++ writeUnlock)

/-- What a thread does that runs through some sections. -/
def program (sections : List Section) : List Op := sections.flatMap Section.ops

/-- No thread has begun its first section. -/
def start (threads : List (List Section)) : State := State.start (threads.map program)

theorem program_disciplined (sections : List Section) :
    Disciplined false .none (program sections) := by
  induction sections with
  | nil => exact ⟨rfl, rfl⟩
  | cons first sections ih =>
      have later : Disciplined false .none (sections.flatMap Section.ops) := ih
      rw [program, List.flatMap_cons]
      cases first <;>
        simpa [Section.ops, readLock, readUnlock, upGrade, writeLock, writeUnlock, Disciplined]
          using later

/-- The section a thread with these steps left is in, from taking `mu_` to giving it back:
its next step on `mu_` is to give it back. -/
def inside : List Op → Mode
  | .releaseShared :: _ => .shared
  | .releaseExclusive :: _ => .exclusive
  | .acquireOuter :: rest | .releaseOuter :: rest => inside rest
  | _ => .none

theorem inside_of_disciplined {outer : Bool} {mode : Mode} {ops : List Op}
    (disciplined : Disciplined outer mode ops) : inside ops = mode := by
  induction ops generalizing outer mode with
  | nil => exact disciplined.2.symm
  | cons op rest ih =>
      rcases disciplined.uncons with ⟨rfl, _, later⟩ | ⟨_, ⟨rfl, later⟩ | ⟨rfl, mode, _⟩ |
        ⟨rfl, mode, _⟩ | ⟨rfl, mode, _⟩ | ⟨rfl, mode, _⟩⟩
      · exact ih later
      · exact ih later
      · exact mode.symm
      · exact mode.symm
      · exact mode.symm
      · exact mode.symm

/-- While a thread is in a write section no other one is in any section. -/
def Excludes (state : State) : Prop :=
  ∀ (writer other : Nat) writing ops, writer ≠ other → state.threads[writer]? = some writing →
    state.threads[other]? = some ops → inside writing = .exclusive → inside ops = .none

theorem excludes_of_consistent {state : State} (consistent : Consistent state) :
    Excludes state := by
  intro writer other writing ops apart wrote found exclusive
  rw [inside_of_disciplined (consistent.programs writer writing wrote)] at exclusive
  rw [inside_of_disciplined (consistent.programs other ops found)]
  have holder := State.mode_eq_exclusive_iff.mp exclusive
  apply State.mode_eq_none_iff.mpr
  constructor
  · rw [holder]
    exact fun same => apart (Option.some.inj same)
  · rw [consistent.alone (by rw [holder]; exact Option.some_ne_none writer)]
    exact List.not_mem_nil

/-- Whatever threads run and however their steps interleave, a writer is alone. There is no
deadlock exactly as long as `ReadLock` is begun only while no other thread is in a write
section, `WriteLock` only while no other thread is in any section, and `UPGrade` gives up
its shared lock only while no other thread is in a section. -/
theorem lock_safe_iff (threads : List (List Section)) {events : List Nat} {final : State}
    (ran : run next (start threads) events = some final) :
    (∀ reached ∈ visited next (start threads) events, ¬ Deadlocked reached ∧ Excludes reached) ↔
      Meets next (fun state thread => clear state thread = true) (start threads) events := by
  have disciplined : ∀ ops ∈ threads.map program, Disciplined false .none ops := by
    intro ops listed
    obtain ⟨sections, _, rfl⟩ := List.mem_map.mp listed
    exact program_disciplined sections
  have free_iff := deadlockFree_iff disciplined ran
  constructor
  · exact fun safe => free_iff.mp fun reached there => (safe reached there).1
  · intro meets reached there
    have free := free_iff.mpr meets
    exact ⟨free reached there,
      excludes_of_consistent (consistent_visited disciplined reached there)⟩

/-- Two readers at a time, of which one goes on to write when the other has left. -/
theorem lock_safe_upgrade :
    ∃ final, run next (start [[.read], [.upgrade]])
        [0, 0, 0, 1, 1, 1, 0, 0, 0, 1, 1, 1, 1, 1, 1, 1] = some final ∧
      final.threads = [[], []] ∧
      ∀ reached ∈ visited next (start [[.read], [.upgrade]])
        [0, 0, 0, 1, 1, 1, 0, 0, 0, 1, 1, 1, 1, 1, 1, 1],
        ¬ Deadlocked reached ∧ Excludes reached := by
  obtain ⟨final, ran, finished⟩ : ∃ final, run next (start [[.read], [.upgrade]])
      [0, 0, 0, 1, 1, 1, 0, 0, 0, 1, 1, 1, 1, 1, 1, 1] = some final ∧
      final.threads = [[], []] := run_checked (by decide)
  exact ⟨final, ran, finished, (lock_safe_iff _ ran).mpr (by decide)⟩

/-- A reader is in its section. A writer takes `mtx_` and waits for `mu_`; the reader cannot
give `mu_` back without `mtx_`. -/
theorem reader_writer_deadlock :
    ∃ final, run next (start [[.read], [.write]]) [0, 0, 0, 1] = some final ∧ Deadlocked final :=
  run_checked (by decide)

end ForkRedis.UpgradeLock
