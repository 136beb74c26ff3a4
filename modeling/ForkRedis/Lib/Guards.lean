import ForkRedis.Lib.Machine
import Mathlib.Order.Preorder.Finite
import Mathlib.Order.WithBot
import Mathlib.Data.List.Basic

set_option autoImplicit false

/- Threads that take locks by guards. A guard takes its lock, shared or exclusive, when it
is built and gives it back at the end of its scope, so the scopes of a thread nest. Locks
that are always taken in the order of a rank cannot deadlock, and a field whose accesses
clash by the locks they are made under is not accessed by two threads at a time. -/
namespace Guards

open Machine

/-- How a lock is held, and how a field is accessed: a reader shares, a writer does not. -/
inductive Mode where
  | shared
  | exclusive
  deriving DecidableEq, Repr

/-- What a thread does in order: it accesses fields, and runs blocks under a guard. -/
inductive Block (Lock Field : Type) where
  | done
  | access (field : Field) (mode : Mode) (rest : Block Lock Field)
  | guarded (lock : Lock) (mode : Mode) (body rest : Block Lock Field)

inductive Op (Lock Field : Type) where
  | access (field : Field) (mode : Mode)
  | acquire (lock : Lock) (mode : Mode)
  | release (lock : Lock) (mode : Mode)
  deriving DecidableEq

/-- What a thread has still to do, and the locks it holds, the innermost first. -/
structure Thread (Lock Field : Type) where
  ops : List (Op Lock Field)
  held : List (Lock × Mode)

abbrev State (Lock Field : Type) := List (Thread Lock Field)

variable {Lock Field Rank : Type}

namespace Block

def ops : Block Lock Field → List (Op Lock Field)
  | .done => []
  | .access field mode rest => .access field mode :: rest.ops
  | .guarded lock mode body rest =>
      .acquire lock mode :: (body.ops ++ .release lock mode :: rest.ops)

/-- One block after the other. -/
def append : Block Lock Field → Block Lock Field → Block Lock Field
  | .done, second => second
  | .access field mode rest, second => .access field mode (rest.append second)
  | .guarded lock mode body rest, second => .guarded lock mode body (rest.append second)

def sequence : List (Block Lock Field) → Block Lock Field
  | [] => .done
  | first :: rest => first.append (sequence rest)

end Block

section Running

variable [DecidableEq Lock] (writersFirst : Bool)

/-- No thread holds a lock in a way that keeps it from being taken so. Where writers go
first, a thread that is about to take the lock for itself keeps readers from it too. -/
def admits (state : State Lock Field) : Op Lock Field → Bool
  | .access _ _ | .release _ _ => true
  | .acquire lock .exclusive => state.all fun thread => thread.held.all fun own => own.1 != lock
  | .acquire lock .shared => state.all fun thread =>
      !thread.held.contains (lock, .exclusive) &&
        !(writersFirst && match thread.ops with
          | .acquire wanted .exclusive :: _ => wanted == lock
          | _ => false)

def Thread.perform (op : Op Lock Field) (rest : List (Op Lock Field)) (thread : Thread Lock Field) :
    Thread Lock Field :=
  match op with
  | .access _ _ => ⟨rest, thread.held⟩
  | .acquire lock mode => ⟨rest, (lock, mode) :: thread.held⟩
  | .release lock mode => ⟨rest, thread.held.erase (lock, mode)⟩

/-- The events are the threads that take their next step. -/
def next (state : State Lock Field) (index : Nat) : Option (State Lock Field) :=
  match state[index]? with
  | some thread =>
      match thread.ops with
      | op :: rest =>
          if admits writersFirst state op then some (state.set index (thread.perform op rest))
          else none
      | [] => none
  | none => none

/-- No thread has begun. -/
def start (programs : List (Block Lock Field)) : State Lock Field :=
  programs.map fun program => ⟨program.ops, []⟩

def Finished (state : State Lock Field) : Prop := ∀ thread ∈ state, thread.ops = []

/-- Two threads are about to access a field, and not both of them read it. -/
def Racing (state : State Lock Field) (field : Field) : Prop :=
  ∃ first second : Nat, first ≠ second ∧ ∃ one two : Thread Lock Field,
    state[first]? = some one ∧ state[second]? = some two ∧ ∃ oneMode twoMode oneRest twoRest,
      one.ops = .access field oneMode :: oneRest ∧ two.ops = .access field twoMode :: twoRest ∧
      (oneMode = .exclusive ∨ twoMode = .exclusive)

end Running

/-- Two threads cannot hold these locks at a time. -/
def Clash (first second : List (Lock × Mode)) : Prop :=
  ∃ lock firstMode secondMode, (lock, firstMode) ∈ first ∧ (lock, secondMode) ∈ second ∧
    (firstMode = .exclusive ∨ secondMode = .exclusive)

theorem Clash.symm {first second : List (Lock × Mode)} (clash : Clash first second) :
    Clash second first := by
  obtain ⟨lock, firstMode, secondMode, inFirst, inSecond, writes⟩ := clash
  exact ⟨lock, secondMode, firstMode, inSecond, inFirst, writes.symm⟩

section Discipline

variable [Preorder Rank] (rank : Lock → Rank)
  (rule : Field → Mode → List (Lock × Mode) → Prop)

/-- Under the locks a block starts with, every guard takes a lock of higher rank than all
it is nested in, and every access is made under locks that the rule of the field allows. -/
def Block.Disciplined : List (Lock × Mode) → Block Lock Field → Prop
  | _, .done => True
  | held, .access field mode rest => rule field mode held ∧ Disciplined held rest
  | held, .guarded lock mode body rest =>
      (∀ outer ∈ held, rank outer.1 < rank lock) ∧ Disciplined ((lock, mode) :: held) body ∧
        Disciplined held rest

/-- The same of what is left of a thread's operations, which give back all that is held. -/
def Fits : List (Lock × Mode) → List (Op Lock Field) → Prop
  | held, [] => held = []
  | held, .access field mode :: rest => rule field mode held ∧ Fits held rest
  | held, .acquire lock mode :: rest =>
      (∀ outer ∈ held, rank outer.1 < rank lock) ∧ Fits ((lock, mode) :: held) rest
  | held, .release lock mode :: rest => ∃ outer, held = (lock, mode) :: outer ∧ Fits outer rest

variable {rank rule}

@[simp] theorem Block.disciplined_done (held : List (Lock × Mode)) :
    Disciplined rank rule held (.done : Block Lock Field) ↔ True := Iff.rfl

@[simp] theorem Block.disciplined_access (held : List (Lock × Mode)) (field : Field) (mode : Mode)
    (rest : Block Lock Field) :
    Disciplined rank rule held (.access field mode rest) ↔
      rule field mode held ∧ Disciplined rank rule held rest := Iff.rfl

@[simp] theorem Block.disciplined_guarded (held : List (Lock × Mode)) (lock : Lock) (mode : Mode)
    (body rest : Block Lock Field) :
    Disciplined rank rule held (.guarded lock mode body rest) ↔
      (∀ outer ∈ held, rank outer.1 < rank lock) ∧
        Disciplined rank rule ((lock, mode) :: held) body ∧ Disciplined rank rule held rest :=
  Iff.rfl

@[simp] theorem Block.disciplined_append (held : List (Lock × Mode)) (first second : Block Lock Field) :
    Disciplined rank rule held (first.append second) ↔
      Disciplined rank rule held first ∧ Disciplined rank rule held second := by
  induction first generalizing second with
  | done => simp [Block.append]
  | access field mode rest ih => simp [Block.append, ih, and_assoc]
  | guarded lock mode body rest _ ih => simp [Block.append, ih, and_assoc]

@[simp] theorem Block.disciplined_sequence (held : List (Lock × Mode))
    (blocks : List (Block Lock Field)) :
    Disciplined rank rule held (sequence blocks) ↔
      ∀ block ∈ blocks, Disciplined rank rule held block := by
  induction blocks with
  | nil => simp [sequence]
  | cons first rest ih => simp [sequence, ih]

/-- The operations of a disciplined block, in front of what fits behind it. -/
theorem Fits.block {held : List (Lock × Mode)} {block : Block Lock Field}
    {rest : List (Op Lock Field)} (disciplined : block.Disciplined rank rule held)
    (later : Fits rank rule held rest) : Fits rank rule held (block.ops ++ rest) := by
  induction block generalizing held rest with
  | done => exact later
  | access field mode _ ih => exact ⟨disciplined.1, ih disciplined.2 later⟩
  | guarded lock mode body _ inner outer =>
      rw [Block.ops, List.cons_append, List.append_assoc, List.cons_append]
      exact ⟨disciplined.1, inner disciplined.2.1 ⟨held, rfl, outer disciplined.2.2 later⟩⟩

/-- A thread that holds a lock has something left to do. -/
theorem Fits.unfinished {held : List (Lock × Mode)} {ops : List (Op Lock Field)}
    (fits : Fits rank rule held ops) {own : Lock × Mode} (holds : own ∈ held) : ops ≠ [] := by
  rintro rfl
  rw [show held = [] from fits] at holds
  cases holds

variable (rank rule)

/-- Every thread keeps to the discipline from where it is on, and no two hold locks that
clash. -/
structure Consistent (state : State Lock Field) : Prop where
  fits : ∀ thread ∈ state, Fits rank rule thread.held thread.ops
  apart : ∀ (first second : Nat) one two, first ≠ second → state[first]? = some one →
    state[second]? = some two → ¬ Clash one.held two.held

variable {rank rule} {state after : State Lock Field} {index : Nat} {thread : Thread Lock Field}
  {rest : List (Op Lock Field)}

theorem consistent_start {programs : List (Block Lock Field)}
    (disciplined : ∀ program ∈ programs, program.Disciplined rank rule []) :
    Consistent rank rule (start programs) where
  fits := by
    intro thread listed
    obtain ⟨program, member, rfl⟩ := List.mem_map.mp listed
    have nothing : Fits rank rule [] ([] : List (Op Lock Field)) := rfl
    simpa using Fits.block (disciplined program member) nothing
  apart := by
    rintro first second one two _ found _ ⟨lock, mode, _, holds, _⟩
    obtain ⟨program, _, rfl⟩ := List.mem_map.mp (List.mem_of_getElem? found)
    cases holds

/-- Accesses of a field that clash whenever one of them writes. -/
def Separates (rule : Field → Mode → List (Lock × Mode) → Prop) (field : Field) : Prop :=
  ∀ ⦃one two : Mode⦄ ⦃first second : List (Lock × Mode)⦄, rule field one first →
    rule field two second → (one = .exclusive ∨ two = .exclusive) → Clash first second

theorem Consistent.not_racing (consistent : Consistent rank rule state) {field : Field}
    (separates : Separates rule field) : ¬ Racing state field := by
  rintro ⟨first, second, differ, one, two, oneFound, twoFound, oneMode, twoMode, oneRest, twoRest,
    oneNext, twoNext, writes⟩
  have oneFits := consistent.fits one (List.mem_of_getElem? oneFound)
  have twoFits := consistent.fits two (List.mem_of_getElem? twoFound)
  rw [oneNext] at oneFits
  rw [twoNext] at twoFits
  exact consistent.apart first second one two differ oneFound twoFound
    (separates oneFits.1 twoFits.1 writes)

/-- How much all threads have still to do. -/
def left : State Lock Field → Nat
  | [] => 0
  | thread :: rest => thread.ops.length + left rest

theorem left_set {thread changed : Thread Lock Field} (found : state[index]? = some thread)
    (shorter : changed.ops.length + 1 = thread.ops.length) :
    left (state.set index changed) + 1 = left state := by
  induction state generalizing index with
  | nil => cases found
  | cons first rest ih =>
      cases index with
      | zero =>
          cases found
          simp only [left, List.set_cons_zero]
          omega
      | succ index =>
          have step := ih found
          simp only [left, List.set_cons_succ]
          omega

variable [DecidableEq Lock] {writersFirst : Bool}

/-- Everything a step of a thread can do. -/
theorem next_step (stepped : next writersFirst state index = some after) :
    ∃ thread op rest, state[index]? = some thread ∧ thread.ops = op :: rest ∧
      admits writersFirst state op = true ∧ after = state.set index (thread.perform op rest) := by
  unfold next at stepped
  split at stepped
  · rename_i thread found
    split at stepped
    · rename_i op rest current
      split at stepped
      · rename_i admitted
        exact ⟨thread, op, rest, found, current, admitted, (Option.some.inj stepped).symm⟩
      · cases stepped
    · cases stepped
  · cases stepped

/-- What a thread has still to do behind an operation fits the locks it then holds. -/
theorem Fits.perform {op : Op Lock Field} (fits : Fits rank rule thread.held (op :: rest)) :
    Fits rank rule (thread.perform op rest).held (thread.perform op rest).ops := by
  cases op with
  | access field mode => exact fits.2
  | acquire lock mode => exact fits.2
  | release lock mode =>
      obtain ⟨outer, held, later⟩ := fits
      rw [Thread.perform, held, List.erase_cons_head]
      exact later

/-- An operation that is admitted does not clash with what another thread holds. -/
theorem apart_perform {thread other : Thread Lock Field} {op : Op Lock Field}
    (member : other ∈ state) (admitted : admits writersFirst state op = true)
    (apart : ¬ Clash thread.held other.held) :
    ¬ Clash (thread.perform op rest).held other.held := by
  rintro ⟨lock, mode, otherMode, holds, otherHolds, writes⟩
  cases op with
  | access field accessed => exact apart ⟨lock, mode, otherMode, holds, otherHolds, writes⟩
  | release released how =>
      exact apart ⟨lock, mode, otherMode, List.mem_of_mem_erase holds, otherHolds, writes⟩
  | acquire taken how =>
      rcases List.mem_cons.mp holds with same | before
      · cases same
        cases mode with
        | exclusive =>
            have free := List.all_eq_true.mp (List.all_eq_true.mp admitted other member) _ otherHolds
            simp at free
        | shared =>
            have exclusive := writes.resolve_left nofun
            subst exclusive
            have free := List.all_eq_true.mp admitted other member
            simp only [Bool.and_eq_true, Bool.not_eq_true', List.contains_eq_mem,
              decide_eq_false_iff_not] at free
            exact free.1 otherHolds
      · exact apart ⟨lock, mode, otherMode, before, otherHolds, writes⟩

theorem Consistent.step (consistent : Consistent rank rule state)
    (stepped : next writersFirst state index = some after) : Consistent rank rule after := by
  obtain ⟨thread, op, rest, found, current, admitted, rfl⟩ := next_step stepped
  have member := List.mem_of_getElem? found
  have inside : index < state.length := (List.getElem?_eq_some_iff.mp found).1
  constructor
  · intro changed listed
    rcases List.mem_or_eq_of_mem_set listed with before | rfl
    · exact consistent.fits changed before
    · have fits := consistent.fits thread member
      rw [current] at fits
      exact fits.perform
  · intro first second one two differ oneFound twoFound
    rw [List.getElem?_set] at oneFound twoFound
    split at oneFound
    · rename_i at_
      subst at_
      rw [if_neg differ] at twoFound
      cases oneFound
      exact apart_perform (List.mem_of_getElem? twoFound) admitted
        (consistent.apart index second thread two differ found twoFound)
    · split at twoFound
      · rename_i at_
        subst at_
        cases twoFound
        intro clash
        exact apart_perform (List.mem_of_getElem? oneFound) admitted
          (consistent.apart index first thread one (Ne.symm differ) found oneFound) clash.symm
      · exact consistent.apart first second one two differ oneFound twoFound

theorem consistent_run {programs : List (Block Lock Field)}
    (disciplined : ∀ program ∈ programs, program.Disciplined rank rule []) {events : List Nat}
    {final : State Lock Field} (ran : run (next writersFirst) (start programs) events = some final) :
    Consistent rank rule final :=
  run_preserves (Consistent rank rule) (fun _ _ _ consistent stepped => consistent.step stepped)
    (consistent_start disciplined) ran

/-- The rank of the lock that a thread is about to take. -/
def wants (rank : Lock → Rank) (ops : List (Op Lock Field)) : WithBot Rank :=
  match ops with
  | .acquire lock _ :: _ => rank lock
  | _ => ⊥

/-- Whoever holds a lock has an operation left that is admitted, or wants a lock of higher
rank. -/
theorem Consistent.climbs (writersFirst : Bool) (consistent : Consistent rank rule state)
    (member : thread ∈ state) {own : Lock × Mode} (holds : own ∈ thread.held) :
    ∃ op rest, thread.ops = op :: rest ∧
      (admits writersFirst state op = true ∨ (rank own.1 : WithBot Rank) < wants rank thread.ops) := by
  have fits := consistent.fits thread member
  obtain ⟨op, rest, current⟩ := List.exists_cons_of_ne_nil (fits.unfinished holds)
  refine ⟨op, rest, current, ?_⟩
  rw [current] at fits ⊢
  cases op with
  | access field mode => exact Or.inl rfl
  | release lock mode => exact Or.inl rfl
  | acquire lock mode => exact Or.inr (WithBot.coe_lt_coe.mpr (fits.1 own holds))

theorem held_of_refused {lock : Lock}
    (refused : admits writersFirst state (.acquire lock .exclusive) = false) :
    ∃ thread ∈ state, ∃ own ∈ thread.held, own.1 = lock := by
  obtain ⟨thread, member, holding⟩ := List.all_eq_false.mp refused
  obtain ⟨own, holds, same⟩ := List.all_eq_false.mp (Bool.eq_false_iff.mpr holding)
  exact ⟨thread, member, own, holds, by simpa using same⟩

/-- A reader is kept from a lock by a thread that holds it, or by one that is about to take
it for itself. -/
theorem held_or_wanted_of_refused {lock : Lock}
    (refused : admits writersFirst state (.acquire lock .shared) = false) :
    (∃ thread ∈ state, ∃ own ∈ thread.held, own.1 = lock) ∨
      ∃ thread ∈ state, ∃ rest, thread.ops = .acquire lock .exclusive :: rest := by
  obtain ⟨thread, member, kept⟩ := List.all_eq_false.mp refused
  by_cases holds : (lock, Mode.exclusive) ∈ thread.held
  · exact Or.inl ⟨thread, member, _, holds, rfl⟩
  · refine Or.inr ⟨thread, member, ?_⟩
    simp only [List.contains_eq_mem, holds, decide_false, Bool.not_false, Bool.true_and,
      Bool.not_eq_true, Bool.not_eq_false', Bool.and_eq_true] at kept
    obtain ⟨_, waits⟩ := kept
    split at waits
    · rename_i wanted rest current
      exact ⟨rest, by rw [current, eq_of_beq waits]⟩
    · cases waits

theorem next_of_admitted {op : Op Lock Field} (found : state[index]? = some thread)
    (current : thread.ops = op :: rest) (admitted : admits writersFirst state op = true) :
    next writersFirst state index = some (state.set index (thread.perform op rest)) := by
  simp only [next, found, current, admitted, ↓reduceIte]

/-- Where no thread can take a step, an unfinished one waits for a lock that is held. -/
theorem holder_of_stuck {state : State Lock Field}
    (stuck : ∀ thread ∈ state, ∀ op rest, thread.ops = op :: rest →
      admits writersFirst state op = false)
    {thread : Thread Lock Field} (member : thread ∈ state) (unfinished : thread.ops ≠ []) :
    ∃ lock mode rest, thread.ops = .acquire lock mode :: rest ∧
      ∃ holder ∈ state, ∃ own ∈ holder.held, own.1 = lock := by
  obtain ⟨op, rest, current⟩ := List.exists_cons_of_ne_nil unfinished
  have refused := stuck thread member op rest current
  cases op with
  | access field mode => cases refused
  | release lock mode => cases refused
  | acquire lock mode =>
      refine ⟨lock, mode, rest, current, ?_⟩
      cases mode with
      | exclusive => exact held_of_refused refused
      | shared =>
          rcases held_or_wanted_of_refused refused with held | ⟨writer, among, after, wanted⟩
          · exact held
          · exact held_of_refused (stuck writer among _ after wanted)

/-- While a thread is unfinished some thread can take its next step: of the unfinished
threads, one that wants a lock of greatest rank waits for nobody. -/
theorem Consistent.progress (writersFirst : Bool) (consistent : Consistent rank rule state)
    (unfinished : ¬ Finished state) :
    ∃ index after, next writersFirst state index = some after := by
  by_contra nothing
  have stuck : ∀ thread ∈ state, ∀ op rest, thread.ops = op :: rest →
      admits writersFirst state op = false := by
    intro thread member op rest current
    obtain ⟨index, found⟩ := List.mem_iff_getElem?.mp member
    by_contra admitted
    exact nothing ⟨index, _, next_of_admitted found current (by simpa using admitted)⟩
  have finite : {thread | thread ∈ state ∧ thread.ops ≠ []}.Finite :=
    (List.finite_toSet state).subset fun _ both => both.1
  have inhabited : {thread | thread ∈ state ∧ thread.ops ≠ []}.Nonempty := by
    simpa [Finished, Set.Nonempty] using unfinished
  obtain ⟨top, ⟨member, left⟩, greatest⟩ :=
    finite.exists_maximalFor (fun thread => wants rank thread.ops) _ inhabited
  obtain ⟨lock, mode, rest, current, holder, among, own, holds, same⟩ :=
    holder_of_stuck stuck member left
  obtain ⟨op, later, holding, goes⟩ := consistent.climbs writersFirst among holds
  rcases goes with admitted | higher
  · rw [stuck holder among op later holding] at admitted
    cases admitted
  · have wanted : wants rank top.ops = rank own.1 := by rw [current, same, wants]
    have bound := greatest ⟨among, by rw [holding]; exact List.cons_ne_nil _ _⟩
      (by show wants rank top.ops ≤ _; rw [wanted]; exact higher.le)
    exact absurd (lt_of_lt_of_le higher bound) (by rw [← wanted]; exact lt_irrefl _)

theorem left_step (stepped : next writersFirst state index = some after) :
    left after + 1 = left state := by
  obtain ⟨thread, op, rest, found, current, _, rfl⟩ := next_step stepped
  apply left_set found
  rw [current]
  cases op <;> rfl

/-- A consistent state is no dead end: the threads can go on until all are finished. -/
theorem Consistent.finishes (writersFirst : Bool) {state : State Lock Field}
    (consistent : Consistent rank rule state) :
    ∃ events final, run (next writersFirst) state events = some final ∧ Finished final := by
  by_cases finished : Finished state
  · exact ⟨[], state, rfl, finished⟩
  · obtain ⟨index, after, stepped⟩ := consistent.progress writersFirst finished
    have fewer := left_step stepped
    obtain ⟨events, final, ran, done⟩ := (consistent.step stepped).finishes writersFirst
    exact ⟨index :: events, final, by rw [run, stepped]; exact ran, done⟩
termination_by left state

end Discipline

end Guards
