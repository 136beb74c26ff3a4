import ForkRedis.Timers
import ForkRedis.Snapshot
import ForkRedis.Stops

set_option autoImplicit false

/- A life of the process that keeps a dump. The timer thread takes the images of the databases
one after the other while clients go on, and then writes the file anew, call by call. Whatever
the process is doing when it stops, the next life has nothing but that file. -/
namespace ForkRedis

open Lists Fallible Machine

namespace Dumping

/-- How far `RdbTimer::Exec` is. -/
inductive Phase where
  | waiting
  /-- In `DatabaseSave`, between two databases. -/
  | collecting (images : List Bytes)
  /-- In `Save` of the next database, with the names that are still to be visited. -/
  | saving (images : List Bytes) (head : Bytes) (left codes : List Bytes)
  /-- In `RDBSave`, with the calls that are still to be made. -/
  | writing (calls : List FileCall)

/-- `DatabaseSave` holds `db_mtx_`. -/
def Phase.listing : Phase → Bool
  | .collecting _ | .saving _ _ _ _ => true
  | .waiting | .writing _ => false

def Phase.isWriting : Phase → Bool
  | .writing _ => true
  | .waiting | .collecting _ | .saving _ _ _ _ => false

/-- The command thread and the timers of the keys, what the timer thread does besides, and the
file. -/
structure Life where
  timed : Timed
  phase : Phase
  file : Bytes

def Life.databases (state : Life) : List Db := state.timed.server.databases

inductive Event where
  | other (event : Timed.Event)
  | begin
  | enter
  | encode
  | leave
  | write
  | call
  | finish

/-- A life begins with the databases that were loaded and a file that is truncated. -/
def born (timed : Timed) : Life := ⟨timed, .waiting, []⟩

/-- Insertion and deletion need the latch of the database, which its `Save` holds. -/
def Phase.blocks (phase : Phase) (update : Nat × Update) : Bool :=
  match phase, update.2 with
  | .saving images _ _ _, .insert _ _ => update.1 == images.length
  | .saving images _ _ _, .erase _ => update.1 == images.length
  | _, _ => false

/-- What else can happen while the timer thread is at a dump: no other timer is executed, and no
database is added while `db_mtx_` is held. -/
def Life.admits (state : Life) (after : Timed) : Timed.Event → Bool
  | .pop _ | .fire => match state.phase with
      | .waiting => true
      | _ => false
  | .update => !state.timed.running.head?.any state.phase.blocks
  | .start _ _ _ =>
      !state.phase.listing || after.server.databases.length == state.databases.length
  | .tick _ | .connect _ | .disconnect _ | .push => true

/-- A `Save` that raises has no next state: the process ends. -/
def next (conf : DumpConf) (state : Life) : Event → Option Life
  | .other event =>
      match state.timed.next event with
      | none => none
      | some after =>
          if state.admits after event then some { state with timed := after } else none
  | .begin =>
      match state.phase, state.timed.popped with
      | .waiting, none => some { state with phase := .collecting [] }
      | _, _ => none
  | .enter =>
      match state.phase with
      | .collecting images =>
          match state.databases[images.length]? with
          | none => none
          | some db => some { state with
              phase := if db.keyValueMap.items.isEmpty then .collecting (images ++ [[]])
                else .saving images (Shared.header db) (Shared.names db) [] }
      | _ => none
  | .encode =>
      match state.phase with
      | .saving images head (name :: left) codes =>
          match state.databases[images.length]? with
          | none => none
          | some db =>
              match Shared.encodeNamed conf db name with
              | .ok code => some { state with phase := .saving images head left (codes ++ [code]) }
              | .error _ => none
      | _ => none
  | .leave =>
      match state.phase with
      | .saving images head [] codes =>
          some { state with phase := .collecting (images ++ [head ++ codes.flatten]) }
      | _ => none
  | .write =>
      match state.phase with
      | .collecting images =>
          if images.length = state.databases.length then
            some { state with phase := .writing (Handling.save.calls images) }
          else none
      | _ => none
  | .call =>
      match state.phase with
      | .writing (call :: calls) =>
          some { state with phase := .writing calls, file := call.apply state.file }
      | _ => none
  | .finish =>
      match state.phase with
      | .writing [] => some { state with phase := .waiting }
      | _ => none

variable {conf : DumpConf} {state after : Life} {event : Event}

theorem next_finish (stepped : next conf state .finish = some after) :
    state.phase = .writing [] ∧ after.phase = .waiting ∧ after.file = state.file := by
  rw [next] at stepped
  split at stepped <;> cases stepped
  rename_i writing
  exact ⟨writing, rfl, rfl⟩

/-- The database at a position, at some of the moments. -/
def Was (moments : List Life) (index : Nat) (db : Db) : Prop :=
  ∃ moment ∈ moments, moment.databases[index]? = some db

/-- A database that was put together over some time: it has the keys of the database at one
moment, and each of its entries was there at some moment. -/
structure Assembled (moments : List Life) (index : Nat) (mix : Db) : Prop where
  keys : ∃ db, Was moments index db ∧ mix.number = db.number ∧ Shared.names mix = Shared.names db
  entries : ∀ kv ∈ mix.keyValueMap.items, ∃ db, Was moments index db ∧ kv ∈ db.keyValueMap.items

/-- Images of databases that were put together. -/
def Collected (conf : DumpConf) (moments : List Life) (images : List Bytes) : Prop :=
  ∃ mixes, databaseSave conf mixes = .ok images ∧
    ∀ index mix, mixes[index]? = some mix → Assembled moments index mix

/-- `Save` in the middle. The entries it has visited are as they were when it did. -/
structure Halfway (conf : DumpConf) (moments : List Life) (index : Nat) (head : Bytes)
    (left codes : List Bytes) (base : Db) (entries : List KeyValue) : Prop where
  begun : Was moments index base
  filled : base.keyValueMap.items ≠ []
  head : head = Shared.header base
  listed : Shared.names base = entries.map Entry.name ++ left
  coded : entries.mapM (KeyValue.encode conf) = .ok codes
  seen : ∀ kv ∈ entries, ∃ db, Was moments index db ∧ kv ∈ db.keyValueMap.items

/-- One image for each database. -/
def Whole (conf : DumpConf) (moments : List Life) (images : List Bytes) : Prop :=
  Collected conf moments images ∧
    ∃ moment ∈ moments, images.length = moment.databases.length

/-- The file that was there, or a dump that was finished since. -/
def Stored (conf : DumpConf) (moments : List Life) (old file : Bytes) : Prop :=
  file = old ∨ ∃ images, Whole conf moments images ∧ file = rdbSave images

/-- What the timer thread and the file are, by the moments so far. -/
def Sound (conf : DumpConf) (old : Bytes) (moments : List Life) (state : Life) : Prop :=
  match state.phase with
  | .waiting => Stored conf moments old state.file
  | .collecting images => Stored conf moments old state.file ∧ Collected conf moments images
  | .saving images head left codes =>
      Stored conf moments old state.file ∧ Collected conf moments images ∧
        ∃ base entries, Halfway conf moments images.length head left codes base entries
  | .writing calls => ∃ before images done, Stored conf moments old before ∧
      Whole conf moments images ∧ calls = (Handling.save.calls images).drop done ∧
      state.file = Handling.save.fileAt images before done

section Growth

variable {moments more : List Life} {index : Nat} {old : Bytes}

theorem Was.grows (grown : moments ⊆ more) {db : Db} (was : Was moments index db) :
    Was more index db := by
  obtain ⟨moment, member, there⟩ := was
  exact ⟨moment, grown member, there⟩

theorem Assembled.grows (grown : moments ⊆ more) {mix : Db}
    (assembled : Assembled moments index mix) : Assembled more index mix := by
  obtain ⟨db, was, same⟩ := assembled.keys
  refine ⟨⟨db, was.grows grown, same⟩, fun kv member => ?_⟩
  obtain ⟨held, was, there⟩ := assembled.entries kv member
  exact ⟨held, was.grows grown, there⟩

theorem Collected.grows (grown : moments ⊆ more) {images : List Bytes}
    (collected : Collected conf moments images) : Collected conf more images := by
  obtain ⟨mixes, saved, each⟩ := collected
  exact ⟨mixes, saved, fun index mix there => (each index mix there).grows grown⟩

theorem Halfway.grows (grown : moments ⊆ more) {head : Bytes} {left codes : List Bytes} {base : Db}
    {entries : List KeyValue} (halfway : Halfway conf moments index head left codes base entries) :
    Halfway conf more index head left codes base entries := by
  refine { halfway with begun := halfway.begun.grows grown, seen := fun kv member => ?_ }
  obtain ⟨held, was, there⟩ := halfway.seen kv member
  exact ⟨held, was.grows grown, there⟩

theorem Whole.grows (grown : moments ⊆ more) {images : List Bytes}
    (whole : Whole conf moments images) : Whole conf more images := by
  obtain ⟨collected, moment, member, all⟩ := whole
  exact ⟨collected.grows grown, moment, grown member, all⟩

theorem Stored.grows (grown : moments ⊆ more) {file : Bytes}
    (stored : Stored conf moments old file) : Stored conf more old file := by
  rcases stored with same | ⟨images, whole, same⟩
  · exact .inl same
  · exact .inr ⟨images, whole.grows grown, same⟩

theorem Sound.grows (grown : moments ⊆ more) (sound : Sound conf old moments state) :
    Sound conf old more state := by
  rw [Sound] at sound ⊢
  split at sound
  · exact sound.grows grown
  · exact ⟨sound.1.grows grown, sound.2.grows grown⟩
  · obtain ⟨stored, collected, base, entries, halfway⟩ := sound
    exact ⟨stored.grows grown, collected.grows grown, base, entries, halfway.grows grown⟩
  · obtain ⟨before, images, done, stored, whole, rest⟩ := sound
    exact ⟨before, images, done, stored.grows grown, whole.grows grown, rest⟩

end Growth

section Steps

variable {moments : List Life} {old : Bytes}

theorem collected_nil (conf : DumpConf) (moments : List Life) : Collected conf moments [] :=
  ⟨[], rfl, nofun⟩

theorem Collected.concat {images : List Bytes} (collected : Collected conf moments images)
    {mix : Db} (assembled : Assembled moments images.length mix) {image : Bytes}
    (saved : mix.save conf = .ok image) : Collected conf moments (images ++ [image]) := by
  obtain ⟨mixes, saves, each⟩ := collected
  have sized : mixes.length = images.length := (mapM_eq_ok.mp saves).length_eq
  refine ⟨mixes ++ [mix], ?_, fun index other there => ?_⟩
  · rw [databaseSave, List.mapM_append, ← databaseSave, saves, ok_bind, List.mapM_cons, saved]
    rfl
  · rw [List.getElem?_append] at there
    split at there
    · exact each index other there
    · rename_i behind
      have last : index - mixes.length = 0 := by
        have inside := (List.getElem?_eq_some_iff.mp there).1
        rw [List.length_singleton] at inside
        omega
      rw [last, List.getElem?_cons_zero] at there
      cases there
      have here : index = images.length := by omega
      rw [here]
      exact assembled

/-- A database that is saved at one moment. -/
theorem assembled_at {state : Life} (now : state ∈ moments) {index : Nat} {db : Db}
    (there : state.databases[index]? = some db) : Assembled moments index db :=
  ⟨⟨db, ⟨state, now, there⟩, rfl, rfl⟩, fun _ member => ⟨db, ⟨state, now, there⟩, member⟩⟩

theorem mapM_names (conf : DumpConf) (db : Db) :
    (Shared.names db).mapM (Shared.encodeNamed conf db) =
      db.keyValueMap.items.mapM (KeyValue.encode conf) := by
  rw [Shared.names, List.mapM_map]
  apply mapM_congr
  intro kv member
  simp only [Function.comp_apply, Shared.encodeNamed, db.keyValueMap.find_of_mem member]

/-- The entries that `Save` has visited when it comes to its end. -/
theorem Halfway.assembled {index : Nat} {head : Bytes} {codes : List Bytes} {base : Db}
    {entries : List KeyValue} (halfway : Halfway conf moments index head [] codes base entries) :
    ∃ mix, Assembled moments index mix ∧ mix.save conf = .ok (head ++ codes.flatten) := by
  have listed : Shared.names base = entries.map Entry.name := by
    rw [halfway.listed, List.append_nil]
  have distinct : (entries.map Entry.name).Nodup := listed ▸ base.keyValueMap.distinct
  let mix : Db := ⟨base.number, ⟨entries, distinct⟩⟩
  have same : Shared.names mix = Shared.names base := listed.symm
  refine ⟨mix, ⟨⟨base, halfway.begun, rfl, same⟩, halfway.seen⟩, ?_⟩
  have filled : mix.keyValueMap.items ≠ [] := Shared.items_of_names same halfway.filled
  rw [halfway.head, ← Shared.header_of_names same rfl]
  exact Shared.save_eq conf filled ((mapM_names conf mix).trans halfway.coded)

theorem Halfway.encode {index : Nat} {head name : Bytes} {left codes : List Bytes} {base : Db}
    {entries : List KeyValue}
    (halfway : Halfway conf moments index head (name :: left) codes base entries) {db : Db}
    (now : Was moments index db) {code : Bytes}
    (coded : Shared.encodeNamed conf db name = .ok code) :
    ∃ kv, Halfway conf moments index head left (codes ++ [code]) base (entries ++ [kv]) := by
  rw [Shared.encodeNamed] at coded
  split at coded
  · cases coded
  · rename_i kv found
    obtain ⟨member, named⟩ := db.keyValueMap.find_eq_some_iff.mp found
    refine ⟨kv, { halfway with listed := ?_, coded := ?_, seen := ?_ }⟩
    · rw [halfway.listed, List.map_append, List.map_singleton, named, List.append_assoc,
        List.singleton_append]
    · rw [List.mapM_append, halfway.coded, ok_bind, List.mapM_cons, coded]
      rfl
    · intro other there
      rcases List.mem_append.mp there with there | there
      · exact halfway.seen other there
      · rw [List.mem_singleton.mp there]
        exact ⟨db, now, member⟩

/-- The file after one more call. -/
theorem fileAt_call {images : List Bytes} {before : Bytes} {done : Nat} {call : FileCall}
    {calls : List FileCall} (left : call :: calls = (Handling.save.calls images).drop done) :
    calls = (Handling.save.calls images).drop (done + 1) ∧
      call.apply (Handling.save.fileAt images before done) =
        Handling.save.fileAt images before (done + 1) := by
  have first : (Handling.save.calls images)[done]? = some call := by
    rw [← List.head?_drop, ← left, List.head?_cons]
  constructor
  · rw [← List.tail_drop, ← left, List.tail_cons]
  · rw [Handling.fileAt, Handling.fileAt, List.take_add_one, first, Option.toList_some,
      List.foldl_append]
    rfl

/-- When no call is left, the file is the dump. -/
theorem fileAt_done {images : List Bytes} {before : Bytes} {done : Nat}
    (left : [] = (Handling.save.calls images).drop done) :
    Handling.save.fileAt images before done = rdbSave images := by
  have all : (Handling.save.calls images).length ≤ done := List.drop_eq_nil_iff.mp left.symm
  rw [← fileAt_save_all images before, Handling.fileAt, Handling.fileAt,
    List.take_of_length_le all, List.take_length]

/-- What the clients do concerns neither the timer thread's work nor the file. -/
theorem Sound.frame (sound : Sound conf old moments state) (phase : after.phase = state.phase)
    (file : after.file = state.file) : Sound conf old moments after := by
  rw [Sound, phase, file]
  exact sound

theorem next_sound (now : state ∈ moments) (sound : Sound conf old moments state)
    (stepped : next conf state event = some after) : Sound conf old moments after := by
  cases event with
  | other event =>
      rw [next] at stepped
      split at stepped
      · cases stepped
      · obtain ⟨-, same⟩ := Option.ite_none_right_eq_some.mp stepped
        cases same
        exact sound.frame rfl rfl
  | begin =>
      rw [next] at stepped
      split at stepped <;> cases stepped
      rename_i waiting _
      rw [Sound, waiting] at sound
      exact ⟨sound, collected_nil conf moments⟩
  | enter =>
      rw [next] at stepped
      split at stepped
      · rename_i images collecting
        rw [Sound, collecting] at sound
        split at stepped <;> cases stepped
        rename_i db there
        by_cases empty : db.keyValueMap.items = []
        · rw [empty]
          exact ⟨sound.1, sound.2.concat (assembled_at now there) (Db.save_of_empty conf empty)⟩
        · rw [List.isEmpty_eq_false_iff.mpr empty]
          exact ⟨sound.1, sound.2, db, [], ⟨state, now, there⟩, empty, rfl, rfl, rfl, nofun⟩
      · cases stepped
  | encode =>
      rw [next] at stepped
      split at stepped
      · rename_i images head name left codes saving
        rw [Sound, saving] at sound
        obtain ⟨stored, collected, base, entries, halfway⟩ := sound
        split at stepped
        · cases stepped
        · rename_i db there
          split at stepped <;> cases stepped
          rename_i code coded
          obtain ⟨kv, further⟩ := halfway.encode ⟨state, now, there⟩ coded
          exact ⟨stored, collected, base, entries ++ [kv], further⟩
      · cases stepped
  | leave =>
      rw [next] at stepped
      split at stepped <;> cases stepped
      rename_i images head codes saving
      rw [Sound, saving] at sound
      obtain ⟨stored, collected, base, entries, halfway⟩ := sound
      obtain ⟨mix, assembled, saved⟩ := halfway.assembled
      exact ⟨stored, collected.concat assembled saved⟩
  | write =>
      rw [next] at stepped
      split at stepped
      · rename_i images collecting
        rw [Sound, collecting] at sound
        obtain ⟨all, same⟩ := Option.ite_none_right_eq_some.mp stepped
        cases same
        exact ⟨state.file, images, 0, sound.1, ⟨sound.2, state, now, all⟩, rfl, rfl⟩
      · cases stepped
  | call =>
      rw [next] at stepped
      split at stepped <;> cases stepped
      rename_i call calls writing
      rw [Sound, writing] at sound
      obtain ⟨before, images, done, stored, whole, left, file⟩ := sound
      obtain ⟨rest, applied⟩ := fileAt_call left
      exact ⟨before, images, done + 1, stored, whole, rest, (congrArg call.apply file).trans applied⟩
  | finish =>
      obtain ⟨writing, waiting, same⟩ := next_finish stepped
      rw [Sound, writing] at sound
      obtain ⟨before, images, done, stored, whole, left, file⟩ := sound
      rw [Sound, waiting, same]
      exact .inr ⟨images, whole, file.trans (fileAt_done left)⟩

theorem run_sound {start : Life} (waiting : start.phase = .waiting) {events : List Event}
    (ran : run (next conf) start events = some state) :
    Sound conf start.file (visited (next conf) start events) state := by
  refine run_recalls (Sound conf start.file) (fun grown sound => sound.grows grown) ?_ ?_ ran
  · exact fun moments state event after now sound stepped => next_sound now sound stepped
  · rw [Sound, waiting]
    exact .inl rfl

variable {start : Life} {events : List Event}

/-- The file is touched in `RDBSave` only. -/
theorem Sound.stored (sound : Sound conf old moments state)
    (quiet : state.phase.isWriting = false) : Stored conf moments old state.file := by
  rw [Sound] at sound
  split at sound
  · exact sound
  · exact sound.1
  · exact sound.1
  · rename_i writing
    rw [writing] at quiet
    cases quiet

/-- Once a dump was finished, the file has one that was begun in the run, unless the process is
writing the next. -/
theorem finished_whole (waiting : start.phase = .waiting)
    (ran : run (next conf) start events = some state) (finished : Event.finish ∈ events)
    (quiet : state.phase.isWriting = false) :
    ∃ images, Whole conf (visited (next conf) start events) images ∧
      state.file = rdbSave images := by
  obtain ⟨before, later, rfl⟩ := List.append_of_mem finished
  rw [run_append] at ran
  obtain ⟨middle, first, ran⟩ := Option.bind_eq_some_iff.mp ran
  obtain ⟨written, stepped, ran⟩ := Option.bind_eq_some_iff.mp ran
  obtain ⟨ends, now, same⟩ := next_finish stepped
  have earlier : visited (next conf) start before ⊆
      visited (next conf) start (before ++ .finish :: later) := visited_subset_append _ _ _
  have rest : visited (next conf) written later ⊆
      visited (next conf) start (before ++ .finish :: later) := by
    have reached : run (next conf) start (before ++ [.finish]) = some written := by
      rw [run_append, first, Option.bind_some, run, stepped]
      rfl
    have subset := later_subset_visited reached later
    rwa [List.append_assoc, List.singleton_append] at subset
  -- the dump that is finished here
  have here : ∃ images, Whole conf (visited (next conf) start before) images ∧
      written.file = rdbSave images := by
    have sound := run_sound waiting first
    rw [Sound, ends] at sound
    obtain ⟨before, images, done, -, whole, left, file⟩ := sound
    exact ⟨images, whole, (same.trans file).trans (fileAt_done left)⟩
  rcases (run_sound now ran).stored quiet with same | ⟨images, whole, file⟩
  · obtain ⟨images, whole, file⟩ := here
    exact ⟨images, whole.grows earlier, same.trans file⟩
  · exact ⟨images, whole.grows rest, file⟩

end Steps

end Dumping

end ForkRedis
