import ForkRedis.Dumping
import ForkRedis.Reload

set_option autoImplicit false

/- The life after a life with a dump: what of its databases the next one begins with, wherever
it stopped. -/
namespace ForkRedis

open Lists Fallible Machine

namespace Dumping

variable {conf : DumpConf} {state : Life}

instance (db : Db) : Decidable db.Storable :=
  decidable_of_iff (db.keyValueMap.items.length < 2 ^ 64 ∧
      ∀ kv ∈ db.keyValueMap.items, KeyValue.Storable kv)
    ⟨fun ⟨sized, entries⟩ => ⟨sized, entries⟩, fun ⟨sized, entries⟩ => ⟨sized, entries⟩⟩

/-- Everything a life holds can be dumped and read again. -/
def Storing (moments : List Life) : Prop :=
  ∀ moment ∈ moments, ∀ db ∈ moment.databases, db.Storable

instance (moments : List Life) : Decidable (Storing moments) :=
  inferInstanceAs (Decidable (∀ moment ∈ moments, ∀ db ∈ moment.databases, db.Storable))

section Restarts

variable {moments : List Life} {start : Life} {events : List Event}

theorem Assembled.storable (storing : Storing moments) {index : Nat} {mix : Db}
    (assembled : Assembled moments index mix) : mix.Storable := by
  have all {db : Db} (was : Was moments index db) : db.Storable := by
    obtain ⟨moment, member, there⟩ := was
    exact storing moment member db (List.mem_of_getElem? there)
  constructor
  · obtain ⟨db, was, -, same⟩ := assembled.keys
    have sized := congrArg List.length same
    rw [Shared.names, Shared.names, List.length_map, List.length_map] at sized
    rw [sized]
    exact (all was).sized
  · intro kv member
    obtain ⟨db, was, there⟩ := assembled.entries kv member
    exact (all was).entries kv there

/-- What is loaded when so many images are in the file. -/
theorem Collected.loads (lawful : conf.lz.Lawful) (storing : Storing moments)
    {images : List Bytes} (collected : Collected conf moments images) (written : Nat) :
    ∃ mixes, rdbLoad conf.lz (rdbSave (images.take written)) =
        .ok (((keyed mixes).map Db.reloaded).map Db.loaded) ∧
      mixes.length = min written images.length ∧
      ∀ index mix, mixes[index]? = some mix → Assembled moments index mix := by
  obtain ⟨mixes, saved, each⟩ := collected
  have taken (index : Nat) (mix : Db) (there : (mixes.take written)[index]? = some mix) :
      Assembled moments index mix := by
    rw [List.getElem?_take] at there
    split at there
    · exact each index mix there
    · cases there
  have storable : ∀ db ∈ mixes.take written, db.Storable := by
    intro db member
    obtain ⟨index, there⟩ := List.mem_iff_getElem?.mp member
    exact (taken index db there).storable storing
  have sized : mixes.length = images.length := (mapM_eq_ok.mp saved).length_eq
  refine ⟨mixes.take written, ?_, by rw [List.length_take, sized], taken⟩
  rw [rdbLoad_save lawful storable (databaseSave_take saved written), List.map_map]
  exact congrArg Except.ok (List.map_congr_left fun db _ => db.loaded_reloaded.symm)

/-- A dump that is finished is loaded with every database. -/
theorem Whole.loads (lawful : conf.lz.Lawful) (storing : Storing moments) {images : List Bytes}
    (whole : Whole conf moments images) :
    ∃ mixes, rdbLoad conf.lz (rdbSave images) =
        .ok (((keyed mixes).map Db.reloaded).map Db.loaded) ∧
      (∃ moment ∈ moments, mixes.length = moment.databases.length) ∧
      ∀ index mix, mixes[index]? = some mix → Assembled moments index mix := by
  obtain ⟨collected, moment, member, all⟩ := whole
  obtain ⟨mixes, read, sized, each⟩ := collected.loads lawful storing images.length
  rw [List.take_length] at read
  exact ⟨mixes, read, ⟨moment, member, by rw [sized, Nat.min_self, all]⟩, each⟩

/-- A life that began with an empty file: so it is still, or a dump is loaded. -/
theorem Stored.loads (lawful : conf.lz.Lawful) (storing : Storing moments) {file : Bytes}
    (stored : Stored conf moments [] file) :
    file = [] ∨ ∃ mixes, rdbLoad conf.lz file =
        .ok (((keyed mixes).map Db.reloaded).map Db.loaded) ∧
      (∃ moment ∈ moments, mixes.length = moment.databases.length) ∧
      ∀ index mix, mixes[index]? = some mix → Assembled moments index mix := by
  rcases stored with same | ⟨images, whole, rfl⟩
  · exact .inl same
  · exact .inr (whole.loads lawful storing)

theorem Phase.writing_of_not_quiet {phase : Phase} (busy : ¬ phase.isWriting = false) :
    ∃ calls, phase = .writing calls := by
  cases phase with
  | writing calls => exact ⟨calls, rfl⟩
  | waiting | collecting | saving => exact absurd rfl busy

/-- Wherever the process stops, the file is empty, or the next life begins with what dumps stand
for, of the first databases that this one had and that have keys. Each has all the keys it had
at one moment, and each key a value it had at some moment; keys that are dumped as one text fall
together. The first ones are all of them unless the process stopped while it wrote. -/
theorem restart_assembles (lawful : conf.lz.Lawful) (timed : Timed)
    (ran : run (next conf) (born timed) events = some state)
    (storing : Storing (visited (next conf) (born timed) events)) :
    state.file = [] ∨
      ∃ mixes, rdbLoad conf.lz state.file =
          .ok (((keyed mixes).map Db.reloaded).map Db.loaded) ∧
        (∀ index mix, mixes[index]? = some mix →
          Assembled (visited (next conf) (born timed) events) index mix) ∧
        (state.phase.isWriting = false →
          ∃ moment ∈ visited (next conf) (born timed) events,
            mixes.length = moment.databases.length) := by
  have sound := run_sound rfl ran
  by_cases quiet : state.phase.isWriting = false
  · refine ((sound.stored quiet).loads lawful storing).imp_right ?_
    rintro ⟨mixes, read, sized, each⟩
    exact ⟨mixes, read, each, fun _ => sized⟩
  · obtain ⟨calls, writing⟩ := Phase.writing_of_not_quiet quiet
    rw [Sound, writing] at sound
    obtain ⟨before, images, done, stored, whole, -, file⟩ := sound
    rw [file]
    -- none of the calls is done, the truncation is, or so many images are written
    cases done with
    | zero =>
        refine (stored.loads lawful storing).imp_right ?_
        rintro ⟨mixes, read, sized, each⟩
        exact ⟨mixes, read, each, fun _ => sized⟩
    | succ done =>
        cases done with
        | zero => exact .inl rfl
        | succ written =>
            rw [fileAt_save]
            obtain ⟨mixes, read, -, each⟩ := whole.1.loads lawful storing written
            exact .inr ⟨mixes, read, each, fun still => absurd still quiet⟩

def plain : DumpConf := ⟨Lzfse.storedBlocks, false⟩

def request (words : Request) : Event := .other (.start quietEnv 0 words)

def oneClient : Life := born (.idle Server.oneClient 0)

/-- Two databases with a key each. While the first is saved its key is set anew, and the process
stops before the image of the second is written. -/
def stopped : List Event := [
  request [bytes "SET", bytes "a", bytes "1"], .other .update, .other .update,
  request [bytes "SELECT", bytes "3", bytes "secret"],
  request [bytes "SET", bytes "b", bytes "1"], .other .update, .other .update,
  request [bytes "SELECT", bytes "0"],
  .begin, .enter, .encode,
  request [bytes "SET", bytes "a", bytes "2"], .other .update,
  .leave, .enter, .encode, .leave, .write, .call, .call, .call]

theorem restart_assembles_stopped :
    ∃ state, run (next plain) oneClient stopped = some state ∧
      state.phase.isWriting = true ∧
      Storing (visited (next plain) oneClient stopped) ∧
      ∃ mixes, rdbLoad plain.lz state.file =
          .ok (((keyed mixes).map Db.reloaded).map Db.loaded) ∧
        ∀ index mix, mixes[index]? = some mix →
          Assembled (visited (next plain) oneClient stopped) index mix := by
  obtain ⟨state, ran, writing, filled⟩ : ∃ state,
      run (next plain) oneClient stopped = some state ∧
        state.phase.isWriting = true ∧ state.file ≠ [] := run_checked (by decide +kernel)
  have storing : Storing (visited (next plain) oneClient stopped) := by
    decide +kernel
  obtain ⟨mixes, read, each, -⟩ :=
    (restart_assembles Lzfse.storedBlocks_lawful _ ran storing).resolve_left filled
  exact ⟨state, ran, writing, storing, mixes, read, each⟩

/-- The database at a position has a number and an entry, and no other key is dumped as the
same text. -/
def Holds (index : Nat) (number : Int32) (kv : KeyValue) (moment : Life) : Prop :=
  ∃ db ∈ moment.databases[index]?, db.number = number ∧ kv ∈ db.keyValueMap.items ∧
    ∀ other ∈ db.keyValueMap.items, other.key.norm.data = kv.key.norm.data → other = kv

instance (index : Nat) (number : Int32) (kv : KeyValue) (moment : Life) :
    Decidable (Holds index number kv moment) :=
  inferInstanceAs (Decidable (∃ db ∈ moment.databases[index]?, _ ∧ _ ∧ _))

/-- What is there and stays as it is from before a dump is begun that is finished, is there in
the next life, unless the process stops while it writes. -/
theorem unchanged_survives (lawful : conf.lz.Lawful) (waiting : start.phase = .waiting)
    (ran : run (next conf) start events = some state) (finished : Event.finish ∈ events)
    (quiet : state.phase.isWriting = false)
    (storing : Storing (visited (next conf) start events)) {index : Nat} {number : Int32}
    {kv : KeyValue} (held : ∀ moment ∈ visited (next conf) start events, Holds index number kv moment) :
    ∃ databases : List Db, rdbLoad conf.lz state.file = .ok (databases.map Db.loaded) ∧
      ∃ db ∈ databases, db.number = number ∧
        db.keyValueMap.find kv.key.norm.data = some kv.reloaded := by
  obtain ⟨images, whole, file⟩ := finished_whole waiting ran finished quiet
  obtain ⟨mixes, read, ⟨moment, member, all⟩, each⟩ := whole.loads lawful storing
  -- all that was under the position is as the entry says
  have was {db : Db} (was : Was (visited (next conf) start events) index db) :
      db.number = number ∧ kv ∈ db.keyValueMap.items ∧
        ∀ other ∈ db.keyValueMap.items, other.key.norm.data = kv.key.norm.data → other = kv := by
    obtain ⟨moment, member, there⟩ := was
    obtain ⟨other, listed, rest⟩ := held moment member
    rw [Option.mem_def, there] at listed
    cases listed
    exact rest
  have inside : index < mixes.length := by
    obtain ⟨db, listed, -⟩ := held moment member
    rw [all]
    exact (List.getElem?_eq_some_iff.mp listed).1
  have there := List.getElem?_eq_getElem inside
  have assembled := each index _ there
  obtain ⟨base, began, sameNumber, sameNames⟩ := assembled.keys
  have named : kv.key.data ∈ Shared.names mixes[index] := by
    rw [sameNames]
    exact List.mem_map_of_mem (was began).2.1
  have alone : ∀ other ∈ mixes[index].keyValueMap.items,
      other.key.norm.data = kv.key.norm.data → other = kv := by
    intro other listed same
    obtain ⟨db, then_, there⟩ := assembled.entries other listed
    exact (was then_).2.2 other there same
  have kept : kv ∈ mixes[index].keyValueMap.items := by
    obtain ⟨other, listed, same⟩ := List.mem_map.mp named
    obtain ⟨db, then_, there⟩ := assembled.entries other listed
    have own := db.keyValueMap.eq_of_key there (was then_).2.1 same
    rwa [own] at listed
  refine ⟨(keyed mixes).map Db.reloaded, by rw [file, read], mixes[index].reloaded, ?_, ?_, ?_⟩
  · refine List.mem_map_of_mem (List.mem_filter.mpr ⟨List.getElem_mem inside, ?_⟩)
    exact decide_eq_true (List.ne_nil_of_mem kept)
  · exact sameNumber.trans (was began).1
  · rw [Db.reloaded, Keyed.find_ofList]
    refine find?_unique (List.mem_map_of_mem kept) (decide_eq_true rfl) fun other listed same => ?_
    obtain ⟨original, member, rfl⟩ := List.mem_map.mp listed
    rw [alone original member (of_decide_eq_true same)]

/-- A key that stays, one that is set while a dump is taken, and the next dump begun. -/
def finishedOnce : List Event := [
  .other (.connect 0), .begin, .enter, .encode, .leave, .write, .call,
  request [bytes "SET", bytes "b", bytes "2"], .other .update, .other .update,
  .call, .call, .finish, .begin, .enter, .encode]

def oneKey : Life := born (.idle (.started [.single 0]) 0)

theorem unchanged_survives_single :
    ∃ state, run (next plain) oneKey finishedOnce = some state ∧
      state.phase.isWriting = false ∧
      ∃ databases : List Db, rdbLoad plain.lz state.file = .ok (databases.map Db.loaded) ∧
        ∃ db ∈ databases, db.number = 0 ∧ db.keyValueMap.find (bytes "k") =
          some ⟨Str.ofData (bytes "k"), .str (Str.ofData (bytes "v")), none⟩ := by
  obtain ⟨state, ran, quiet⟩ : ∃ state,
      run (next plain) oneKey finishedOnce = some state ∧
        state.phase.isWriting = false := run_checked (by decide +kernel)
  have held : ∀ moment ∈ visited (next plain) oneKey finishedOnce,
      Holds 0 0 ⟨Str.ofData (bytes "k"), .str (Str.ofData (bytes "v")), none⟩ moment := by
    decide +kernel
  have finished : Event.finish ∈ finishedOnce :=
    List.mem_of_getElem? (rfl : finishedOnce[12]? = some .finish)
  refine ⟨state, ran, quiet, ?_⟩
  exact unchanged_survives Lzfse.storedBlocks_lawful rfl ran finished quiet (by decide +kernel) held

end Restarts

end Dumping

end ForkRedis
