import ForkRedis.Startup

set_option autoImplicit false

/- An entry that expires has a timer that waits for it, from the load of a dump on. -/
namespace ForkRedis

open Lists Fallible Machine

theorem Server.started_databases {databases : List Db} {index : Nat} {db : Db}
    (there : (started databases).databases[index]? = some db) :
    databases[index]? = some db ∨ db.keyValueMap = Keyed.empty := by
  cases databases with
  | nil =>
      have default : db = ⟨0, Keyed.empty⟩ := List.mem_singleton.mp (List.mem_of_getElem? there)
      rw [default]
      exact Or.inr rfl
  | cons first rest => exact Or.inl there

namespace Timed

/-- `handler_.Run()` comes behind `RDBLoad`, so every timer is in the queue. -/
def started (databases : List Db) (timers : List (List ExpireTimer)) (now : UInt64) : Timed :=
  ⟨Server.started databases, now, [], none, keyTimers timers, none⟩

/-- Every entry that expires has a timer of its database, its name and its time that has
not fired. -/
def Awaited (state : Timed) : Prop :=
  ∀ (index : Nat) (db : Db) (name : Bytes) (kv : KeyValue) (time : UInt64),
    state.server.databases[index]? = some db → db.keyValueMap.find name = some kv →
      kv.expireTimeUs = some time → (index, ⟨name, time⟩) ∈ state.outstanding

theorem started_awaited {lz : Lzfse} {source : Bytes}
    {loaded : List (LoadedDb × List ExpireTimer)} (returned : rdbLoadTimed lz source = .ok loaded)
    {databases : List Db} (whole : loaded.map Prod.fst = databases.map Db.loaded) (now : UInt64) :
    (started databases (loaded.map Prod.snd) now).Awaited := by
  intro index db name kv time there found expires
  rcases Server.started_databases there with old | new
  · obtain ⟨member, rfl⟩ := db.keyValueMap.find_eq_some_iff.mp found
    have read : (loaded.map Prod.fst)[index]? = some db.loaded := by
      rw [whole, List.getElem?_map, old, Option.map_some]
    rw [List.getElem?_map, Option.map_eq_some_iff] at read
    obtain ⟨pair, listed, same⟩ := read
    have linked := rdbLoadTimed_linked returned pair (List.mem_of_getElem? listed)
    rw [same] at linked
    refine mem_outstanding.mpr (Or.inr (Or.inr (mem_keyTimers.mpr ⟨pair.2, ?_, ?_⟩)))
    · rw [List.getElem?_map, listed, Option.map_some]
    · exact linked kv.loaded (List.mem_map_of_mem member) time expires
  · rw [new] at found
    cases found

theorem Awaited.grows {state : Timed} (awaited : state.Awaited) {server : Server}
    (grows : state.server.Grows server) (running : List (Nat × Update)) :
    Awaited { state with server := server, running := running } := by
  intro index db name kv time there found expires
  rcases grows index db there with old | new
  · exact awaited index db name kv time old found expires
  · rw [new] at found
    cases found

/-- An entry either kept the expiry it had, and its timer, or `ExpireAt` has just set the
expiry and handed over the timer. -/
theorem Awaited.update {state : Timed} (awaited : state.Awaited) (free : state.handed = none)
    {index : Nat} (u : Update) {db : Db} (there : state.server.databases[index]? = some db)
    (rest : List (Nat × Update)) :
    Awaited { state with
      server := state.server.setDatabase index (u.apply db)
      running := rest
      handed := timerOf index db u } := by
  intro position db' name kv time located found expires
  have kept : ∀ before : KeyValue, ∀ old, state.server.databases[position]? = some old →
      old.keyValueMap.find name = some before → before.expireTimeUs = some time →
      (position, ⟨name, time⟩) ∈ outstanding { state with
        server := state.server.setDatabase index (u.apply db)
        running := rest
        handed := timerOf index db u } := by
    intro before old present there expired
    have waits := awaited position old name before time present there expired
    rw [mem_outstanding, free] at waits
    rcases waits with none_handed | later
    · cases none_handed
    · exact mem_outstanding.mpr (Or.inr later)
  change (state.server.databases.set index (u.apply db))[position]? = some db' at located
  rw [List.getElem?_set] at located
  split at located
  · rename_i same
    subst same
    split at located
    · cases located
      rcases Update.find_apply found with ⟨before, old, expiry⟩ | ⟨object, -, expiry⟩ | ⟨set, rfl, expiry⟩
      · exact kept before db there old (expiry ▸ expires)
      · rw [expiry] at expires
        cases expires
      · rw [expiry] at expires
        cases expires
        refine mem_outstanding.mpr (Or.inl ?_)
        change ((db.expireAt name time).2.map (Prod.mk index)) = _
        change (db.makeExpireAt name time).keyValueMap.find name = some kv at found
        rw [Db.find_makeExpireAt, if_pos rfl] at found
        obtain ⟨before, old, -⟩ := Option.map_eq_some_iff.mp found
        simp only [Db.expireAt, old, Option.map_some]
    · cases located
  · exact kept kv db' located found expires

theorem next_awaited {state after : Timed} {event : Event} (awaited : state.Awaited)
    (stepped : state.next event = some after) : after.Awaited := by
  cases next_step stepped with
  | tick now later => exact awaited
  | connect client new => exact awaited
  | disconnect client => exact awaited
  | start env client request command server updates free parsed begun =>
      exact awaited.grows (Server.begin_grows begun) updates
  | update index u rest db running free there => exact awaited.update free u there rest
  | push timer handed =>
      intro index db name kv time there found expires
      have waits := awaited index db name kv time there found expires
      rw [mem_outstanding] at waits ⊢
      rcases waits with pushed | popped | queued
      · rw [handed] at pushed
        cases pushed
        exact Or.inr (Or.inr List.mem_cons_self)
      · exact Or.inr (Or.inl popped)
      · exact Or.inr (Or.inr (List.mem_cons_of_mem timer queued))
  | pop position timer free chosen due =>
      intro index db name kv time there found expires
      have waits := awaited index db name kv time there found expires
      rw [mem_outstanding] at waits ⊢
      rcases waits with handed | popped | queued
      · exact Or.inl handed
      · rw [free] at popped
        cases popped
      · obtain ⟨other, found⟩ := List.mem_iff_getElem?.mp queued
        by_cases same : other = position
        · rw [same, chosen] at found
          exact Or.inr (Or.inl found)
        · exact Or.inr (Or.inr (List.mem_eraseIdx_iff_getElem?.mpr ⟨other, same, found⟩))
  | fire timer db popped there =>
      -- an entry that is left has a timer, and it is not the one that fires
      have kept : ∀ (index : Nat) (old : Db) (name : Bytes) (kv : KeyValue) (time : UInt64),
          state.server.databases[index]? = some old → old.keyValueMap.find name = some kv →
          kv.expireTimeUs = some time → ¬ (index = timer.1 ∧ name = timer.2.objName) →
          (index, ⟨name, time⟩) ∈ outstanding { state with
            server := state.server.setDatabase timer.1 (db.del timer.2.objName).1
            popped := none } := by
        intro index old name kv time located found expires other
        have waits := awaited index old name kv time located found expires
        rw [mem_outstanding] at waits ⊢
        rcases waits with handed | fires | queued
        · exact Or.inl handed
        · rw [popped] at fires
          cases fires
          exact absurd ⟨rfl, rfl⟩ other
        · exact Or.inr (Or.inr queued)
      intro index db' name kv time located found expires
      change (state.server.databases.set timer.1 (db.del timer.2.objName).1)[index]? = some db'
        at located
      rw [List.getElem?_set] at located
      split at located
      · rename_i same
        subst same
        split at located
        · cases located
          rw [Db.del, Keyed.find_erase] at found
          split at found
          · cases found
          · rename_i differs
            exact kept timer.1 db name kv time there found expires fun own => differs own.2.symm
        · cases located
      · rename_i differs
        exact kept index db' name kv time located found expires fun own => differs own.1.symm

/-- At every point of every run that starts from the load of a dump, unless an `EXPIRE` is
between `ExpireAt` and `EncounterTimer`, a key that expires has a timer of its database,
its name and its time in the queue or in the hands of the timer thread. So when every timer
up to a time has fired, no key with an expiry up to that time is left. -/
theorem expiry_is_awaited {lz : Lzfse} {source : Bytes}
    {loaded : List (LoadedDb × List ExpireTimer)} (returned : rdbLoadTimed lz source = .ok loaded)
    {databases : List Db} (whole : loaded.map Prod.fst = databases.map Db.loaded) (now : UInt64)
    (events : List Event) {state : Timed}
    (ran : run next (started databases (loaded.map Prod.snd) now) events = some state)
    (between : state.handed = none) :
    (∀ (index : Nat) (db : Db) (name : Bytes) (kv : KeyValue) (time : UInt64),
      state.server.databases[index]? = some db → db.keyValueMap.find name = some kv →
      kv.expireTimeUs = some time →
      state.popped = some (index, ⟨name, time⟩) ∨ (index, ⟨name, time⟩) ∈ state.queue) ∧
    ∀ limit : UInt64,
      (∀ timer ∈ state.popped.toList ++ state.queue, ¬ timer.2.expireTimeUs ≤ limit) →
      ∀ db ∈ state.server.databases, ∀ kv ∈ db.keyValueMap.items, ∀ time,
        kv.expireTimeUs = some time → ¬ time ≤ limit := by
  have awaited : state.Awaited :=
    run_preserves Awaited (fun _ _ _ => next_awaited) (started_awaited returned whole now) ran
  have waits : ∀ (index : Nat) (db : Db) (name : Bytes) (kv : KeyValue) (time : UInt64),
      state.server.databases[index]? = some db → db.keyValueMap.find name = some kv →
      kv.expireTimeUs = some time →
      state.popped = some (index, ⟨name, time⟩) ∨ (index, ⟨name, time⟩) ∈ state.queue := by
    intro index db name kv time there found expires
    rcases mem_outstanding.mp (awaited index db name kv time there found expires) with handed | later
    · rw [between] at handed
      cases handed
    · exact later
  refine ⟨waits, fun limit fired db member kv listed time expires => ?_⟩
  obtain ⟨index, there⟩ := List.mem_iff_getElem?.mp member
  refine fired (index, ⟨kv.name, time⟩) ?_
  rw [List.mem_append, Option.mem_toList]
  exact waits index db kv.name kv time there (db.keyValueMap.find_of_mem listed) expires

/-- A database with a key that expires. -/
def expiring : Db :=
  ⟨0, Keyed.ofList [⟨Str.ofData (bytes "k"), .str (Str.ofData (bytes "v")), some 5⟩]⟩

/-- The key is loaded with its timer. When its time has come and the key is still there, the
timer is in the hands of the timer thread. -/
theorem expiry_is_awaited_when_due :
    ∃ sources loaded state, databaseSave ⟨Lzfse.storedBlocks, false⟩ [expiring] = .ok sources ∧
      rdbLoadTimed Lzfse.storedBlocks (rdbSave sources) = .ok loaded ∧
      run next (started [expiring] (loaded.map Prod.snd) 0) [.tick 5, .pop 0] = some state ∧
      state.server.databases = [expiring] ∧ state.queue = [] ∧
      state.popped = some (0, ⟨bytes "k", 5⟩) := by
  obtain ⟨sources, saved, checked⟩ : ∃ sources,
      databaseSave ⟨Lzfse.storedBlocks, false⟩ [expiring] = .ok sources ∧
      ((rdbLoadTimed Lzfse.storedBlocks (rdbSave sources)).toOption.any fun loaded =>
        decide (loaded = [(expiring.loaded, [⟨bytes "k", 5⟩])])) = true :=
    ok_checked (by decide +kernel)
  obtain ⟨loaded, read, rfl⟩ := ok_checked checked
  obtain ⟨state, ran, between, queue, same⟩ : ∃ state,
      run next (started [expiring] [[⟨bytes "k", 5⟩]] 0) [.tick 5, .pop 0] = some state ∧
      state.handed = none ∧ state.queue = [] ∧ state.server.databases = [expiring] :=
    run_checked (by decide +kernel)
  have waits := (expiry_is_awaited read rfl 0 _ ran between).1 0 expiring (bytes "k") _ 5
    (by rw [same]; rfl) rfl rfl
  rw [queue] at waits
  exact ⟨sources, _, state, saved, read, ran, same, queue, waits.resolve_right List.not_mem_nil⟩

end Timed

end ForkRedis
