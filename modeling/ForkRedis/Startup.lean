import ForkRedis.Timers

set_option autoImplicit false

/- What `MainLoop::MainLoop` makes of a dump file: the databases, the numbers that are
marked as used, and the timers of the keys that expire. -/
namespace ForkRedis

open Wire Decimal Lists Fallible

/-- The timer `Load` hands over for an entry. -/
def Entry.timer {V : Type} (kv : Entry V) : Option ExpireTimer :=
  kv.expireTimeUs.map fun time => ⟨kv.name, time⟩

/-- `Load` with the timers it hands over. An entry whose key is there already is not
inserted, but its timer is handed over. -/
def Db.loadTimed (lz : Lzfse) : Source (LoadedDb × List ExpireTimer) := do
  let s ← popFront
  if s ≠ selectDb then throw .runtimeError
  else
    let number ← peekInt
    let n ← peekSize
    let acc ← loop (fun acc => do
      let kv ← KeyValue.decode lz
      return (acc.1.insert kv, acc.2 ++ kv.timer.toList)) n.toNat (Keyed.empty, [])
    return (⟨number, acc.1⟩, acc.2)

/-- `RDBLoad` with the timers of each database. -/
def rdbLoadDatabasesTimed (lz : Lzfse) : Nat → Source (List (LoadedDb × List ExpireTimer))
  | 0 => pure []
  | fuel + 1 => fun source =>
      if source = [] then .ok ([], [])
      else do
        let (db, source) ← Db.loadTimed lz source
        let (rest, source) ← rdbLoadDatabasesTimed lz fuel source
        return (db :: rest, source)

def rdbLoadTimed (lz : Lzfse) (source : Bytes) :
    Except Fault (List (LoadedDb × List ExpireTimer)) := do
  let (magic, source) ← peekString 3 source
  if magic ≠ bytes "RDB" then return []
  else do
    let (databases, _) ← rdbLoadDatabasesTimed lz source.length source
    return databases

theorem Db.map_loadTimed (lz : Lzfse) : Prod.fst <$> loadTimed lz = load lz := by
  unfold loadTimed load
  rw [map_bind]
  congr 1
  funext s
  split
  · rfl
  · simp only [map_bind, map_pure]
    congr 1
    funext number
    congr 1
    funext n
    have forgets : Prod.fst <$> loop (fun acc : Keyed (Entry.name (V := Option Object)) ×
          List ExpireTimer => do
        let kv ← KeyValue.decode lz
        return (acc.1.insert kv, acc.2 ++ kv.timer.toList)) n.toNat (Keyed.empty, []) =
        loop (fun map => do
          let kv ← KeyValue.decode lz
          return map.insert kv) n.toNat Keyed.empty := by
      apply map_loop
      intro acc
      simp only [map_bind, map_pure]
    rw [← forgets, bind_map_left]

theorem Db.load_eq (lz : Lzfse) (source : Bytes) :
    load lz source = (loadTimed lz source).map fun read => (read.1.1, read.2) := by
  rw [← map_loadTimed]
  exact StateT.run_map Prod.fst (loadTimed lz) source

theorem rdbLoadDatabases_eq (lz : Lzfse) (fuel : Nat) (source : Bytes) :
    rdbLoadDatabases lz fuel source =
      (rdbLoadDatabasesTimed lz fuel source).map fun read => (read.1.map Prod.fst, read.2) := by
  induction fuel generalizing source with
  | zero => rfl
  | succ fuel ih =>
      simp only [rdbLoadDatabases, rdbLoadDatabasesTimed, Db.load_eq]
      split
      · rfl
      · cases Db.loadTimed lz source with
        | error fault => rfl
        | ok read =>
            simp only [Except.map, ok_bind, ih]
            cases rdbLoadDatabasesTimed lz fuel read.2 with
            | error fault => rfl
            | ok later => rfl

/-- `RDBLoad` gives the databases, and hands over the timers. -/
theorem rdbLoad_eq (lz : Lzfse) (source : Bytes) :
    rdbLoad lz source = (rdbLoadTimed lz source).map (List.map Prod.fst) := by
  rw [rdbLoad, rdbLoadTimed]
  cases peekString 3 source with
  | error fault => rfl
  | ok read =>
      simp only [ok_bind]
      split
      · rfl
      · rw [rdbLoadDatabases_eq]
        cases rdbLoadDatabasesTimed lz read.2.length read.2 with
        | error fault => rfl
        | ok later => rfl

/-- Every entry that expires has its timer among those that were handed over. -/
def Linked (loaded : Keyed (Entry.name (V := Option Object)) × List ExpireTimer) : Prop :=
  ∀ kv ∈ loaded.1.items, ∀ time, kv.expireTimeUs = some time →
    (⟨kv.name, time⟩ : ExpireTimer) ∈ loaded.2

theorem Db.loadTimed_linked {lz : Lzfse} {source rest : Bytes} {loaded : LoadedDb × List ExpireTimer}
    (returned : loadTimed lz source = .ok (loaded, rest)) :
    Linked (loaded.1.keyValueMap, loaded.2) := by
  obtain ⟨⟨s, input⟩, -, returned⟩ := bind_eq_ok.mp returned
  dsimp only at returned
  split at returned
  · cases returned
  obtain ⟨⟨number, input⟩, -, returned⟩ := bind_eq_ok.mp returned
  obtain ⟨⟨n, input⟩, -, returned⟩ := bind_eq_ok.mp returned
  obtain ⟨⟨acc, input⟩, looped, returned⟩ := bind_eq_ok.mp returned
  cases returned
  have linked : Linked acc := by
    refine loop_preserves Linked ?_ n.toNat ?_ looped
    · intro acc input next rest linked round
      obtain ⟨⟨kv, input⟩, -, round⟩ := bind_eq_ok.mp round
      cases round
      intro other member time expires
      rcases Keyed.mem_insert member with rfl | old
      · refine List.mem_append_right _ ?_
        rw [Entry.timer, expires]
        exact List.mem_singleton_self _
      · exact List.mem_append_left _ (linked other old time expires)
    · exact fun kv member => absurd member List.not_mem_nil
  exact linked

theorem rdbLoadDatabasesTimed_linked {lz : Lzfse} {fuel : Nat} {source rest : Bytes}
    {loaded : List (LoadedDb × List ExpireTimer)}
    (returned : rdbLoadDatabasesTimed lz fuel source = .ok (loaded, rest)) :
    ∀ db ∈ loaded, Linked (db.1.keyValueMap, db.2) := by
  induction fuel generalizing source loaded rest with
  | zero =>
      cases returned
      exact fun db member => absurd member List.not_mem_nil
  | succ fuel ih =>
      simp only [rdbLoadDatabasesTimed] at returned
      split at returned
      · cases returned
        exact fun db member => absurd member List.not_mem_nil
      · obtain ⟨⟨first, input⟩, head, returned⟩ := bind_eq_ok.mp returned
        obtain ⟨⟨later, input'⟩, tail, returned⟩ := bind_eq_ok.mp returned
        cases returned
        intro db member
        rcases List.mem_cons.mp member with rfl | other
        · exact Db.loadTimed_linked head
        · exact ih tail db other

theorem rdbLoadTimed_linked {lz : Lzfse} {source : Bytes}
    {loaded : List (LoadedDb × List ExpireTimer)} (returned : rdbLoadTimed lz source = .ok loaded) :
    ∀ db ∈ loaded, Linked (db.1.keyValueMap, db.2) := by
  obtain ⟨⟨magic, input⟩, -, returned⟩ := bind_eq_ok.mp returned
  dsimp only at returned
  split at returned
  · cases returned
    exact fun db member => absurd member List.not_mem_nil
  · obtain ⟨⟨databases, input⟩, read, returned⟩ := bind_eq_ok.mp returned
    cases returned
    exact rdbLoadDatabasesTimed_linked read

/-- An entry that was loaded with its value. -/
def KeyValue.loaded (kv : KeyValue) : LoadedKeyValue := ⟨kv.key, some kv.value, kv.expireTimeUs⟩

/-- A database that was loaded with the value of every key. -/
def Db.loaded (db : Db) : LoadedDb where
  number := db.number
  keyValueMap := ⟨db.keyValueMap.items.map KeyValue.loaded, by
    rw [List.map_map]
    exact db.keyValueMap.distinct⟩

/-- `num_hash` and `number_source` after so many calls of `Db::Db`. -/
def registered : Nat → List Int32 × Int32
  | 0 => ([], 0)
  | count + 1 =>
      let before := registered count
      let number := unusedNumber before.1 (before.1.length + 1) before.2
      (number :: before.1, number)

/-- The server behind its start: `RDBLoad` makes a new database for each one it loads, and
`Load` gives it the number of the file. Without any, there is a default database. -/
def Server.started : List Db → Server
  | [] => initial
  | db :: rest =>
    { databases := db :: rest
      numHash := (registered (rest.length + 1)).1
      numberSource := (registered (rest.length + 1)).2
      clients := fun _ => none
      filled := Nat.succ_pos rest.length
      attached := fun _ _ absent => nomatch absent }

/-- The timers of each database, with its position. -/
def keyTimers (timers : List (List ExpireTimer)) : List KeyTimer :=
  timers.zipIdx.flatMap fun each => each.1.map (Prod.mk each.2)

theorem mem_keyTimers {timers : List (List ExpireTimer)} {index : Nat} {timer : ExpireTimer} :
    (index, timer) ∈ keyTimers timers ↔ ∃ each, timers[index]? = some each ∧ timer ∈ each := by
  rw [keyTimers, List.mem_flatMap]
  constructor
  · rintro ⟨⟨each, position⟩, listed, member⟩
    obtain ⟨own, there, same⟩ := List.mem_map.mp member
    cases same
    exact ⟨each, List.mem_zipIdx_iff_getElem?.mp listed, there⟩
  · rintro ⟨each, listed, member⟩
    exact ⟨(each, index), List.mem_zipIdx_iff_getElem?.mpr listed, List.mem_map_of_mem member⟩

end ForkRedis
