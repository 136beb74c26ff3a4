import ForkRedis.Contents

set_option autoImplicit false

/- Whole databases through a dump file: what `RDBLoad` gives back of what `DatabaseSave`
and `RDBSave` wrote, and when nothing is lost on the way. -/
namespace ForkRedis

open Wire Decimal Lists Fallible

variable {conf : DumpConf} {db : Db}

namespace Db

/-- Every string of a database: keys, and what the values contain. -/
def strings (db : Db) : List Str := db.keyValueMap.items.flatMap KeyValue.strings

structure Storable (db : Db) : Prop where
  sized : db.keyValueMap.items.length < 2 ^ 64
  entries : ∀ kv ∈ db.keyValueMap.items, KeyValue.Storable kv

/-- The database a dump of `db` stands for. -/
def norm (db : Db) : LoadedDb :=
  ⟨db.number, Keyed.ofList (db.keyValueMap.items.map KeyValue.norm)⟩

theorem save_error_iff (conf : DumpConf) (db : Db) :
    (∃ fault, db.save conf = .error fault) ↔ ∃ s ∈ db.strings, s.Unencodable := by
  have spelled : (∃ s ∈ db.strings, s.Unencodable) ↔
      ∃ kv ∈ db.keyValueMap.items, ∃ fault, KeyValue.encode conf kv = .error fault := by
    simp only [strings, List.mem_flatMap, KeyValue.encode_error_iff]
    constructor
    · rintro ⟨s, ⟨kv, member, inside⟩, bad⟩
      exact ⟨kv, member, s, inside, bad⟩
    · rintro ⟨kv, member, s, inside, bad⟩
      exact ⟨s, ⟨kv, member, inside⟩, bad⟩
  rw [spelled, save]
  split
  · rename_i empty
    simp only [empty, reduceCtorEq, exists_false, List.not_mem_nil, false_and]
  · rw [bind_error_iff, mapM_error_iff]
    simp only [pure_eq_ok, reduceCtorEq, exists_false, and_false, or_false]

theorem load_reads (lawful : conf.lz.Lawful) (storable : db.Storable)
    (filled : db.keyValueMap.items ≠ []) {code : Bytes} (saved : db.save conf = .ok code) :
    Reads (load conf.lz) code db.norm := by
  rw [save, if_neg filled] at saved
  obtain ⟨codes, mapped, returned⟩ := bind_eq_ok.mp saved
  obtain ⟨each, rfl⟩ := mapM_pointwise [] mapped
  cases returned
  rw [← List.singleton_append]
  apply Reads.bind (popFront_reads _)
  rw [if_neg (not_not_intro rfl)]
  apply Reads.bind (peekInt_reads _)
  apply Reads.bind (peekSize_reads _)
  rw [UInt64.toNat_ofNat', Nat.mod_eq_of_lt storable.sized, ← List.flatMap_def]
  apply Reads.bind_pure (fun map => (⟨db.number, map⟩ : LoadedDb))
  rw [Keyed.ofList, List.foldl_map]
  apply Reads.loop
  intro kv member acc
  exact Reads.bind_pure acc.insert
    (KeyValue.decode_reads lawful (storable.entries kv member) (each kv member))

theorem save_of_empty (conf : DumpConf) (empty : db.keyValueMap.items = []) :
    db.save conf = .ok [] := by
  rw [save, if_pos empty]

theorem save_ne_nil (filled : db.keyValueMap.items ≠ []) {code : Bytes}
    (saved : db.save conf = .ok code) : code ≠ [] := by
  rw [save, if_neg filled] at saved
  obtain ⟨codes, -, returned⟩ := bind_eq_ok.mp saved
  cases returned
  exact List.cons_ne_nil _ _

end Db

/-- The databases that have a key. -/
def keyed (databases : List Db) : List Db := databases.filter fun db => db.keyValueMap.items ≠ []

/-- The loop of `RDBLoad` over everything `RDBSave` wrote behind the magic number. -/
theorem rdbLoadDatabases_save (lawful : conf.lz.Lawful) {databases : List Db}
    (storable : ∀ db ∈ databases, db.Storable) {sources : List Bytes}
    (saved : databaseSave conf databases = .ok sources) {fuel : Nat}
    (enough : sources.flatten.length ≤ fuel) :
    rdbLoadDatabases conf.lz fuel sources.flatten = .ok ((keyed databases).map Db.norm, []) := by
  have each := mapM_eq_ok.mp saved
  clear saved
  induction each generalizing fuel with
  | nil =>
      cases fuel with
      | zero => rfl
      | succ fuel => rfl
  | @cons db code databases codes head tail ih =>
      have later := fun other member => storable other (List.mem_cons_of_mem db member)
      rw [List.flatten_cons] at enough ⊢
      by_cases filled : db.keyValueMap.items = []
      · have nothing : code = [] := Except.ok.inj (head.symm.trans (Db.save_of_empty conf filled))
        have dropped : keyed (db :: databases) = keyed databases :=
          List.filter_cons_of_neg (by simpa using filled)
        rw [nothing, List.nil_append] at enough ⊢
        rw [dropped]
        exact ih later enough
      · have something := Db.save_ne_nil filled head
        have kept : keyed (db :: databases) = db :: keyed databases :=
          List.filter_cons_of_pos (by simpa using filled)
        have positive : 0 < code.length := List.length_pos_iff.mpr something
        rw [List.length_append] at enough
        cases fuel with
        | zero => omega
        | succ fuel =>
            have read := Db.load_reads lawful (storable db List.mem_cons_self) filled head
            have rest : rdbLoadDatabases conf.lz fuel codes.flatten = _ := ih later (by omega)
            have more : code ++ codes.flatten ≠ [] := List.append_ne_nil_of_left_ne_nil something _
            have first : Db.load conf.lz (code ++ codes.flatten) = .ok (db.norm, codes.flatten) :=
              read codes.flatten
            simp only [rdbLoadDatabases, more, ↓reduceIte, first, ok_bind, rest, pure_eq_ok, kept,
              List.map_cons]

theorem rdbLoad_save (lawful : conf.lz.Lawful) {databases : List Db}
    (storable : ∀ db ∈ databases, db.Storable) {sources : List Bytes}
    (saved : databaseSave conf databases = .ok sources) :
    rdbLoad conf.lz (rdbSave sources) = .ok ((keyed databases).map Db.norm) := by
  have magic : peekString 3 (rdbSave sources) = .ok (bytes "RDB", sources.flatten) :=
    peekString_reads (bytes "RDB") sources.flatten
  rw [rdbLoad, magic]
  simp only [ok_bind, ne_eq, not_true_eq_false, ↓reduceIte,
    rdbLoadDatabases_save lawful storable saved (Nat.le_refl _), pure_eq_ok]

/-- Saving returns, loading what was written returns, and every database that has a key
is loaded with its number and its key space. -/
def Lossless (conf : DumpConf) (databases : List Db) : Prop :=
  ∃ sources loaded, databaseSave conf databases = .ok sources ∧
    rdbLoad conf.lz (rdbSave sources) = .ok loaded ∧
    ∀ db ∈ databases, db.keyValueMap.items ≠ [] →
      ∃ l ∈ loaded, l.number = db.number ∧ LoadedDb.contents l = db.contents

namespace Db

theorem mem_strings_key {kv : KeyValue} (member : kv ∈ db.keyValueMap.items) :
    kv.key ∈ db.strings :=
  List.mem_flatMap.mpr ⟨kv, member, List.mem_cons_self⟩

theorem mem_strings_value {kv : KeyValue} (member : kv ∈ db.keyValueMap.items) {s : Str}
    (inside : s ∈ kv.value.strings) : s ∈ db.strings :=
  List.mem_flatMap.mpr ⟨kv, member, List.mem_cons_of_mem _ inside⟩

/-- With canonical keys, every key is loaded with the normal form of its entry. -/
theorem find_norm (keys : ∀ kv ∈ db.keyValueMap.items, kv.key.Canonical) (key : Bytes) :
    db.norm.keyValueMap.find key = (db.keyValueMap.find key).map KeyValue.norm := by
  apply Keyed.find_ofList_map
  intro kv member
  exact congrArg Str.data (Str.norm_of_canonical (keys kv member))

theorem contents_norm_of_canonical (canonical : ∀ s ∈ db.strings, s.Canonical) :
    LoadedDb.contents db.norm = db.contents := by
  funext key
  have keys : ∀ kv ∈ db.keyValueMap.items, kv.key.Canonical :=
    fun kv member => canonical _ (mem_strings_key member)
  rw [LoadedDb.contents, Db.contents, Store.keySpace, Store.keySpace, find_norm keys]
  cases found : db.keyValueMap.find key with
  | none => rfl
  | some kv =>
      have member := (db.keyValueMap.find_eq_some_iff.mp found).1
      have value : kv.value.norm.contents = kv.value.contents :=
        Object.contents_norm_of_canonical
          fun s inside => canonical s (mem_strings_value member inside)
      simp only [Option.map_some, KeyValue.norm, value]

theorem canonical_of_contents_norm (encodable : ∀ s ∈ db.strings, ¬ s.Unencodable)
    (same : LoadedDb.contents db.norm = db.contents) : ∀ s ∈ db.strings, s.Canonical := by
  have keys : ∀ kv ∈ db.keyValueMap.items, kv.key.Canonical := by
    apply Str.canonical_keys db.keyValueMap db.norm.keyValueMap (fun _ => rfl)
    · intro loaded listed
      obtain ⟨kv, member, rfl⟩ := List.mem_map.mp (Keyed.mem_ofList listed)
      exact ⟨kv, member, rfl⟩
    · exact fun kv member => encodable _ (mem_strings_key member)
    · intro kv member missing
      have there := congrFun same kv.name
      rw [LoadedDb.contents, Db.contents, Store.keySpace, Store.keySpace, missing,
        db.keyValueMap.find_of_mem member] at there
      cases there
  intro s inside
  obtain ⟨kv, member, which⟩ := List.mem_flatMap.mp inside
  rcases List.mem_cons.mp which with rfl | inValue
  · exact keys kv member
  · have entry := congrFun same kv.name
    rw [LoadedDb.contents, Db.contents, Store.keySpace, Store.keySpace, find_norm keys,
      db.keyValueMap.find_of_mem member] at entry
    have value : kv.value.norm.contents = kv.value.contents := by
      have pair := Option.some.inj entry
      exact Option.some.inj (congrArg Prod.fst pair)
    exact Object.canonical_of_contents_norm
      (fun t there => encodable t (mem_strings_value member there)) value s inValue

end Db

/-- For databases with distinct numbers, nothing is lost exactly when every string that
is tagged `INT` is a canonical decimal. -/
theorem lossless_iff_canonical (lawful : conf.lz.Lawful) {databases : List Db}
    (storable : ∀ db ∈ databases, db.Storable) (distinct : (databases.map Store.number).Nodup) :
    Lossless conf databases ↔ ∀ db ∈ databases, ∀ s ∈ db.strings, s.Canonical := by
  constructor
  · rintro ⟨sources, loaded, saved, load, kept⟩ db member s inside
    rw [rdbLoad_save lawful storable saved, Except.ok.injEq] at load
    subst load
    have encodable : ∀ t ∈ db.strings, ¬ t.Unencodable := by
      intro t there bad
      obtain ⟨fault, raised⟩ := (Db.save_error_iff conf db).mpr ⟨t, there, bad⟩
      obtain ⟨fault', failed⟩ := mapM_error_iff.mpr ⟨db, member, fault, raised⟩
      rw [databaseSave, failed] at saved
      cases saved
    have filled : db.keyValueMap.items ≠ [] := by
      intro empty
      rw [Db.strings, empty] at inside
      cases inside
    obtain ⟨l, listed, number, same⟩ := kept db member filled
    obtain ⟨other, there, rfl⟩ := List.mem_map.mp listed
    have equal : other = db :=
      List.inj_on_of_nodup_map distinct (List.mem_filter.mp there).1 member number
    rw [equal] at same
    exact Db.canonical_of_contents_norm encodable same s inside
  · intro canonical
    have returns : ∃ sources, databaseSave conf databases = .ok sources := by
      rcases ok_or_error (databaseSave conf databases) with returned | raised
      · exact returned
      · obtain ⟨db, member, fault⟩ := mapM_error_iff.mp raised
        obtain ⟨s, inside, bad⟩ := (Db.save_error_iff conf db).mp fault
        exact absurd bad (Str.encodable_of_canonical (canonical db member s inside))
    obtain ⟨sources, saved⟩ := returns
    refine ⟨sources, _, saved, rdbLoad_save lawful storable saved, ?_⟩
    intro db member filled
    refine ⟨db.norm, List.mem_map_of_mem ?_, rfl, Db.contents_norm_of_canonical (canonical db member)⟩
    exact List.mem_filter.mpr ⟨member, by simpa using filled⟩

/-- A database with one key. -/
def Db.single (number : Int32) : Db :=
  ⟨number, Keyed.ofList [⟨Str.ofData (bytes "k"), .str (Str.ofData (bytes "v")), none⟩]⟩

theorem Db.single_storable (number : Int32) : (single number).Storable where
  sized := (by decide : (single 0).keyValueMap.items.length < 2 ^ 64)
  entries := (by decide : ∀ kv ∈ (single 0).keyValueMap.items, KeyValue.Storable kv)

end ForkRedis
