import ForkRedis.ZSetDump
import ForkRedis.Persistence
import ForkRedis.Startup

set_option autoImplicit false

/- A database that has been loaded once comes back from its next dump as it was. What is
loaded is in normal form: its integers are canonical decimals, no two of its names differ
in leading zeros only, and its sorted sets rank ties in the order of insertion. -/
namespace ForkRedis

open Wire Decimal Lists Fallible

theorem numeral_length_le (n : Nat) : (numeral n).length ≤ n + 1 := by
  induction n using Nat.strongRecOn with
  | ind n ih =>
      by_cases small : n < 10
      · rw [numeral_of_lt small, List.length_singleton]
        omega
      · have shorter := ih (n / 10) (by omega)
        rw [numeral_of_le (by omega), List.length_append, List.length_singleton]
        omega

namespace Str

theorem ofInt_storable (n : Int32) : (ofInt n).Storable := by
  have low := n.le_toInt
  have high := n.toInt_lt
  have digits := numeral_length_le n.toInt.natAbs
  refine ⟨?_, nofun⟩
  change (render n.toInt).length < 2 ^ 63
  rw [render]
  split
  · rw [List.length_cons]
    omega
  · omega

theorem ofInt_canonical (n : Int32) : (ofInt n).Canonical := fun _ => ⟨n, rfl⟩

/-- Behind a dump every string is canonical, and can be stored again. -/
theorem norm_settled {s : Str} (storable : s.Storable) (encodable : ¬ s.Unencodable) :
    s.norm.Storable ∧ s.norm.Canonical := by
  rcases norm_cases encodable with ⟨raw, kept⟩ | ⟨n, decimal⟩
  · rw [kept]
    refine ⟨storable, fun int => ?_⟩
    rw [raw] at int
    cases int
  · rw [decimal]
    exact ⟨ofInt_storable n, ofInt_canonical n⟩

end Str

namespace LinkedZSet

/-- The pairs that were added are what another fresh object needs to become the same. -/
theorem ofEntries_entries (pairs : List (Str × Int32)) :
    ofEntries (ofEntries pairs).entries = ofEntries pairs := by
  induction pairs using List.reverseRecOn with
  | nil => rfl
  | append_singleton pairs pair ih =>
      rw [ofEntries_append]
      by_cases there : ∃ entry ∈ (ofEntries pairs).entries, entry.1.data = pair.1.data
      · rw [add_of_mem pair.2 there, ih]
      · rw [entries_add, if_neg there, ofEntries_append, ih]

theorem length_entries_ofEntries (pairs : List (Str × Int32)) :
    (ofEntries pairs).entries.length ≤ pairs.length := by
  induction pairs using List.reverseRecOn with
  | nil => exact Nat.le_refl 0
  | append_singleton pairs pair ih =>
      rw [ofEntries_append, entries_add, List.length_append, List.length_singleton]
      split
      · omega
      · rw [List.length_append, List.length_singleton]
        omega

end LinkedZSet

namespace Object

/-- An object as a load leaves it. -/
structure Settled (object : Object) : Prop where
  storable : object.Storable
  canonical : ∀ s ∈ object.strings, s.Canonical
  inserted : ∀ z, object = .zset z → ∃ pairs, z = LinkedZSet.ofEntries pairs

theorem mem_strings_norm {object : Object} {s : Str} (member : s ∈ object.norm.strings) :
    ∃ t ∈ object.strings, s = t.norm := by
  cases object with
  | str t => exact ⟨t, List.mem_cons_self, List.mem_singleton.mp member⟩
  | list l =>
      obtain ⟨t, inside, rfl⟩ := List.mem_map.mp member
      exact ⟨t, inside, rfl⟩
  | hash h =>
      obtain ⟨field, listed, which⟩ := List.mem_flatMap.mp member
      obtain ⟨old, inside, rfl⟩ := List.mem_map.mp (Keyed.mem_ofList listed)
      have strings (t : Str) (one : t ∈ [old.1, old.2]) : t ∈ (Object.hash h).strings :=
        List.mem_flatMap.mpr ⟨old, inside, one⟩
      rcases List.mem_pair.mp which with rfl | rfl
      · exact ⟨old.1, strings _ List.mem_cons_self, rfl⟩
      · exact ⟨old.2, strings _ (List.mem_cons_of_mem _ List.mem_cons_self), rfl⟩
  | set set =>
      obtain ⟨t, inside, rfl⟩ := List.mem_map.mp (Keyed.mem_ofList member)
      exact ⟨t, inside, rfl⟩
  | zset z =>
      obtain ⟨entry, listed, rfl⟩ := List.mem_map.mp member
      obtain ⟨old, inside, rfl⟩ := List.mem_map.mp (LinkedZSet.mem_ofEntries listed)
      exact ⟨old.1, List.mem_map_of_mem inside, rfl⟩

theorem size_norm_lt {object : Object} (storable : object.Storable)
    (encodable : ∀ s ∈ object.strings, ¬ s.Unencodable) : object.norm.size < 2 ^ 64 := by
  have sized := storable.sized
  cases object with
  | str s =>
      have inside : s ∈ (Object.str s).strings := List.mem_singleton_self s
      have fits : s.norm.data.length < 2 ^ 63 :=
        (Str.norm_settled (storable.strings s inside) (encodable s inside)).1.fits
      change s.norm.data.length < 2 ^ 64
      omega
  | list l =>
      have same : (StrList.norm l).length = l.length := List.length_map _
      change (StrList.norm l).length < 2 ^ 64
      rw [same]
      exact sized
  | hash h =>
      refine Nat.lt_of_le_of_lt (Keyed.length_ofList_le _) ?_
      rw [List.length_map]
      exact sized
  | set s =>
      refine Nat.lt_of_le_of_lt (Keyed.length_ofList_le _) ?_
      rw [List.length_map]
      exact sized
  | zset z =>
      refine Nat.lt_of_le_of_lt (LinkedZSet.length_entries_ofEntries _) ?_
      rw [List.length_map]
      exact sized

theorem settled_norm {object : Object} (storable : object.Storable)
    (encodable : ∀ s ∈ object.strings, ¬ s.Unencodable) : object.norm.Settled := by
  have each : ∀ s ∈ object.norm.strings, s.Storable ∧ s.Canonical := by
    intro s member
    obtain ⟨t, inside, rfl⟩ := mem_strings_norm member
    exact Str.norm_settled (storable.strings t inside) (encodable t inside)
  refine ⟨⟨size_norm_lt storable encodable, fun s member => (each s member).1⟩,
    fun s member => (each s member).2, ?_⟩
  intro z same
  cases object with
  | zset old =>
      cases same
      exact ⟨_, rfl⟩
  | str s | list l | hash h | set s => cases same

namespace Reordered

variable {object object' object'' : Object}

theorem size_eq (same : object.Reordered object') : object'.size = object.size := by
  cases same with
  | str s | list l | zset z => rfl
  | hash perm => exact perm.symm.length_eq
  | set perm => exact perm.symm.length_eq

theorem trans (first : object.Reordered object') (second : object'.Reordered object'') :
    object.Reordered object'' := by
  cases first with
  | str s | list l | zset z => exact second
  | hash perm =>
      cases second with
      | hash perm' => exact .hash (perm.trans perm')
  | set perm =>
      cases second with
      | set perm' => exact .set (perm.trans perm')

theorem settled (same : object.Reordered object') (settled : object.Settled) : object'.Settled := by
  refine ⟨⟨same.size_eq ▸ settled.storable.sized, ?_⟩, ?_, ?_⟩
  · exact fun s member => settled.storable.strings s (same.mem_strings.mp member)
  · exact fun s member => settled.canonical s (same.mem_strings.mp member)
  · intro z equal
    cases same with
    | zset z => exact settled.inserted _ equal
    | str s | list l | hash perm | set perm => cases equal

end Reordered

/-- A settled object comes back from its dump in another order at most. -/
theorem Settled.reordered_norm {object : Object} (settled : object.Settled) :
    object.Reordered object.norm := by
  have canonical := settled.canonical
  cases object with
  | str s =>
      rw [norm, Str.norm_of_canonical (canonical s List.mem_cons_self)]
      exact .str s
  | list l =>
      have same : StrList.norm l = l := StrList.norm_of_canonical canonical
      rw [norm, same]
      exact .list l
  | hash h =>
      rw [norm, StrHash.norm_of_canonical canonical]
      exact .hash (Keyed.ofList_perm _ h.distinct).symm
  | set s =>
      rw [norm, StrSet.norm_of_canonical canonical]
      exact .set (Keyed.ofList_perm _ s.distinct).symm
  | zset z =>
      obtain ⟨pairs, rfl⟩ := settled.inserted z rfl
      rw [norm, LinkedZSet.norm_of_canonical canonical, LinkedZSet.ofEntries_entries]
      exact .zset _

end Object

/-- The entry a dump of `kv` stands for, when it has its value. -/
def KeyValue.reloaded (kv : KeyValue) : KeyValue := ⟨kv.key.norm, kv.value.norm, kv.expireTimeUs⟩

namespace Db

/-- The database a dump of `db` stands for, with the value of every key. -/
def reloaded (db : Db) : Db :=
  ⟨db.number, Keyed.ofList (db.keyValueMap.items.map KeyValue.reloaded)⟩

theorem loaded_reloaded (db : Db) : db.reloaded.loaded = db.norm := by
  have entries : db.keyValueMap.items.map KeyValue.norm =
      (db.keyValueMap.items.map KeyValue.reloaded).map KeyValue.loaded := by
    rw [List.map_map]
    rfl
  have maps : db.reloaded.loaded.keyValueMap = db.norm.keyValueMap := by
    apply Keyed.ext_items
    rw [norm, entries, Keyed.items_ofList_map KeyValue.loaded (fun _ => rfl)]
    rfl
  exact congrArg (Store.mk db.number) maps

/-- A database as a load leaves it. -/
structure Settled (db : Db) : Prop where
  sized : db.keyValueMap.items.length < 2 ^ 64
  filled : db.keyValueMap.items ≠ []
  key : ∀ kv ∈ db.keyValueMap.items, kv.key.Storable ∧ kv.key.Canonical
  value : ∀ kv ∈ db.keyValueMap.items, kv.value.Settled

theorem Settled.storable {db : Db} (settled : db.Settled) : db.Storable :=
  ⟨settled.sized, fun kv member => ⟨(settled.key kv member).1, (settled.value kv member).storable⟩⟩

theorem Settled.canonical {db : Db} (settled : db.Settled) : ∀ s ∈ db.strings, s.Canonical := by
  intro s inside
  obtain ⟨kv, member, which⟩ := List.mem_flatMap.mp inside
  rcases List.mem_cons.mp which with rfl | inValue
  · exact (settled.key kv member).2
  · exact (settled.value kv member).canonical s inValue

theorem settled_reloaded {db : Db} (storable : db.Storable) (filled : db.keyValueMap.items ≠ [])
    (encodable : ∀ s ∈ db.strings, ¬ s.Unencodable) : db.reloaded.Settled := by
  constructor
  · refine Nat.lt_of_le_of_lt (Keyed.length_ofList_le _) ?_
    rw [List.length_map]
    exact storable.sized
  · exact Keyed.ofList_ne_nil (by simpa using filled)
  · intro kv member
    obtain ⟨old, inside, rfl⟩ := List.mem_map.mp (Keyed.mem_ofList member)
    exact Str.norm_settled (storable.entries old inside).key (encodable _ (mem_strings_key inside))
  · intro kv member
    obtain ⟨old, inside, rfl⟩ := List.mem_map.mp (Keyed.mem_ofList member)
    exact Object.settled_norm (storable.entries old inside).value
      fun s there => encodable s (mem_strings_value inside there)

namespace Reordered

variable {db db' db'' : Db}

theorem mem_items (same : db.Reordered db') {kv' : KeyValue} (member : kv' ∈ db'.keyValueMap.items) :
    ∃ kv ∈ db.keyValueMap.items, KeyValue.Reordered kv kv' := by
  have related := same.entries kv'.name
  rw [db'.keyValueMap.find_of_mem member] at related
  generalize found : db.keyValueMap.find kv'.name = before at related
  cases related with
  | some entry => exact ⟨_, (db.keyValueMap.find_eq_some_iff.mp found).1, entry⟩

theorem names_perm (same : db.Reordered db') :
    (db'.keyValueMap.items.map Entry.name).Perm (db.keyValueMap.items.map Entry.name) := by
  rw [List.perm_ext_iff_of_nodup db'.keyValueMap.distinct db.keyValueMap.distinct]
  intro key
  have related := same.entries key
  have found {V : Type} (m : Keyed (Entry.name (V := V))) :
      key ∈ m.items.map Entry.name ↔ m.find key ≠ none := by
    rw [ne_eq, Keyed.find_eq_none_iff, List.mem_map]
    simp only [not_forall, not_not, exists_prop]
  rw [found, found]
  generalize db.keyValueMap.find key = before at related ⊢
  generalize db'.keyValueMap.find key = after at related ⊢
  cases related with
  | none => rfl
  | some _ => exact iff_of_true (Option.some_ne_none _) (Option.some_ne_none _)

theorem settled (same : db.Reordered db') (settled : db.Settled) : db'.Settled := by
  have lengths : db'.keyValueMap.items.length = db.keyValueMap.items.length := by
    simpa using same.names_perm.length_eq
  constructor
  · rw [lengths]
    exact settled.sized
  · have positive := List.length_pos_iff.mpr settled.filled
    exact List.length_pos_iff.mp (lengths ▸ positive)
  · intro kv' member
    obtain ⟨kv, inside, entry⟩ := same.mem_items member
    rw [entry.key]
    exact settled.key kv inside
  · intro kv' member
    obtain ⟨kv, inside, entry⟩ := same.mem_items member
    exact entry.value.settled (settled.value kv inside)

theorem trans (first : db.Reordered db') (second : db'.Reordered db'') : db.Reordered db'' := by
  refine ⟨second.number.trans first.number, fun key => ?_⟩
  have before := first.entries key
  have after := second.entries key
  generalize db.keyValueMap.find key = a at before ⊢
  generalize db'.keyValueMap.find key = b at before after
  generalize db''.keyValueMap.find key = c at after ⊢
  cases before with
  | none =>
      cases after
      exact .none
  | some entry =>
      cases after with
      | some entry' =>
          exact .some ⟨entry'.key.trans entry.key, entry.value.trans entry'.value,
            entry'.expiry.trans entry.expiry⟩

end Reordered

/-- A settled database comes back from its dump in another order at most. -/
theorem Settled.reordered_reloaded {db : Db} (settled : db.Settled) :
    db.Reordered db.reloaded := by
  refine ⟨rfl, fun key => ?_⟩
  have keeps : ∀ kv ∈ db.keyValueMap.items, Entry.name (KeyValue.reloaded kv) = kv.name :=
    fun kv member => congrArg Str.data (Str.norm_of_canonical (settled.key kv member).2)
  have renamed : db.reloaded.keyValueMap.find key =
      (db.keyValueMap.find key).map KeyValue.reloaded := Keyed.find_ofList_map _ _ keeps key
  rw [renamed]
  cases found : db.keyValueMap.find key with
  | none => exact .none
  | some kv =>
      have member := (db.keyValueMap.find_eq_some_iff.mp found).1
      exact .some ⟨Str.norm_of_canonical (settled.key kv member).2,
        (settled.value kv member).reordered_norm, rfl⟩

theorem Settled.save_returns {db : Db} (settled : db.Settled) (conf : DumpConf) :
    ∃ code, db.save conf = .ok code := by
  rcases ok_or_error (db.save conf) with returned | raised
  · exact returned
  · obtain ⟨s, inside, bad⟩ := (save_error_iff conf db).mp raised
    exact absurd bad (Str.encodable_of_canonical (settled.canonical s inside))

/-- `Load` of what `Save` wrote gives the normal form. -/
theorem load_reads_reloaded {conf : DumpConf} (lawful : conf.lz.Lawful) {db : Db}
    (storable : db.Storable) (filled : db.keyValueMap.items ≠ []) {code : Bytes}
    (saved : db.save conf = .ok code) : Reads (load conf.lz) code db.reloaded.loaded := by
  rw [loaded_reloaded]
  exact load_reads lawful storable filled saved

end Db

/-- Every read of one object gives what it gives of the other; where a hash container is
listed, in some order. -/
def Object.SameReads : Object → Object → Prop
  | .str s, .str s' => s.getRaw = s'.getRaw ∧ s.len = s'.len
  | .list l, .list l' =>
      (∀ idx, StrList.index l idx = StrList.index l' idx) ∧ StrList.len l = StrList.len l'
  | .hash h, .hash h' =>
      (∀ key, StrHash.get h key = StrHash.get h' key) ∧
      (∀ key, StrHash.exist h key = StrHash.exist h' key) ∧
      (StrHash.getAll h).Perm (StrHash.getAll h') ∧ StrHash.len h = StrHash.len h'
  | .set s, .set s' =>
      (∀ m, StrSet.isMember s m = StrSet.isMember s' m) ∧
      (StrSet.members s).Perm (StrSet.members s') ∧ StrSet.card s = StrSet.card s'
  | .zset z, .zset z' => ZSet.SameQueries z.1 z'.1 ∧ z.1.card = z'.1.card
  | _, _ => False

theorem Object.Reordered.sameReads {object object' : Object} (same : object.Reordered object') :
    object.SameReads object' := by
  cases same with
  | str s => exact ⟨rfl, rfl⟩
  | list l => exact ⟨fun _ => rfl, rfl⟩
  | @hash h h' perm =>
      have found (key : Str) : h.find key.data = h'.find key.data := Keyed.find_of_perm perm _
      refine ⟨fun key => ?_, fun key => ?_, perm, perm.length_eq⟩
      · rw [StrHash.get, StrHash.get, found]
      · rw [StrHash.exist, StrHash.exist, found]
  | @set s s' perm =>
      refine ⟨fun m => ?_, perm, perm.length_eq⟩
      rw [StrSet.isMember, StrSet.isMember, Keyed.find_of_perm perm]
  | zset z =>
      exact ⟨⟨fun _ _ => rfl, fun _ _ => rfl, fun _ _ => rfl, fun _ _ => rfl, fun _ _ => rfl,
        fun _ => rfl, fun _ => rfl⟩, rfl⟩

/-- The databases have one number, and the same keys with objects that read the same and
with the same expiries. -/
structure Db.SameReads (db db' : Db) : Prop where
  number : db'.number = db.number
  entries : ∀ key, Option.Rel (fun kv kv' : KeyValue => kv.value.SameReads kv'.value ∧
    kv'.expireTimeUs = kv.expireTimeUs) (db.keyValueMap.find key) (db'.keyValueMap.find key)

theorem Db.Reordered.sameReads {db db' : Db} (same : db.Reordered db') : db.SameReads db' := by
  refine ⟨same.number, fun key => ?_⟩
  have related := same.entries key
  generalize db.keyValueMap.find key = before at related ⊢
  generalize db'.keyValueMap.find key = after at related ⊢
  cases related with
  | none => exact .none
  | some entry => exact .some ⟨entry.value.sameReads, entry.expiry⟩

/-- Whatever order the hash containers of what was loaded are iterated in, saving it returns,
and what is loaded from that reads the same. -/
theorem Db.reload_fixed {conf : DumpConf} (lawful : conf.lz.Lawful) {db : Db}
    (addressable : db.Addressable) (filled : db.keyValueMap.items ≠ [])
    (raws : ∀ s ∈ db.strings, s.encodingType = .strRaw → s.data ≠ []) {code : Bytes}
    (saved : db.save conf = .ok code) :
    ∃ loaded : Db, Reads (load conf.lz) code loaded.loaded ∧
      ∀ db₁ : Db, loaded.Reordered db₁ →
        ∃ code₁, db₁.save conf = .ok code₁ ∧
          ∃ loaded₁ : Db, Reads (load conf.lz) code₁ loaded₁.loaded ∧
            ∀ db₂ : Db, loaded₁.Reordered db₂ → db₁.SameReads db₂ := by
  have string : ∀ s ∈ db.strings, s.Storable :=
    fun s inside => ⟨addressable.strings s inside, raws s inside⟩
  have storable : db.Storable := by
    refine ⟨addressable.sized, fun kv member => ⟨string _ (mem_strings_key member), ?_⟩⟩
    exact ⟨addressable.values kv member, fun s inside => string s (mem_strings_value member inside)⟩
  have encodable : ∀ s ∈ db.strings, ¬ s.Unencodable := by
    intro s inside bad
    obtain ⟨fault, raised⟩ := (save_error_iff conf db).mpr ⟨s, inside, bad⟩
    rw [saved] at raised
    cases raised
  refine ⟨db.reloaded, load_reads_reloaded lawful storable filled saved, ?_⟩
  intro db₁ ordered
  have settled := ordered.settled (settled_reloaded storable filled encodable)
  obtain ⟨code₁, saved₁⟩ := settled.save_returns conf
  refine ⟨code₁, saved₁, db₁.reloaded,
    load_reads_reloaded lawful settled.storable settled.filled saved₁, ?_⟩
  exact fun db₂ ordered₂ => (settled.reordered_reloaded.trans ordered₂).sameReads

/-- A member that has been moved behind another with its score. -/
def LinkedZSet.moved : LinkedZSet where
  val := ⟨[⟨1, 0, 1⟩, ⟨3, 2, 1⟩], [⟨0, Str.ofData [97], 1⟩, ⟨2, Str.ofData [98], 3⟩],
    [⟨1, 2⟩, ⟨1, 0⟩], 4⟩
  property := ZSet.Reached.linked (@ZSet.Reached.of_run
    [.add 1 (Str.ofData [97]), .add 1 (Str.ofData [98]), .incrBy 0 (Str.ofData [97])] _ rfl)

/-- A set with two spellings of one integer, and a sorted set whose ties are moved. -/
def Db.unsettled : Db where
  number := 3
  keyValueMap := Keyed.ofList [KeyValue.collidingSet,
    ⟨Str.ofData (bytes "z"), .zset LinkedZSet.moved, none⟩]

theorem Db.reload_fixed_unsettled :
    ∃ code, unsettled.save ⟨Lzfse.storedBlocks, true⟩ = .ok code ∧
      ∃ loaded : Db, Reads (load Lzfse.storedBlocks) code loaded.loaded ∧
        ∀ db₁ : Db, loaded.Reordered db₁ →
          ∃ code₁, db₁.save ⟨Lzfse.storedBlocks, true⟩ = .ok code₁ ∧
            ∃ loaded₁ : Db, Reads (load Lzfse.storedBlocks) code₁ loaded₁.loaded ∧
              ∀ db₂ : Db, loaded₁.Reordered db₂ → db₁.SameReads db₂ := by
  have checked : ((unsettled.save ⟨Lzfse.storedBlocks, true⟩).toOption.any
      fun _ => decide True) = true := by decide +kernel
  obtain ⟨code, saved, -⟩ := ok_checked checked
  have sized : unsettled.keyValueMap.items.length < 2 ^ 64 := by decide +kernel
  have values : ∀ kv ∈ unsettled.keyValueMap.items, kv.value.size < 2 ^ 64 := by decide +kernel
  have strings : ∀ s ∈ unsettled.strings, s.Fits := by decide +kernel
  exact ⟨code, saved, @reload_fixed ⟨Lzfse.storedBlocks, true⟩ Lzfse.storedBlocks_lawful unsettled
    ⟨sized, values, strings⟩ (by decide +kernel) (by decide +kernel) code saved⟩

end ForkRedis
