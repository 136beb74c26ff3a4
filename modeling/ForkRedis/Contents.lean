import ForkRedis.Codec

set_option autoImplicit false

/- What a client can tell about a key space: the type and the contents of each key, with
the iteration order of hash containers and the addresses of nodes left out; and what of
it survives a dump. -/
namespace ForkRedis

open Wire Decimal Lists Fallible

inductive Contents where
  | str (data : Bytes)
  | list (items : List Bytes)
  | hash (fields : Bytes → Option Bytes)
  | set (members : Set Bytes)
  | zset (entries : List (Bytes × Int32))

namespace Object

def contents : Object → Contents
  | .str s => .str s.data
  | .list l => .list (l.map Str.data)
  | .hash h => .hash fun key => (h.find key).map fun field => field.2.data
  | .set s => .set { key | ∃ m ∈ s.items, m.data = key }
  | .zset z => .zset (z.entries.map fun entry => (entry.1.data, entry.2))

end Object

/-- Keys with what they hold and their expiry. Only a loaded entry can hold nothing. -/
abbrev KeySpace := Bytes → Option (Option Contents × Option UInt64)

namespace Store

def keySpace {V : Type} (view : V → Option Contents) (db : Store V) : KeySpace :=
  fun key => (db.keyValueMap.find key).map fun kv => (view kv.value, kv.expireTimeUs)

end Store

def Db.contents (db : Db) : KeySpace := Store.keySpace (fun object => some object.contents) db

def LoadedDb.contents (db : LoadedDb) : KeySpace :=
  Store.keySpace (fun value => value.map Object.contents) db

namespace Str

/-- A string that is tagged `INT` is the decimal `std::to_string` writes. -/
def Canonical (s : Str) : Prop := s.encodingType = .int → ∃ n : Int32, s.data = toStringInt n

theorem intValue_render (i : Int) : intValue (render i) = i := by
  by_cases neg : i < 0
  · rw [render_of_neg neg]
    change -(value (numeral i.natAbs) : Int) = i
    rw [value_numeral]
    omega
  · rw [render_of_nonneg (by omega)]
    cases shape : numeral i.natAbs with
    | nil => exact absurd shape (numeral_ne_nil _)
    | cons c rest =>
        have unsigned : c ≠ minus := by
          rintro rfl
          exact numeral_ne_minus _ rest shape
        simp only [intValue, unsigned, ↓reduceIte, ← shape, value_numeral]
        omega

theorem toStringInt_ne_nil (n : Int32) : toStringInt n ≠ [] := render_ne_nil n.toInt

theorem intShaped_toStringInt (n : Int32) : intShaped (toStringInt n) = true :=
  ((classify_int_iff _).mp (classify_toStringInt n)).resolve_left (toStringInt_ne_nil n)

theorem stoi_toStringInt (n : Int32) : stoi (toStringInt n) = .ok n := by
  have low := n.le_toInt
  have high := n.toInt_lt
  rw [stoi_shaped (intShaped_toStringInt n), toStringInt, intValue_render, if_pos ⟨low, high⟩,
    Int32.ofInt_toInt]

theorem canonical_iff (s : Str) :
    s.Canonical ↔ (s.encodingType = .int → (stoi s.data).toOption.map toStringInt = some s.data) := by
  constructor
  · intro canonical tag
    obtain ⟨n, decimal⟩ := canonical tag
    rw [decimal, stoi_toStringInt]
    rfl
  · intro converts tag
    obtain ⟨n, -, decimal⟩ := Option.map_eq_some_iff.mp (converts tag)
    exact ⟨n, decimal.symm⟩

instance (s : Str) : Decidable s.Canonical := decidable_of_iff _ (canonical_iff s).symm

theorem norm_of_raw {s : Str} (tag : s.encodingType = .strRaw) : s.norm = s := by
  rw [norm, if_pos tag]

theorem norm_of_int {s : Str} (tag : s.encodingType = .int) {n : Int32}
    (converted : stoi s.data = .ok n) : s.norm = ofInt n := by
  rw [norm, if_neg (by rw [tag]; decide), converted]

theorem norm_of_canonical {s : Str} (canonical : s.Canonical) : s.norm = s := by
  rcases s.tagged with tag | ⟨tag, -⟩
  · exact norm_of_raw tag
  · obtain ⟨n, decimal⟩ := canonical tag
    rw [norm_of_int tag (by rw [decimal]; exact stoi_toStringInt n)]
    exact ext_data decimal.symm tag.symm

/-- An `INT` string that can be encoded converts. -/
theorem stoi_of_encodable {s : Str} (encodable : ¬ s.Unencodable) (tag : s.encodingType = .int) :
    ∃ n, stoi s.data = .ok n := by
  rcases ok_or_error (stoi s.data) with returned | ⟨fault, raised⟩
  · exact returned
  · refine absurd ?_ encodable
    apply (encodeValue_error_iff ⟨⟨id, id⟩, false⟩ s).mp
    rw [encodeValue, if_neg (by rw [tag]; decide), raised]
    exact ⟨fault, rfl⟩

/-- What a string becomes is a raw string it was before, or a canonical decimal. -/
theorem norm_cases {s : Str} (encodable : ¬ s.Unencodable) :
    s.encodingType = .strRaw ∧ s.norm = s ∨ ∃ n, s.norm = ofInt n := by
  rcases s.tagged with tag | ⟨tag, -⟩
  · exact Or.inl ⟨tag, norm_of_raw tag⟩
  · obtain ⟨n, converted⟩ := stoi_of_encodable encodable tag
    exact Or.inr ⟨n, norm_of_int tag converted⟩

theorem canonical_of_norm_data {s : Str} (encodable : ¬ s.Unencodable)
    (same : s.norm.data = s.data) : s.Canonical := by
  intro tag
  obtain ⟨n, converted⟩ := stoi_of_encodable encodable tag
  rw [norm_of_int tag converted] at same
  exact ⟨n, same.symm⟩

theorem encodable_of_canonical {s : Str} (canonical : s.Canonical) : ¬ s.Unencodable := by
  rintro ⟨tag, bad⟩
  obtain ⟨n, decimal⟩ := canonical tag
  rw [decimal] at bad
  rcases bad with empty | outside
  · exact toStringInt_ne_nil n empty
  · rw [toStringInt, intValue_render] at outside
    exact outside ⟨n.le_toInt, n.toInt_lt⟩

/-- Among strings with distinct contents, one that is not canonical has no counterpart
behind a dump. -/
theorem canonical_of_mem_norm {strs : List Str} (distinct : (strs.map Str.data).Nodup)
    (encodable : ∀ s ∈ strs, ¬ s.Unencodable) {s t : Str} (hs : s ∈ strs) (ht : t ∈ strs)
    (same : t.norm.data = s.data) : s.Canonical := by
  intro tag
  rcases norm_cases (encodable t ht) with ⟨raw_tag, kept⟩ | ⟨n, decimal⟩
  · rw [kept] at same
    have equal := List.inj_on_of_nodup_map distinct ht hs same
    rw [equal, tag] at raw_tag
    cases raw_tag
  · rw [decimal] at same
    exact ⟨n, same.symm⟩

/-- A keyed container whose keys can all be found behind a dump had canonical keys. -/
theorem canonical_keys {α β : Type} {key : α → Bytes} {key' : β → Bytes} (m : Keyed key)
    (loaded : Keyed key') {str : α → Str} (named : ∀ a, key a = (str a).data)
    (renamed : ∀ b ∈ loaded.items, ∃ a ∈ m.items, key' b = (str a).norm.data)
    (encodable : ∀ a ∈ m.items, ¬ (str a).Unencodable)
    (found : ∀ a ∈ m.items, loaded.find (key a) ≠ none) :
    ∀ a ∈ m.items, (str a).Canonical := by
  intro a member
  obtain ⟨b, there⟩ := Option.ne_none_iff_exists'.mp (found a member)
  obtain ⟨listed, same⟩ := loaded.find_eq_some_iff.mp there
  obtain ⟨c, inside, normed⟩ := renamed b listed
  have distinct : ((m.items.map str).map Str.data).Nodup := by
    rw [List.map_map, List.map_congr_left (g := key)]
    · exact m.distinct
    · exact fun x _ => (named x).symm
  refine canonical_of_mem_norm distinct ?_ (List.mem_map_of_mem member)
    (List.mem_map_of_mem inside) ?_
  · intro s listed
    obtain ⟨x, hx, rfl⟩ := List.mem_map.mp listed
    exact encodable x hx
  · rw [← normed, same, named]

end Str

namespace LinkedZSet

theorem entries_distinct (z : LinkedZSet) : (z.entries.map fun entry => entry.1.data).Nodup := by
  obtain ⟨es, rep⟩ := z.2
  rw [entries_eq rep, List.map_map]
  exact rep.keys_distinct

theorem entries_empty : empty.entries = [] := rfl

theorem exists_entry_iff {z : LinkedZSet} {es : List ZEntry} (rep : z.1.Rep es) (member : Str) :
    (∃ entry ∈ z.entries, entry.1.data = member.data) ↔ ∃ e ∈ es, e.key.data = member.data := by
  simp only [entries_eq rep, List.mem_map, exists_exists_and_eq_and]

/-- `Add` of a member that is there changes nothing. -/
theorem add_of_mem {z : LinkedZSet} {member : Str} (score : Int32)
    (there : ∃ entry ∈ z.entries, entry.1.data = member.data) : (z.add score member).1 = z := by
  obtain ⟨es, rep⟩ := z.2
  obtain ⟨e, inside, same⟩ := (exists_entry_iff rep member).mp there
  exact Subtype.ext (congrArg Prod.fst (rep.add_old score inside same))

theorem entries_add (z : LinkedZSet) (score : Int32) (member : Str) :
    (z.add score member).1.entries =
      if ∃ entry ∈ z.entries, entry.1.data = member.data then z.entries
      else z.entries ++ [(member, score)] := by
  split
  · rename_i found
    rw [add_of_mem score found]
  · rename_i missing
    obtain ⟨es, rep⟩ := z.2
    have absent : ∀ e ∈ es, e.key.data ≠ member.data := by
      intro e inside same
      exact missing ((exists_entry_iff rep member).mpr ⟨e, inside, same⟩)
    obtain ⟨z', added, rep'⟩ := rep.add_new score absent
    have result : (z.add score member).1.1 = z' := congrArg Prod.fst added
    rw [entries_eq (result ▸ rep' : (z.add score member).1.1.Rep _), entries_eq rep,
      List.map_append]
    rfl

theorem attach_eq_ok {β : Type} {result : Except Fault (ZSet × β)}
    {keeps : ∀ r, result = .ok r → r.1.Linked} {z : LinkedZSet} {b : β}
    (returned : attach result keeps = .ok (z, b)) : result = .ok (z.1, b) := by
  cases result with
  | error fault => cases returned
  | ok r =>
      cases returned
      rfl

/-- `Rem` takes out the member that has the score. -/
theorem entries_rem {z z' : LinkedZSet} {score : Int32} {member : Str} {removed : Bool}
    (returned : z.rem score member = .ok (z', removed)) :
    z'.entries = if ∃ entry ∈ z.entries, entry.1.data = member.data ∧ entry.2 = score then
      z.entries.filter fun entry => entry.1.data != member.data else z.entries := by
  have called := attach_eq_ok returned
  obtain ⟨es, rep⟩ := z.2
  have there : (∃ entry ∈ z.entries, entry.1.data = member.data ∧ entry.2 = score) ↔
      ∃ e ∈ es, e.key.data = member.data ∧ e.score = score := by
    simp only [entries_eq rep, List.mem_map, exists_exists_and_eq_and]
  by_cases found : ∃ e ∈ es, e.key.data = member.data ∧ e.score = score
  · rw [if_pos (there.mpr found)]
    obtain ⟨e, inside, same, rfl⟩ := found
    by_cases least : e.score = Int32.minValue
    · rw [rep.rem_least inside same least] at called
      cases called
    · obtain ⟨z'', erased, rep'⟩ := rep.rem_mem inside same least
      rw [erased] at called
      cases called
      rw [entries_eq rep, entries_eq rep']
      exact ZEntry.pairs_erase rep.keys_distinct inside same
  · rw [if_neg (mt there.mp found)]
    have miss : ∀ e ∈ es, e.key.data = member.data → e.score ≠ score :=
      fun e inside same hit => found ⟨e, inside, same, hit⟩
    rw [rep.rem_miss score miss] at called
    have kept : z' = z := Subtype.ext (Prod.mk.inj (Except.ok.inj called)).1.symm
    rw [kept]

/-- `IncrBy` changes the score of its member where it stands. -/
theorem entries_incrBy {z z' : LinkedZSet} {delta : Int32} {member : Str} {text : Bytes}
    (returned : z.incrBy delta member = .ok (z', text)) :
    z'.entries = z.entries.map fun entry =>
      if entry.1.data = member.data then (entry.1, entry.2 + delta) else entry := by
  have called := attach_eq_ok returned
  obtain ⟨es, rep⟩ := z.2
  rcases ZEntry.absent_or_mem es member with absent | ⟨e, inside, same⟩
  · rw [rep.incrBy_miss delta absent] at called
    have kept : z' = z := Subtype.ext (Prod.mk.inj (Except.ok.inj called)).1.symm
    rw [kept, entries_eq rep, List.map_map]
    apply List.map_congr_left
    intro x inside
    rw [Function.comp_apply, if_neg (absent x inside)]
  · obtain ⟨z'', incremented, rep'⟩ := rep.incrBy_mem inside delta same
    rw [incremented] at called
    cases called
    rw [entries_eq rep, entries_eq rep', List.map_map, List.map_map]
    apply List.map_congr_left
    intro x listed
    simp only [Function.comp_apply, ZEntry.rescored]
    by_cases hit : x = e
    · rw [if_pos hit, hit, if_pos same]
    · have other : x.key.data ≠ member.data := fun equal =>
        hit (rep.eq_of_key listed inside (equal.trans same.symm))
      rw [if_neg hit, if_neg other]

/-- Pairs with new members, no two the same, are all kept, in order. -/
theorem entries_foldl_add {pairs : List (Str × Int32)} {acc : LinkedZSet}
    (distinct : ((acc.entries ++ pairs).map fun pair => pair.1.data).Nodup) :
    (pairs.foldl (fun acc pair => (acc.add pair.2 pair.1).1) acc).entries =
      acc.entries ++ pairs := by
  induction pairs generalizing acc with
  | nil => rw [List.foldl_nil, List.append_nil]
  | cons pair pairs ih =>
      have absent : ¬ ∃ entry ∈ acc.entries, entry.1.data = pair.1.data := by
        rintro ⟨entry, inside, same⟩
        rw [List.map_append, List.nodup_append] at distinct
        exact distinct.2.2 _ (List.mem_map_of_mem inside) _ (List.mem_map_of_mem List.mem_cons_self)
          same
      have grown : (acc.add pair.2 pair.1).1.entries = acc.entries ++ [pair] := by
        rw [entries_add, if_neg absent]
      rw [List.foldl_cons, ih, grown, List.append_assoc, List.singleton_append]
      rw [grown, List.append_assoc, List.singleton_append]
      exact distinct

theorem entries_ofEntries {pairs : List (Str × Int32)}
    (distinct : (pairs.map fun pair => pair.1.data).Nodup) : (ofEntries pairs).entries = pairs := by
  have fresh : ((empty.entries ++ pairs).map fun pair => pair.1.data).Nodup := by
    rwa [entries_empty, List.nil_append]
  exact entries_foldl_add fresh

theorem mem_ofEntries {pairs : List (Str × Int32)} {pair : Str × Int32}
    (member : pair ∈ (ofEntries pairs).entries) : pair ∈ pairs := by
  have general : ∀ (acc : LinkedZSet),
      pair ∈ (pairs.foldl (fun acc pair => (acc.add pair.2 pair.1).1) acc).entries →
        pair ∈ acc.entries ∨ pair ∈ pairs := by
    clear member
    induction pairs with
    | nil => exact fun acc inside => Or.inl inside
    | cons first pairs ih =>
        intro acc inside
        rcases ih _ inside with before | later
        · rw [entries_add] at before
          split at before
          · exact Or.inl before
          · rcases List.mem_append.mp before with old | new
            · exact Or.inl old
            · rw [List.mem_singleton.mp new]
              exact Or.inr List.mem_cons_self
        · exact Or.inr (List.mem_cons_of_mem _ later)
  rcases general empty member with inside | inside
  · rw [entries_empty] at inside
    cases inside
  · exact inside

/-- Canonical members are inserted again, in order. -/
theorem norm_of_canonical {z : LinkedZSet}
    (canonical : ∀ s ∈ (Object.zset z).strings, s.Canonical) : z.norm = ofEntries z.entries := by
  have same : (z.entries.map fun entry => (entry.1.norm, entry.2)) = z.entries := by
    apply map_fixed
    intro entry member
    rw [Str.norm_of_canonical (canonical entry.1 (List.mem_map_of_mem member))]
  rw [norm, same]

end LinkedZSet

theorem StrList.norm_of_canonical {l : List Str} (canonical : ∀ s ∈ l, s.Canonical) : norm l = l :=
  map_fixed fun s member => Str.norm_of_canonical (canonical s member)

theorem StrHash.norm_of_canonical {h : StrHash}
    (canonical : ∀ s ∈ (Object.hash h).strings, s.Canonical) : norm h = Keyed.ofList h.items := by
  have same : (h.items.map fun field => (field.1.norm, field.2.norm)) = h.items := by
    apply map_fixed
    intro field member
    have inside (s : Str) (which : s ∈ [field.1, field.2]) : s.norm = s :=
      Str.norm_of_canonical (canonical s (List.mem_flatMap.mpr ⟨field, member, which⟩))
    rw [inside field.1 List.mem_cons_self,
      inside field.2 (List.mem_cons_of_mem _ List.mem_cons_self)]
  rw [norm, same]

theorem StrSet.norm_of_canonical {s : StrSet} (canonical : ∀ m ∈ s.items, m.Canonical) :
    norm s = Keyed.ofList s.items := by
  have same : s.items.map Str.norm = s.items :=
    map_fixed fun m member => Str.norm_of_canonical (canonical m member)
  rw [norm, same]

namespace Object

/-- Canonical strings come through a dump unchanged. -/
theorem contents_norm_of_canonical {object : Object}
    (canonical : ∀ s ∈ object.strings, s.Canonical) : object.norm.contents = object.contents := by
  cases object with
  | str s => rw [norm, Str.norm_of_canonical (canonical s List.mem_cons_self)]
  | list l =>
      have same : StrList.norm l = l := StrList.norm_of_canonical canonical
      rw [norm, same]
  | hash h =>
      rw [norm, StrHash.norm_of_canonical canonical, contents, contents]
      congr 1
      funext key
      rw [Keyed.find_of_perm (Keyed.ofList_perm _ h.distinct)]
  | set s =>
      rw [norm, StrSet.norm_of_canonical canonical, contents, contents]
      congr 1
      ext key
      simp only [Set.mem_ofPred_eq, (Keyed.ofList_perm _ s.distinct).mem_iff]
  | zset z =>
      rw [norm, LinkedZSet.norm_of_canonical canonical, contents, contents,
        LinkedZSet.entries_ofEntries z.entries_distinct]

/-- Contents that come back the same were canonical to begin with. -/
theorem canonical_of_contents_norm {object : Object}
    (encodable : ∀ s ∈ object.strings, ¬ s.Unencodable)
    (same : object.norm.contents = object.contents) : ∀ s ∈ object.strings, s.Canonical := by
  cases object with
  | str s =>
      intro t member
      cases List.mem_singleton.mp member
      exact Str.canonical_of_norm_data (encodable s member) (Contents.str.inj same)
  | list l =>
      intro s member
      have items : (l.map Str.norm).map Str.data = l.map Str.data := Contents.list.inj same
      rw [List.map_map] at items
      exact Str.canonical_of_norm_data (encodable s member) (List.map_inj_left.mp items s member)
  | hash h =>
      have fields := congrFun (Contents.hash.inj same)
      have inside {field : Str × Str} (member : field ∈ h.items) {s : Str}
          (which : s ∈ [field.1, field.2]) : s ∈ (Object.hash h).strings :=
        List.mem_flatMap.mpr ⟨field, member, which⟩
      have keys : ∀ field ∈ h.items, field.1.Canonical := by
        apply Str.canonical_keys h (StrHash.norm h) (fun _ => rfl)
        · intro loaded listed
          obtain ⟨field, member, rfl⟩ := List.mem_map.mp (Keyed.mem_ofList listed)
          exact ⟨field, member, rfl⟩
        · exact fun field member => encodable _ (inside member List.mem_cons_self)
        · intro field member missing
          have there := fields field.1.data
          rw [h.find_of_mem member, missing] at there
          cases there
      intro s member
      obtain ⟨field, listed, which⟩ := List.mem_flatMap.mp member
      rcases List.mem_pair.mp which with rfl | rfl
      · exact keys field listed
      · have value := fields field.1.data
        rw [StrHash.norm, Keyed.find_ofList_map h _ (fun other there => by
          rw [Str.norm_of_canonical (keys other there)]), h.find_of_mem listed] at value
        exact Str.canonical_of_norm_data (encodable _ member) (Option.some.inj value)
  | set s =>
      intro m member
      have members := Contents.set.inj same
      have back : m.data ∈ { key | ∃ t ∈ (StrSet.norm s).items, t.data = key } := by
        rw [members]
        exact ⟨m, member, rfl⟩
      obtain ⟨t, inside, data⟩ := back
      obtain ⟨t, there, rfl⟩ := List.mem_map.mp (Keyed.mem_ofList inside)
      exact Str.canonical_of_mem_norm s.distinct encodable member there data
  | zset z =>
      intro m member
      obtain ⟨entry, inside, rfl⟩ := List.mem_map.mp member
      have entries := Contents.zset.inj same
      have back : (entry.1.data, entry.2) ∈
          (LinkedZSet.norm z).entries.map fun entry => (entry.1.data, entry.2) := by
        rw [entries]
        exact List.mem_map.mpr ⟨entry, inside, rfl⟩
      obtain ⟨loaded, listed, data⟩ := List.mem_map.mp back
      obtain ⟨other, there, rfl⟩ := List.mem_map.mp (LinkedZSet.mem_ofEntries listed)
      refine Str.canonical_of_mem_norm ?_ encodable member (List.mem_map_of_mem there)
        (Prod.mk.inj data).1
      rw [strings, List.map_map]
      exact z.entries_distinct

end Object

end ForkRedis
