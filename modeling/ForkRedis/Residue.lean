import ForkRedis.ZSetDump

set_option autoImplicit false

/- Copy assignment and `DecodeValue` put the contents of one object into another. Whether
anything of the other's old contents is left depends on what the class clears first: a
`Hash` clears nothing when it decodes, a `ZSet` only one of its three containers, and nothing
when it is assigned to. -/
namespace ForkRedis

open Wire Decimal Lists Fallible

/-- A container whose elements are read alike whatever it holds gets the same elements into
every start. -/
theorem sized_absorbs {α ι : Type} {round : α → Source α} (absorb : α → ι → α)
    (shared : ∀ acc input next rest, (round acc).run input = .ok (next, rest) →
      ∃ item, ∀ other, (round other).run input = .ok (absorb other item, rest))
    {acc result : α} {code rest : Bytes}
    (decoded : (do
      let len ← peekSize
      loop round len.toNat acc : Source α).run code = .ok (result, rest)) :
    ∃ items : List ι, ∀ other, (do
      let len ← peekSize
      loop round len.toNat other : Source α).run code = .ok (items.foldl absorb other, rest) := by
  rw [StateT.run_bind] at decoded
  obtain ⟨⟨len, body⟩, sized, looped⟩ := bind_eq_ok.mp decoded
  obtain ⟨items, each⟩ := loop_absorbs absorb shared len.toNat looped
  refine ⟨items, fun other => ?_⟩
  rw [StateT.run_bind, sized]
  exact each other

/-- A class of objects as far as replacing one goes: the default constructor, `operator=`
with the target before the source, the dump and its reader. `Consistent` says that the
containers of an object agree with each other, and `Same` that every read gives the same.
The flag of `assign` is `this == &lhs`. -/
structure ObjectClass (α : Type) where
  fresh : α
  assign : Bool → α → α → Except Fault α
  encodeValue : DumpConf → α → Except Fault Bytes
  decodeValue : Lzfse → α → Source α
  Consistent : α → Prop
  Same : α → α → Prop
  sameEquivalence : Equivalence Same

/-- The two ways to replace an object. -/
inductive Manner where
  | assign (sameObject : Bool)
  | decode (conf : DumpConf)

namespace ObjectClass

variable {α : Type} (c : ObjectClass α)

/-- What the target is afterwards. -/
def replace (target source : α) : Manner → Except Fault α
  | .assign sameObject => c.assign sameObject target source
  | .decode conf => do
      let code ← c.encodeValue conf source
      let (result, _) ← (c.decodeValue conf.lz target).run code
      return result

/-- What a new object is afterwards. -/
def made (source : α) : Manner → Except Fault α
  | .assign _ => c.replace c.fresh source (.assign false)
  | .decode conf => c.replace c.fresh source (.decode conf)

/-- The replacement gives a consistent object that no read tells from what a new object
would be. -/
def Replaces (manner : Manner) (target source reference : α) : Prop :=
  ∃ result, c.replace target source manner = .ok result ∧ c.Consistent result ∧
    c.Same result reference

variable {c} {manner : Manner} {target source reference : α}

/-- Two targets that are replaced cannot be told apart any more. -/
theorem Replaces.same {other : α} (replaced : c.Replaces manner target source reference)
    (replaced' : c.Replaces manner other source reference) :
    ∃ result result', c.replace target source manner = .ok result ∧
      c.replace other source manner = .ok result' ∧ c.Same result result' := by
  obtain ⟨result, returned, -, same⟩ := replaced
  obtain ⟨result', returned', -, same'⟩ := replaced'
  exact ⟨result, result', returned, returned',
    c.sameEquivalence.trans same (c.sameEquivalence.symm same')⟩

/-- A class that looks at nothing of the target. -/
theorem Replaces.of_overwritten (consistent : ∀ object, c.Consistent object)
    (overwritten : c.replace target source manner = c.made source manner)
    (made : c.made source manner = .ok reference) : c.Replaces manner target source reference :=
  ⟨reference, overwritten.trans made, consistent reference, c.sameEquivalence.refl reference⟩

/-- A reader that takes the same items from a dump whatever it fills. -/
theorem replace_decode {ι : Type} {absorb : α → ι → α} (clear : α → α) {conf : DumpConf}
    {code : Bytes} (encoded : c.encodeValue conf source = .ok code)
    (reads : ∀ result rest, (c.decodeValue conf.lz c.fresh).run code = .ok (result, rest) →
      ∃ items : List ι, ∀ object,
        (c.decodeValue conf.lz object).run code = .ok (items.foldl absorb (clear object), rest))
    (made : c.made source (.decode conf) = .ok reference) :
    ∃ items : List ι, reference = items.foldl absorb (clear c.fresh) ∧ ∀ object,
      c.replace object source (.decode conf) = .ok (items.foldl absorb (clear object)) := by
  rw [ObjectClass.made, replace, encoded, ok_bind] at made
  obtain ⟨⟨result, rest⟩, decoded, returned⟩ := bind_eq_ok.mp made
  obtain ⟨items, each⟩ := reads result rest decoded
  cases returned
  refine ⟨items, ?_, fun object => ?_⟩
  · cases decoded.symm.trans (each c.fresh)
    rfl
  · rw [replace, encoded, ok_bind, each object]
    rfl

end ObjectClass

namespace Str

def assign (_ : Bool) (_ lhs : Str) : Except Fault Str := .ok lhs

/-- Contents and tag are all there is to read. -/
def objectClass : ObjectClass Str where
  fresh := Str.empty
  assign := assign
  encodeValue conf s := s.encodeValue conf
  decodeValue lz _ := Str.decodeValue lz
  Consistent _ := True
  Same := Eq
  sameEquivalence := eq_equivalence

end Str

namespace StrList

def assign (_ : Bool) (_ lhs : List Str) : Except Fault (List Str) := .ok lhs

def objectClass : ObjectClass (List Str) where
  fresh := []
  assign := assign
  encodeValue := encodeValue
  decodeValue := decodeValue
  Consistent _ := True
  Same := Eq
  sameEquivalence := eq_equivalence

end StrList

namespace StrSet

/-- Every read gives the same, up to the order in which a hash table happens to list what it
holds. -/
structure SameReads (s s' : StrSet) : Prop where
  card : s.card = s'.card
  isMember : ∀ m, s.isMember m = s'.isMember m
  members : s.members.Perm s'.members
  randMember : ∀ m, (∃ random, s.randMember random = m) ↔ ∃ random, s'.randMember random = m
  diff : ∀ other sameObject, (s.diff other sameObject).Perm (s'.diff other sameObject)
  inter : ∀ other sameObject, (s.inter other sameObject).Perm (s'.inter other sameObject)

theorem sameReads_equivalence : Equivalence SameReads where
  refl _ := ⟨rfl, fun _ => rfl, .refl _, fun _ => Iff.rfl, fun _ _ => .refl _, fun _ _ => .refl _⟩
  symm same := ⟨same.card.symm, fun m => (same.isMember m).symm, same.members.symm,
    fun m => (same.randMember m).symm, fun other sameObject => (same.diff other sameObject).symm,
    fun other sameObject => (same.inter other sameObject).symm⟩
  trans same same' := ⟨same.card.trans same'.card,
    fun m => (same.isMember m).trans (same'.isMember m), same.members.trans same'.members,
    fun m => (same.randMember m).trans (same'.randMember m),
    fun other sameObject => (same.diff other sameObject).trans (same'.diff other sameObject),
    fun other sameObject => (same.inter other sameObject).trans (same'.inter other sameObject)⟩

def assign (_ : Bool) (_ lhs : StrSet) : Except Fault StrSet := .ok lhs

def objectClass : ObjectClass StrSet where
  fresh := Keyed.empty
  assign := assign
  encodeValue := encodeValue
  decodeValue := decodeValue
  Consistent _ := True
  Same := SameReads
  sameEquivalence := sameReads_equivalence

end StrSet

namespace StrHash

/-- Every read gives the same, up to the order of the table. -/
structure SameReads (h h' : StrHash) : Prop where
  get : ∀ key, h.get key = h'.get key
  exist : ∀ key, h.exist key = h'.exist key
  len : h.len = h'.len
  getAll : h.getAll.Perm h'.getAll

theorem sameReads_equivalence : Equivalence SameReads where
  refl _ := ⟨fun _ => rfl, fun _ => rfl, rfl, .refl _⟩
  symm same := ⟨fun key => (same.get key).symm, fun key => (same.exist key).symm, same.len.symm,
    same.getAll.symm⟩
  trans same same' := ⟨fun key => (same.get key).trans (same'.get key),
    fun key => (same.exist key).trans (same'.exist key), same.len.trans same'.len,
    same.getAll.trans same'.getAll⟩

theorem sameReads_of_find {h h' : StrHash} (same : ∀ k, h.find k = h'.find k) : SameReads h h' := by
  have perm := Keyed.perm_of_find same
  refine ⟨fun key => ?_, fun key => ?_, perm.length_eq, perm⟩
  · rw [get, same, get]
  · rw [exist, same, exist]

def assign (_ : Bool) (_ lhs : StrHash) : Except Fault StrHash := .ok lhs

def objectClass : ObjectClass StrHash where
  fresh := Keyed.empty
  assign := assign
  encodeValue := encodeValue
  decodeValue := decodeValue
  Consistent _ := True
  Same := SameReads
  sameEquivalence := sameReads_equivalence

/-- The fields of a dump do not depend on the table they are inserted into. -/
theorem decodeValue_items {lz : Lzfse} {h result : StrHash} {code rest : Bytes}
    (decoded : (decodeValue lz h).run code = .ok (result, rest)) :
    ∃ items : List (Str × Str), ∀ other : StrHash,
      (decodeValue lz other).run code = .ok (items.foldl Keyed.insert other, rest) := by
  refine sized_absorbs Keyed.insert ?_ decoded
  intro acc input next remaining returned
  simp only [StateT.run_bind, bind_eq_ok] at returned
  obtain ⟨⟨k, input'⟩, key, ⟨v, input''⟩, value, inserted⟩ := returned
  cases inserted
  refine ⟨(k, v), fun other => ?_⟩
  simp only [StateT.run_bind, key, ok_bind, value]
  rfl

/-- `DecodeValue` leaves no residue in a table whose fields are all in the dump. -/
theorem replaces_decode_iff {conf : DumpConf} {target source reference : StrHash}
    (made : objectClass.made source (.decode conf) = .ok reference) :
    objectClass.Replaces (.decode conf) target source reference ↔
      ∀ field ∈ target.items, field ∈ reference.items := by
  obtain ⟨code, encoded, -⟩ := bind_eq_ok.mp made
  obtain ⟨items, rfl, each⟩ := ObjectClass.replace_decode id encoded
    (fun _ _ decoded => decodeValue_items decoded) made
  have found (k : Bytes) : (items.foldl Keyed.insert target : StrHash).find k =
      (target.find k).or ((items.foldl Keyed.insert Keyed.empty : StrHash).find k) := by
    rw [Keyed.find_foldl_insert, Keyed.find_foldl_insert, Keyed.find_empty, Option.none_or]
  constructor
  · rintro ⟨result, returned, -, same⟩ field member
    cases (each target).symm.trans returned
    refine same.getAll.mem_iff.mp ?_
    have kept := found field.1.data
    rw [target.find_of_mem member, Option.some_or] at kept
    exact ((Keyed.find_eq_some_iff _).mp kept).1
  · intro inside
    refine ⟨_, each target, trivial, sameReads_of_find fun k => ?_⟩
    refine (found k).trans ?_
    cases held : target.find k with
    | none => exact Option.none_or
    | some field =>
        obtain ⟨member, rfl⟩ := target.find_eq_some_iff.mp held
        exact (Keyed.find_of_mem _ (inside field member)).symm

end StrHash

namespace ZSet

/-- Every read gives the same; `entries` is what `EncodeValue`, `Fork` and a copy walk
through. -/
structure SameReads (z z' : ZSet) : Prop extends SameQueries z z' where
  card : z.card = z'.card
  entries : z.entries = z'.entries
  encodeValue : ∀ conf, z.encodeValue conf = z'.encodeValue conf

theorem sameQueries_equivalence : Equivalence SameQueries where
  refl _ := ⟨fun _ _ => rfl, fun _ _ => rfl, fun _ _ => rfl, fun _ _ => rfl, fun _ _ => rfl,
    fun _ => rfl, fun _ => rfl⟩
  symm same := ⟨fun a b => (same.range a b).symm, fun a b => (same.rangeByScore a b).symm,
    fun a b => (same.rangeByLex a b).symm, fun a b => (same.count a b).symm,
    fun a b => (same.lexCount a b).symm, fun m => (same.rank m).symm,
    fun m => (same.score m).symm⟩
  trans same same' := ⟨fun a b => (same.range a b).trans (same'.range a b),
    fun a b => (same.rangeByScore a b).trans (same'.rangeByScore a b),
    fun a b => (same.rangeByLex a b).trans (same'.rangeByLex a b),
    fun a b => (same.count a b).trans (same'.count a b),
    fun a b => (same.lexCount a b).trans (same'.lexCount a b),
    fun m => (same.rank m).trans (same'.rank m), fun m => (same.score m).trans (same'.score m)⟩

theorem sameReads_equivalence : Equivalence SameReads where
  refl z := ⟨sameQueries_equivalence.refl z, rfl, rfl, fun _ => rfl⟩
  symm same := ⟨sameQueries_equivalence.symm same.toSameQueries, same.card.symm,
    same.entries.symm, fun conf => (same.encodeValue conf).symm⟩
  trans same same' := ⟨sameQueries_equivalence.trans same.toSameQueries same'.toSameQueries,
    same.card.trans same'.card, same.entries.trans same'.entries,
    fun conf => (same.encodeValue conf).trans (same'.encodeValue conf)⟩

theorem SameReads.tiesBySequence {z z' : ZSet} (same : SameReads z z')
    (ties : z'.TiesBySequence) : z.TiesBySequence := by
  obtain ⟨seq, listed, tied⟩ := ties
  exact ⟨seq, same.entries.trans listed, fun s => (same.rangeByScore s s).trans (tied s)⟩

/-- `Add` of one pair after the other, the result of each being ignored. -/
def addAll (z : ZSet) (pairs : List (Str × Int32)) : ZSet :=
  pairs.foldl (fun z pair => (z.add pair.2 pair.1).1) z

/-- The members of `lhs` are added to what is there. `Add` wants the latch for writing that an
assignment to oneself already holds for reading. -/
def assign (sameObject : Bool) (this lhs : ZSet) : Except Fault ZSet :=
  if sameObject = true ∧ lhs.sequenceList ≠ [] then .error .undefined
  else do
    let members ← lhs.entries
    return this.addAll members

def objectClass : ObjectClass ZSet where
  fresh := empty
  assign := assign
  encodeValue := encodeValue
  decodeValue := decodeValue
  Consistent := Linked
  Same := SameReads
  sameEquivalence := sameReads_equivalence

theorem decodeValue_items {lz : Lzfse} {z result : ZSet} {code rest : Bytes}
    (decoded : (decodeValue lz z).run code = .ok (result, rest)) :
    ∃ items : List (Str × Int32), ∀ other : ZSet, (decodeValue lz other).run code =
      .ok (({ other with memberMap := [] } : ZSet).addAll items, rest) := by
  obtain ⟨items, each⟩ := by
    refine sized_absorbs (fun z (pair : Str × Int32) => (z.add pair.2 pair.1).1) ?_ decoded
    intro acc input next remaining returned
    simp only [StateT.run_bind, bind_eq_ok] at returned
    obtain ⟨⟨r, input'⟩, score, ⟨s, input''⟩, member, added⟩ := returned
    cases added
    refine ⟨(s, r), fun other => ?_⟩
    simp only [StateT.run_bind, score, ok_bind, member]
    rfl
  exact ⟨items, fun other => each { other with memberMap := [] }⟩

/-- A node of `sequence_list_` whose member is gone for good: no later node gets its address. -/
def Dangles (z : ZSet) : Prop :=
  ∃ node ∈ z.sequenceList, node.member < z.next ∧ ∀ entry ∈ z.memberMap, entry.addr ≠ node.member

theorem add_dangles {z : ZSet} (dangles : z.Dangles) (score : Int32) (member : Str) :
    (z.add score member).1.Dangles := by
  obtain ⟨node, listed, old, gone⟩ := dangles
  rw [add]
  split
  · exact ⟨node, listed, old, gone⟩
  · refine ⟨node, List.mem_append_left _ listed, Nat.lt_add_right 2 old, fun entry held => ?_⟩
    rcases List.mem_cons.mp ((insertMember_perm _ _).mem_iff.mp held) with rfl | before
    · exact Nat.ne_of_gt old
    · exact gone entry before

theorem addAll_dangles {z : ZSet} (dangles : z.Dangles) (pairs : List (Str × Int32)) :
    (z.addAll pairs).Dangles := by
  induction pairs generalizing z with
  | nil => exact dangles
  | cons pair pairs ih => exact ih (add_dangles dangles pair.2 pair.1)

theorem Linked.not_dangles {z : ZSet} (linked : z.Linked) : ¬ z.Dangles := by
  obtain ⟨es, rep⟩ := linked
  rintro ⟨node, listed, -, gone⟩
  rw [rep.seq] at listed
  obtain ⟨e, inside, rfl⟩ := List.mem_map.mp listed
  exact gone e.memberNode (rep.members.mem_iff.mpr (List.mem_map_of_mem inside)) rfl

/-- Without its members a `ZSet` is left with nodes that lead nowhere, unless it had none. -/
theorem Linked.dangles_cleared {z : ZSet} (linked : z.Linked) (filled : z.sequenceList ≠ []) :
    ({ z with memberMap := [] } : ZSet).Dangles := by
  obtain ⟨es, rep⟩ := linked
  obtain ⟨node, listed⟩ := List.exists_mem_of_ne_nil _ filled
  obtain ⟨e, inside, rfl⟩ := List.mem_map.mp (rep.seq ▸ listed)
  exact ⟨e.seqNode, listed, (rep.fresh e inside).2, fun _ held => by cases held⟩

theorem Linked.eq_cleared {z : ZSet} (linked : z.Linked) (blank : z.sequenceList = []) :
    z.entries = .ok [] ∧ z.Stable ∧ { z with memberMap := [] } = z := by
  obtain ⟨es, rep⟩ := linked
  have none : es = [] := List.map_eq_nil_iff.mp (rep.seq.symm.trans blank)
  subst none
  have members : z.memberMap = [] := rep.members.eq_nil
  have ranks : z.rankMap = [] := rep.ranks.eq_nil
  refine ⟨rep.entries_eq, fun s => ?_, ?_⟩
  · rw [ranks, blank]
    rfl
  · rw [← members]

theorem Views.stable_of_tiesBySequence {z : ZSet} {es rs ms : List ZEntry}
    (views : Views z es rs ms) (ties : z.TiesBySequence) : z.Stable := by
  intro s
  -- entries that show the same are the same
  have nodes : rs.filter (fun e => e.score = s) = es.filter fun e => e.score = s := by
    refine eq_of_map_eq (fun a listed b listed' same => ?_) (views.tiesBySequence_iff.mp ties s)
    have inside := views.rankPerm.mem_iff.mp (List.mem_of_mem_filter listed)
    exact views.rep.eq_of_key inside (List.mem_of_mem_filter listed')
      (congrArg (fun pair => pair.1.data) same)
  rw [views.ranks, views.rep.seq, List.filter_map, List.filter_map, List.map_map]
  exact congrArg (List.map ZEntry.rankNode) nodes

end ZSet

namespace LinkedZSet

theorem stable_iff (z : LinkedZSet) : z.1.Stable ↔ z.1.TiesBySequence := by
  obtain ⟨es, rep⟩ := z.2
  obtain ⟨rs, ms, views⟩ := rep.views
  exact ⟨views.tiesBySequence_of_stable, views.stable_of_tiesBySequence⟩

/-- Pairs in one order, with ties in that order, read the same. -/
theorem sameReads {z z' : LinkedZSet} (listed : z.entries = z'.entries)
    (ties : z.1.TiesBySequence) (ties' : z'.1.TiesBySequence) : z.1.SameReads z'.1 := by
  refine ⟨sameQueries listed ties ties', ?_, ?_, fun conf => ?_⟩
  · obtain ⟨es, rep⟩ := z.2
    obtain ⟨es', rep'⟩ := z'.2
    rw [entries_eq rep, entries_eq rep'] at listed
    rw [rep.card_eq, rep'.card_eq]
    simpa only [List.length_map] using congrArg List.length listed
  · rw [z.2.entries_eq, z'.2.entries_eq]
    exact congrArg Except.ok listed
  · rw [encodeValue_eq, encodeValue_eq, listed]

/-- One pair after the other. -/
def addAll (z : LinkedZSet) (pairs : List (Str × Int32)) : LinkedZSet :=
  pairs.foldl (fun acc pair => (acc.add pair.2 pair.1).1) z

theorem addAll_val (z : LinkedZSet) (pairs : List (Str × Int32)) :
    (z.addAll pairs).1 = z.1.addAll pairs := foldl_add_val pairs z

theorem addAll_stable_iff (z : LinkedZSet) (pairs : List (Str × Int32)) :
    (z.addAll pairs).1.Stable ↔ z.1.Stable := by
  induction pairs generalizing z with
  | nil => exact Iff.rfl
  | cons pair pairs ih =>
      exact (ih (z.add pair.2 pair.1).1).trans (ZSet.add_stable_iff z.2 pair.2 pair.1)

theorem entries_addAll_congr {z z' : LinkedZSet} (listed : z.entries = z'.entries)
    (pairs : List (Str × Int32)) : (z.addAll pairs).entries = (z'.addAll pairs).entries := by
  induction pairs generalizing z z' with
  | nil => exact listed
  | cons pair pairs ih =>
      refine @ih (z.add pair.2 pair.1).1 (z'.add pair.2 pair.1).1 ?_
      rw [entries_add, entries_add, listed]

theorem entries_prefix_addAll (z : LinkedZSet) (pairs : List (Str × Int32)) :
    z.entries <+: (z.addAll pairs).entries := by
  induction pairs generalizing z with
  | nil => exact List.prefix_rfl
  | cons pair pairs ih =>
      refine List.IsPrefix.trans ?_ (ih (z.add pair.2 pair.1).1)
      rw [entries_add]
      split
      · exact List.prefix_rfl
      · exact List.prefix_append _ _

theorem addAll_of_subset {z : LinkedZSet} {pairs : List (Str × Int32)}
    (there : ∀ pair ∈ pairs, pair ∈ z.entries) : z.addAll pairs = z := by
  induction pairs with
  | nil => rfl
  | cons pair pairs ih =>
      have kept : (z.add pair.2 pair.1).1 = z :=
        add_of_mem pair.2 ⟨pair, there pair List.mem_cons_self, rfl⟩
      refine Eq.trans (congrArg (addAll · pairs) kept) (ih fun other listed => ?_)
      exact there other (List.mem_cons_of_mem pair listed)

/-- A copy into `z` lists what it lists elsewhere just when `z` already lists the
beginning. -/
theorem entries_addAll_iff (z source : LinkedZSet) :
    (z.addAll source.entries).entries = source.entries ↔ z.entries <+: source.entries := by
  constructor
  · intro same
    have grown := z.entries_prefix_addAll source.entries
    rwa [same] at grown
  · rintro ⟨rest, whole⟩
    have distinct := source.entries_distinct
    rw [← whole] at distinct ⊢
    have split : z.addAll (z.entries ++ rest) = (z.addAll z.entries).addAll rest :=
      List.foldl_append
    rw [split, addAll_of_subset fun _ listed => listed]
    exact entries_foldl_add distinct

end LinkedZSet

namespace ZSet

/-- The entries of the one are the first entries of the other. -/
def Begins (z whole : ZSet) : Prop :=
  ∃ first all, z.entries = .ok first ∧ whole.entries = .ok all ∧ first <+: all

/-- Assignment to an object leaves no residue if what is there is the beginning of what
comes, with ties in that order. -/
theorem replaces_assign_iff {sameObject : Bool} {target source reference : ZSet}
    (linked : target.Linked) (linked' : source.Linked)
    (made : objectClass.made source (.assign sameObject) = .ok reference) :
    objectClass.Replaces (.assign sameObject) target source reference ↔
      (sameObject = true → source.sequenceList = []) ∧ target.Begins source ∧
        target.TiesBySequence := by
  let before : LinkedZSet := ⟨target, linked⟩
  let copied : LinkedZSet := ⟨source, linked'⟩
  have copy (other : ZSet) (flag : Bool) (free : flag = true → source.sequenceList = []) :
      assign flag other source = .ok (other.addAll copied.entries) := by
    rw [assign, if_neg fun both => both.2 (free both.1), linked'.entries_eq]
    rfl
  obtain rfl : (LinkedZSet.empty.addAll copied.entries).1 = reference := by
    rw [LinkedZSet.addAll_val]
    exact Except.ok.inj ((copy empty false fun absurd => by cases absurd).symm.trans made)
  have begins : target.Begins source ↔ before.entries <+: copied.entries := by
    rw [Begins, linked.entries_eq, linked'.entries_eq]
    simp only [Except.ok.injEq, exists_and_left, exists_eq_left', before, copied]
  have plain : (LinkedZSet.empty.addAll copied.entries).entries = copied.entries :=
    LinkedZSet.entries_ofEntries copied.entries_distinct
  have ordered : (LinkedZSet.empty.addAll copied.entries).1.TiesBySequence :=
    LinkedZSet.ofEntries_tiesBySequence copied.entries
  have ties : (before.addAll copied.entries).1.TiesBySequence ↔ target.TiesBySequence :=
    ((LinkedZSet.stable_iff _).symm.trans (before.addAll_stable_iff _)).trans before.stable_iff
  by_cases free : sameObject = true → source.sequenceList = []
  · rw [begins, ← before.entries_addAll_iff copied, ← ties]
    constructor
    · rintro ⟨result, returned, -, same⟩
      cases (copy target sameObject free).symm.trans returned
      change (before.1.addAll copied.entries).SameReads _ at same
      rw [← LinkedZSet.addAll_val] at same
      refine ⟨free, ?_, same.tiesBySequence ordered⟩
      have listed := same.entries
      rw [(before.addAll copied.entries).2.entries_eq,
        (LinkedZSet.empty.addAll copied.entries).2.entries_eq] at listed
      exact (Except.ok.inj listed).trans plain
    · rintro ⟨-, listed, inOrder⟩
      refine ⟨(before.addAll copied.entries).1, ?_, (before.addAll copied.entries).2, ?_⟩
      · rw [LinkedZSet.addAll_val]
        exact copy target sameObject free
      · exact LinkedZSet.sameReads (listed.trans plain.symm) inOrder ordered
  · refine iff_of_false ?_ fun met => free met.1
    rintro ⟨result, returned, -⟩
    have stuck : sameObject = true ∧ source.sequenceList ≠ [] := Classical.not_imp.mp free
    have raised : assign sameObject target source = .error .undefined := by
      rw [assign, if_pos stuck]
    cases raised.symm.trans returned

/-- `DecodeValue` leaves no residue in an object that was empty. -/
theorem replaces_decode_iff {conf : DumpConf} {target source reference : ZSet}
    (linked : target.Linked) (made : objectClass.made source (.decode conf) = .ok reference) :
    objectClass.Replaces (.decode conf) target source reference ↔ target.sequenceList = [] := by
  obtain ⟨code, encoded, -⟩ := bind_eq_ok.mp made
  obtain ⟨items, same, each⟩ := ObjectClass.replace_decode
    (fun z : ZSet => { z with memberMap := [] }) encoded
    (fun _ _ decoded => decodeValue_items decoded) made
  obtain rfl : reference = (LinkedZSet.empty.addAll items).1 := by
    rw [LinkedZSet.addAll_val]
    exact same
  constructor
  · rintro ⟨result, returned, consistent, -⟩
    by_contra filled
    cases (each target).symm.trans returned
    exact Linked.not_dangles consistent (addAll_dangles (linked.dangles_cleared filled) items)
  · intro blank
    obtain ⟨none, stable, cleared⟩ := linked.eq_cleared blank
    let before : LinkedZSet := ⟨target, linked⟩
    have listed : before.entries = LinkedZSet.empty.entries := by
      rw [LinkedZSet.entries, none]
      rfl
    refine ⟨(before.addAll items).1, ?_, (before.addAll items).2, ?_⟩
    · have returned := each target
      rw [cleared] at returned
      rw [LinkedZSet.addAll_val]
      exact returned
    · apply LinkedZSet.sameReads (LinkedZSet.entries_addAll_congr listed items)
      · rw [← LinkedZSet.stable_iff, LinkedZSet.addAll_stable_iff]
        exact stable
      · exact LinkedZSet.ofEntries_tiesBySequence items

end ZSet

/-- The five classes. -/
inductive Replaceable where
  | str
  | list
  | set
  | hash
  | zset
  deriving DecidableEq, Repr

namespace Replaceable

def Value : Replaceable → Type
  | .str => Str
  | .list => List Str
  | .set => StrSet
  | .hash => StrHash
  | .zset => ZSet

def objectClass : (kind : Replaceable) → ObjectClass kind.Value
  | .str => Str.objectClass
  | .list => StrList.objectClass
  | .set => StrSet.objectClass
  | .hash => StrHash.objectClass
  | .zset => ZSet.objectClass

/-- What the target may hold before. -/
def Allows : (kind : Replaceable) → Manner → kind.Value → kind.Value → kind.Value → Prop
  | .str, _, _, _, _ => True
  | .list, _, _, _, _ => True
  | .set, _, _, _, _ => True
  | .hash, .assign _, _, _, _ => True
  | .hash, .decode _, target, _, reference =>
      ∀ field ∈ Keyed.items target, field ∈ Keyed.items reference
  | .zset, .assign sameObject, target, source, _ =>
      (sameObject = true → ZSet.sequenceList source = []) ∧ ZSet.Begins target source ∧
        ZSet.TiesBySequence target
  | .zset, .decode _, target, _, _ => ZSet.sequenceList target = []

/-- An object is replaced without residue just where the target allows it, and two targets
that allow it cannot be told apart afterwards. -/
theorem replaces_iff (kind : Replaceable) (manner : Manner) {source reference : kind.Value}
    (consistent : kind.objectClass.Consistent source)
    (made : kind.objectClass.made source manner = .ok reference) {target : kind.Value}
    (consistent' : kind.objectClass.Consistent target) :
    (kind.objectClass.Replaces manner target source reference ↔
      kind.Allows manner target source reference) ∧
    ∀ other, kind.objectClass.Consistent other → kind.Allows manner target source reference →
      kind.Allows manner other source reference → ∃ result result',
        kind.objectClass.replace target source manner = .ok result ∧
        kind.objectClass.replace other source manner = .ok result' ∧
        kind.objectClass.Same result result' := by
  have main : ∀ object, kind.objectClass.Consistent object →
      (kind.objectClass.Replaces manner object source reference ↔
        kind.Allows manner object source reference) := by
    intro object sound
    match kind, manner with
    | .str, .assign _ | .str, .decode _ | .list, .assign _ | .list, .decode _
    | .set, .assign _ | .set, .decode _ | .hash, .assign _ =>
        exact iff_of_true (.of_overwritten (fun _ => trivial) rfl made) trivial
    | .hash, .decode conf => exact StrHash.replaces_decode_iff made
    | .zset, .assign sameObject => exact ZSet.replaces_assign_iff sound consistent made
    | .zset, .decode conf => exact ZSet.replaces_decode_iff sound made
  refine ⟨main target consistent', fun other sound allowed allowed' => ?_⟩
  exact ((main target consistent').mpr allowed).same ((main other sound).mpr allowed')

/-- Two members over the first of them. -/
theorem replaces_iff_begun :
    ∃ reference, ZSet.objectClass.made (LinkedZSet.ofEntries [(Str.ofData [97], 1),
        (Str.ofData [98], 2)]).1 (.assign false) = .ok reference ∧
      ZSet.objectClass.Replaces (.assign false) (LinkedZSet.ofEntries [(Str.ofData [97], 1)]).1
        (LinkedZSet.ofEntries [(Str.ofData [97], 1), (Str.ofData [98], 2)]).1 reference := by
  obtain ⟨reference, made⟩ : ∃ reference, ZSet.objectClass.made (LinkedZSet.ofEntries
      [(Str.ofData [97], 1), (Str.ofData [98], 2)]).1 (.assign false) = .ok reference := ⟨_, rfl⟩
  refine ⟨reference, made, (replaces_iff .zset (.assign false) (Subtype.property _) made
    (Subtype.property _)).1.mpr ⟨?_, ?_, ?_⟩⟩
  · exact fun self => absurd self Bool.false_ne_true
  · exact ⟨_, _, rfl, rfl, [(Str.ofData [98], 2)], rfl⟩
  · exact LinkedZSet.ofEntries_tiesBySequence _

/-- Compressed dumps, in the blocks that lzfse writes for short strings. -/
def storedConf : DumpConf := ⟨Lzfse.storedBlocks, true⟩

def oneField (field value : Bytes) : StrHash :=
  Keyed.empty.insert (Str.ofData field, Str.ofData value)

def oneMember (member : Bytes) (score : Int32) : ZSet :=
  (ZSet.empty.add score (Str.ofData member)).1

/-- A hash that decodes the dump of another keeps its own field; a sorted set that another is
assigned to keeps its own member; and one that decodes the dump of another is left with a node
whose member has been destroyed. -/
theorem not_replaces :
    (∃ reference result,
      StrHash.objectClass.made (oneField [103] [50]) (.decode storedConf) = .ok reference ∧
      StrHash.objectClass.replace (oneField [102] [49]) (oneField [103] [50])
        (.decode storedConf) = .ok result ∧
      StrHash.exist reference (Str.ofData [102]) = false ∧
      StrHash.exist result (Str.ofData [102]) = true ∧
      ¬ StrHash.objectClass.Replaces (.decode storedConf) (oneField [102] [49])
        (oneField [103] [50]) reference) ∧
    (∃ reference result,
      ZSet.objectClass.made (oneMember [98] 2) (.assign false) = .ok reference ∧
      ZSet.objectClass.replace (oneMember [97] 1) (oneMember [98] 2) (.assign false) = .ok result ∧
      reference.entries = .ok [(Str.ofData [98], 2)] ∧
      result.entries = .ok [(Str.ofData [97], 1), (Str.ofData [98], 2)] ∧
      ¬ ZSet.objectClass.Replaces (.assign false) (oneMember [97] 1) (oneMember [98] 2) reference) ∧
    ∃ reference result,
      ZSet.objectClass.made (oneMember [98] 2) (.decode storedConf) = .ok reference ∧
      ZSet.objectClass.replace (oneMember [97] 1) (oneMember [98] 2)
        (.decode storedConf) = .ok result ∧
      reference.entries = .ok [(Str.ofData [98], 2)] ∧ result.entries = .error .undefined ∧
      ¬ ZSet.objectClass.Replaces (.decode storedConf) (oneMember [97] 1) (oneMember [98] 2)
        reference := by
  refine ⟨?_, ?_, ?_⟩
  · refine ⟨_, _, rfl, rfl, by decide +kernel, by decide +kernel, ?_⟩
    rintro ⟨result, returned, -, same⟩
    have kept := same.exist (Str.ofData [102])
    cases returned
    exact absurd kept (by decide +kernel)
  · refine ⟨_, _, rfl, rfl, by decide +kernel, by decide +kernel, ?_⟩
    rintro ⟨result, returned, -, same⟩
    have kept := same.entries
    cases returned
    exact absurd kept (by decide +kernel)
  · refine ⟨_, _, rfl, rfl, by decide +kernel, by decide +kernel, ?_⟩
    rintro ⟨result, returned, -, same⟩
    have kept := same.entries
    cases returned
    exact absurd kept (by decide +kernel)

end Replaceable

end ForkRedis
