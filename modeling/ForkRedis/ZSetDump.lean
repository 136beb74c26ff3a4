import ForkRedis.ZSetQueries
import ForkRedis.Contents
import Mathlib.Data.List.Induction

set_option autoImplicit false

/- A `ZSet` through its dump. Only the insertion sequence is written, so members with equal
scores come back in the order of their insertion, and in `rank_map_` they may have stood in
another. -/
namespace ForkRedis

open Wire Decimal Fallible Sorted

namespace Str

/-- The contents of a string come back from its dump. -/
def Survives (conf : DumpConf) (s : Str) : Prop :=
  ∃ code back, s.encodeValue conf = .ok code ∧ Reads (decodeValue conf.lz) code back ∧
    back.data = s.data

/-- The first byte of a dump decides the tag. -/
theorem decodeValue_tag {lz : Lzfse} {c : UInt8} {source rest : Bytes} {s : Str}
    (decoded : (decodeValue lz).run (c :: source) = .ok (s, rest)) :
    s.encodingType = if charToEncodingType c = some .int then .int else .strRaw := by
  rcases decodeValue_cases decoded with ⟨int, n, rfl⟩ | ⟨other, data, rfl⟩
  · rw [if_pos int]
    rfl
  · rw [if_neg other]
    rfl

/-- A string whose contents survive comes back whole. -/
theorem Survives.reads {conf : DumpConf} {s : Str} (survives : s.Survives conf) :
    ∃ code, s.encodeValue conf = .ok code ∧ Reads (decodeValue conf.lz) code s := by
  obtain ⟨code, back, encoded, reads, data⟩ := survives
  have tag : back.encodingType = s.encodingType := by
    have decoded := reads []
    rw [encodeValue] at encoded
    rcases s.tagged with raw | ⟨int, -⟩
    · rw [if_pos raw] at encoded
      split at encoded
      · cases encoded
        rw [decodeValue_tag decoded, charToEncodingType_toChar, raw]
        rfl
      · cases encoded
        rw [decodeValue_tag decoded, charToEncodingType_toChar, raw]
        rfl
    · rw [if_neg (by rw [int]; decide)] at encoded
      obtain ⟨n, -, same⟩ := bind_eq_ok.mp encoded
      cases same
      rw [decodeValue_tag decoded, charToEncodingType_toChar, int]
      rfl
  rw [ext_data data tag] at reads
  exact ⟨code, encoded, reads⟩

theorem survives_of_canonical {conf : DumpConf} (lawful : conf.lz.Lawful) {s : Str}
    (storable : s.Storable) (canonical : s.Canonical) : s.Survives conf := by
  rcases ok_or_error (s.encodeValue conf) with ⟨code, encoded⟩ | raised
  · have reads := decodeValue_reads lawful storable.fits storable.filled encoded
    rw [norm_of_canonical canonical] at reads
    exact ⟨code, s, encoded, reads, rfl⟩
  · exact absurd ((encodeValue_error_iff conf s).mp raised) (encodable_of_canonical canonical)

end Str

/-- A node is inserted behind the nodes with its score. -/
theorem insertRank_filter {node : RankNode} {nodes : List RankNode}
    (sorted : nodes.Pairwise fun a b => a.score ≤ b.score) (s : Int32) :
    (insertRank node nodes).filter (fun rank => rank.score = s) =
      nodes.filter (fun rank => rank.score = s) ++ if node.score = s then [node] else [] := by
  induction nodes with
  | nil =>
      rw [insertRank, List.filter_cons, List.filter_nil, List.nil_append]
      simp only [decide_eq_true_eq]
  | cons first rest ih =>
      obtain ⟨least, ordered⟩ := List.pairwise_cons.mp sorted
      rw [insertRank]
      split
      · rename_i before
        by_cases hit : node.score = s
        · have none : (first :: rest).filter (fun rank => rank.score = s) = [] := by
            rw [List.filter_eq_nil_iff]
            intro rank member equal
            have low : first.score ≤ rank.score := by
              rcases List.mem_cons.mp member with rfl | later
              · exact Int32.le_refl _
              · exact least rank later
            rw [of_decide_eq_true equal, ← hit] at low
            exact Std.lt_irrefl (Std.lt_of_lt_of_le before low)
          rw [List.filter_cons, if_pos (decide_eq_true hit), none, if_pos hit, List.nil_append]
        · rw [List.filter_cons_of_neg (by simpa using hit), if_neg hit, List.append_nil]
      · rw [List.filter_cons, List.filter_cons, ih ordered]
        split
        · rfl
        · rfl

namespace ZSet

/-- In `rank_map_` the nodes with one score stand in the order of `sequence_list_`. -/
def Stable (z : ZSet) : Prop :=
  ∀ s, z.rankMap.filter (fun rank => rank.score = s) =
    (z.sequenceList.filter fun node => node.score = s).map fun node => ⟨node.score, node.member⟩

theorem empty_stable : Stable empty := fun _ => rfl

/-- A new member goes to the end of both. -/
theorem add_stable_iff {z : ZSet} (linked : z.Linked) (score : Int32) (member : Str) :
    (z.add score member).1.Stable ↔ z.Stable := by
  obtain ⟨es, rep⟩ := linked
  rw [add]
  split
  · exact Iff.rfl
  · refine forall_congr' fun s => ?_
    have last : [(⟨z.next + 1, z.next, score⟩ : SeqNode)].filter (fun node => node.score = s) =
        if score = s then [⟨z.next + 1, z.next, score⟩] else [] := by
      rw [List.filter_cons, List.filter_nil]
      simp only [decide_eq_true_eq]
    dsimp only
    rw [insertRank_filter rep.rankOrder, List.filter_append, List.map_append, last]
    split
    · exact List.append_left_inj _
    · exact List.append_left_inj _

/-- `RangeByScore` lists members with equal scores in the order of their insertion. -/
def TiesBySequence (z : ZSet) : Prop :=
  ∃ seq, z.entries = .ok seq ∧
    ∀ s, z.rangeByScore s s = .ok (seq.filter fun pair => pair.2 = s)

/-- Every call of every query gives the same. -/
structure SameQueries (z z' : ZSet) : Prop where
  range : ∀ begin end_, z.range begin end_ = z'.range begin end_
  rangeByScore : ∀ low high, z.rangeByScore low high = z'.rangeByScore low high
  rangeByLex : ∀ low high, z.rangeByLex low high = z'.rangeByLex low high
  count : ∀ low high, z.count low high = z'.count low high
  lexCount : ∀ low high, z.lexCount low high = z'.lexCount low high
  rank : ∀ member, z.rank member = z'.rank member
  score : ∀ member, z.score member = z'.score member

namespace Views

variable {z z' : ZSet} {es rs ms es' rs' ms' : List ZEntry}

theorem rangeByScore_tie (views : Views z es rs ms) (s : Int32) :
    z.rangeByScore s s = .ok ((rs.filter fun e => e.score = s).map ZEntry.shown) := by
  have only : ∀ e : ZEntry, (s ≤ e.score ∧ e.score ≤ s) ↔ e.score = s := by
    intro e
    constructor
    · exact fun ⟨low, high⟩ => Std.le_antisymm high low
    · rintro rfl
      exact ⟨Int32.le_refl _, Int32.le_refl _⟩
  rw [views.rangeByScore_eq]
  simp only [only]

theorem tiesBySequence_iff (views : Views z es rs ms) :
    z.TiesBySequence ↔ ∀ s, (rs.filter fun e => e.score = s).map ZEntry.shown =
      (es.filter fun e => e.score = s).map ZEntry.shown := by
  have listed : z.entries = .ok (es.map ZEntry.shown) := views.rep.entries_eq
  simp only [TiesBySequence, listed, Except.ok.injEq, exists_eq_left', views.rangeByScore_tie,
    List.filter_map]
  rfl

theorem tiesBySequence_of_stable (views : Views z es rs ms) (stable : z.Stable) :
    z.TiesBySequence := by
  rw [views.tiesBySequence_iff]
  intro s
  have nodes := stable s
  rw [views.ranks, views.rep.seq, List.filter_map, List.filter_map, List.map_map] at nodes
  -- the same nodes lead to the same members
  have shown : ∀ part : List ZEntry, (∀ e ∈ part, e ∈ es) → (part.map ZEntry.rankNode).mapM
      (fun rank => do
        let entry ← z.memberAt rank.pos
        return (entry.key, rank.score)) = .ok (part.map ZEntry.shown) := by
    intro part inside
    rw [mapM_eq_ok, List.forall₂_map_left_iff, List.forall₂_map_right_iff, List.forall₂_same]
    intro e member
    simp only [ZEntry.rankNode, views.rep.memberAt_of_mem (inside e member), ok_bind, pure_eq_ok,
      ZEntry.memberNode, ZEntry.shown]
  have ranked := shown (rs.filter fun e => e.score = s) fun e member =>
    views.rankPerm.mem_iff.mp (List.mem_of_mem_filter member)
  have inserted := shown (es.filter fun e => e.score = s) fun e member =>
    List.mem_of_mem_filter member
  have same : (rs.filter fun e => e.score = s).map ZEntry.rankNode =
      (es.filter fun e => e.score = s).map ZEntry.rankNode := nodes
  rw [same, inserted] at ranked
  exact (Except.ok.inj ranked).symm

/-- Key order is the same for the same pairs. -/
theorem members_shown (views : Views z es rs ms) (views' : Views z' es' rs' ms')
    (same : es.map ZEntry.shown = es'.map ZEntry.shown) :
    ms.map ZEntry.shown = ms'.map ZEntry.shown := by
  have perm : (ms.map ZEntry.shown).Perm (ms'.map ZEntry.shown) := by
    apply (views.memberPerm.map _).trans
    rw [same]
    exact (views'.memberPerm.map _).symm
  have antisymm : ∀ a b : Str × Int32, a ∈ ms.map ZEntry.shown → b ∈ ms'.map ZEntry.shown →
      a.1.data < b.1.data → b.1.data < a.1.data → a = b := fun a b _ _ before after =>
    absurd (Std.lt_trans before after) Std.lt_irrefl
  exact List.Perm.eq_of_pairwise antisymm (List.pairwise_map.mpr views.memberOrder)
    (List.pairwise_map.mpr views'.memberOrder) perm

/-- Score order is the same for the same pairs if ties stand in the same order. -/
theorem ranks_shown (views : Views z es rs ms) (views' : Views z' es' rs' ms')
    (ties : ∀ s, (rs.filter fun e => e.score = s).map ZEntry.shown =
      (rs'.filter fun e => e.score = s).map ZEntry.shown) :
    rs.map ZEntry.shown = rs'.map ZEntry.shown := by
  apply eq_of_filter_eq Prod.snd
  · exact List.pairwise_map.mpr views.rankOrder
  · exact List.pairwise_map.mpr views'.rankOrder
  · intro s
    rw [List.filter_map, List.filter_map]
    exact ties s

/-- The queries see the pairs in the three orders and nothing else. -/
theorem sameQueries (views : Views z es rs ms) (views' : Views z' es' rs' ms')
    (seq : es.map ZEntry.shown = es'.map ZEntry.shown)
    (ranks : rs.map ZEntry.shown = rs'.map ZEntry.shown)
    (members : ms.map ZEntry.shown = ms'.map ZEntry.shown) : SameQueries z z' := by
  have byScore : ∀ low high : Int32,
      (rs.filter fun e => low ≤ e.score ∧ e.score ≤ high).map ZEntry.shown =
        (rs'.filter fun e => low ≤ e.score ∧ e.score ≤ high).map ZEntry.shown := by
    intro low high
    have parts := congrArg (List.filter fun pair => low ≤ pair.2 ∧ pair.2 ≤ high) ranks
    rwa [List.filter_map, List.filter_map] at parts
  have byLex : ∀ low high : Bytes,
      (ms.filter fun e => low ≤ e.key.data ∧ e.key.data ≤ high).map ZEntry.shown =
        (ms'.filter fun e => low ≤ e.key.data ∧ e.key.data ≤ high).map ZEntry.shown := by
    intro low high
    have parts :=
      congrArg (List.filter fun pair => low ≤ pair.1.data ∧ pair.1.data ≤ high) members
    rwa [List.filter_map, List.filter_map] at parts
  have below : ∀ s : Int32, (rs.takeWhile fun r => r.score < s).length =
      (rs'.takeWhile fun r => r.score < s).length := by
    intro s
    have parts := congrArg (fun l => (l.takeWhile fun pair => pair.2 < s).length) ranks
    simp only [List.takeWhile_map, List.length_map] at parts
    exact parts
  -- a member of the one is a member of the other, with its score
  have counterpart : ∀ e ∈ es, ∃ e' ∈ es', e'.key = e.key ∧ e'.score = e.score := by
    intro e member
    have shown : e.shown ∈ es'.map ZEntry.shown := seq ▸ List.mem_map_of_mem member
    obtain ⟨e', member', equal⟩ := List.mem_map.mp shown
    exact ⟨e', member', congrArg Prod.fst equal, congrArg Prod.snd equal⟩
  have absent : ∀ member : Str, (∀ e ∈ es, e.key.data ≠ member.data) →
      ∀ e ∈ es', e.key.data ≠ member.data := by
    intro member missing e inside same
    have shown : e.shown ∈ es.map ZEntry.shown := seq ▸ List.mem_map_of_mem inside
    obtain ⟨e', inside', equal⟩ := List.mem_map.mp shown
    have key : e'.key = e.key := congrArg Prod.fst equal
    exact missing e' inside' (key ▸ same)
  constructor
  · intro begin end_
    by_cases filled : es = []
    · have filled' : es' = [] := by simpa [filled] using seq
      rw [range, range, views.rep.seq, views'.rep.seq, filled, filled']
      rfl
    · have filled' : es' ≠ [] := by
        rintro rfl
        exact filled (by simpa using seq)
      have sized : es.length = es'.length := by simpa using congrArg List.length seq
      rw [views.rep.range_eq filled, views'.rep.range_eq filled', seq, sized]
  · intro low high
    rw [views.rangeByScore_eq, views'.rangeByScore_eq, byScore]
  · intro low high
    rw [views.rangeByLex_eq, views'.rangeByLex_eq, byLex]
  · intro low high
    have lengths := congrArg List.length (byScore low high)
    rw [List.length_map, List.length_map] at lengths
    rw [views.count_eq, views'.count_eq, lengths]
  · intro low high
    have lengths := congrArg List.length (byLex low.data high.data)
    rw [List.length_map, List.length_map] at lengths
    rw [views.lexCount_eq, views'.lexCount_eq, lengths]
  · intro member
    rcases ZEntry.absent_or_mem es member with missing | ⟨e, inside, same⟩
    · rw [views.rep.rank_none missing, views'.rep.rank_none (absent member missing)]
    · obtain ⟨e', inside', key, score⟩ := counterpart e inside
      rw [views.rank_eq inside same, views'.rank_eq inside' (key ▸ same), score, below]
  · intro member
    rcases ZEntry.absent_or_mem es member with missing | ⟨e, inside, same⟩
    · rw [views.rep.score_none missing, views'.rep.score_none (absent member missing)]
    · obtain ⟨e', inside', key, score⟩ := counterpart e inside
      rw [views.rep.score_eq inside same, views'.rep.score_eq inside' (key ▸ same), score]

end Views

end ZSet

theorem ZSet.Linked.entries_eq {z : ZSet} (linked : z.Linked) :
    z.entries = .ok (LinkedZSet.entries ⟨z, linked⟩) := by
  obtain ⟨es, rep⟩ := linked
  rw [LinkedZSet.entries_eq rep, rep.entries_eq]

namespace LinkedZSet

theorem ofEntries_append (pairs : List (Str × Int32)) (pair : Str × Int32) :
    ofEntries (pairs ++ [pair]) = ((ofEntries pairs).add pair.2 pair.1).1 := by
  rw [ofEntries, List.foldl_append]
  rfl

/-- Pairs that are added one after the other to a fresh object rank in that order. -/
theorem ofEntries_stable (pairs : List (Str × Int32)) : (ofEntries pairs).1.Stable := by
  induction pairs using List.reverseRecOn with
  | nil => exact ZSet.empty_stable
  | append_singleton pairs pair ih =>
      rw [ofEntries_append]
      exact (ZSet.add_stable_iff (ofEntries pairs).2 pair.2 pair.1).mpr ih

theorem ofEntries_tiesBySequence (pairs : List (Str × Int32)) :
    (ofEntries pairs).1.TiesBySequence := by
  obtain ⟨es, rep⟩ := (ofEntries pairs).2
  obtain ⟨rs, ms, views⟩ := rep.views
  exact views.tiesBySequence_of_stable (ofEntries_stable pairs)

/-- Pairs in one order, with ties in that order, answer every query alike. -/
theorem sameQueries {z z' : LinkedZSet} (listed : z.entries = z'.entries)
    (ties : z.1.TiesBySequence) (ties' : z'.1.TiesBySequence) : z.1.SameQueries z'.1 := by
  obtain ⟨es, rep⟩ := z.2
  obtain ⟨es', rep'⟩ := z'.2
  obtain ⟨rs, ms, views⟩ := rep.views
  obtain ⟨rs', ms', views'⟩ := rep'.views
  have same : es.map ZEntry.shown = es'.map ZEntry.shown :=
    (entries_eq rep).symm.trans (listed.trans (entries_eq rep'))
  have ranks : rs.map ZEntry.shown = rs'.map ZEntry.shown := by
    refine views.ranks_shown views' fun s => ?_
    have parts := congrArg (List.filter fun pair => pair.2 = s) same
    rw [List.filter_map, List.filter_map] at parts
    rw [views.tiesBySequence_iff.mp ties s, views'.tiesBySequence_iff.mp ties' s]
    exact parts
  exact views.sameQueries views' same ranks (views.members_shown views' same)

/-- A dump of members that survive is read as its pairs, added in order. -/
theorem decodeValue_reads_survivors {conf : DumpConf} {z : LinkedZSet}
    (sized : z.entries.length < 2 ^ 64) (survive : ∀ entry ∈ z.entries, entry.1.Survives conf) :
    ∃ code, z.1.encodeValue conf = .ok code ∧
      Reads (ZSet.decodeValue conf.lz ZSet.empty) code (ofEntries z.entries).1 := by
  have returns : ∃ code, z.1.encodeValue conf = .ok code := by
    rw [encodeValue_eq]
    rcases ok_or_error (encodeAll (encodeEntry conf) z.entries) with returned | raised
    · exact returned
    · obtain ⟨entry, member, fault, failed⟩ := encodeAll_error_iff.mp raised
      obtain ⟨code, encoded, -⟩ := (survive entry member).reads
      rw [encodeEntry, encoded] at failed
      cases failed
  obtain ⟨code, encoded⟩ := returns
  refine ⟨code, encoded, ?_⟩
  rw [encodeValue_eq] at encoded
  rw [ofEntries, foldl_add_val]
  apply encodeAll_reads sized encoded
  intro entry member entryCode entryEncoded acc
  obtain ⟨nameCode, named, returned⟩ := bind_eq_ok.mp entryEncoded
  cases returned
  obtain ⟨code', encoded', reads⟩ := (survive entry member).reads
  obtain rfl : nameCode = code' := Except.ok.inj (named.symm.trans encoded')
  apply Reads.bind (peekInt_reads _)
  exact Reads.bind_pure (fun s => (acc.add entry.2 s).1) reads

end LinkedZSet

namespace ZSet

/-- What a dump gives back answers every query as the original did if and only if the
original listed members with equal scores in the order of their insertion. -/
theorem sameQueries_decoded_iff {z : ZSet} (reached : z.Reached) (sized : z.card < 2 ^ 64)
    {conf : DumpConf} (survive : ∀ entry ∈ z.memberMap, entry.key.Survives conf) :
    ∃ code z', z.encodeValue conf = .ok code ∧ Reads (decodeValue conf.lz empty) code z' ∧
      (SameQueries z z' ↔ z.TiesBySequence) := by
  let whole : LinkedZSet := ⟨z, reached.linked⟩
  obtain ⟨es, rep⟩ := reached.linked
  have listed : whole.entries = es.map ZEntry.shown := LinkedZSet.entries_eq rep
  have few : whole.entries.length < 2 ^ 64 := by
    rw [listed, List.length_map, ← rep.card_eq]
    exact sized
  have members : ∀ entry ∈ whole.entries, entry.1.Survives conf := by
    intro entry member
    rw [listed] at member
    obtain ⟨e, inside, rfl⟩ := List.mem_map.mp member
    exact survive e.memberNode (rep.members.mem_iff.mpr (List.mem_map_of_mem inside))
  obtain ⟨code, encoded, reads⟩ := LinkedZSet.decodeValue_reads_survivors few members
  refine ⟨code, _, encoded, reads, ?_⟩
  have same := LinkedZSet.entries_ofEntries whole.entries_distinct
  have inOrder := LinkedZSet.ofEntries_tiesBySequence whole.entries
  constructor
  · intro agree
    obtain ⟨seq, listed', tied⟩ := inOrder
    refine ⟨seq, ?_, fun s => (agree.rangeByScore s s).trans (tied s)⟩
    rw [← listed', Linked.entries_eq (Subtype.property _), same]
    exact whole.2.entries_eq
  · exact fun ties => @LinkedZSet.sameQueries whole _ same.symm ties inOrder

/-- Two members with one score, inserted and not moved since. -/
theorem sameQueries_decoded_iff_tie :
    ∃ z code z', ZSetOp.run empty [.add 1 (Str.ofData [97]), .add 1 (Str.ofData [98])] = .ok z ∧
      z.encodeValue ⟨Lzfse.storedBlocks, true⟩ = .ok code ∧
      Reads (decodeValue Lzfse.storedBlocks empty) code z' ∧ SameQueries z z' := by
  let tied := LinkedZSet.ofEntries [(Str.ofData [97], 1), (Str.ofData [98], 1)]
  have storable : ∀ entry ∈ tied.1.memberMap, entry.key.Storable := by decide +kernel
  have canonical : ∀ entry ∈ tied.1.memberMap, entry.key.Canonical := by decide +kernel
  have survive : ∀ entry ∈ tied.1.memberMap, entry.key.Survives ⟨Lzfse.storedBlocks, true⟩ :=
    fun entry member => Str.survives_of_canonical Lzfse.storedBlocks_lawful
      (storable entry member) (canonical entry member)
  obtain ⟨code, z', encoded, reads, agree⟩ := sameQueries_decoded_iff
    (@Reached.of_run [.add 1 (Str.ofData [97]), .add 1 (Str.ofData [98])] tied.1 rfl)
    (by decide +kernel) survive
  exact ⟨tied.1, code, z', rfl, encoded, reads,
    agree.mpr (LinkedZSet.ofEntries_tiesBySequence _)⟩

/-- An increment by nothing moves a member behind another with its score, and a dump moves
it back. -/
theorem not_sameQueries_moved :
    ∃ z code z', ZSetOp.run empty [.add 1 (Str.ofData [97]), .add 1 (Str.ofData [98]),
        .incrBy 0 (Str.ofData [97])] = .ok z ∧
      (∀ entry ∈ z.memberMap, entry.key.Survives ⟨Lzfse.storedBlocks, true⟩) ∧
      z.encodeValue ⟨Lzfse.storedBlocks, true⟩ = .ok code ∧
      (decodeValue Lzfse.storedBlocks empty).run code = .ok (z', []) ∧
      z.rangeByScore 1 1 = .ok [(Str.ofData [98], 1), (Str.ofData [97], 1)] ∧
      z'.rangeByScore 1 1 = .ok [(Str.ofData [97], 1), (Str.ofData [98], 1)] ∧
      ¬ SameQueries z z' := by
  refine ⟨_, _, (LinkedZSet.ofEntries [(Str.ofData [97], 1), (Str.ofData [98], 1)]).1, rfl, ?_, rfl,
    by decide +kernel, by decide +kernel, by decide +kernel, ?_⟩
  · intro entry member
    exact Str.survives_of_canonical Lzfse.storedBlocks_lawful
      ((by decide +kernel : ∀ entry ∈ _, Str.Storable (MemberNode.key entry)) entry member)
      ((by decide +kernel : ∀ entry ∈ _, Str.Canonical (MemberNode.key entry)) entry member)
  · intro agree
    exact absurd (agree.rangeByScore 1 1) (by decide +kernel)

end ZSet

end ForkRedis
