import ForkRedis.ZSetRuns
import ForkRedis.Indexes
import ForkRedis.Lib.Sorted

set_option autoImplicit false

/- The queries of a `ZSet`. Each walks one of the three containers, and all of them read
one list of entries, which stands in score order in one container and in key order in
another. -/
namespace ForkRedis

open Wire Decimal Fallible Sorted

/-- What a query shows of an entry. -/
def ZEntry.shown (e : ZEntry) : Str × Int32 := (e.key, e.score)

namespace ZSet

/-- `rs` are the entries in the order of `rank_map_`, `ms` in the order of `member_map_`. -/
structure Views (z : ZSet) (es rs ms : List ZEntry) : Prop where
  rep : Rep z es
  rankPerm : rs.Perm es
  ranks : z.rankMap = rs.map ZEntry.rankNode
  memberPerm : ms.Perm es
  members : z.memberMap = ms.map ZEntry.memberNode

theorem Rep.views {z : ZSet} {es : List ZEntry} (rep : Rep z es) : ∃ rs ms, Views z es rs ms := by
  obtain ⟨rs, rankPerm, ranks⟩ := exists_order rep.ranks
  obtain ⟨ms, memberPerm, members⟩ := exists_order rep.members
  exact ⟨rs, ms, rep, rankPerm, ranks, memberPerm, members⟩

namespace Views

variable {z : ZSet} {es rs ms : List ZEntry}

theorem rankOrder (views : Views z es rs ms) : rs.Pairwise fun a b => a.score ≤ b.score := by
  have sorted := views.rep.rankOrder
  rw [views.ranks, List.pairwise_map] at sorted
  exact sorted

theorem memberOrder (views : Views z es rs ms) :
    ms.Pairwise fun a b => a.key.data < b.key.data := by
  have sorted := views.rep.memberOrder
  rw [views.members, List.pairwise_map] at sorted
  exact sorted

theorem rankKeys (views : Views z es rs ms) : (rs.map fun e => e.key.data).Nodup :=
  (views.rankPerm.map _).nodup_iff.mpr views.rep.keys_distinct

theorem rankWindow (views : Views z es rs ms) (low high : Int32) :
    (z.rankMap.dropWhile fun rank => rank.score < low).takeWhile (fun rank => rank.score ≤ high) =
      (rs.filter fun e => low ≤ e.score ∧ e.score ≤ high).map ZEntry.rankNode := by
  rw [views.ranks, List.dropWhile_map, List.takeWhile_map]
  congr 1
  exact window_eq_filter views.rankOrder low high

theorem memberWindow (views : Views z es rs ms) (low high : Bytes) :
    (z.memberMap.dropWhile fun node => node.key.data < low).takeWhile
      (fun node => node.key.data ≤ high) =
      (ms.filter fun e => low ≤ e.key.data ∧ e.key.data ≤ high).map ZEntry.memberNode := by
  rw [views.members, List.dropWhile_map, List.takeWhile_map]
  congr 1
  exact window_eq_filter (views.memberOrder.imp Std.le_of_lt) low high

theorem rangeByScore_eq (views : Views z es rs ms) (low high : Int32) :
    z.rangeByScore low high =
      .ok ((rs.filter fun e => low ≤ e.score ∧ e.score ≤ high).map ZEntry.shown) := by
  rw [rangeByScore]
  split
  · rename_i crossed
    rw [window_eq_nil crossed, List.map_nil]
  · rw [views.rankWindow, mapM_eq_ok, List.forall₂_map_left_iff, List.forall₂_map_right_iff,
      List.forall₂_same]
    intro e found
    have member := views.rankPerm.mem_iff.mp (List.mem_of_mem_filter found)
    simp only [ZEntry.rankNode, views.rep.memberAt_of_mem member, ok_bind, pure_eq_ok,
      ZEntry.memberNode, ZEntry.shown]

theorem count_eq (views : Views z es rs ms) (low high : Int32) :
    z.count low high = (rs.filter fun e => low ≤ e.score ∧ e.score ≤ high).length := by
  rw [count]
  split
  · rename_i crossed
    rw [window_eq_nil crossed, List.length_nil]
  · rw [views.rankWindow, List.length_map]

theorem rangeByLex_eq (views : Views z es rs ms) (low high : Str) :
    z.rangeByLex low high =
      .ok ((ms.filter fun e => low.data ≤ e.key.data ∧ e.key.data ≤ high.data).map
        ZEntry.shown) := by
  rw [rangeByLex]
  split
  · rename_i crossed
    rw [window_eq_nil crossed, List.map_nil]
  · rw [views.memberWindow, mapM_eq_ok, List.forall₂_map_left_iff, List.forall₂_map_right_iff,
      List.forall₂_same]
    intro e found
    have member := views.memberPerm.mem_iff.mp (List.mem_of_mem_filter found)
    simp only [ZEntry.memberNode, views.rep.seqAt_of_mem member, ok_bind, pure_eq_ok,
      ZEntry.seqNode, ZEntry.shown]

theorem lexCount_eq (views : Views z es rs ms) (low high : Str) :
    z.lexCount low high =
      (ms.filter fun e => low.data ≤ e.key.data ∧ e.key.data ≤ high.data).length := by
  rw [lexCount]
  split
  · rename_i crossed
    rw [window_eq_nil crossed, List.length_nil]
  · rw [views.memberWindow, List.length_map]

theorem rank_eq (views : Views z es rs ms) {e : ZEntry} (he : e ∈ es) {member : Str}
    (same : e.key.data = member.data) :
    z.rank member = .ok (toStringSize (rs.takeWhile fun r => r.score < e.score).length) := by
  rw [rank, views.rep.find_of_mem he same]
  simp only [ZEntry.memberNode, views.rep.seqAt_of_mem he, ZEntry.seqNode, ok_bind, pure_eq_ok,
    views.ranks, List.takeWhile_map, List.length_map]
  rfl

end Views

namespace Rep

variable {z : ZSet} {es : List ZEntry}

theorem card_eq (rep : Rep z es) : z.card = es.length := by
  rw [card, rep.seq, List.length_map]

theorem score_eq (rep : Rep z es) {e : ZEntry} (he : e ∈ es) {member : Str}
    (same : e.key.data = member.data) : z.score member = .ok (toStringInt e.score) := by
  rw [score, rep.find_of_mem he same]
  simp only [ZEntry.memberNode, rep.seqAt_of_mem he, ZEntry.seqNode, ok_bind, pure_eq_ok]

theorem score_none (rep : Rep z es) {member : Str}
    (absent : ∀ e ∈ es, e.key.data ≠ member.data) : z.score member = .ok [] := by
  rw [score, (rep.find_eq_none_iff member).mpr absent]

theorem rank_none (rep : Rep z es) {member : Str}
    (absent : ∀ e ∈ es, e.key.data ≠ member.data) : z.rank member = .ok [] := by
  rw [rank, (rep.find_eq_none_iff member).mpr absent]

theorem shown_nodup (rep : Rep z es) : (es.map ZEntry.shown).Nodup := by
  apply List.Nodup.of_map fun pair => pair.1.data
  rw [List.map_map]
  exact rep.keys_distinct

/-- `Range` by the positions its bounds are brought to. -/
theorem range_eq (rep : Rep z es) (filled : es ≠ []) (begin end_ : Int32) :
    z.range begin end_ =
      if legalRange (UInt64.ofNat es.length) end_ ≤ legalRange (UInt64.ofNat es.length) begin then
        .ok []
      else if es.length ≤ (legalRange (UInt64.ofNat es.length) end_).toNat then .error .undefined
      else .ok (((es.map ZEntry.shown).take
        ((legalRange (UInt64.ofNat es.length) end_).toNat + 1)).drop
          (legalRange (UInt64.ofNat es.length) begin).toNat) := by
  have listed : z.sequenceList ≠ [] := by
    rw [rep.seq]
    simpa using filled
  rw [range, if_neg listed]
  simp only [rep.seq, List.length_map]
  split
  · rfl
  · split
    · rfl
    · rw [← List.map_take, ← List.map_drop, ← List.map_take, ← List.map_drop, mapM_eq_ok,
        List.forall₂_map_left_iff, List.forall₂_map_right_iff, List.forall₂_same]
      intro e part
      have member : e ∈ es := List.mem_of_mem_take (List.mem_of_mem_drop part)
      simp only [ZEntry.seqNode, rep.memberAt_of_mem member, ok_bind, pure_eq_ok,
        ZEntry.memberNode, ZEntry.shown]

end Rep

/-- What the queries over the three containers have to do with the sequence `seq`. -/
structure QueriesAgree (z : ZSet) (seq : List (Str × Int32)) : Prop where
  sequence : z.entries = .ok seq
  byScore : ∀ low high, ∃ found, z.rangeByScore low high = .ok found ∧
    found.Perm (seq.filter fun pair => low ≤ pair.2 ∧ pair.2 ≤ high) ∧
    found.Pairwise (fun a b => a.2 ≤ b.2) ∧ z.count low high = found.length
  byLex : ∀ low high : Str, ∃ found, z.rangeByLex low high = .ok found ∧
    found.Perm (seq.filter fun pair => low.data ≤ pair.1.data ∧ pair.1.data ≤ high.data) ∧
    found.Pairwise (fun a b => a.1.data < b.1.data) ∧ z.lexCount low high = found.length
  score : ∀ pair ∈ seq, ∀ member : Str, member.data = pair.1.data →
    z.score member = .ok (toStringInt pair.2)
  scoreless : ∀ member : Str, (∀ pair ∈ seq, pair.1.data ≠ member.data) → z.score member = .ok []
  card : z.card = seq.length

theorem Rep.queriesAgree {z : ZSet} {es : List ZEntry} (rep : Rep z es) :
    z.QueriesAgree (es.map ZEntry.shown) := by
  obtain ⟨rs, ms, views⟩ := rep.views
  constructor
  · exact rep.entries_eq
  · intro low high
    refine ⟨_, views.rangeByScore_eq low high, ?_, ?_, ?_⟩
    · rw [List.filter_map]
      exact (views.rankPerm.filter _).map _
    · rw [List.pairwise_map]
      exact views.rankOrder.sublist List.filter_sublist
    · rw [views.count_eq, List.length_map]
  · intro low high
    refine ⟨_, views.rangeByLex_eq low high, ?_, ?_, ?_⟩
    · rw [List.filter_map]
      exact (views.memberPerm.filter _).map _
    · rw [List.pairwise_map]
      exact views.memberOrder.sublist List.filter_sublist
    · rw [views.lexCount_eq, List.length_map]
  · rintro pair listed member same
    obtain ⟨e, he, rfl⟩ := List.mem_map.mp listed
    exact rep.score_eq he same.symm
  · intro member absent
    exact rep.score_none fun e he => absent _ (List.mem_map_of_mem he)
  · rw [rep.card_eq, List.length_map]

/-- After any run the queries by score, by key, by member and by size agree about one
insertion sequence. -/
theorem run_queriesAgree {start : ZSet} (fresh : start.Fresh) {ops : List ZSetOp}
    (ranged : ∀ op ∈ ops, op.InRange) :
    ∃ z seq, ZSetOp.run start ops = .ok z ∧ z.QueriesAgree seq := by
  obtain ⟨z, returned, es, rep⟩ := ZSetOp.run_linked fresh.linked ranged
  exact ⟨z, _, returned, rep.queriesAgree⟩

/-- A sum that wraps around, and a tie. -/
theorem run_queriesAgree_wrapped :
    ∃ z seq, ZSetOp.run empty [.add 2147483647 (Str.ofData [97]), .add 3 (Str.ofData [98]),
      .incrBy 1 (Str.ofData [97]), .add 3 (Str.ofData [])] = .ok z ∧ z.QueriesAgree seq :=
  run_queriesAgree Fresh.empty (by decide)

/-- `Rank` is the position in score order: every member stands at its rank in the whole
`RangeByScore`, and the ranks are the numbers below the size, each of them once. -/
def RanksByPosition (z : ZSet) : Prop :=
  ∃ listed, z.rangeByScore Int32.minValue Int32.maxValue = .ok listed ∧
    (∀ entry ∈ z.memberMap, ∃ i score, listed[i]? = some (entry.key, score) ∧
      z.rank entry.key = .ok (toStringSize i)) ∧
    (z.memberMap.map fun entry => z.rank entry.key).Perm
      ((List.range z.card).map fun i => .ok (toStringSize i))

namespace Views

variable {z : ZSet} {es rs ms : List ZEntry}

theorem rangeByScore_all (views : Views z es rs ms) :
    z.rangeByScore Int32.minValue Int32.maxValue = .ok (rs.map ZEntry.shown) := by
  rw [views.rangeByScore_eq, List.filter_eq_self.mpr]
  intro e _
  exact decide_eq_true ⟨Int32.minValue_le e.score, Int32.le_maxValue e.score⟩

/-- An entry has its position for a rank if and only if it is the first with its score. -/
theorem rank_eq_iff (views : Views z es rs ms) {i : Nat} {e : ZEntry} (at_ : rs[i]? = some e) :
    z.rank e.key = .ok (toStringSize i) ↔ ∀ r ∈ rs.take i, r.score ≠ e.score := by
  have member := views.rankPerm.mem_iff.mp (List.mem_of_getElem? at_)
  rw [views.rank_eq member rfl, ← length_below_eq_iff views.rankOrder at_, Except.ok.injEq]
  exact ⟨numeral_inj, congrArg toStringSize⟩

/-- A member is shown once. -/
theorem shown_once (views : Views z es rs ms) {i j : Nat} {e : ZEntry} (at_ : rs[j]? = some e)
    {score : Int32} (shown : (rs.map ZEntry.shown)[i]? = some (e.key, score)) : i = j := by
  rw [List.getElem?_map, Option.map_eq_some_iff] at shown
  obtain ⟨e', found, equal⟩ := shown
  have key : e'.key = e.key := congrArg Prod.fst equal
  have keyAt : (rs.map fun e => e.key.data)[i]? = (rs.map fun e => e.key.data)[j]? := by
    rw [List.getElem?_map, List.getElem?_map, found, at_, Option.map_some, Option.map_some, key]
  have bound : i < (rs.map fun e => e.key.data).length := by
    rw [List.length_map]
    exact (List.getElem?_eq_some_iff.mp found).1
  exact (List.getElem?_inj bound views.rankKeys).mp keyAt

theorem ranksByPosition_iff_nodup (views : Views z es rs ms) :
    z.RanksByPosition ↔ (rs.map ZEntry.score).Nodup := by
  have sized : z.card = rs.length := by rw [views.rep.card_eq, views.rankPerm.length_eq]
  constructor
  · rintro ⟨listed, ranged, positions, -⟩
    rw [views.rangeByScore_all, Except.ok.injEq] at ranged
    subst ranged
    rw [List.Nodup, List.pairwise_map, List.pairwise_iff_getElem]
    intro i j inside inside' before same
    have at_ : rs[j]? = some rs[j] := List.getElem?_eq_getElem inside'
    have member : rs[j] ∈ ms :=
      views.memberPerm.mem_iff.mpr (views.rankPerm.mem_iff.mp (List.getElem_mem inside'))
    have inMap : rs[j].memberNode ∈ z.memberMap := views.members ▸ List.mem_map_of_mem member
    obtain ⟨k, score, shown, ranked⟩ := positions _ inMap
    have place := views.shown_once at_ shown
    subst place
    have first := (views.rank_eq_iff at_).mp ranked
    exact first rs[i] (List.mem_take_iff_getElem.mpr ⟨i, by omega, rfl⟩) same
  · intro distinct
    have ranked : ∀ i e, rs[i]? = some e → z.rank e.key = .ok (toStringSize i) := by
      intro i e at_
      rw [views.rank_eq_iff at_]
      intro r early same
      obtain ⟨j, before, rfl⟩ := List.mem_take_iff_getElem.mp early
      obtain ⟨inside, rfl⟩ := List.getElem?_eq_some_iff.mp at_
      rw [List.Nodup, List.pairwise_map, List.pairwise_iff_getElem] at distinct
      exact distinct j i (by omega) inside (by omega) same
    refine ⟨_, views.rangeByScore_all, ?_, ?_⟩
    · intro entry inMap
      obtain ⟨e, he, rfl⟩ := views.rep.mem_memberMap inMap
      obtain ⟨i, at_⟩ := List.mem_iff_getElem?.mp (views.rankPerm.mem_iff.mpr he)
      exact ⟨i, e.score, by rw [List.getElem?_map, at_]; rfl, ranked i e at_⟩
    · have inOrder : rs.map (fun e => z.rank e.key) =
          (List.range z.card).map fun i => .ok (toStringSize i) := by
        apply List.ext_getElem
        · rw [List.length_map, List.length_map, List.length_range, sized]
        · intro i inside inside'
          rw [List.getElem_map, List.getElem_map, List.getElem_range]
          exact ranked i _ (List.getElem?_eq_getElem _)
      rw [← inOrder, views.members, List.map_map]
      exact (views.memberPerm.trans views.rankPerm.symm).map _

end Views

/-- The ranks are the positions in score order if and only if no two members have one
score. -/
theorem ranksByPosition_iff {z : ZSet} (reached : z.Reached) :
    z.RanksByPosition ↔ (z.sequenceList.map SeqNode.score).Nodup := by
  obtain ⟨es, rep⟩ := reached.linked
  obtain ⟨rs, ms, views⟩ := rep.views
  rw [views.ranksByPosition_iff_nodup, rep.seq, List.map_map]
  exact (views.rankPerm.map ZEntry.score).nodup_iff

/-- Two members whose scores have been exchanged. -/
theorem ranksByPosition_iff_exchanged :
    ∃ z, ZSetOp.run empty [.add 1 (Str.ofData [97]), .add 2 (Str.ofData [98]),
      .incrBy 2 (Str.ofData [97])] = .ok z ∧ z.RanksByPosition :=
  ⟨_, rfl, (ranksByPosition_iff (@Reached.of_run [.add 1 (Str.ofData [97]),
    .add 2 (Str.ofData [98]), .incrBy 2 (Str.ofData [97])] _ rfl)).mpr (by decide +kernel)⟩

/-- Two members with one score both have the rank of the first. -/
theorem not_ranksByPosition_tie :
    ∃ z, ZSetOp.run empty [.add 1 (Str.ofData [97]), .add 1 (Str.ofData [98])] = .ok z ∧
      z.rank (Str.ofData [97]) = .ok (toStringSize 0) ∧
      z.rank (Str.ofData [98]) = .ok (toStringSize 0) ∧ ¬ z.RanksByPosition := by
  refine ⟨_, rfl, by decide +kernel, by decide +kernel, ?_⟩
  rintro ⟨_, _, _, once⟩
  exact absurd once (by decide +kernel)

/-- The position an index denotes, a negative one counting from the end. -/
def denoted (size : Nat) (r : Int32) : Nat :=
  if 0 ≤ r then r.toInt.toNat else size - (-r.toInt).toNat

/-- `Range` gives the entries of the sequence from the one denoted position to the other,
both included. -/
def Slices (z : ZSet) (begin end_ : Int32) : Prop :=
  ∃ seq, z.entries = .ok seq ∧ z.range begin end_ =
    .ok ((seq.take (denoted z.card end_ + 1)).drop (denoted z.card begin))

/-- The bounds are brought to the positions they denote, or both ways in the wrong order. -/
def Kept (size : Nat) (begin end_ : Int32) : Prop :=
  ((legalRange (UInt64.ofNat size) begin).toNat = denoted size begin ∧
    (legalRange (UInt64.ofNat size) end_).toNat = denoted size end_) ∨
  (denoted size end_ < denoted size begin ∧
    legalRange (UInt64.ofNat size) end_ ≤ legalRange (UInt64.ofNat size) begin)

theorem denoted_lt {size : Nat} {r : Int32} (low : -(size : Int) < r.toInt)
    (high : r.toInt < size) : denoted size r < size := by
  rw [denoted]
  by_cases nonneg : 0 ≤ r
  · have positive : 0 ≤ r.toInt := Int32.le_iff_toInt_le.mp nonneg
    rw [if_pos nonneg]
    omega
  · have negative : r.toInt < 0 := Int32.lt_iff_toInt_lt.mp (Int32.not_le.mp nonneg)
    rw [if_neg nonneg]
    omega

/-- Up to the greatest `int` every index is brought to the position it denotes. -/
theorem legalRange_denoted {size : Nat} (sized : size ≤ 2147483647) {r : Int32}
    (low : -(size : Int) < r.toInt) (high : r.toInt < size) :
    (legalRange (UInt64.ofNat size) r).toNat = denoted size r := by
  have above : r ≠ Int32.minValue := by
    rintro rfl
    have least : Int32.minValue.toInt = -2147483648 := rfl
    omega
  rw [legalRange_toNat (by omega) (by omega) above, denoted]
  by_cases nonneg : 0 ≤ r
  · have positive : 0 ≤ r.toInt := Int32.le_iff_toInt_le.mp nonneg
    rw [if_pos nonneg, if_pos nonneg, Nat.mod_eq_of_lt (by omega)]
  · have negative : r.toInt < 0 := Int32.lt_iff_toInt_lt.mp (Int32.not_le.mp nonneg)
    rw [if_neg nonneg, if_neg nonneg, Nat.mod_eq_of_lt (by omega)]

theorem Rep.slices_iff_kept {z : ZSet} {es : List ZEntry} (rep : Rep z es) {begin end_ : Int32}
    (inside : denoted es.length begin < es.length) (inside' : denoted es.length end_ < es.length) :
    z.Slices begin end_ ↔
      denoted es.length begin ≠ denoted es.length end_ ∧ Kept es.length begin end_ := by
  have filled : es ≠ [] := List.ne_nil_of_length_pos (by omega)
  have listed : z.entries = .ok (es.map ZEntry.shown) := rep.entries_eq
  have shownLength : (es.map ZEntry.shown).length = es.length := List.length_map _
  simp only [Slices, listed, rep.range_eq filled, rep.card_eq, Except.ok.injEq, exists_eq_left',
    Kept, UInt64.le_iff_toNat_le]
  generalize denoted es.length begin = b at inside ⊢
  generalize denoted es.length end_ = e at inside' ⊢
  generalize (legalRange (UInt64.ofNat es.length) begin).toNat = b'
  generalize (legalRange (UInt64.ofNat es.length) end_).toNat = e'
  split
  · rename_i crossed
    rw [Except.ok.injEq, eq_comm, List.drop_eq_nil_iff, List.length_take, shownLength]
    omega
  · rename_i ordered
    split
    · rename_i outside
      exact iff_of_false nofun (by omega)
    · rename_i within
      rw [Except.ok.injEq]
      constructor
      · intro same
        have places := slice_inj rep.shown_nodup (by omega) (by omega) (by omega) same.symm
        omega
      · rintro ⟨differ, ⟨rfl, rfl⟩ | crossed⟩
        · rfl
        · omega

/-- The whole sequence asked for by its ends needs two members: the last of one is sought
behind it. -/
theorem Rep.range_whole_iff {z : ZSet} {es : List ZEntry} (rep : Rep z es) (filled : 0 < es.length)
    (sized : es.length ≤ 2147483647) : z.range 0 (-1) = z.entries ↔ 1 < es.length := by
  have listed : z.entries = .ok (es.map ZEntry.shown) := rep.entries_eq
  have first : (0 : Int32).toInt = 0 := rfl
  have last : (-1 : Int32).toInt = -1 := rfl
  have front := legalRange_toNat (r := 0) filled (by omega) (by decide)
  have back := legalRange_toNat (r := -1) filled (by omega) (by decide)
  rw [if_pos (by decide), first, Int.toNat_zero, Nat.zero_mod] at front
  rw [if_neg (by decide), last, Int.neg_neg, Int.toNat_one] at back
  rw [listed, rep.range_eq (List.ne_nil_of_length_pos filled)]
  simp only [UInt64.le_iff_toNat_le, front, back]
  by_cases several : 1 < es.length
  · rw [Nat.mod_eq_of_lt several, if_neg (by omega), if_neg (by omega), List.drop_zero,
      List.take_of_length_le (by rw [List.length_map]; omega)]
    exact iff_of_true rfl several
  · have one : es.length = 1 := by omega
    rw [one, if_neg (by decide), if_pos (by decide)]
    exact iff_of_false nofun (by decide)

/-- `Range` gives the inclusive slice if and only if the denoted positions differ and no
index is distorted on its way through `int`, which needs more than 2^31 - 1 members. From
the first to the last it gives every member if there are two of them. -/
theorem slices_iff {z : ZSet} (reached : z.Reached) :
    (∀ begin end_ : Int32, -(z.card : Int) < begin.toInt → begin.toInt < z.card →
      -(z.card : Int) < end_.toInt → end_.toInt < z.card →
      (z.Slices begin end_ ↔ denoted z.card begin ≠ denoted z.card end_ ∧
        Kept z.card begin end_) ∧
      (z.card ≤ 2147483647 → Kept z.card begin end_)) ∧
    (0 < z.card → z.card ≤ 2147483647 → (z.range 0 (-1) = z.entries ↔ 1 < z.card)) := by
  obtain ⟨es, rep⟩ := reached.linked
  refine ⟨?_, ?_⟩
  · intro begin end_ low high low' high'
    have inside := denoted_lt low high
    have inside' := denoted_lt low' high'
    constructor
    · rw [rep.card_eq] at inside inside' ⊢
      exact rep.slices_iff_kept inside inside'
    · exact fun sized =>
        Or.inl ⟨legalRange_denoted sized low high, legalRange_denoted sized low' high'⟩
  · rw [rep.card_eq]
    exact rep.range_whole_iff

/-- Of three members the last two, asked for from the end, and all three. -/
theorem slices_iff_last :
    ∃ z, ZSetOp.run empty [.add 5 (Str.ofData [97]), .add 1 (Str.ofData [98]),
      .add 3 (Str.ofData [99])] = .ok z ∧ z.Slices (-2) (-1) ∧ ¬ z.Slices 1 (-2) ∧
      z.range 0 (-1) = z.entries := by
  refine ⟨_, rfl, ?_⟩
  obtain ⟨sliced, whole⟩ := slices_iff (@Reached.of_run [.add 5 (Str.ofData [97]),
    .add 1 (Str.ofData [98]), .add 3 (Str.ofData [99])] _ rfl)
  obtain ⟨apart, kept⟩ := sliced (-2) (-1) (by decide +kernel) (by decide +kernel)
    (by decide +kernel) (by decide +kernel)
  obtain ⟨together, _⟩ := sliced 1 (-2) (by decide +kernel) (by decide +kernel)
    (by decide +kernel) (by decide +kernel)
  refine ⟨apart.mpr ⟨by decide +kernel, kept (by decide +kernel)⟩, ?_, ?_⟩
  · exact fun slice => absurd (together.mp slice).1 (by decide +kernel)
  · exact (whole (by decide +kernel) (by decide +kernel)).mpr (by decide +kernel)

/-- The one member of a `ZSet` is not in its `Range`, and from the first to the last the
walk leaves the list. -/
theorem not_slices_whole :
    ∃ z, ZSetOp.run empty [.add 1 (Str.ofData [97])] = .ok z ∧ z.card = 1 ∧
      z.range 0 (-1) = .error .undefined ∧ z.range 0 0 = .ok [] ∧ ¬ z.Slices 0 0 := by
  refine ⟨_, rfl, by decide +kernel, by decide +kernel, by decide +kernel, ?_⟩
  rintro ⟨seq, listed, ranged⟩
  cases listed
  exact absurd ranged (by decide +kernel)

end ZSet

end ForkRedis
