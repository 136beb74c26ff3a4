import ForkRedis.ZSetQueries
import ForkRedis.Cells
import ForkRedis.Migration
import ForkRedis.TextbookRuns

set_option autoImplicit false

/- `Rem` and `Add` of a `ZSet`, and `ZADD` with any number of pairs. -/
namespace ForkRedis

open Wire Decimal Lists Fallible

namespace ZSet

namespace Views

variable {z : ZSet} {es rs ms : List ZEntry} {e : ZEntry}

theorem memberEntries_eq (views : Views z es rs ms) :
    z.memberEntries = .ok (ms.map ZEntry.shown) := by
  rw [memberEntries, views.members, mapM_eq_ok, List.forall₂_map_left_iff,
    List.forall₂_map_right_iff, List.forall₂_same]
  intro e listed
  have inside := views.memberPerm.mem_iff.mp listed
  simp only [ZEntry.memberNode, views.rep.seqAt_of_mem inside, ok_bind, ZEntry.seqNode,
    pure_eq_ok, ZEntry.shown]

theorem rankEntries_eq (views : Views z es rs ms) : z.rankEntries = .ok (rs.map ZEntry.shown) := by
  rw [rankEntries, views.ranks, mapM_eq_ok, List.forall₂_map_left_iff,
    List.forall₂_map_right_iff, List.forall₂_same]
  intro e listed
  have inside := views.rankPerm.mem_iff.mp listed
  simp only [ZEntry.rankNode, views.rep.memberAt_of_mem inside, ok_bind, ZEntry.memberNode,
    pure_eq_ok, ZEntry.shown]

/-- `Rem` takes the entry out of each order. -/
theorem rem (views : Views z es rs ms) (he : e ∈ es) {member : Str}
    (same : e.key.data = member.data) (above : e.score ≠ Int32.minValue) :
    ∃ z', z.rem e.score member = .ok (z', true) ∧
      Views z' (es.erase e) (rs.erase e) (ms.erase e) := by
  have removed := views.rep.rem_eq he same above
  obtain ⟨z', returned, rep'⟩ := views.rep.rem_mem he same above
  cases removed.symm.trans returned
  have only {l : List ZEntry} (perm : l.Perm es) {x : ZEntry} (listed : x ∈ l) :
      (x.memberAddr == e.memberAddr) = true ↔ x = e := by
    rw [beq_iff_eq]
    refine ⟨fun addr => ?_, fun own => by rw [own]⟩
    exact List.inj_on_of_nodup_map views.rep.memberDistinct (perm.mem_iff.mp listed) he addr
  refine ⟨_, removed, rep', views.rankPerm.erase e, ?_, views.memberPerm.erase e, ?_⟩
  · dsimp only
    rw [views.ranks, List.eraseP_map]
    exact congrArg _ (eraseP_unique fun x listed => only views.rankPerm listed)
  · dsimp only
    rw [views.members, List.eraseP_map]
    exact congrArg _ (eraseP_unique fun x listed => only views.memberPerm listed)

end Views

/-- A member with its score. -/
def Present (z : ZSet) (score : Int32) (member : Str) : Prop :=
  ∃ seq, z.entries = .ok seq ∧ ∃ entry ∈ seq, entry.1.data = member.data ∧ entry.2 = score

/-- Each index lists what it listed, in that order, but for one member. -/
structure Drops (z z' : ZSet) (member : Str) : Prop where
  sequence : ∀ listed, z.entries = .ok listed →
    z'.entries = .ok (listed.filter fun entry => entry.1.data != member.data)
  members : ∀ listed, z.memberEntries = .ok listed →
    z'.memberEntries = .ok (listed.filter fun entry => entry.1.data != member.data)
  ranks : ∀ listed, z.rankEntries = .ok listed →
    z'.rankEntries = .ok (listed.filter fun entry => entry.1.data != member.data)
  inStep : z'.InStep

/-- `Rem` returns, no search having passed the end of `rank_map_`; it returns true exactly for a
member with its score, and then drops it; and else it changes nothing. -/
def RemovesRightly (z : ZSet) (score : Int32) (member : Str) : Prop :=
  ∃ z' removed, z.rem score member = .ok (z', removed) ∧
    (removed = true ↔ z.Present score member) ∧
    (removed = true → z.Drops z' member) ∧ (removed = false → z' = z)

theorem Views.drops {z z' : ZSet} {es rs ms : List ZEntry} {e : ZEntry}
    (views : Views z es rs ms) (views' : Views z' (es.erase e) (rs.erase e) (ms.erase e))
    (he : e ∈ es) {member : Str} (same : e.key.data = member.data) : z.Drops z' member := by
  constructor
  · intro listed shown
    cases views.rep.entries_eq.symm.trans shown
    rw [views'.rep.entries_eq, ZEntry.pairs_erase views.rep.keys_distinct he same]
  · intro listed shown
    cases views.memberEntries_eq.symm.trans shown
    refine views'.memberEntries_eq.trans (congrArg Except.ok (ZEntry.pairs_erase ?_ ?_ same))
    · exact (views.memberPerm.map _).nodup_iff.mpr views.rep.keys_distinct
    · exact views.memberPerm.mem_iff.mpr he
  · intro listed shown
    cases views.rankEntries_eq.symm.trans shown
    refine views'.rankEntries_eq.trans (congrArg Except.ok (ZEntry.pairs_erase ?_ ?_ same))
    · exact views.rankKeys
    · exact views.rankPerm.mem_iff.mpr he
  · exact views'.rep.inStep

theorem Rep.present_iff {z : ZSet} {es : List ZEntry} (rep : Rep z es) (score : Int32)
    (member : Str) :
    z.Present score member ↔ ∃ e ∈ es, e.key.data = member.data ∧ e.score = score := by
  rw [Present, rep.entries_eq]
  simp only [Except.ok.injEq, exists_eq_left', List.mem_map, exists_exists_and_eq_and]

/-- Only the member that has the least score cannot be removed by it. -/
theorem removesRightly_iff {z : ZSet} (reached : z.Reached) (score : Int32) (member : Str) :
    z.RemovesRightly score member ↔ ¬ (score = Int32.minValue ∧ z.Present score member) := by
  obtain ⟨es, rep⟩ := reached.linked
  have present := rep.present_iff score member
  by_cases found : ∃ e ∈ es, e.key.data = member.data ∧ e.score = score
  · rw [and_iff_left (present.mpr found)]
    obtain ⟨e, inside, same, rfl⟩ := found
    by_cases least : e.score = Int32.minValue
    · refine iff_of_false ?_ (not_not.mpr least)
      rintro ⟨z', removed, returned, -⟩
      cases (rep.rem_least inside same least).symm.trans returned
    · obtain ⟨rs, ms, views⟩ := rep.views
      obtain ⟨z', returned, views'⟩ := views.rem inside same least
      refine iff_of_true ⟨z', true, returned, ?_, fun _ => ?_, ?_⟩ least
      · exact iff_of_true rfl (present.mpr ⟨e, inside, same, rfl⟩)
      · exact views.drops views' inside same
      · exact fun kept => absurd kept.symm Bool.false_ne_true
  · have absent : ¬ z.Present score member := mt present.mp found
    have returned := rep.rem_miss score fun e inside same hit => found ⟨e, inside, same, hit⟩
    refine iff_of_true ⟨z, false, returned, ?_, ?_, fun _ => rfl⟩ fun both => absent both.2
    · exact iff_of_false Bool.false_ne_true absent
    · exact fun gone => absurd gone Bool.false_ne_true

/-- Three members with one score, the greatest there is, and the one in the middle. -/
theorem removesRightly_iff_ties :
    ∃ z, ZSetOp.run empty [.add Int32.maxValue (Str.ofData [97]),
        .add Int32.maxValue (Str.ofData [98]), .add Int32.maxValue (Str.ofData [99])] = .ok z ∧
      z.RemovesRightly Int32.maxValue (Str.ofData [98]) := by
  obtain ⟨z, built⟩ : ∃ z, ZSetOp.run empty [.add Int32.maxValue (Str.ofData [97]),
      .add Int32.maxValue (Str.ofData [98]), .add Int32.maxValue (Str.ofData [99])] = .ok z :=
    ⟨_, rfl⟩
  refine ⟨z, built, (removesRightly_iff (Reached.of_run built) _ _).mpr ?_⟩
  rintro ⟨least, -⟩
  exact absurd least (by decide)

/-- A member with the least score. -/
theorem not_removesRightly :
    ∃ z, ZSetOp.run empty [.add Int32.minValue (Str.ofData [109])] = .ok z ∧
      z.Present Int32.minValue (Str.ofData [109]) ∧
      z.rem Int32.minValue (Str.ofData [109]) = .error .undefined ∧
      ¬ z.RemovesRightly Int32.minValue (Str.ofData [109]) := by
  have raised : (empty.add Int32.minValue (Str.ofData [109])).1.rem Int32.minValue
      (Str.ofData [109]) = .error .undefined := by decide +kernel
  refine ⟨(empty.add Int32.minValue (Str.ofData [109])).1, rfl, ?_, raised, ?_⟩
  · exact ⟨[(Str.ofData [109], Int32.minValue)], by decide +kernel, _, List.mem_singleton_self _,
      rfl, rfl⟩
  · rintro ⟨z', removed, returned, -⟩
    cases raised.symm.trans returned

end ZSet

/-- `ZADD` with the scores and members of a request. -/
def zadd (key : Bytes) (pairs : List (Bytes × Bytes)) : ZSetCommand :=
  ⟨true, .zadd, key, (pairs.flatMap fun pair => [pair.1, pair.2]).map Str.ofData⟩

/-- The score of the first pair that names a member. -/
def firstScore (pairs : List (Bytes × Bytes)) (member : Bytes) : Option Int32 :=
  (pairs.find? fun pair => pair.2 == member).map fun pair => intOf pair.1

/-- The score of the last. -/
def lastScore (pairs : List (Bytes × Bytes)) (member : Bytes) : Option Int32 :=
  firstScore pairs.reverse member

theorem firstScore_eq_none_iff {pairs : List (Bytes × Bytes)} {member : Bytes} :
    firstScore pairs member = none ↔ ∀ pair ∈ pairs, pair.2 ≠ member := by
  simp only [firstScore, Option.map_eq_none_iff, List.find?_eq_none, beq_iff_eq]

theorem firstScore_cons (pair : Bytes × Bytes) (pairs : List (Bytes × Bytes)) (member : Bytes) :
    firstScore (pair :: pairs) member =
      if pair.2 = member then some (intOf pair.1) else firstScore pairs member := by
  rw [firstScore, List.find?_cons]
  split
  · rename_i named
    rw [if_pos (beq_iff_eq.mp named)]
    rfl
  · rename_i other
    rw [if_neg (beq_eq_false_iff_ne.mp other)]
    rfl

namespace LinkedZSet

theorem score_eq (z : LinkedZSet) (member : Str) :
    z.1.score member = .ok ((z.scoreOf member.data).elim [] toStringInt) := by
  obtain ⟨es, rep⟩ := z.2
  cases held : z.scoreOf member.data with
  | none =>
      refine rep.score_none fun e inside => ?_
      refine scoreOf_eq_none_iff.mp held (e.key, e.score) ?_
      rw [entries_eq rep]
      exact List.mem_map_of_mem inside
  | some n =>
      obtain ⟨entry, listed, named, rfl⟩ := scoreOf_eq_some_iff.mp held
      rw [entries_eq rep] at listed
      obtain ⟨e, inside, rfl⟩ := List.mem_map.mp listed
      exact rep.score_eq inside named

theorem score_eq_iff {z : LinkedZSet} {member : Str} {n : Int32} :
    z.1.score member = .ok (toStringInt n) ↔ z.scoreOf member.data = some n := by
  rw [score_eq, Except.ok.injEq]
  cases z.scoreOf member.data with
  | none => exact iff_of_false (fun empty => Str.toStringInt_ne_nil n empty.symm) (by simp)
  | some m =>
      rw [Option.some.injEq]
      refine ⟨fun same => ?_, fun same => by rw [same]; rfl⟩
      rw [← intOf_toStringInt m, ← intOf_toStringInt n]
      exact congrArg intOf same

/-- One round of `ZADD`. -/
def record (z : LinkedZSet) (pair : Bytes × Bytes) : LinkedZSet × Bool :=
  z.add (intOf pair.1) (Str.ofData pair.2)

/-- A member that has a score keeps it. -/
theorem scoreOf_record (z : LinkedZSet) (pair : Bytes × Bytes) (member : Bytes) :
    (z.record pair).1.scoreOf member =
      if pair.2 = member then (z.scoreOf member).or (some (intOf pair.1))
      else z.scoreOf member := by
  have entries := entries_add z (intOf pair.1) (Str.ofData pair.2)
  split at entries
  · rename_i found
    rw [record, add_of_mem _ found]
    split
    · rename_i named
      subst named
      obtain ⟨entry, listed, named⟩ := found
      have held : z.scoreOf pair.2 = some entry.2 :=
        scoreOf_eq_some_iff.mpr ⟨entry, listed, named, rfl⟩
      rw [held, Option.some_or]
    · rfl
  · rename_i missing
    have absent : z.scoreOf pair.2 = none := by
      refine scoreOf_eq_none_iff.mpr fun entry listed named => ?_
      exact missing ⟨entry, listed, named⟩
    split
    · rename_i named
      subst named
      rw [absent, Option.none_or, scoreOf_eq_some_iff, record, entries]
      exact ⟨_, List.mem_append_right _ (List.mem_singleton_self _), rfl, rfl⟩
    · rename_i other
      apply scoreOf_congr
      intro n
      rw [record, entries]
      simp only [List.mem_append, List.mem_singleton, or_and_right, exists_or, exists_eq_left]
      refine or_iff_left fun both => other ?_
      exact both.1

theorem record_flag (z : LinkedZSet) (pair : Bytes × Bytes) :
    (z.record pair).2 = decide (z.scoreOf pair.2 = none) := by
  obtain ⟨es, rep⟩ := z.2
  rcases ZEntry.absent_or_mem es (Str.ofData pair.2) with absent | ⟨e, inside, same⟩
  · obtain ⟨z', added, -⟩ := rep.add_new (intOf pair.1) absent
    have none : z.scoreOf pair.2 = none := by
      rw [scoreOf_eq_none_iff, entries_eq rep]
      intro entry listed
      obtain ⟨e, inside, rfl⟩ := List.mem_map.mp listed
      exact absent e inside
    rw [decide_eq_true none]
    exact congrArg Prod.snd added
  · have held : z.scoreOf pair.2 = some e.score := by
      rw [scoreOf_eq_some_iff, entries_eq rep]
      exact ⟨_, List.mem_map_of_mem inside, same, rfl⟩
    rw [held, decide_eq_false (Option.some_ne_none _)]
    exact congrArg Prod.snd (rep.add_old (intOf pair.1) inside same)

/-- The members of some pairs that have no score yet. -/
def newMembers (z : LinkedZSet) (pairs : List (Bytes × Bytes)) : Finset Bytes :=
  (pairs.map Prod.snd).toFinset.filter fun member => z.scoreOf member = none

theorem mem_newMembers {z : LinkedZSet} {pairs : List (Bytes × Bytes)} {member : Bytes} :
    member ∈ z.newMembers pairs ↔ (∃ pair ∈ pairs, pair.2 = member) ∧ z.scoreOf member = none := by
  rw [newMembers, Finset.mem_filter, List.mem_toFinset, List.mem_map]

theorem card_newMembers_cons (z : LinkedZSet) (pair : Bytes × Bytes)
    (pairs : List (Bytes × Bytes)) :
    (z.newMembers (pair :: pairs)).card =
      (if z.scoreOf pair.2 = none then 1 else 0) + ((z.record pair).1.newMembers pairs).card := by
  split
  · rename_i absent
    have own : pair.2 ∉ (z.record pair).1.newMembers pairs := by
      rw [mem_newMembers, scoreOf_record, if_pos rfl, absent]
      exact fun both => by cases both.2
    have more : z.newMembers (pair :: pairs) =
        insert pair.2 ((z.record pair).1.newMembers pairs) := by
      ext member
      rw [Finset.mem_insert, mem_newMembers, mem_newMembers, scoreOf_record]
      simp only [List.mem_cons, exists_eq_or_imp]
      by_cases named : pair.2 = member
      · subst named
        simp only [absent, true_or, and_self]
      · simp only [named, Ne.symm named, false_or, ↓reduceIte]
    rw [more, Finset.card_insert_of_notMem own, Nat.add_comm]
  · rename_i held
    rw [Nat.zero_add]
    congr 1
    ext member
    rw [mem_newMembers, mem_newMembers, scoreOf_record]
    simp only [List.mem_cons, exists_eq_or_imp]
    by_cases named : pair.2 = member
    · subst named
      simp only [held, and_false, ↓reduceIte, Option.or_eq_none_iff, false_and]
    · simp only [named, false_or, ↓reduceIte]

/-- The loop of `ZADD`: a member keeps the score it has, or gets the first one it is given. -/
theorem foldl_record (pairs : List (Bytes × Bytes)) (z : LinkedZSet) (cnt : Int32) :
    (∀ member, (pairs.foldl (fun acc pair => counted acc.2 (acc.1.record pair))
        (z, cnt)).1.scoreOf member = (z.scoreOf member).or (firstScore pairs member)) ∧
    (pairs.foldl (fun acc pair => counted acc.2 (acc.1.record pair)) (z, cnt)).2 =
      cnt + Int32.ofNat (z.newMembers pairs).card := by
  induction pairs generalizing z cnt with
  | nil =>
      refine ⟨fun member => (Option.or_none ..).symm, ?_⟩
      exact (Int32.add_zero cnt).symm
  | cons pair pairs ih =>
      obtain ⟨scores, count⟩ := ih (z.record pair).1 (if (z.record pair).2 then cnt + 1 else cnt)
      refine ⟨fun member => (scores member).trans ?_, count.trans ?_⟩
      · rw [scoreOf_record, firstScore_cons]
        split
        · rw [Option.or_assoc, Option.some_or]
        · rfl
      · rw [card_newMembers_cons, record_flag, Int32.ofNat_add, ← Int32.add_assoc]
        congr 1
        by_cases absent : z.scoreOf pair.2 = none
        · rw [if_pos (decide_eq_true absent), if_pos absent]
          rfl
        · rw [if_neg (by rw [decide_eq_false absent]; exact Bool.false_ne_true), if_neg absent]
          exact (Int32.add_zero cnt).symm

end LinkedZSet

/-- What `ZADD` is to do: each member it names has the last score it is given, the other members
keep theirs, and the reply counts the members that are new. -/
structure Records (z z' : LinkedZSet) (pairs : List (Bytes × Bytes)) (reply : Reply) : Prop where
  named : ∀ member n, lastScore pairs member = some n →
    z'.1.score (Str.ofData member) = .ok (toStringInt n)
  others : ∀ member, lastScore pairs member = none →
    z'.1.score (Str.ofData member) = z.1.score (Str.ofData member)
  count : reply = [toStringSize (z.newMembers pairs).card]

/-- The last score a member is given is the one it has, or else the first it is given, and an
`int` can count the members that are new. -/
structure Recordable (z : LinkedZSet) (pairs : List (Bytes × Bytes)) : Prop where
  held : ∀ member n, z.scoreOf member = some n → lastScore pairs member = some n ∨
    lastScore pairs member = none
  given : ∀ member, z.scoreOf member = none → lastScore pairs member = firstScore pairs member
  few : (z.newMembers pairs).card < 2 ^ 31

theorem lastScore_eq_none_iff {pairs : List (Bytes × Bytes)} {member : Bytes} :
    lastScore pairs member = none ↔ firstScore pairs member = none := by
  simp only [lastScore, firstScore_eq_none_iff, List.mem_reverse]

/-- `ZADD` with scores that are accepted. -/
theorem zadd_returns {pairs : List (Bytes × Bytes)}
    (accepted : ∀ pair ∈ pairs, ∃ n, redisStrToInt pair.1 = .ok (some n)) (key : Bytes)
    (z : LinkedZSet) :
    ∃ z', ZSetCommand.onZSet (zadd key pairs) z =
        .ok (z', [toStringInt (Int32.ofNat (z.newMembers pairs).card)]) ∧
      ∀ member, z'.scoreOf member = (z.scoreOf member).or (firstScore pairs member) := by
  have round (acc : LinkedZSet × Int32) (pair : Bytes × Bytes) (listed : pair ∈ pairs) :
      ZSetCommand.scored (fun z n m => .ok (z.add n m)) acc (Str.ofData pair.1)
          (Str.ofData pair.2) =
        .ok (counted acc.2 (acc.1.record pair)) := by
    obtain ⟨shaped, fits⟩ := redisStrToInt_converts.mp (accepted pair listed)
    rw [ZSetCommand.scored]
    change (redisStrToInt pair.1 >>= _) = _
    rw [redisStrToInt_some shaped fits]
    rfl
  have looped := Object.eachPair_written (ZSetCommand.scored fun z n m => .ok (z.add n m))
    (fun acc pair => counted acc.2 (acc.1.record pair)) Prod.fst Prod.snd pairs round (z, 0)
  obtain ⟨scores, count⟩ := z.foldl_record pairs 0
  rw [Int32.zero_add] at count
  refine ⟨_, ?_, scores⟩
  rw [← count]
  change (eachPair _ (z, 0) _ >>= _) = _
  rw [zadd, looped]
  rfl

/-- When `ZADD` records the scores it is given. -/
theorem zadd_records_iff {pairs : List (Bytes × Bytes)}
    (accepted : ∀ pair ∈ pairs, ∃ n, redisStrToInt pair.1 = .ok (some n)) (key : Bytes)
    (z : LinkedZSet) :
    (∃ z' reply, ZSetCommand.onZSet (zadd key pairs) z = .ok (z', reply) ∧
      Records z z' pairs reply) ↔ Recordable z pairs := by
  obtain ⟨z', returned, scores⟩ := zadd_returns accepted key z
  have count : [toStringInt (Int32.ofNat (z.newMembers pairs).card)] =
      [toStringSize (z.newMembers pairs).card] ↔ (z.newMembers pairs).card < 2 ^ 31 :=
    changed_shown_iff _
  constructor
  · rintro ⟨other, reply, returned', records⟩
    cases returned.symm.trans returned'
    have last (member : Bytes) (n : Int32) (named : lastScore pairs member = some n) :
        (z.scoreOf member).or (firstScore pairs member) = some n := by
      rw [← scores]
      exact LinkedZSet.score_eq_iff.mp (records.named member n named)
    refine ⟨fun member n held => ?_, fun member absent => ?_, count.mp records.count⟩
    · cases named : lastScore pairs member with
      | none => exact Or.inr rfl
      | some m =>
          have kept := last member m named
          rw [held, Option.some_or] at kept
          exact Or.inl kept.symm
    · cases named : lastScore pairs member with
      | none => exact (lastScore_eq_none_iff.mp named).symm
      | some m =>
          have first := last member m named
          rw [absent, Option.none_or] at first
          exact first.symm
  · intro recordable
    refine ⟨z', _, returned, ?_, ?_, count.mpr recordable.few⟩
    · intro member n named
      refine LinkedZSet.score_eq_iff.mpr ((scores member).trans ?_)
      cases held : z.scoreOf member with
      | none => rw [Option.none_or, ← recordable.given member held, named]
      | some m =>
          rcases recordable.held member m held with same | absent
          · rw [Option.some_or, ← same, named]
          · rw [absent] at named
            cases named
    · intro member unnamed
      have kept : z'.scoreOf member = z.scoreOf member := by
        rw [scores, lastScore_eq_none_iff.mp unnamed, Option.or_none]
      rw [LinkedZSet.score_eq, LinkedZSet.score_eq]
      exact congrArg (fun score : Option Int32 => Except.ok (score.elim [] toStringInt)) kept

/-- A new member, given the same score twice. -/
theorem zadd_records_iff_new :
    ∃ z' reply, ZSetCommand.onZSet (zadd (bytes "z")
        [(bytes "7", bytes "m"), (bytes "07", bytes "m")]) LinkedZSet.empty = .ok (z', reply) ∧
      Records LinkedZSet.empty z' [(bytes "7", bytes "m"), (bytes "07", bytes "m")] reply := by
  refine (zadd_records_iff ?_ (bytes "z") LinkedZSet.empty).mpr ⟨?_, ?_, by decide +kernel⟩
  · intro pair listed
    refine ⟨7, ?_⟩
    rcases List.mem_pair.mp listed with rfl | rfl
    · decide +kernel
    · decide +kernel
  · intro member n held
    cases held
  · intro member _
    have first : intOf (bytes "7") = intOf (bytes "07") := by decide +kernel
    simp only [lastScore, List.reverse_cons, List.reverse_nil, List.nil_append,
      List.singleton_append, firstScore_cons, first]

/-- A member that is given another score keeps its own. -/
theorem not_zadd_records :
    ∃ z z' reply, ZSetCommand.onZSet (zadd (bytes "z") [(bytes "1", bytes "m")]) LinkedZSet.empty =
        .ok (z, [bytes "1"]) ∧
      ZSetCommand.onZSet (zadd (bytes "z") [(bytes "2", bytes "m")]) z = .ok (z', reply) ∧
      z'.1.score (Str.ofData (bytes "m")) = .ok (bytes "1") ∧
      ¬ Records z z' [(bytes "2", bytes "m")] reply := by
  have first : ZSetCommand.onZSet (zadd (bytes "z") [(bytes "1", bytes "m")]) LinkedZSet.empty =
      .ok ((LinkedZSet.empty.add 1 (Str.ofData (bytes "m"))).1, [bytes "1"]) := by decide +kernel
  have second : ZSetCommand.onZSet (zadd (bytes "z") [(bytes "2", bytes "m")])
      (LinkedZSet.empty.add 1 (Str.ofData (bytes "m"))).1 =
      .ok ((LinkedZSet.empty.add 1 (Str.ofData (bytes "m"))).1, [bytes "0"]) := by decide +kernel
  have score : (LinkedZSet.empty.add 1 (Str.ofData (bytes "m"))).1.1.score
        (Str.ofData (bytes "m")) =
      .ok (bytes "1") := by decide +kernel
  refine ⟨_, _, _, first, second, score, fun records => ?_⟩
  have recorded := records.named (bytes "m") 2 (by decide +kernel)
  exact absurd (score.symm.trans recorded) (by decide +kernel)

end ForkRedis
