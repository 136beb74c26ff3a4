import ForkRedis.ZSet
import ForkRedis.Lib.Lists
import ForkRedis.Lib.Fallible

set_option autoImplicit false

/- The three containers of a `ZSet` are three listings of one list of entries. Every
mutation is an edit of that list, and the searches it makes cannot miss. -/
namespace ForkRedis

open Wire Decimal Lists Fallible

variable {z : ZSet} {member : Str}

/-- One member with its score and the addresses of its two nodes. -/
structure ZEntry where
  seqAddr : Nat
  memberAddr : Nat
  key : Str
  score : Int32
  deriving DecidableEq

namespace ZEntry

def seqNode (e : ZEntry) : SeqNode := ⟨e.seqAddr, e.memberAddr, e.score⟩

def memberNode (e : ZEntry) : MemberNode := ⟨e.memberAddr, e.key, e.seqAddr⟩

def rankNode (e : ZEntry) : RankNode := ⟨e.score, e.memberAddr⟩

/-- The edit that gives the entry `e` another score. -/
def rescored (e : ZEntry) (score : Int32) (x : ZEntry) : ZEntry :=
  if x = e then { e with score := score } else x

theorem absent_or_mem (es : List ZEntry) (member : Str) :
    (∀ e ∈ es, e.key.data ≠ member.data) ∨ ∃ e ∈ es, e.key.data = member.data := by
  by_cases there : ∃ e ∈ es, e.key.data = member.data
  · exact Or.inr there
  · exact Or.inl fun e inside same => there ⟨e, inside, same⟩

/-- Erasing an entry from a list of entries with different keys. -/
theorem pairs_erase {es : List ZEntry} (distinct : (es.map fun e => e.key.data).Nodup) {e : ZEntry}
    (he : e ∈ es) (same : e.key.data = member.data) :
    ((es.erase e).map fun e => (e.key, e.score)) =
      (es.map fun e => (e.key, e.score)).filter fun entry => entry.1.data != member.data := by
  rw [(List.Nodup.of_map _ distinct).erase_eq_filter, List.filter_map]
  congr 1
  apply List.filter_congr
  intro x listed
  have only : x = e ↔ x.key.data = member.data := by
    refine ⟨fun own => by rw [own, same], fun equal => ?_⟩
    exact List.inj_on_of_nodup_map distinct listed he (equal.trans same.symm)
  rw [Function.comp_apply, Bool.eq_iff_iff, bne_iff_ne, bne_iff_ne]
  exact not_congr only

theorem seqAddr_comp_rescored (e : ZEntry) (score : Int32) :
    seqAddr ∘ e.rescored score = seqAddr := by
  funext x
  simp only [Function.comp_apply, rescored]
  split <;> simp_all

theorem memberAddr_comp_rescored (e : ZEntry) (score : Int32) :
    memberAddr ∘ e.rescored score = memberAddr := by
  funext x
  simp only [Function.comp_apply, rescored]
  split <;> simp_all

theorem memberNode_comp_rescored (e : ZEntry) (score : Int32) :
    memberNode ∘ e.rescored score = memberNode := by
  funext x
  simp only [Function.comp_apply, rescored, memberNode]
  split <;> simp_all

end ZEntry

theorem insertMember_perm (node : MemberNode) (nodes : List MemberNode) :
    (insertMember node nodes).Perm (node :: nodes) := by
  induction nodes with
  | nil => rfl
  | cons first rest ih =>
      simp only [insertMember]
      split
      · rfl
      · exact (ih.cons first).trans (List.Perm.swap node first rest)

theorem insertMember_sorted {node : MemberNode} {nodes : List MemberNode}
    (sorted : nodes.Pairwise fun a b => a.key.data < b.key.data)
    (absent : ∀ other ∈ nodes, other.key.data ≠ node.key.data) :
    (insertMember node nodes).Pairwise fun a b => a.key.data < b.key.data := by
  induction nodes with
  | nil => exact List.pairwise_singleton _ _
  | cons first rest ih =>
      obtain ⟨least, ordered⟩ := List.pairwise_cons.mp sorted
      simp only [insertMember]
      split
      · rename_i before
        apply List.pairwise_cons.mpr ⟨?_, sorted⟩
        intro other member
        rcases List.mem_cons.mp member with rfl | later
        · exact before
        · exact Std.lt_trans before (least other later)
      · rename_i after
        apply List.pairwise_cons.mpr
        refine ⟨?_, ih ordered fun other member => absent other (List.mem_cons_of_mem first member)⟩
        intro other member
        rcases List.mem_cons.mp ((insertMember_perm node rest).mem_iff.mp member) with rfl | later
        · exact Std.lt_of_le_of_ne (Std.not_lt.mp after) (absent first List.mem_cons_self)
        · exact least other later

theorem insertRank_perm (node : RankNode) (nodes : List RankNode) :
    (insertRank node nodes).Perm (node :: nodes) := by
  induction nodes with
  | nil => rfl
  | cons first rest ih =>
      simp only [insertRank]
      split
      · rfl
      · exact (ih.cons first).trans (List.Perm.swap node first rest)

theorem insertRank_sorted {node : RankNode} {nodes : List RankNode}
    (sorted : nodes.Pairwise fun a b => a.score ≤ b.score) :
    (insertRank node nodes).Pairwise fun a b => a.score ≤ b.score := by
  induction nodes with
  | nil => exact List.pairwise_singleton _ _
  | cons first rest ih =>
      obtain ⟨least, ordered⟩ := List.pairwise_cons.mp sorted
      simp only [insertRank]
      split
      · rename_i before
        apply List.pairwise_cons.mpr ⟨?_, sorted⟩
        intro other member
        rcases List.mem_cons.mp member with rfl | later
        · exact Std.le_of_lt before
        · exact Std.le_of_lt (Std.lt_of_lt_of_le before (least other later))
      · rename_i after
        apply List.pairwise_cons.mpr ⟨?_, ih ordered⟩
        intro other member
        rcases List.mem_cons.mp ((insertRank_perm node rest).mem_iff.mp member) with rfl | later
        · exact Int32.not_lt.mp after
        · exact least other later

/-- The search reaches its entry when the entry is somewhere ahead of it. -/
theorem eraseRank_eq {pos : Nat} {nodes : List RankNode} (ahead : ∃ node ∈ nodes, node.pos = pos) :
    eraseRank pos nodes = .ok (nodes.eraseP fun node => node.pos == pos) := by
  induction nodes with
  | nil =>
      obtain ⟨node, member, _⟩ := ahead
      cases member
  | cons first rest ih =>
      by_cases hit : first.pos = pos
      · simp only [eraseRank, hit, ne_eq, not_true_eq_false, ↓reduceIte, beq_self_eq_true,
          List.eraseP_cons_of_pos]
      · have later : ∃ node ∈ rest, node.pos = pos := by
          obtain ⟨node, member, found⟩ := ahead
          rcases List.mem_cons.mp member with rfl | tail
          · exact absurd found hit
          · exact ⟨node, tail, found⟩
        simp only [eraseRank, ne_eq, hit, not_false_eq_true, ↓reduceIte, ih later,
          List.eraseP_cons, beq_eq_false_iff_ne.mpr hit]
        rfl

/-- Starting at the first entry that `below` rejects skips only entries that are not
the one searched for. -/
theorem eraseRankFrom_eq {below : RankNode → Bool} {pos : Nat} {nodes : List RankNode}
    {target : RankNode} (member : target ∈ nodes) (designates : target.pos = pos)
    (reached : below target = false) (only : ∀ node ∈ nodes, node.pos = pos → node = target) :
    eraseRankFrom below pos nodes = .ok (nodes.eraseP fun node => node.pos == pos) := by
  have skipped : ∀ node ∈ nodes.takeWhile below, ¬ ((node.pos == pos) = true) := by
    intro node early found
    have passed : below node = true := List.mem_takeWhile_imp early
    have same := only node ((List.takeWhile_sublist below).subset early) (by simpa using found)
    rw [same, reached] at passed
    cases passed
  have ahead : target ∈ nodes.dropWhile below := by
    rw [← List.takeWhile_append_dropWhile (p := below) (l := nodes)] at member
    rcases List.mem_append.mp member with early | later
    · exact absurd (by simpa using designates) (skipped target early)
    · exact later
  unfold eraseRankFrom
  rw [eraseRank_eq ⟨target, ahead, designates⟩]
  conv_rhs => rw [← List.takeWhile_append_dropWhile (p := below) (l := nodes),
    List.eraseP_append_right _ skipped]
  rfl

namespace ZSet

/-- `z` lists exactly the entries `es`: in sequence order, in key order, and in score
order, with every pointer leading to the entry's own node. -/
structure Rep (z : ZSet) (es : List ZEntry) : Prop where
  seq : z.sequenceList = es.map ZEntry.seqNode
  members : z.memberMap.Perm (es.map ZEntry.memberNode)
  ranks : z.rankMap.Perm (es.map ZEntry.rankNode)
  memberOrder : z.memberMap.Pairwise fun a b => a.key.data < b.key.data
  rankOrder : z.rankMap.Pairwise fun a b => a.score ≤ b.score
  seqDistinct : (es.map ZEntry.seqAddr).Nodup
  memberDistinct : (es.map ZEntry.memberAddr).Nodup
  fresh : ∀ e ∈ es, e.seqAddr < z.next ∧ e.memberAddr < z.next

theorem empty_rep : Rep empty [] where
  seq := rfl
  members := List.Perm.refl []
  ranks := List.Perm.refl []
  memberOrder := List.Pairwise.nil
  rankOrder := List.Pairwise.nil
  seqDistinct := List.nodup_nil
  memberDistinct := List.nodup_nil
  fresh := fun _ member => by cases member

namespace Rep

variable {z : ZSet} {es : List ZEntry} {e : ZEntry}

theorem nodup (rep : Rep z es) : es.Nodup := List.Nodup.of_map _ rep.seqDistinct

theorem keys_distinct (rep : Rep z es) : (es.map fun e => e.key.data).Nodup := by
  have distinct : (z.memberMap.map fun node => node.key.data).Nodup := by
    apply List.pairwise_map.mpr
    exact rep.memberOrder.imp Std.ne_of_lt
  have perm := rep.members.map fun node => node.key.data
  rw [List.map_map] at perm
  exact perm.nodup_iff.mp distinct

theorem eq_of_key (rep : Rep z es) {e' : ZEntry} (he : e ∈ es) (he' : e' ∈ es)
    (same : e.key.data = e'.key.data) : e = e' :=
  List.inj_on_of_nodup_map rep.keys_distinct he he' same

theorem mem_memberMap (rep : Rep z es) {node : MemberNode} (member : node ∈ z.memberMap) :
    ∃ e ∈ es, e.memberNode = node :=
  List.mem_map.mp (rep.members.mem_iff.mp member)

theorem find_of_mem (rep : Rep z es) (member : e ∈ es) {key : Str}
    (same : e.key.data = key.data) : z.find key = some e.memberNode := by
  apply find?_unique (rep.members.mem_iff.mpr (List.mem_map_of_mem member))
  · simpa only [ZEntry.memberNode, beq_iff_eq] using same
  · intro node inMap found
    obtain ⟨e', he', rfl⟩ := rep.mem_memberMap inMap
    rw [rep.eq_of_key he' member]
    rw [same]
    simpa only [ZEntry.memberNode, beq_iff_eq] using found

theorem find_eq_some (rep : Rep z es) {key : Str} {node : MemberNode}
    (found : z.find key = some node) :
    ∃ e ∈ es, node = e.memberNode ∧ e.key.data = key.data := by
  obtain ⟨e, member, rfl⟩ := rep.mem_memberMap (List.mem_of_find?_eq_some found)
  exact ⟨e, member, rfl, by simpa only [ZEntry.memberNode, beq_iff_eq] using List.find?_some found⟩

theorem find_eq_none_iff (rep : Rep z es) (key : Str) :
    z.find key = none ↔ ∀ e ∈ es, e.key.data ≠ key.data := by
  constructor
  · intro missing e member same
    rw [rep.find_of_mem member same] at missing
    cases missing
  · intro absent
    cases found : z.find key with
    | none => rfl
    | some node =>
        obtain ⟨e, member, _, same⟩ := rep.find_eq_some found
        exact absurd same (absent e member)

theorem seqAt_of_mem (rep : Rep z es) (member : e ∈ es) : z.seqAt e.seqAddr = .ok e.seqNode := by
  have found : z.sequenceList.find? (fun node => node.addr == e.seqAddr) = some e.seqNode := by
    rw [rep.seq]
    apply find?_unique (List.mem_map_of_mem member)
    · simp only [ZEntry.seqNode, beq_self_eq_true]
    · intro node inSeq found
      obtain ⟨e', he', rfl⟩ := List.mem_map.mp inSeq
      rw [List.inj_on_of_nodup_map rep.seqDistinct he' member]
      simpa only [ZEntry.seqNode, beq_iff_eq] using found
  rw [seqAt, found]

theorem memberAt_of_mem (rep : Rep z es) (member : e ∈ es) :
    z.memberAt e.memberAddr = .ok e.memberNode := by
  have found : z.memberMap.find? (fun node => node.addr == e.memberAddr) = some e.memberNode := by
    apply find?_unique (rep.members.mem_iff.mpr (List.mem_map_of_mem member))
    · simp only [ZEntry.memberNode, beq_self_eq_true]
    · intro node inMap found
      obtain ⟨e', he', rfl⟩ := rep.mem_memberMap inMap
      rw [List.inj_on_of_nodup_map rep.memberDistinct he' member]
      simpa only [ZEntry.memberNode, beq_iff_eq] using found
  rw [memberAt, found]

/-- Erasing an entry from each container by its addresses erases it from the list. -/
theorem eraseP_seq (rep : Rep z es) (member : e ∈ es) :
    z.sequenceList.eraseP (fun node => node.addr == e.seqAddr) =
      (es.erase e).map ZEntry.seqNode := by
  rw [rep.seq, List.eraseP_map]
  congr 1
  apply eraseP_unique
  intro e' he'
  simp only [Function.comp_apply, ZEntry.seqNode, beq_iff_eq]
  exact ⟨List.inj_on_of_nodup_map rep.seqDistinct he' member, fun same => by rw [same]⟩

theorem eraseP_members (rep : Rep z es) (member : e ∈ es) :
    (z.memberMap.eraseP fun node => node.addr == e.memberAddr).Perm
      ((es.erase e).map ZEntry.memberNode) :=
  eraseP_perm_map MemberNode.addr rep.members rep.memberDistinct member

theorem eraseP_ranks (rep : Rep z es) (member : e ∈ es) :
    (z.rankMap.eraseP fun node => node.pos == e.memberAddr).Perm
      ((es.erase e).map ZEntry.rankNode) :=
  eraseP_perm_map RankNode.pos rep.ranks rep.memberDistinct member

/-- Each search of `rank_map_` finds the entry's own node. -/
theorem eraseRankFrom_of_mem (rep : Rep z es) (member : e ∈ es) (below : RankNode → Bool)
    (reached : below e.rankNode = false) :
    eraseRankFrom below e.memberAddr z.rankMap =
      .ok (z.rankMap.eraseP fun node => node.pos == e.memberAddr) := by
  have only : ∀ node ∈ z.rankMap, node.pos = e.memberAddr → node = e.rankNode := by
    intro node inMap found
    obtain ⟨e', he', rfl⟩ := List.mem_map.mp (rep.ranks.mem_iff.mp inMap)
    rw [List.inj_on_of_nodup_map rep.memberDistinct he' member found]
  have inMap : e.rankNode ∈ z.rankMap := rep.ranks.mem_iff.mpr (List.mem_map_of_mem member)
  exact eraseRankFrom_eq inMap rfl reached only

/-- A new member becomes the last entry. -/
theorem add_new (rep : Rep z es) (score : Int32) (absent : ∀ e ∈ es, e.key.data ≠ member.data) :
    ∃ z', z.add score member = (z', true) ∧
      Rep z' (es ++ [⟨z.next + 1, z.next, member, score⟩]) := by
  rw [add, (rep.find_eq_none_iff member).mpr absent]
  refine ⟨_, rfl, ?_⟩
  constructor
  · simp only [rep.seq, List.map_append, List.map_cons, List.map_nil, ZEntry.seqNode]
  · apply (insertMember_perm _ _).trans
    rw [List.map_append]
    exact (rep.members.cons _).trans (List.perm_append_singleton _ _).symm
  · apply (insertRank_perm _ _).trans
    rw [List.map_append]
    exact (rep.ranks.cons _).trans (List.perm_append_singleton _ _).symm
  · apply insertMember_sorted rep.memberOrder
    intro node inMap
    obtain ⟨e, he, rfl⟩ := rep.mem_memberMap inMap
    exact absent e he
  · exact insertRank_sorted rep.rankOrder
  · rw [List.map_append]
    apply List.nodup_append.mpr ⟨rep.seqDistinct, List.nodup_singleton _, ?_⟩
    intro a inOld b inNew same
    obtain ⟨e, he, rfl⟩ := List.mem_map.mp inOld
    have old := (rep.fresh e he).1
    have new : b = z.next + 1 := List.mem_singleton.mp inNew
    omega
  · rw [List.map_append]
    apply List.nodup_append.mpr ⟨rep.memberDistinct, List.nodup_singleton _, ?_⟩
    intro a inOld b inNew same
    obtain ⟨e, he, rfl⟩ := List.mem_map.mp inOld
    have old := (rep.fresh e he).2
    have new : b = z.next := List.mem_singleton.mp inNew
    omega
  · intro e he
    rcases List.mem_append.mp he with old | new
    · have := rep.fresh e old
      exact ⟨by simp only; omega, by simp only; omega⟩
    · rw [List.mem_singleton.mp new]
      exact ⟨by simp only; omega, by simp only; omega⟩

/-- A member that is there makes `Add` a no-op. -/
theorem add_old (rep : Rep z es) (score : Int32) (he : e ∈ es) (same : e.key.data = member.data) :
    z.add score member = (z, false) := by
  rw [add, rep.find_of_mem he same]

/-- `Rem` with the member's score erases one node from each container. The least `int` is the
one score whose search would start behind everything. -/
theorem rem_eq (rep : Rep z es) (he : e ∈ es) (same : e.key.data = member.data)
    (above : e.score ≠ Int32.minValue) :
    z.rem e.score member = .ok ({ z with
      sequenceList := z.sequenceList.eraseP fun node => node.addr == e.seqAddr
      memberMap := z.memberMap.eraseP fun node => node.addr == e.memberAddr
      rankMap := z.rankMap.eraseP fun node => node.pos == e.memberAddr }, true) := by
  have reached : ¬ e.score ≤ e.score - 1 := by grind
  have found := rep.eraseRankFrom_of_mem he (fun rank => rank.score ≤ e.score - 1)
    (decide_eq_false reached)
  rw [rem, rep.find_of_mem he same]
  simp only [ZEntry.memberNode, rep.seqAt_of_mem he, ZEntry.seqNode, ok_bind, ne_eq,
    not_true_eq_false, ↓reduceIte, found, pure_eq_ok]

theorem rem_mem (rep : Rep z es) (he : e ∈ es) (same : e.key.data = member.data)
    (above : e.score ≠ Int32.minValue) :
    ∃ z', z.rem e.score member = .ok (z', true) ∧ Rep z' (es.erase e) := by
  have kept : (es.erase e).Sublist es := List.erase_sublist
  refine ⟨_, rep.rem_eq he same above, ?_⟩
  constructor
  · exact rep.eraseP_seq he
  · exact rep.eraseP_members he
  · exact rep.eraseP_ranks he
  · exact rep.memberOrder.sublist List.eraseP_sublist
  · exact rep.rankOrder.sublist List.eraseP_sublist
  · exact rep.seqDistinct.sublist (kept.map _)
  · exact rep.memberDistinct.sublist (kept.map _)
  · exact fun e' he' => rep.fresh e' (kept.subset he')

/-- At the least `int` the bound `score - 1` wraps around and the search starts at the
end of `rank_map_`. -/
theorem rem_least (rep : Rep z es) (he : e ∈ es) (same : e.key.data = member.data)
    (least : e.score = Int32.minValue) : z.rem e.score member = .error .undefined := by
  have passed : z.rankMap.dropWhile (fun rank => decide (rank.score ≤ e.score - 1)) = [] := by
    rw [List.dropWhile_eq_nil_iff]
    intro rank _
    rw [decide_eq_true_eq, least]
    exact Int32.le_maxValue rank.score
  rw [rem, rep.find_of_mem he same]
  simp only [ZEntry.memberNode, rep.seqAt_of_mem he, ZEntry.seqNode, ok_bind, ne_eq,
    not_true_eq_false, ↓reduceIte, eraseRankFrom, passed, eraseRank, error_bind]

/-- `Rem` of an absent member, or with another score, changes nothing. -/
theorem rem_miss (rep : Rep z es) (score : Int32)
    (miss : ∀ e ∈ es, e.key.data = member.data → e.score ≠ score) :
    z.rem score member = .ok (z, false) := by
  rw [rem]
  cases found : z.find member with
  | none => rfl
  | some node =>
      obtain ⟨e, he, rfl, same⟩ := rep.find_eq_some found
      simp only [ZEntry.memberNode, rep.seqAt_of_mem he, ZEntry.seqNode, ok_bind, miss e he same,
        ne_eq, not_false_eq_true, ↓reduceIte, pure_eq_ok]

/-- `IncrBy` rescores the entry where it stands in the sequence. -/
theorem incrBy_mem (rep : Rep z es) (he : e ∈ es) (delta : Int32) {member : Str}
    (same : e.key.data = member.data) :
    ∃ z', z.incrBy delta member = .ok (z', toStringInt (e.score + delta)) ∧
      Rep z' (es.map (e.rescored (e.score + delta))) := by
  have reached : ¬ e.score < e.score := Std.lt_irrefl
  have found := rep.eraseRankFrom_of_mem he (fun rank => rank.score < e.score)
    (decide_eq_false reached)
  rw [incrBy, rep.find_of_mem he same]
  simp only [ZEntry.memberNode, rep.seqAt_of_mem he, ZEntry.seqNode, ok_bind, found, pure_eq_ok]
  refine ⟨_, rfl, ?_⟩
  constructor
  · rw [rep.seq, List.map_map, List.map_map]
    apply List.map_congr_left
    intro x hx
    simp only [Function.comp_apply]
    by_cases hit : x = e
    · simp only [hit, ↓reduceIte, ZEntry.seqNode, ZEntry.rescored]
    · have differs : x.seqAddr ≠ e.seqAddr := fun equal =>
        hit (List.inj_on_of_nodup_map rep.seqDistinct hx he equal)
      simp only [hit, ↓reduceIte, ZEntry.seqNode, differs, ZEntry.rescored]
  · rw [List.map_map, ZEntry.memberNode_comp_rescored]
    exact rep.members
  · apply (insertRank_perm _ _).trans
    have moved := map_update_perm rep.nodup (b := { e with score := e.score + delta }) he
    exact ((rep.eraseP_ranks he).cons _).trans (moved.map ZEntry.rankNode).symm
  · exact rep.memberOrder
  · exact insertRank_sorted (rep.rankOrder.sublist List.eraseP_sublist)
  · rw [List.map_map, ZEntry.seqAddr_comp_rescored]
    exact rep.seqDistinct
  · rw [List.map_map, ZEntry.memberAddr_comp_rescored]
    exact rep.memberDistinct
  · intro x hx
    obtain ⟨y, hy, rfl⟩ := List.mem_map.mp hx
    have seqAddr := congrFun (ZEntry.seqAddr_comp_rescored e (e.score + delta)) y
    have memberAddr := congrFun (ZEntry.memberAddr_comp_rescored e (e.score + delta)) y
    simp only [Function.comp_apply] at seqAddr memberAddr
    rw [seqAddr, memberAddr]
    exact rep.fresh y hy

theorem incrBy_miss (rep : Rep z es) (delta : Int32) (absent : ∀ e ∈ es, e.key.data ≠ member.data) :
    z.incrBy delta member = .ok (z, []) := by
  rw [incrBy, (rep.find_eq_none_iff member).mpr absent]

/-- Reading the sequence through its member pointers lists the entries. -/
theorem entries_eq (rep : Rep z es) : z.entries = .ok (es.map fun e => (e.key, e.score)) := by
  rw [entries, rep.seq, mapM_eq_ok, List.forall₂_map_left_iff, List.forall₂_map_right_iff,
    List.forall₂_same]
  intro e he
  simp only [ZEntry.seqNode, rep.memberAt_of_mem he, ok_bind, ZEntry.memberNode, pure_eq_ok]

end Rep

/-- The containers list one set of entries: the invariant every operation keeps. -/
def Linked (z : ZSet) : Prop := ∃ es, Rep z es

theorem empty_linked : Linked empty := ⟨[], empty_rep⟩

theorem add_linked (linked : z.Linked) (score : Int32) (member : Str) :
    (z.add score member).1.Linked := by
  obtain ⟨es, rep⟩ := linked
  rcases ZEntry.absent_or_mem es member with absent | ⟨e, he, same⟩
  · obtain ⟨z', added, rep'⟩ := rep.add_new score absent
    rw [added]
    exact ⟨_, rep'⟩
  · rw [rep.add_old score he same]
    exact ⟨es, rep⟩

/-- With a score above the least `int`, `Rem` always returns. -/
theorem rem_linked (linked : z.Linked) {score : Int32} (above : score ≠ Int32.minValue)
    (member : Str) : ∃ z' removed, z.rem score member = .ok (z', removed) ∧ z'.Linked := by
  obtain ⟨es, rep⟩ := linked
  by_cases miss : ∀ e ∈ es, e.key.data = member.data → e.score ≠ score
  · exact ⟨z, false, rep.rem_miss score miss, es, rep⟩
  · obtain ⟨e, he, same, rfl⟩ : ∃ e ∈ es, e.key.data = member.data ∧ e.score = score := by
      simpa only [not_forall, exists_prop, not_not] using miss
    obtain ⟨z', removed, rep'⟩ := rep.rem_mem he same above
    exact ⟨z', true, removed, _, rep'⟩

/-- Whatever `Rem` is called with, the indexes are linked if it returns. -/
theorem rem_keeps (linked : z.Linked) {score : Int32} {result : ZSet × Bool}
    (returned : z.rem score member = .ok result) : result.1.Linked := by
  obtain ⟨es, rep⟩ := linked
  by_cases miss : ∀ e ∈ es, e.key.data = member.data → e.score ≠ score
  · rw [rep.rem_miss score miss] at returned
    cases returned
    exact ⟨es, rep⟩
  · obtain ⟨e, he, same, rfl⟩ : ∃ e ∈ es, e.key.data = member.data ∧ e.score = score := by
      simpa only [not_forall, exists_prop, not_not] using miss
    by_cases above : e.score = Int32.minValue
    · rw [rep.rem_least he same above] at returned
      cases returned
    · obtain ⟨z', removed, rep'⟩ := rep.rem_mem he same above
      rw [removed] at returned
      cases returned
      exact ⟨_, rep'⟩

theorem incrBy_linked (linked : z.Linked) (delta : Int32) (member : Str) :
    ∃ z' text, z.incrBy delta member = .ok (z', text) ∧ z'.Linked := by
  obtain ⟨es, rep⟩ := linked
  rcases ZEntry.absent_or_mem es member with absent | ⟨e, he, same⟩
  · exact ⟨z, [], rep.incrBy_miss delta absent, es, rep⟩
  · obtain ⟨z', incremented, rep'⟩ := rep.incrBy_mem he delta same
    exact ⟨z', _, incremented, _, rep'⟩

theorem incrBy_keeps (linked : z.Linked) {delta : Int32} {result : ZSet × Bytes}
    (returned : z.incrBy delta member = .ok result) : result.1.Linked := by
  obtain ⟨z', text, incremented, linked'⟩ := incrBy_linked linked delta member
  rw [incremented] at returned
  cases returned
  exact linked'

/-- A fresh object that `DecodeValue` filled, whatever the bytes were. -/
theorem decodeValue_linked {lz : Lzfse} {source rest : Bytes}
    (decoded : (decodeValue lz empty).run source = .ok (z, rest)) : z.Linked := by
  rw [decodeValue, StateT.run_bind] at decoded
  cases sized : peekSize.run source with
  | error fault =>
      rw [sized] at decoded
      cases decoded
  | ok read =>
      rw [sized] at decoded
      refine loop_preserves Linked ?_ _ empty_linked decoded
      intro acc input next remaining linked returned
      simp only [StateT.run_bind, bind_eq_ok] at returned
      obtain ⟨score, _, member, _, added⟩ := returned
      cases added
      exact add_linked linked _ _

end ZSet

end ForkRedis
