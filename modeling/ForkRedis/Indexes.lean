import ForkRedis.Objects

set_option autoImplicit false

/- Where `legalRange` puts an index. It is written out four times in the source, and a
negative multiple of the size is put behind the last element each time. -/
namespace ForkRedis

open Fallible

variable {size : Nat} {r : Int32} {l : List Str}

/-- An index that `LegalRange` does not bring into a container of some size. -/
def Misplaced (size : Nat) (index : Int32) : Prop :=
  ¬ (0 ≤ toInt (legalRange (UInt64.ofNat size) index) ∧
    (toInt (legalRange (UInt64.ofNat size) index)).toInt.toNat < size)

theorem toNat_toInt64 (r : Int32) : (r.toInt64.toUInt64.toNat : Int) = r.toInt % 2 ^ 64 := by
  have same : r.toInt64.toUInt64.toNat = r.toInt64.toBitVec.toNat := rfl
  rw [same, ← Int32.toInt_toInt64 r, Int64.toInt, BitVec.toInt_eq_toNat_bmod]
  have bound := r.toInt64.toBitVec.isLt
  simp only [Int.bmod]
  omega

theorem toInt_neg_of_ne (above : r ≠ Int32.minValue) : (-r).toInt = -r.toInt := by
  have low := Int32.le_toInt r
  have high := Int32.toInt_lt r
  have differs : r.toInt ≠ -2 ^ 31 := fun least => above (Int32.toInt.inj least)
  rw [Int32.toInt_neg, Int.bmod]
  omega

theorem toInt64_of_small {p : UInt64} (small : p.toNat < 2 ^ 31) :
    p.toUInt32.toInt32.toInt = p.toNat := by
  have same : p.toUInt32.toInt32.toInt = p.toUInt32.toBitVec.toInt := rfl
  rw [same, BitVec.toInt_eq_toNat_bmod]
  have value : p.toUInt32.toBitVec.toNat = p.toNat := by
    change p.toUInt32.toNat = p.toNat
    rw [UInt64.toNat_toUInt32]
    omega
  rw [value, Int.bmod]
  omega

/-- Below 2^31 elements, a negative index that is a multiple of the size is brought to the
size itself, one past the last element; every other index is brought inside. -/
theorem legalRange_toNat (filled : 0 < size) (small : size < 2 ^ 31) (above : r ≠ Int32.minValue) :
    (legalRange (UInt64.ofNat size) r).toNat =
      if 0 ≤ r then r.toInt.toNat % size else size - (-r.toInt).toNat % size := by
  have sized : (UInt64.ofNat size).toNat = size := by
    rw [UInt64.toNat_ofNat']
    omega
  have low := Int32.le_toInt r
  have high := Int32.toInt_lt r
  have index := toNat_toInt64 r
  rw [legalRange]
  by_cases nonneg : 0 ≤ r
  · have positive : 0 ≤ r.toInt := Int32.le_iff_toInt_le.mp nonneg
    have same : r.toInt64.toUInt64.toNat = r.toInt.toNat := by omega
    rw [if_pos nonneg, if_pos nonneg, UInt64.toNat_mod, sized, same]
  · have negative : r.toInt < 0 := Int32.lt_iff_toInt_lt.mp (Int32.not_le.mp nonneg)
    have opposite := toNat_toInt64 (-r)
    rw [toInt_neg_of_ne above] at opposite
    -- the number of steps from the front, and the multiple of the size behind it
    obtain ⟨m, steps⟩ : ∃ m : Nat, r.toInt = -m := ⟨(-r.toInt).toNat, by omega⟩
    have magnitude : (-r).toInt64.toUInt64.toNat = m := by omega
    have wrapped : r.toInt64.toUInt64.toNat = 2 ^ 64 - m := by omega
    have division := Nat.div_add_mod m size
    have remainder := Nat.mod_lt m filled
    have product : (m / size + 1) * size = m - m % size + size := by
      rw [Nat.add_mul, Nat.one_mul, Nat.mul_comm]
      omega
    have few : m / size ≤ m := Nat.div_le_self m size
    have shifted : (r.toInt64.toUInt64 +
        ((-r).toInt64.toUInt64 / UInt64.ofNat size + 1) * UInt64.ofNat size).toNat =
          size - m % size := by
      have one : (1 : UInt64).toNat = 1 := rfl
      rw [UInt64.toNat_add, UInt64.toNat_mul, UInt64.toNat_add, UInt64.toNat_div, sized, magnitude,
        wrapped, one, Nat.mod_eq_of_lt (by omega : m / size + 1 < 2 ^ 64), product]
      omega
    have back : (-r.toInt).toNat = m := by omega
    rw [if_neg nonneg, if_neg nonneg, back]
    generalize r.toInt64.toUInt64 +
      ((-r).toInt64.toUInt64 / UInt64.ofNat size + 1) * UInt64.ofNat size = p at shifted
    have value := toInt64_of_small (p := p) (by omega)
    have result := toNat_toInt64 p.toUInt32.toInt32
    rw [value] at result
    simp only
    omega

/-- The position is the index modulo the size. -/
theorem legalRange_congruent (filled : 0 < size) (small : size < 2 ^ 31)
    (above : r ≠ Int32.minValue) :
    ((legalRange (UInt64.ofNat size) r).toNat : Int) % size = r.toInt % size := by
  rw [legalRange_toNat filled small above]
  by_cases nonneg : 0 ≤ r
  · have positive : 0 ≤ r.toInt := Int32.le_iff_toInt_le.mp nonneg
    have same : (r.toInt.toNat : Int) = r.toInt := Int.toNat_of_nonneg positive
    rw [if_pos nonneg, Int.natCast_mod, same, Int.emod_emod]
  · have negative : r.toInt < 0 := Int32.lt_iff_toInt_lt.mp (Int32.not_le.mp nonneg)
    obtain ⟨m, steps⟩ : ∃ m : Nat, r.toInt = -m := ⟨(-r.toInt).toNat, by omega⟩
    have back : (-r.toInt).toNat = m := by omega
    have division := Nat.div_add_mod m size
    have remainder := Nat.mod_lt m filled
    have apart : ((size - m % size : Nat) : Int) = -m + size * (m / size + 1 : Nat) := by
      rw [← Int.natCast_mul, Nat.mul_succ]
      omega
    rw [if_neg nonneg, back, apart, Int.add_mul_emod_self_left, steps]

/-- An index is put behind the last element if and only if it is a negative multiple of the
size. -/
theorem legalRange_lt_iff (filled : 0 < size) (small : size < 2 ^ 31) (above : r ≠ Int32.minValue) :
    (legalRange (UInt64.ofNat size) r).toNat < size ↔ ¬ (r < 0 ∧ (size : Int) ∣ r.toInt) := by
  rw [legalRange_toNat filled small above]
  by_cases nonneg : 0 ≤ r
  · have inside := Nat.mod_lt r.toInt.toNat filled
    rw [if_pos nonneg]
    exact iff_of_true inside fun negative => Int32.not_le.mpr negative.1 nonneg
  · have negative : r.toInt < 0 := Int32.lt_iff_toInt_lt.mp (Int32.not_le.mp nonneg)
    obtain ⟨m, steps⟩ : ∃ m : Nat, r.toInt = -m := ⟨(-r.toInt).toNat, by omega⟩
    have back : (-r.toInt).toNat = m := by omega
    have remainder := Nat.mod_lt m filled
    rw [if_neg nonneg, and_iff_right (Int32.not_le.mp nonneg), back, steps, Int.dvd_neg,
      Int.natCast_dvd_natCast, Nat.dvd_iff_mod_eq_zero]
    omega

/-- Going through `int` does not change the position. -/
theorem toInt_legalRange (filled : 0 < size) (small : size < 2 ^ 31) (above : r ≠ Int32.minValue) :
    (toInt (legalRange (UInt64.ofNat size) r)).toInt = (legalRange (UInt64.ofNat size) r).toNat := by
  have bound : (legalRange (UInt64.ofNat size) r).toNat ≤ size := by
    rw [legalRange_toNat filled small above]
    split
    · exact (Nat.mod_lt _ filled).le
    · omega
  exact toInt64_of_small (by omega)

theorem toInt_legalRange_nonneg (filled : 0 < size) (small : size < 2 ^ 31)
    (above : r ≠ Int32.minValue) : 0 ≤ toInt (legalRange (UInt64.ofNat size) r) := by
  rw [Int32.le_iff_toInt_le, toInt_legalRange filled small above]
  exact Int.natCast_nonneg _

/-- So the indexes that are not brought inside are the negative multiples of the size. -/
theorem misplaced_iff (filled : 0 < size) (small : size < 2 ^ 31) (above : r ≠ Int32.minValue) :
    Misplaced size r ↔ r < 0 ∧ (size : Int) ∣ r.toInt := by
  rw [Misplaced, toInt_legalRange filled small above, Int.toNat_natCast,
    and_iff_right (toInt_legalRange_nonneg filled small above),
    legalRange_lt_iff filled small above, not_not]

namespace StrList

theorem node_raises {idx : Int32} :
    Raises (node l idx) ↔ ¬ (0 ≤ idx ∧ idx.toInt.toNat < l.length) := by
  rw [node]
  split
  · rename_i inside
    exact iff_of_false (not_raises_ok _) (not_not_intro inside)
  · rename_i outside
    exact iff_of_true (raises_error _) outside

theorem index_raises {idx : Int32} : Raises (index l idx) ↔ l ≠ [] ∧ Misplaced l.length idx := by
  rw [index]
  by_cases empty : l = []
  · simp only [empty, ↓reduceIte, not_raises_ok, ne_eq, not_true_eq_false, false_and]
  · simp only [empty, ↓reduceIte, pure_eq_ok, raises_bind_ok, node_raises, ne_eq,
      not_false_eq_true, true_and, Misplaced]

theorem set_raises {idx : Int32} {value : Str} :
    Raises (set l idx value) ↔ l ≠ [] ∧ Misplaced l.length idx := by
  rw [set]
  by_cases empty : l = []
  · simp only [empty, ↓reduceIte, not_raises_ok, ne_eq, not_true_eq_false, false_and]
  · simp only [empty, ↓reduceIte, pure_eq_ok, raises_bind_ok, node_raises, ne_eq,
      not_false_eq_true, true_and, Misplaced]

theorem trim_raises {begin end_ : Int32} :
    Raises (trim l begin end_) ↔ l ≠ [] ∧
      ¬ toInt (legalRange (UInt64.ofNat l.length) end_) <
        toInt (legalRange (UInt64.ofNat l.length) begin) ∧
      ¬ (0 ≤ toInt (legalRange (UInt64.ofNat l.length) begin) ∧
        (toInt (legalRange (UInt64.ofNat l.length) end_)).toInt.toNat < l.length) := by
  rw [trim]
  by_cases empty : l = []
  · simp only [empty, ↓reduceIte, not_raises_ok, ne_eq, not_true_eq_false, false_and]
  · simp only [empty, ↓reduceIte, ne_eq, not_false_eq_true, true_and]
    split
    · rename_i crossed
      simp only [not_raises_ok, crossed, not_true_eq_false, false_and]
    · rename_i ordered
      split
      · rename_i inside
        simp only [not_raises_ok, inside, and_self, not_true_eq_false, and_false]
      · rename_i outside
        exact iff_of_true (raises_error _) ⟨ordered, outside⟩

/-- `Trim` stays inside the list when its second index is brought inside. -/
theorem trim_returns (filled : 0 < l.length) (small : l.length < 2 ^ 31) {begin end_ : Int32}
    (above : begin ≠ Int32.minValue) (placed : ¬ Misplaced l.length end_) :
    ¬ Raises (trim l begin end_) := by
  rw [trim_raises]
  rintro ⟨-, -, outside⟩
  have inside := (not_not.mp placed).2
  exact outside ⟨toInt_legalRange_nonneg filled small above, inside⟩

end StrList

/-- An index is brought to a position of a container of some size that is congruent to it. -/
def Lands (size : Nat) (r : Int32) : Prop :=
  (legalRange (UInt64.ofNat size) r).toNat < size ∧
    ((legalRange (UInt64.ofNat size) r).toNat : Int) % size = r.toInt % size

instance (size : Nat) (r : Int32) : Decidable (Lands size r) :=
  inferInstanceAs (Decidable (_ ∧ _))

/-- An index lands inside the container, and the methods of a list that use it stay inside,
if and only if it is not a negative multiple of the size. -/
theorem lands_iff {size : Nat} (filled : 1 ≤ size) (sized : size ≤ 2147483647) {r : Int32}
    (above : r ≠ Int32.minValue) :
    (Lands size r ∧ ∀ l : List Str, l.length = size →
      ¬ Raises (StrList.index l r) ∧ (∀ value, ¬ Raises (StrList.set l r value)) ∧
      ∀ begin, begin ≠ Int32.minValue → ¬ Raises (StrList.trim l begin r)) ↔
    ¬ (r < 0 ∧ (size : Int) ∣ r.toInt) := by
  have small : size < 2 ^ 31 := by omega
  have inside := legalRange_lt_iff filled small above
  constructor
  · exact fun stays => inside.mp stays.1.1
  · intro other
    refine ⟨⟨inside.mpr other, legalRange_congruent filled small above⟩, ?_⟩
    rintro l rfl
    have placed : ¬ Misplaced l.length r := mt (misplaced_iff filled small above).mp other
    refine ⟨?_, ?_, ?_⟩
    · rw [StrList.index_raises]
      exact fun raised => placed raised.2
    · intro value
      rw [StrList.set_raises]
      exact fun raised => placed raised.2
    · exact fun begin bounded => StrList.trim_returns filled small bounded placed

/-- The fourth element from the end of three is the last. -/
theorem lands_iff_wrapped :
    Lands 3 (-4) ∧ ¬ Raises (StrList.index [Str.empty, Str.empty, Str.empty] (-4)) := by
  obtain ⟨landed, stays⟩ :=
    (@lands_iff 3 (by decide) (by decide) (-4) (by decide)).mpr (by decide)
  exact ⟨landed, (stays _ rfl).1⟩

/-- The last element of a list of one, asked for from the end, is read, overwritten and
erased behind the end. -/
theorem not_lands_last :
    ¬ Lands 1 (-1) ∧ StrList.index [Str.empty] (-1) = .error .undefined ∧
      StrList.set [Str.empty] (-1) Str.empty = .error .undefined ∧
      StrList.trim [Str.empty] 0 (-1) = .error .undefined := by
  decide +kernel

end ForkRedis
