import Mathlib.Data.List.Basic
import Mathlib.Data.List.Induction
import Mathlib.Tactic.IntervalCases

set_option autoImplicit false

/- Decimal numerals over bytes: rendering, evaluation, and the facts that relate
the two. -/
namespace Decimal

/-- The bytes `'0'` to `'9'`. -/
def isDigit (c : UInt8) : Bool := 48 ≤ c && c ≤ 57

/-- The number a digit string denotes; leading zeros are allowed. -/
def value (digits : List UInt8) : Nat :=
  digits.foldl (fun acc c => acc * 10 + (c.toNat - 48)) 0

/-- The shortest digit string of a number. -/
def numeral (n : Nat) : List UInt8 :=
  (Nat.toDigits 10 n).map fun c => UInt8.ofNat c.toNat

/-- The rendering of a signed number: a minus sign in front of negative ones. -/
def render (i : Int) : List UInt8 :=
  if i < 0 then 45 :: numeral i.natAbs else numeral i.natAbs

theorem value_append_digit (digits : List UInt8) (c : UInt8) :
    value (digits ++ [c]) = value digits * 10 + (c.toNat - 48) := by
  simp only [value, List.foldl_append, List.foldl_cons, List.foldl_nil]

/-- Further digits never make a number smaller. -/
theorem value_le_append (digits more : List UInt8) : value digits ≤ value (digits ++ more) := by
  induction more using List.reverseRecOn with
  | nil => rw [List.append_nil]
  | append_singleton more c ih =>
      rw [← List.append_assoc, value_append_digit]
      omega

theorem digitChar_toNat {d : Nat} (small : d < 10) : (Nat.digitChar d).toNat = 48 + d := by
  interval_cases d <;> rfl

theorem numeral_of_lt {n : Nat} (small : n < 10) : numeral n = [UInt8.ofNat (48 + n)] := by
  simp only [numeral, Nat.toDigits_of_lt_base small, List.map_cons, List.map_nil,
    digitChar_toNat small]

theorem numeral_of_le {n : Nat} (large : 10 ≤ n) :
    numeral n = numeral (n / 10) ++ [UInt8.ofNat (48 + n % 10)] := by
  have digit : n % 10 < 10 := Nat.mod_lt n (by decide)
  simp only [numeral, Nat.toDigits_of_base_le (by decide : 1 < 10) large, List.map_append,
    List.map_cons, List.map_nil, digitChar_toNat digit]

theorem digit_toNat {d : Nat} (small : d < 10) : (UInt8.ofNat (48 + d)).toNat = 48 + d := by
  rw [UInt8.toNat_ofNat']
  exact Nat.mod_eq_of_lt (by omega)

theorem isDigit_iff (c : UInt8) : isDigit c = true ↔ 48 ≤ c.toNat ∧ c.toNat ≤ 57 := by
  simp only [isDigit, Bool.and_eq_true, decide_eq_true_eq, UInt8.le_iff_toNat_le]
  exact Iff.rfl

theorem isDigit_digit {d : Nat} (small : d < 10) : isDigit (UInt8.ofNat (48 + d)) = true := by
  rw [isDigit_iff, digit_toNat small]
  omega

theorem value_numeral (n : Nat) : value (numeral n) = n := by
  induction n using Nat.strongRecOn with
  | ind n ih =>
      by_cases small : n < 10
      · rw [numeral_of_lt small]
        simp only [value, List.foldl_cons, List.foldl_nil, digit_toNat small]
        omega
      · have digit : n % 10 < 10 := Nat.mod_lt n (by decide)
        rw [numeral_of_le (by omega), value_append_digit, ih (n / 10) (by omega),
          digit_toNat digit]
        omega

theorem numeral_ne_nil (n : Nat) : numeral n ≠ [] := by
  by_cases small : n < 10
  · rw [numeral_of_lt small]
    exact List.cons_ne_nil _ _
  · rw [numeral_of_le (by omega)]
    exact List.append_ne_nil_of_right_ne_nil _ (List.cons_ne_nil _ _)

theorem numeral_digits (n : Nat) : (numeral n).all isDigit = true := by
  induction n using Nat.strongRecOn with
  | ind n ih =>
      by_cases small : n < 10
      · rw [numeral_of_lt small]
        simp only [List.all_cons, isDigit_digit small, List.all_nil, Bool.and_self]
      · have digit : n % 10 < 10 := Nat.mod_lt n (by decide)
        rw [numeral_of_le (by omega), List.all_append, ih (n / 10) (by omega)]
        simp only [List.all_cons, isDigit_digit digit, List.all_nil, Bool.and_self]

theorem render_of_nonneg {i : Int} (nonneg : 0 ≤ i) : render i = numeral i.natAbs := by
  rw [render, if_neg (by omega)]

theorem render_of_neg {i : Int} (neg : i < 0) : render i = 45 :: numeral i.natAbs := by
  rw [render, if_pos neg]

theorem render_ne_nil (i : Int) : render i ≠ [] := by
  unfold render
  split
  · exact List.cons_ne_nil _ _
  · exact numeral_ne_nil _

/-- No digit string starts with a minus sign. -/
theorem numeral_ne_minus (n : Nat) (rest : List UInt8) : numeral n ≠ 45 :: rest := by
  intro equal
  have digits := numeral_digits n
  rw [equal, List.all_cons, Bool.and_eq_true] at digits
  exact absurd digits.1 (by decide)

theorem numeral_inj {m n : Nat} (same : numeral m = numeral n) : m = n := by
  rw [← value_numeral m, same, value_numeral]

theorem render_eq_numeral_iff {i : Int} {n : Nat} : render i = numeral n ↔ i = n := by
  by_cases neg : i < 0
  · rw [render_of_neg neg]
    exact iff_of_false (fun same => numeral_ne_minus n _ same.symm) (by omega)
  · rw [render_of_nonneg (by omega)]
    constructor
    · intro same
      have equal := numeral_inj same
      omega
    · intro same
      rw [same, Int.natAbs_natCast]

end Decimal
