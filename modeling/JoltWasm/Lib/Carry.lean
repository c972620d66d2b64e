import JoltWasm.Lib.Extension

/-!
# Sums over shifted indices

An index is added to a start, bit by bit from the low end.  The terms of a sum over all indices are kept
apart by the carry that the low bits leave; two sums are enough to go on by one bit.
-/

namespace JoltWasm.Lib

open Finset

variable {F : Type*} [CommRing F]

/-- The carry of the low `n` bits. -/
def carryAt (n start j : ℕ) : ℕ := (start % 2 ^ n + j) / 2 ^ n

/-- The indices whose low bits leave a carry, with the weight of the index and of the shifted index. -/
def carrySum (address point : List F) (start carry : ℕ) : F :=
  ∑ j ∈ range (2 ^ point.length), if carryAt point.length start j = carry then eqWeight point j * eqWeight address (start + j) else 0

theorem carryAt_lt {n start j : ℕ} (inside : j < 2 ^ n) : carryAt n start j < 2 := by
  have low := Nat.mod_lt start (Nat.two_pow_pos n)
  rw [carryAt, Nat.div_lt_iff_lt_mul (Nat.two_pow_pos n)]
  omega

/-- Both carries together. -/
theorem carrySum_add (address point : List F) (start : ℕ) :
    carrySum address point start 0 + carrySum address point start 1 =
      extension (fun j => eqWeight address (start + j)) point := by
  rw [carrySum, carrySum, ← sum_add_distrib, extension]
  refine sum_congr rfl fun j member => ?_
  have two : carryAt point.length start j < 2 := carryAt_lt (mem_range.mp member)
  obtain zero | one : carryAt point.length start j = 0 ∨ carryAt point.length start j = 1 := by omega
  · rw [if_pos zero, if_neg (by omega), add_zero, mul_comm]
  · rw [if_neg (by omega), if_pos one, zero_add, mul_comm]

theorem carrySum_nil (address : List F) (start : ℕ) : carrySum address [] start 0 = eqWeight address start ∧
    carrySum address [] start 1 = 0 := by
  simp [carrySum, carryAt, Nat.mod_one, eqWeight]

/-- The next bit of the sum, with `t` as the bit of the index, and the carry out of it. -/
theorem add_next (n start j t : ℕ) :
    (start + (t * 2 ^ n + j)).testBit n = decide ((start / 2 ^ n % 2 + t + carryAt n start j) % 2 = 1) ∧
      carryAt (n + 1) start (t * 2 ^ n + j) = (start / 2 ^ n % 2 + t + carryAt n start j) / 2 := by
  have positive := Nat.two_pow_pos n
  have split : start + (t * 2 ^ n + j) = (start % 2 ^ n + j) + 2 ^ n * (start / 2 ^ n + t) := by
    have whole := Nat.mod_add_div start (2 ^ n)
    rw [Nat.mul_add, Nat.mul_comm t]
    omega
  constructor
  · rw [Nat.testBit_eq_decide_div_mod_eq, split, Nat.add_mul_div_left _ _ positive, carryAt]
    congr 1
    refine propext ?_
    omega
  · have low : start % 2 ^ (n + 1) + (t * 2 ^ n + j) = (start % 2 ^ n + j) + 2 ^ n * (start / 2 ^ n % 2 + t) := by
      rw [Nat.mod_pow_succ, Nat.mul_add, Nat.mul_comm t]
      omega
    rw [carryAt, low, pow_succ, ← Nat.div_div_eq_div_mul, Nat.add_mul_div_left _ _ positive, carryAt]
    congr 1
    omega

/-- How the two sums go on by one bit. -/
theorem carrySum_cons {address point : List F} (same : address.length = point.length) (a y : F) (start : ℕ) :
    (carrySum (a :: address) (y :: point) start 0, carrySum (a :: address) (y :: point) start 1) =
      if start.testBit point.length then
        (carrySum address point start 0 * ((1 - y) * a),
          carrySum address point start 0 * (y * (1 - a)) + carrySum address point start 1 * (a * y + (1 - a) * (1 - y)))
      else
        (carrySum address point start 0 * (a * y + (1 - a) * (1 - y)) + carrySum address point start 1 * ((1 - y) * a),
          carrySum address point start 1 * (y * (1 - a))) := by
  -- an index with its next bit clear, and with the bit set
  have halves (carry : ℕ) : carrySum (a :: address) (y :: point) start carry = ∑ j ∈ range (2 ^ point.length),
      ((if (start / 2 ^ point.length % 2 + carryAt point.length start j) / 2 = carry then
          (1 - y) * eqWeight point j * ((if (start / 2 ^ point.length % 2 + carryAt point.length start j) % 2 = 1 then a
            else 1 - a) * eqWeight address (start + j)) else 0) +
        if (start / 2 ^ point.length % 2 + 1 + carryAt point.length start j) / 2 = carry then
          y * eqWeight point j * ((if (start / 2 ^ point.length % 2 + 1 + carryAt point.length start j) % 2 = 1 then a
            else 1 - a) * eqWeight address (start + j)) else 0) := by
    rw [carrySum, List.length_cons, pow_succ, mul_two, sum_range_add, ← sum_add_distrib]
    refine sum_congr rfl fun j member => ?_
    have inside := mem_range.mp member
    obtain ⟨clear, carryClear⟩ := add_next point.length start j 0
    obtain ⟨set, carrySet⟩ := add_next point.length start j 1
    simp only [Nat.zero_mul, Nat.zero_add, Nat.add_zero] at clear carryClear
    rw [Nat.one_mul] at set carrySet
    have shifted : eqWeight address (start + (2 ^ point.length + j)) = eqWeight address (start + j) := by
      rw [← eqWeight_mod, same, ← Nat.add_assoc, Nat.add_right_comm, Nat.add_mod_right, ← same, eqWeight_mod]
    rw [carryClear, carrySet, eqWeight_cons_low y point inside, Nat.add_comm (2 ^ point.length) j,
      eqWeight_cons_high y point inside, Nat.add_comm j, eqWeight, eqWeight, same, clear, set, shifted]
    simp only [decide_eq_true_eq]
  have bit : start.testBit point.length = decide (start / 2 ^ point.length % 2 = 1) := Nat.testBit_eq_decide_div_mod_eq
  have either : ∀ j ∈ range (2 ^ point.length), carryAt point.length start j = 0 ∨ carryAt point.length start j = 1 :=
    fun j member => by
      have two : carryAt point.length start j < 2 := carryAt_lt (mem_range.mp member)
      omega
  rw [halves, halves, bit]
  obtain clear | set := Nat.mod_two_eq_zero_or_one (start / 2 ^ point.length)
  · rw [clear, if_neg (by decide)]
    refine Prod.ext ?_ ?_ <;> dsimp only
    · rw [carrySum, carrySum, sum_mul, sum_mul, ← sum_add_distrib]
      refine sum_congr rfl fun j member => ?_
      rcases either j member with none | one
      · rw [none]
        norm_num
        ring
      · rw [one]
        norm_num
        ring
    · rw [carrySum, sum_mul]
      refine sum_congr rfl fun j member => ?_
      rcases either j member with none | one
      · rw [none]
        norm_num
      · rw [one]
        norm_num
        ring
  · rw [set, if_pos (by decide)]
    refine Prod.ext ?_ ?_ <;> dsimp only
    · rw [carrySum, sum_mul]
      refine sum_congr rfl fun j member => ?_
      rcases either j member with none | one
      · rw [none]
        norm_num
        ring
      · rw [one]
        norm_num
    · rw [carrySum, carrySum, sum_mul, sum_mul, ← sum_add_distrib]
      refine sum_congr rfl fun j member => ?_
      rcases either j member with none | one
      · rw [none]
        norm_num
        ring
      · rw [one]
        norm_num
        ring

/-- Coordinates that are zero choose the first entries. -/
theorem extension_zeros (f : ℕ → F) (k : ℕ) (point : List F) :
    extension f (List.replicate k 0 ++ point) = extension f point := by
  induction k with
  | zero => rfl
  | succ k ih => rw [List.replicate_succ, List.cons_append, extension_cons, ih, sub_zero, one_mul, zero_mul, add_zero]

end JoltWasm.Lib
