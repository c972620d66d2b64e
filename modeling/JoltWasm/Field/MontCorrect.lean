import JoltWasm.Field.Mont

/-!
# Montgomery and Barrett arithmetic is exact

The Barrett step is specified for every integer of five limbs: it drops what lies above 318 bits and
reduces the rest.
-/

namespace JoltWasm

open Lib

/-! ## Values of limb loops -/

namespace Limbs

variable {N M : ℕ}

theorem limb_eq (a : Limbs N) (i : ℕ) : a.limb i = a.toNat / limbBase ^ i % limbBase :=
  getD_ofDigits a.isLimbs.small i

theorem toNat_cons (limb : ℕ) (a : Limbs N) : (a.cons limb).toNat = limb % limbBase + limbBase * a.toNat := by
  rw [toNat, cons, Nat.ofDigits_cons]
  rfl

theorem toNat_snoc (a : Limbs N) (limb : ℕ) :
    (a.snoc limb).toNat = a.toNat + limbBase ^ N * (limb % limbBase) := by
  rw [toNat, snoc, Nat.ofDigits_append, a.isLimbs.length, Nat.ofDigits_singleton]
  rfl

theorem toNat_tail (a : Limbs (N + 1)) : a.tail.toNat = a.toNat / limbBase := by
  obtain ⟨first, rest, same⟩ := List.exists_cons_of_length_eq_add_one a.isLimbs.length
  have small : first < limbBase := a.isLimbs.small first (by rw [same]; exact List.mem_cons_self)
  have value : a.tail.toNat = Nat.ofDigits limbBase a.limbs.tail := rfl
  rw [value, toNat, same, Nat.ofDigits_cons, Nat.add_mul_div_left _ _ limbBase_pos, Nat.div_eq_of_lt small,
    Nat.zero_add]
  rfl

/-- A loop that adds a product. -/
theorem toNat_sweep_mul {m : ℕ} (small : m < limbBase) (a : Limbs N) (b : Limbs M) :
    (a.sweep (mulStep limbBase m) (Mont.mulStep_fst_lt m) b.limbs).1.toNat +
        limbBase ^ N * (a.sweep (mulStep limbBase m) (Mont.mulStep_fst_lt m) b.limbs).2 =
      a.toNat + b.toNat % limbBase ^ N * m ∧
      (a.sweep (mulStep limbBase m) (Mont.mulStep_fst_lt m) b.limbs).2 < limbBase := by
  have spec := chain_mul (mulStep limbBase m) (· < limbBase) limbBase_pos
    (fun x y carry => mulStep_spec small) a.isLimbs.small b.isLimbs.small limbBase_pos
  rw [a.isLimbs.length, toNat_take, Nat.add_zero] at spec
  exact ⟨spec.1, spec.2.2⟩

end Limbs

namespace Mont

theorem sbb_spec {x y borrow : ℕ} (smallX : x < limbBase) (smallY : y < limbBase) (bit : borrow ≤ 1) :
    (sbb x y borrow).1 + (y + borrow) = x + limbBase * (sbb x y borrow).2 ∧
      (sbb x y borrow).1 < limbBase ∧ (sbb x y borrow).2 ≤ 1 := by
  simp only [sbb, limbBase, Nat.shiftRight_eq_div_pow] at smallX smallY ⊢
  rcases Nat.lt_or_ge x (y + borrow) with less | more
  · have high : (2 ^ 64 + x - y - borrow) / 2 ^ 64 = 0 := by omega
    rw [high]
    simp only [beq_self_eq_true, Bool.toNat_true]
    omega
  · have high : (2 ^ 64 + x - y - borrow) / 2 ^ 64 = 1 := by omega
    rw [high]
    simp only [Nat.reduceBEq, Bool.toNat_false]
    omega

/-- A loop that subtracts something no larger borrows nothing. -/
theorem sweep_sbb {N M : ℕ} {a : Limbs N} {b : Limbs M} (le : b.toNat ≤ a.toNat) :
    (a.sweep sbb sbb_fst_lt b.limbs).1.toNat = a.toNat - b.toNat ∧ (a.sweep sbb sbb_fst_lt b.limbs).2 = 0 := by
  have spec := chain_sub sbb limbBase_pos (fun x y borrow => sbb_spec) a.isLimbs.small b.isLimbs.small
    (Nat.zero_le 1)
  rw [a.isLimbs.length, Limbs.toNat_take, Nat.mod_eq_of_lt (le.trans_lt a.toNat_lt), Nat.add_zero] at spec
  obtain ⟨sum, -, bit⟩ := spec
  have small := (a.sweep sbb sbb_fst_lt b.limbs).1.toNat_lt
  change (a.sweep sbb sbb_fst_lt b.limbs).1.toNat + b.toNat =
    a.toNat + limbBase ^ N * (a.sweep sbb sbb_fst_lt b.limbs).2 at sum
  change (a.sweep sbb sbb_fst_lt b.limbs).2 ≤ 1 at bit
  generalize a.sweep sbb sbb_fst_lt b.limbs = result at sum small bit
  obtain none | one : result.2 = 0 ∨ result.2 = 1 := by omega
  · rw [none] at sum
    omega
  · rw [one] at sum
    omega

/-! ## Constants -/

theorem toNat_modulus : modulus.toNat = order := by decide

theorem barrettMu_eq : barrettMu = 12198255522540161359 := by decide

theorem toNat_modulusTimes_two : (modulusTimes 2).1.toNat = 2 * order ∧ (modulusTimes 2).2 = 0 := by decide

theorem toNat_modulusTimes_three : (modulusTimes 3).1.toNat = 3 * order := by decide

/-! ## The Barrett step -/

theorem compare4_eq (a b : Limbs 4) : compare4 a b = compare a.toNat b.toNat :=
  compareHigh_reverse a.isLimbs b.isLimbs

theorem compare4_ne_lt {a b : Limbs 4} : compare4 a b ≠ .lt ↔ b.toNat ≤ a.toNat := by
  rw [compare4_eq, ne_eq, compare_lt_iff_lt, Nat.not_lt]

/-- What is taken away is the largest multiple of the modulus, up to three. -/
theorem subtrahend_spec {rN : Limbs 4} (small : rN.toNat < 4 * order) :
    match subtrahend rN with
    | some multiple => multiple.toNat ≤ rN.toNat ∧ rN.toNat - multiple.toNat = rN.toNat % order
    | none => rN.toNat = rN.toNat % order := by
  have two := toNat_modulusTimes_two.1
  have three := toNat_modulusTimes_three
  have one := toNat_modulus
  simp only [order] at *
  rcases Nat.lt_or_ge rN.toNat (modulusTimes 2).1.toNat with below2 | above2
  · rcases Nat.lt_or_ge rN.toNat modulus.toNat with below | above
    · have taken : subtrahend rN = none := by
        rw [subtrahend, if_neg (compare4_ne_lt.not.mpr (Nat.not_le.mpr below2)),
          if_neg (compare4_ne_lt.not.mpr (Nat.not_le.mpr below))]
      rw [taken]
      change rN.toNat = _
      omega
    · have taken : subtrahend rN = some modulus := by
        rw [subtrahend, if_neg (compare4_ne_lt.not.mpr (Nat.not_le.mpr below2)),
          if_pos (compare4_ne_lt.mpr above)]
      rw [taken]
      change modulus.toNat ≤ _ ∧ _ - modulus.toNat = _
      omega
  · rcases Nat.lt_or_ge rN.toNat (modulusTimes 3).1.toNat with below3 | above3
    · have taken : subtrahend rN = some (modulusTimes 2).1 := by
        rw [subtrahend, if_pos (compare4_ne_lt.mpr above2),
          if_neg (compare4_ne_lt.not.mpr (Nat.not_le.mpr below3))]
      rw [taken]
      change (modulusTimes 2).1.toNat ≤ _ ∧ _ - (modulusTimes 2).1.toNat = _
      omega
    · have taken : subtrahend rN = some (modulusTimes 3).1 := by
        rw [subtrahend, if_pos (compare4_ne_lt.mpr above2), if_pos (compare4_ne_lt.mpr above3)]
      rw [taken]
      change (modulusTimes 3).1.toNat ≤ _ ∧ _ - (modulusTimes 3).1.toNat = _
      omega

/-- The conditional subtractions repair a quotient that is up to three too small. -/
theorem toNat_barrettCondSubtract {rTmp : Limbs 5} (small : (rTmp.copyLow : Limbs 4).toNat < 4 * order) :
    (barrettCondSubtract rTmp).toNat = (rTmp.copyLow : Limbs 4).toNat % order := by
  have spec := subtrahend_spec small
  rw [barrettCondSubtract]
  cases taken : subtrahend (rTmp.copyLow : Limbs 4) with
  | none =>
      rw [taken] at spec
      exact spec
  | some multiple =>
      rw [taken] at spec
      exact (sweep_sbb spec.1).1.trans spec.2

/-- The estimate reads the bits from 254 to 317. -/
theorem barrettQuotient_eq (c : Limbs 5) :
    barrettQuotient c = c.toNat % 2 ^ 318 / 2 ^ 254 * barrettMu / 2 ^ 64 := by
  have spare : modulusHasSpareBit = true := by decide
  have bits : modulusNumSpareBits = 2 := by decide
  have top : c.limb 4 <<< 2 % limbBase + c.limb 3 >>> (64 - 2) = c.toNat % 2 ^ 318 / 2 ^ 254 := by
    have small := c.toNat_lt
    rw [c.limb_eq, c.limb_eq, Nat.shiftLeft_eq, Nat.shiftRight_eq_div_pow]
    simp only [limbBase] at small ⊢
    omega
  rw [barrettQuotient, if_pos spare, bits, top, Nat.shiftRight_eq_div_pow]

/-- The estimate is at most the quotient by `2p`, and less than two below it. -/
theorem estimate_bounds {c t m : ℕ} (small : c < 2 ^ 318) (top : t = c / 2 ^ 254)
    (estimate : m = t * 12198255522540161359 / 2 ^ 64) :
    m < 2 ^ 64 ∧ 2 * order * m ≤ c ∧ c - 2 * order * m < 4 * order := by
  simp only [order]
  omega

theorem toNat_barrettMultiple {m : ℕ} (small : m < 2 ^ 64) :
    (barrettMultiple m).1.toNat = 2 * order * m := by
  have spec := (Limbs.toNat_sweep_mul small (Limbs.zero : Limbs 5)
    ((modulusTimes 2).1.snoc (modulusTimes 2).2)).1
  have value : ((modulusTimes 2).1.snoc (modulusTimes 2).2).toNat = 2 * order := by decide
  rw [Limbs.toNat_zero, value] at spec
  change (barrettMultiple m).1.toNat + limbBase ^ 5 * (barrettMultiple m).2 = _ at spec
  simp only [limbBase, order] at spec ⊢
  omega

/-- Any integer of five limbs: the difference borrows nothing, and its low limbs are below `4p`. -/
theorem barrettDifference_spec (c : Limbs 5) :
    (barrettDifference c).2 = 0 ∧
      (barrettDifference c).1.toNat = c.toNat - 2 * order * barrettQuotient c ∧
      ((barrettDifference c).1.copyLow : Limbs 4).toNat < 4 * order ∧
      ((barrettDifference c).1.copyLow : Limbs 4).toNat =
        c.toNat % 2 ^ 318 - 2 * order * barrettQuotient c ∧
      2 * order * barrettQuotient c ≤ c.toNat % 2 ^ 318 := by
  have small := c.toNat_lt
  obtain ⟨word, below, close⟩ := estimate_bounds (c := c.toNat % 2 ^ 318) (Nat.mod_lt _ (by norm_num)) rfl
    (barrettMu_eq ▸ barrettQuotient_eq c)
  have multiple := toNat_barrettMultiple word
  have difference := sweep_sbb (a := c) (b := (barrettMultiple (barrettQuotient c)).1)
    (by rw [multiple]; exact below.trans (Nat.mod_le _ _))
  rw [multiple] at difference
  have low := (barrettDifference c).1.toNat_copyLow (P := 4)
  rw [show (barrettDifference c).1.toNat = _ from difference.1] at low
  refine ⟨difference.2, difference.1, ?_, ?_, below⟩
  · rw [low]
    simp only [limbBase, order] at *
    omega
  · rw [low]
    simp only [limbBase, order] at *
    omega

/-- The Barrett step, on any integer of five limbs. -/
theorem toNat_barrettReduce5To4 (c : Limbs 5) :
    (barrettReduce5To4 c).toNat = c.toNat % 2 ^ 318 % order := by
  obtain ⟨-, -, small, low, below⟩ := barrettDifference_spec c
  rw [barrettReduce5To4, toNat_barrettCondSubtract small, low, Nat.mul_comm 2, Nat.mul_assoc]
  exact Nat.sub_mul_mod (by rwa [← Nat.mul_assoc, Nat.mul_comm order])

theorem toNat_barrettReduce5To4_of_lt {c : Limbs 5} (small : c.toNat < order * 2 ^ 64) :
    (barrettReduce5To4 c).toNat = c.toNat % order := by
  have narrow : c.toNat < 2 ^ 318 := by
    simp only [order] at small
    omega
  rw [toNat_barrettReduce5To4, Nat.mod_eq_of_lt narrow]

/-! ## Products -/

theorem toNat_bigint4MulU64 (a : Limbs 4) {b : ℕ} (small : b < 2 ^ 64) :
    (bigint4MulU64 a b).toNat = a.toNat * b := by
  obtain ⟨sum, carry⟩ := Limbs.toNat_sweep_mul small (Limbs.zero : Limbs 4) a
  rw [Limbs.toNat_zero, Nat.zero_add, Nat.mod_eq_of_lt a.toNat_lt] at sum
  rw [bigint4MulU64, Limbs.toNat_snoc, Nat.mod_eq_of_lt carry, sum]

theorem toNat_bigint4MulU128 (a : Limbs 4) {b : ℕ} (small : b < 2 ^ 128) :
    (bigint4MulU128 a b).toNat = a.toNat * b := by
  have low := toNat_bigint4MulU64 a (b := b % limbBase) (Nat.mod_lt _ limbBase_pos)
  have high : b >>> 64 < limbBase := by
    rw [Nat.shiftRight_eq_div_pow]
    exact Nat.div_lt_of_lt_mul small
  obtain ⟨sum, carry⟩ := Limbs.toNat_sweep_mul high (bigint4MulU64 a (b % limbBase)).tail a
  rw [Limbs.toNat_tail, Nat.mod_eq_of_lt a.toNat_lt, low] at sum
  have first : (bigint4MulU64 a (b % limbBase)).limb 0 = a.toNat * (b % limbBase) % limbBase := by
    rw [Limbs.limb_eq, pow_zero, Nat.div_one, low]
  have split := Nat.div_add_mod b limbBase
  have rest := Nat.div_add_mod (a.toNat * (b % limbBase)) limbBase
  rw [bigint4MulU128, Limbs.toNat_cons, Limbs.toNat_snoc, Nat.mod_eq_of_lt carry, sum, first, Nat.mod_mod,
    Nat.shiftRight_eq_div_pow]
  calc a.toNat * (b % limbBase) % limbBase +
        limbBase * (a.toNat * (b % limbBase) / limbBase + a.toNat * (b / limbBase))
      = limbBase * (a.toNat * (b % limbBase) / limbBase) + a.toNat * (b % limbBase) % limbBase +
          a.toNat * (limbBase * (b / limbBase)) := by ring
    _ = a.toNat * (limbBase * (b / limbBase) + b % limbBase) := by rw [rest]; ring
    _ = a.toNat * b := by rw [split]

/-- Two Barrett rounds reduce a product with 128 bits. -/
theorem toNat_fromUncheckedNplus2 {element : Limbs 6} (small : element.toNat < order * 2 ^ 128) :
    (fromUncheckedNplus2 element).toNat = element.toNat % order := by
  have first := toNat_barrettReduce5To4_of_lt (c := element.tail) (by
    rw [Limbs.toNat_tail]
    simp only [order, limbBase] at small ⊢
    omega)
  have remainder := Nat.mod_lt element.tail.toNat (show 0 < order by norm_num [order])
  have value : ((barrettReduce5To4 element.tail).cons (element.limb 0)).toNat =
      element.toNat % limbBase + limbBase * (element.toNat / limbBase % order) := by
    rw [Limbs.toNat_cons, first, Limbs.toNat_tail, Limbs.limb_eq, pow_zero, Nat.div_one, Nat.mod_mod]
  rw [fromUncheckedNplus2, toNat_barrettReduce5To4_of_lt (by
    rw [value]
    rw [Limbs.toNat_tail] at remainder
    simp only [order, limbBase] at remainder ⊢
    omega), value]
  conv_rhs => rw [← Nat.mod_add_div element.toNat limbBase]
  rw [Nat.add_mod, Nat.mul_mod_mod, ← Nat.add_mod]

theorem toNat_mulU64 {a : Limbs 4} {b : ℕ} (canonical : a.toNat < order) (small : b < 2 ^ 64) :
    (mulU64 a b).toNat = a.toNat * b % order := by
  have product := toNat_bigint4MulU64 a small
  rw [mulU64]
  split_ifs with zeros one
  · have none : a.toNat * b = 0 := by
      rcases zeros with rfl | zero
      · exact Nat.mul_zero _
      · rw [(Limbs.isZero_iff a).mp zero, Nat.zero_mul]
    rw [none, Limbs.toNat_zero, Nat.zero_mod]
  · rw [one, Nat.mul_one, Nat.mod_eq_of_lt canonical]
  · rw [toNat_barrettReduce5To4_of_lt (by rw [product]; exact Nat.mul_lt_mul'' canonical small), product]

theorem toNat_mulU128 {a : Limbs 4} {b : ℕ} (canonical : a.toNat < order) (small : b < 2 ^ 128) :
    (mulU128 a b).toNat = a.toNat * b % order := by
  have product := toNat_bigint4MulU128 a small
  rw [mulU128]
  split_ifs with short
  · rw [Nat.shiftRight_eq_div_pow, Nat.div_eq_zero_iff_lt (by norm_num)] at short
    rw [toNat_mulU64 canonical (Nat.mod_lt _ limbBase_pos), Nat.mod_eq_of_lt short]
  · rw [toNat_fromUncheckedNplus2 (by rw [product]; exact Nat.mul_lt_mul'' canonical small), product]

/-! ## Montgomery reduction -/

/-- The number that a state of the reduction stands for. -/
def montgomeryValue (state : List ℕ × ℕ) : ℕ := Nat.ofDigits limbBase state.1 + limbBase ^ 4 * state.2

/-- The multiple of the modulus that clears the lowest limb. -/
theorem clear_low (x : ℕ) : (x + order * (x * inv % limbBase)) % limbBase = 0 := by
  have inverse : (1 + order * inv) % limbBase = 0 := by
    norm_num [order, inv, limbBase]
  rw [Nat.add_mod, Nat.mul_mod_mod, ← Nat.add_mod, show x + order * (x * inv) = x * (1 + order * inv) by ring,
    Nat.mul_mod, inverse, Nat.mul_zero, Nat.zero_mod]

/-- One step divides by the base, after a multiple of the modulus is added. -/
theorem montgomeryStep_spec {state : List ℕ × ℕ} {n : ℕ} (is : IsDigits limbBase (n + 5) state.1)
    (bit : state.2 ≤ 1) : ∃ tmp < limbBase,
      limbBase * montgomeryValue (montgomeryStep state) = montgomeryValue state + tmp * order ∧
        (montgomeryStep state).2 ≤ 1 := by
  obtain ⟨limbs, carry2⟩ := state
  simp only at is bit
  obtain ⟨x0, l0, rfl⟩ := List.exists_cons_of_length_eq_add_one is.length
  obtain ⟨x1, l1, rfl⟩ := List.exists_cons_of_length_eq_add_one is.tail.length
  obtain ⟨x2, l2, rfl⟩ := List.exists_cons_of_length_eq_add_one is.tail.tail.length
  obtain ⟨x3, l3, rfl⟩ := List.exists_cons_of_length_eq_add_one is.tail.tail.tail.length
  obtain ⟨x4, later, rfl⟩ := List.exists_cons_of_length_eq_add_one is.tail.tail.tail.tail.length
  have small : x0 * inv % limbBase < limbBase := Nat.mod_lt _ limbBase_pos
  have four : ∀ x ∈ [x0, x1, x2, x3], x < limbBase := fun x member =>
    is.small x (List.mem_append_left (x4 :: later) member)
  have fifth : x4 < limbBase := is.small x4 (by simp)
  refine ⟨x0 * inv % limbBase, small, ?_⟩
  obtain ⟨sum, digits, carry⟩ := chain_mul (mulStep limbBase (x0 * inv % limbBase)) (· < limbBase)
    limbBase_pos (fun x y carry => mulStep_spec small) four modulus.isLimbs.small limbBase_pos
  have read : Nat.ofDigits limbBase (modulus.limbs.take 4) = order := by
    rw [List.take_of_length_le modulus.isLimbs.length.le]
    exact toNat_modulus
  have step : montgomeryStep (x0 :: x1 :: x2 :: x3 :: x4 :: later, carry2) =
      ((chain (mulStep limbBase (x0 * inv % limbBase)) [x0, x1, x2, x3] modulus.limbs 0).1.tail ++
        (addStep x4 (chain (mulStep limbBase (x0 * inv % limbBase)) [x0, x1, x2, x3] modulus.limbs 0).2
          carry2).1 :: later,
      (addStep x4 (chain (mulStep limbBase (x0 * inv % limbBase)) [x0, x1, x2, x3] modulus.limbs 0).2
        carry2).2) := by
    simp only [montgomeryStep, List.headD_cons, List.take_succ_cons, List.take_zero, List.getD_cons_succ,
      List.getD_cons_zero, List.drop_succ_cons, List.drop_zero]
  rw [step]
  clear step
  simp only [List.length_cons, List.length_nil, Nat.zero_add, Nat.reduceAdd, read] at sum
  rw [Nat.add_zero] at sum
  generalize chain (mulStep limbBase (x0 * inv % limbBase)) [x0, x1, x2, x3] modulus.limbs 0 = row
    at sum digits carry ⊢
  obtain ⟨head, rest, same⟩ := List.exists_cons_of_length_eq_add_one digits.length
  rw [same] at sum digits ⊢
  have cleared : head = 0 := by
    have low := congrArg (· % limbBase) sum
    simp only [Nat.ofDigits_cons] at low
    rw [pow_succ' limbBase 3, Nat.mul_assoc, Nat.add_assoc, ← Nat.mul_add, Nat.add_mul_mod_self_left,
      Nat.add_right_comm, Nat.add_mul_mod_self_left, clear_low,
      Nat.mod_eq_of_lt (digits.small head List.mem_cons_self)] at low
    exact low
  obtain ⟨added, -, bit'⟩ : (addStep x4 row.2 carry2).1 + limbBase * (addStep x4 row.2 carry2).2 =
      x4 + row.2 * 1 + carry2 ∧ _ := addStep_spec fifth carry bit
  refine ⟨?_, bit'⟩
  have lengths : rest.length = 3 := digits.tail.length
  rw [cleared, Nat.ofDigits_cons, Nat.zero_add] at sum
  rw [montgomeryValue, montgomeryValue, List.tail_cons, Nat.ofDigits_append, lengths, Nat.ofDigits_cons]
  have whole : Nat.ofDigits limbBase (x0 :: x1 :: x2 :: x3 :: x4 :: later) =
      Nat.ofDigits limbBase [x0, x1, x2, x3] + limbBase ^ 4 * (x4 + limbBase * Nat.ofDigits limbBase later) := by
    rw [← Nat.cast_id x4, ← Nat.ofDigits_cons]
    exact @Nat.ofDigits_append limbBase [x0, x1, x2, x3] _
  rw [whole]
  linear_combination sum + limbBase ^ 4 * added

/-- Any number of steps. -/
theorem montgomerySteps_spec (k : ℕ) {state : List ℕ × ℕ} {n : ℕ} (is : IsDigits limbBase (n + 4 + k) state.1)
    (bit : state.2 ≤ 1) : ∃ q < limbBase ^ k,
      limbBase ^ k * montgomeryValue (montgomeryStep^[k] state) = montgomeryValue state + q * order := by
  induction k generalizing state with
  | zero => exact ⟨0, by norm_num, by simp⟩
  | succ k ih =>
      have is' : IsDigits limbBase (n + k + 5) state.1 := by rwa [show n + k + 5 = n + 4 + (k + 1) by omega]
      obtain ⟨tmp, smallTmp, step, bit'⟩ := montgomeryStep_spec is' bit
      have next := montgomeryStep_isLimbs is'
      rw [show n + k + 4 = n + 4 + k by omega] at next
      obtain ⟨q, smallQ, rest⟩ := ih next bit'
      refine ⟨tmp + limbBase * q, ?_, ?_⟩
      · have := Nat.mul_le_mul_left limbBase (Nat.succ_le_of_lt smallQ)
        rw [pow_succ, Nat.mul_comm _ limbBase]
        rw [Nat.succ_eq_add_one, Nat.mul_add] at this
        omega
      · rw [Function.iterate_succ_apply, pow_succ]
        linear_combination limbBase * rest + step

/-- The reduction of a number below `p · 2^256`, before the last subtraction. -/
theorem montgomeryReduceInPlace_spec {extra : ℕ} {limbs : List ℕ} (is : IsDigits limbBase (8 + extra) limbs)
    (small : Nat.ofDigits limbBase limbs < order * limbBase ^ 4) : ∃ q,
      limbBase ^ 4 * Nat.ofDigits limbBase ((montgomeryReduceInPlace limbs).1.take 4) =
        Nat.ofDigits limbBase limbs + q * order ∧
        Nat.ofDigits limbBase ((montgomeryReduceInPlace limbs).1.take 4) < 2 * order := by
  have is' : IsDigits limbBase (extra + 4 + 4) limbs := by rwa [show extra + 4 + 4 = 8 + extra by omega]
  obtain ⟨q, smallQ, steps⟩ := @montgomerySteps_spec 4 (limbs, 0) extra is' (Nat.zero_le 1)
  have start : montgomeryValue (limbs, 0) = Nat.ofDigits limbBase limbs := by
    rw [montgomeryValue, Nat.mul_zero, Nat.add_zero]
  rw [start] at steps
  change limbBase ^ 4 * montgomeryValue (montgomeryReduceInPlace limbs) = _ at steps
  have split : montgomeryValue (montgomeryReduceInPlace limbs) =
      Nat.ofDigits limbBase ((montgomeryReduceInPlace limbs).1.take 4) + limbBase ^ 4 *
        (Nat.ofDigits limbBase ((montgomeryReduceInPlace limbs).1.drop 4) + (montgomeryReduceInPlace limbs).2) := by
    rw [montgomeryValue, ofDigits_take_drop _ 4]
    ring
  have bound : montgomeryValue (montgomeryReduceInPlace limbs) < 2 * order := by
    have room : q * order < limbBase ^ 4 * order := Nat.mul_lt_mul_of_pos_right smallQ (by norm_num [order])
    simp only [limbBase, order] at *
    omega
  -- What lies above the four limbs is zero.
  have none : Nat.ofDigits limbBase ((montgomeryReduceInPlace limbs).1.drop 4) +
      (montgomeryReduceInPlace limbs).2 = 0 := by
    simp only [limbBase, order] at *
    omega
  rw [none, Nat.mul_zero, Nat.add_zero] at split
  rw [← split]
  exact ⟨q, steps, bound⟩

theorem toNat_foldTail (limbs : List ℕ) (small : ∀ limb ∈ limbs, limb < limbBase) :
    (limbs.foldr (fun limb acc => barrettReduce5To4 (acc.cons limb)) Limbs.zero).toNat =
      Nat.ofDigits limbBase limbs % order := by
  induction limbs with
  | nil => exact Limbs.toNat_zero
  | cons limb limbs ih =>
      have smallLimb := small limb List.mem_cons_self
      have acc := ih fun x member => small x (List.mem_cons_of_mem _ member)
      have remainder := Nat.mod_lt (Nat.ofDigits limbBase limbs) (show 0 < order by norm_num [order])
      have value : ((limbs.foldr (fun limb acc => barrettReduce5To4 (acc.cons limb)) Limbs.zero).cons
          limb).toNat = limb + limbBase * (Nat.ofDigits limbBase limbs % order) := by
        rw [Limbs.toNat_cons, acc, Nat.mod_eq_of_lt smallLimb]
      have fits : limb + limbBase * (Nat.ofDigits limbBase limbs % order) < order * 2 ^ 64 := by
        simp only [limbBase, order] at *
        omega
      rw [List.foldr_cons, toNat_barrettReduce5To4_of_lt (by rwa [value]), value, Nat.ofDigits_cons, Nat.add_mod,
        Nat.mul_mod_mod, ← Nat.add_mod]

variable {extra : ℕ}

/-- The buffer is congruent to the number, and small enough to reduce. -/
theorem montgomeryBuffer_spec {unreduced : Limbs (8 + extra)}
    (fits : 0 < extra ∨ unreduced.toNat < order * 2 ^ 256) :
    Nat.ofDigits limbBase (montgomeryBuffer unreduced) ≡ unreduced.toNat [MOD order] ∧
      Nat.ofDigits limbBase (montgomeryBuffer unreduced) < order * limbBase ^ 4 := by
  rw [montgomeryBuffer]
  split
  · have tail := toNat_foldTail (unreduced.limbs.drop 4) fun x member =>
      unreduced.isLimbs.small x (List.mem_of_mem_drop member)
    have value : Nat.ofDigits limbBase (unreduced.limbs.take 4 ++ (foldTail unreduced.limbs).limbs ++
        List.replicate extra 0) = Nat.ofDigits limbBase (unreduced.limbs.take 4) +
          limbBase ^ 4 * (Nat.ofDigits limbBase (unreduced.limbs.drop 4) % order) := by
      have length : (unreduced.limbs.take 4).length = 4 := by
        rw [List.length_take, unreduced.isLimbs.length]
        omega
      rw [Nat.ofDigits_append_replicate_zero, Nat.ofDigits_append, length, ← tail]
      rfl
    have whole : unreduced.toNat = Nat.ofDigits limbBase (unreduced.limbs.take 4) +
        limbBase ^ 4 * Nat.ofDigits limbBase (unreduced.limbs.drop 4) := ofDigits_take_drop _ 4
    rw [value, whole]
    refine ⟨Nat.ModEq.add_left _ (Nat.ModEq.mul_left _ (Nat.mod_modEq _ _)), ?_⟩
    have low : Nat.ofDigits limbBase (unreduced.limbs.take 4) < limbBase ^ 4 := by
      rw [unreduced.toNat_take]
      exact Nat.mod_lt _ (Nat.pow_pos limbBase_pos)
    have remainder := Nat.mod_lt (Nat.ofDigits limbBase (unreduced.limbs.drop 4))
      (show 0 < order by norm_num [order])
    simp only [limbBase, order] at *
    omega
  · rename_i none
    refine ⟨Nat.ModEq.refl _, ?_⟩
    have short := fits.resolve_left none
    rwa [show limbBase ^ 4 = 2 ^ 256 by norm_num]

/-- The reduction returns canonical limbs; times `2^256` they are the number that it reduced. -/
theorem fromMontgomeryReduce_spec {unreduced : Limbs (8 + extra)}
    (fits : 0 < extra ∨ unreduced.toNat < order * 2 ^ 256) :
    (fromMontgomeryReduce unreduced).toNat < order ∧
      ((fromMontgomeryReduce unreduced).toNat : ZMod order) * 2 ^ 256 = (unreduced.toNat : ZMod order) := by
  obtain ⟨congruent, small⟩ := montgomeryBuffer_spec fits
  obtain ⟨q, value, below⟩ := montgomeryReduceInPlace_spec (montgomeryBuffer_isLimbs unreduced) small
  have result : (montgomeryResult unreduced).toNat =
      Nat.ofDigits limbBase ((montgomeryReduceInPlace (montgomeryBuffer unreduced)).1.take 4) := rfl
  rw [← result] at value below
  have spare : modulusHasSpareBit = true := by decide
  have last : (fromMontgomeryReduce unreduced).toNat = (montgomeryResult unreduced).toNat % order := by
    have one := toNat_modulus
    simp only [fromMontgomeryReduce, spare, if_true, compare4_ne_lt, one]
    split
    · rename_i above
      rw [sub4, (sweep_sbb (by rwa [one])).1, one, Nat.mod_eq_sub_mod above, Nat.mod_eq_of_lt (by omega)]
    · rename_i under
      rw [Nat.mod_eq_of_lt (Nat.not_le.mp under)]
  refine ⟨by rw [last]; exact Nat.mod_lt _ (by norm_num [order]), ?_⟩
  have field := (ZMod.natCast_eq_natCast_iff _ _ _).mpr congruent
  have cast := congrArg (Nat.cast : ℕ → ZMod order) value
  rw [last, ZMod.natCast_mod]
  have power : ((limbBase ^ 4 : ℕ) : ZMod order) = 2 ^ 256 := by
    rw [show limbBase ^ 4 = 2 ^ 256 by norm_num, Nat.cast_pow, Nat.cast_ofNat]
  rw [Nat.cast_mul, Nat.cast_add, Nat.cast_mul q, ZMod.natCast_self, mul_zero, add_zero, power] at cast
  rw [← field, ← cast, mul_comm]

/-! ## Elements -/

theorem order_pos : 0 < order := by norm_num [order]

/-- Canonical limbs are determined by the element that they represent. -/
theorem IsMontgomery.unique {a b : Limbs 4} {x : ZMod order} (isA : IsMontgomery a x) (isB : IsMontgomery b x) :
    a = b := by
  have same := (ZMod.natCast_eq_natCast_iff' _ _ _).mp (isA.value.trans isB.value.symm)
  rw [Nat.mod_eq_of_lt isA.canonical, Nat.mod_eq_of_lt isB.canonical] at same
  exact Limbs.toNat_inj.mp same

/-- Limbs that hold the remainder of a number represent its element. -/
theorem isMontgomery_of_mod {a : Limbs 4} {n : ℕ} {x : ZMod order} (remainder : a.toNat = n % order)
    (value : (n : ZMod order) = x * 2 ^ 256) : IsMontgomery a x where
  canonical := remainder ▸ Nat.mod_lt _ order_pos
  value := by rw [remainder, ZMod.natCast_mod, value]

variable {a : Limbs 4} {x : ZMod order} {s : ℕ}

theorem mulU64_isMontgomery (is : IsMontgomery a x) (small : s < 2 ^ 64) :
    IsMontgomery (mulU64 a s) (x * s) :=
  isMontgomery_of_mod (toNat_mulU64 is.canonical small) (by rw [Nat.cast_mul, is.value, mul_right_comm])

theorem mulU128_isMontgomery (is : IsMontgomery a x) (small : s < 2 ^ 128) :
    IsMontgomery (mulU128 a s) (x * s) :=
  isMontgomery_of_mod (toNat_mulU128 is.canonical small) (by rw [Nat.cast_mul, is.value, mul_right_comm])

theorem zero_isMontgomery : IsMontgomery Limbs.zero 0 :=
  isMontgomery_of_mod (n := 0) Limbs.toNat_zero (by rw [Nat.cast_zero, zero_mul])

theorem r_isMontgomery : IsMontgomery r 1 :=
  isMontgomery_of_mod (n := 2 ^ 256) (by decide) (by rw [Nat.cast_pow, Nat.cast_ofNat, one_mul])

theorem precompTable_isMontgomery (ark : ArkFr) {n : ℕ} (small : n < precompTableSize) :
    IsMontgomery (precompTable ark n) n := by
  rw [precompTable]
  split_ifs with zero
  · rw [zero, Nat.cast_zero]
    exact zero_isMontgomery
  · exact ark.new_isMontgomery (small.trans (by decide))

theorem fromU64_isMontgomery (ark : ArkFr) {n : ℕ} (small : n < 2 ^ 64) : IsMontgomery (fromU64 ark n) n := by
  rw [fromU64]
  split_ifs with table
  · exact precompTable_isMontgomery ark table
  · rw [← one_mul (n : ZMod order)]
    exact mulU64_isMontgomery r_isMontgomery small

theorem fromU128_isMontgomery (ark : ArkFr) {n : ℕ} (small : n < 2 ^ 128) :
    IsMontgomery (fromU128 ark n) n := by
  rw [fromU128]
  split_ifs with table
  · exact precompTable_isMontgomery ark table
  · rw [← one_mul (n : ZMod order)]
    exact mulU128_isMontgomery r_isMontgomery small

/-! ## A library with the laws -/

/-- The limbs of a number. -/
def limbsOfNat (n : ℕ) : Limbs 4 :=
  ⟨(List.range 4).map fun i => n / limbBase ^ i % limbBase, by simp, fun x member => by
    obtain ⟨i, -, rfl⟩ := List.mem_map.mp member
    exact Nat.mod_lt _ limbBase_pos⟩

theorem toNat_limbsOfNat {n : ℕ} (small : n < order) : (limbsOfNat n).toNat = n := by
  have value : (limbsOfNat n).toNat = n % limbBase + limbBase * (n / limbBase % limbBase +
      limbBase * (n / limbBase ^ 2 % limbBase + limbBase * (n / limbBase ^ 3 % limbBase))) := by
    simp [Limbs.toNat, limbsOfNat, List.range_succ, Nat.ofDigits_cons]
  rw [value]
  simp only [limbBase, order] at small ⊢
  omega

/-- The inverse of `2^256` modulo the order. -/
def rInverse : ℕ := 9915499612839321149637521777990102151350674507940716049588462388200839649614

theorem limbsOfNat_isMontgomery {n : ℕ} {x : ZMod order} (value : (n : ZMod order) = x * 2 ^ 256) :
    IsMontgomery (limbsOfNat (n % order)) x :=
  isMontgomery_of_mod (toNat_limbsOfNat (Nat.mod_lt n order_pos)) value

/-- The operations of the library, by remainders. -/
def ArkFr.reference : ArkFr where
  new n := limbsOfNat (n * 2 ^ 256 % order)
  add a b := limbsOfNat ((a.toNat + b.toNat) % order)
  mul a b := limbsOfNat (a.toNat * b.toNat * rInverse % order)
  neg a := limbsOfNat ((order - a.toNat) % order)
  new_isMontgomery _ := limbsOfNat_isMontgomery (by rw [Nat.cast_mul, Nat.cast_pow, Nat.cast_ofNat])
  add_isMontgomery isA isB := limbsOfNat_isMontgomery (by rw [Nat.cast_add, isA.value, isB.value, add_mul])
  mul_isMontgomery {_ _ x y} isA isB := limbsOfNat_isMontgomery (by
    have inverse : (rInverse : ZMod order) * 2 ^ 256 = 1 := by
      have remainder : rInverse * 2 ^ 256 % order = 1 % order := by decide
      have cast := (ZMod.natCast_eq_natCast_iff' _ _ _).mpr remainder
      rwa [Nat.cast_mul, Nat.cast_pow, Nat.cast_ofNat, Nat.cast_one] at cast
    rw [Nat.cast_mul, Nat.cast_mul, isA.value, isB.value]
    linear_combination x * y * 2 ^ 256 * inverse)
  neg_isMontgomery isA := limbsOfNat_isMontgomery (by
    rw [Nat.cast_sub isA.canonical.le, ZMod.natCast_self, isA.value]
    ring)

/-- The Barrett step on an integer: its estimate, its subtractions and its result. -/
structure BarrettExact (c : Limbs 5) : Prop where
  estimate : 2 * order * barrettQuotient c ≤ c.toNat
  repaired : c.toNat - 2 * order * barrettQuotient c < 4 * order
  borrow : (barrettDifference c).2 = 0
  difference : (barrettDifference c).1.toNat = c.toNat - 2 * order * barrettQuotient c
  subtracted : ∀ multiple, subtrahend (barrettDifference c).1.copyLow = some multiple →
    (sub4 (barrettDifference c).1.copyLow multiple).2 = 0
  result : (barrettReduce5To4 c).toNat = c.toNat % order

theorem barrettExact {c : Limbs 5} (small : c.toNat < order * 2 ^ 64) : BarrettExact c := by
  obtain ⟨borrow, difference, below, low, estimate⟩ := barrettDifference_spec c
  have narrow : c.toNat % 2 ^ 318 = c.toNat := Nat.mod_eq_of_lt (by
    simp only [order] at small
    omega)
  rw [narrow] at estimate low
  have taken := subtrahend_spec below
  exact {
    estimate
    repaired := low ▸ below
    borrow
    difference
    subtracted := fun multiple same => by
      rw [same] at taken
      exact (sweep_sbb taken.1).2
    result := toNat_barrettReduce5To4_of_lt small }

/-- The largest power of two with eight limbs. -/
def eightLimbs : Limbs 8 := ⟨List.replicate 7 0 ++ [2 ^ 63], rfl, by simp [limbBase]⟩

/-- Eight limbs are reduced without a fold, and a number of that width need not be below `p · 2^256`. -/
theorem fromMontgomeryReduce_eight : ¬ ∀ (extra : ℕ) (unreduced : Limbs (8 + extra)),
    (fromMontgomeryReduce unreduced).toNat < order ∧
      ((fromMontgomeryReduce unreduced).toNat : ZMod order) * 2 ^ 256 = (unreduced.toNat : ZMod order) :=
  fun always => absurd (always 0 eightLimbs).1 (by decide)

/-- Products and conversions return canonical limbs of the exact element; the Barrett step is exact; and
so is the Montgomery reduction, where its number has more than eight limbs or is below `p · 2^256`. -/
theorem reductions_canonical (ark : ArkFr) :
    (∀ a x s, IsMontgomery a x → s < 2 ^ 64 → IsMontgomery (mulU64 a s) (x * s)) ∧
      (∀ a x s, IsMontgomery a x → s < 2 ^ 128 → IsMontgomery (mulU128 a s) (x * s)) ∧
      (∀ n < 2 ^ 64, IsMontgomery (fromU64 ark n) n) ∧
      (∀ n < 2 ^ 128, IsMontgomery (fromU128 ark n) n) ∧
      (∀ c : Limbs 5, c.toNat < order * 2 ^ 64 → BarrettExact c) ∧
      ∀ (extra : ℕ) (unreduced : Limbs (8 + extra)), 0 < extra ∨ unreduced.toNat < order * 2 ^ 256 →
        (fromMontgomeryReduce unreduced).toNat < order ∧
          ((fromMontgomeryReduce unreduced).toNat : ZMod order) * 2 ^ 256 = (unreduced.toNat : ZMod order) :=
  ⟨fun _ _ _ => mulU64_isMontgomery, fun _ _ _ => mulU128_isMontgomery,
    fun _ => fromU64_isMontgomery ark, fun _ => fromU128_isMontgomery ark,
    fun _ => barrettExact, fun _ _ => fromMontgomeryReduce_spec⟩

end Mont

end JoltWasm
