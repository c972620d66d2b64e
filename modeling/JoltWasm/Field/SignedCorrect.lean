import Mathlib.Data.Int.NatAbs
import JoltWasm.Field.Signed

/-!
# Sign-magnitude integers compute with integers

The laws of a magnitude, which both layouts satisfy, and from them the sign state machine: every result
is the exact one, modulo the width, with the exact sign.
-/

namespace JoltWasm

open Lib

/-- The laws of a magnitude that holds the numbers below `modulus`. -/
structure MagnitudeLaws (Mag : Type) [Magnitude Mag] (modulus : ℕ) (toNat : Mag → ℕ) : Prop where
  lt : ∀ a, toNat a < modulus
  zero : toNat Magnitude.zero = 0
  isZero : ∀ a, Magnitude.isZero a = true ↔ toNat a = 0
  cmp : ∀ a b, Magnitude.cmp a b = compare (toNat a) (toNat b)
  add : ∀ a b, toNat (Magnitude.add a b) = (toNat a + toNat b) % modulus
  sub : ∀ a b, toNat b ≤ toNat a → toNat (Magnitude.sub a b) = toNat a - toNat b

/-- The integer of a sign and a magnitude. -/
def Signed.toInt {Mag : Type} (toNat : Mag → ℕ) (a : Signed Mag) : ℤ :=
  if a.isPositive then toNat a.magnitude else -toNat a.magnitude

/-- The exact magnitude modulo the width, with the exact sign; zero has either sign. -/
structure Computes {Mag : Type} (modulus : ℕ) (toNat : Mag → ℕ) (result : Signed Mag) (exact : ℤ) :
    Prop where
  magnitude : toNat result.magnitude = exact.natAbs % modulus
  positive : 0 < exact → result.isPositive = true
  negative : exact < 0 → result.isPositive = false

/-- Comparisons that agree on less and more. -/
theorem compare_congr {α β : Type} [LinearOrder α] [LinearOrder β] {a b : α} {c d : β}
    (less : a < b ↔ c < d) (more : b < a ↔ d < c) : compare a b = compare c d := by
  rcases lt_trichotomy a b with lt | rfl | gt
  · rw [compare_lt_iff_lt.mpr lt, compare_lt_iff_lt.mpr (less.mp lt)]
  · have equal : c = d := le_antisymm (not_lt.mp fun gt => lt_irrefl _ (more.mpr gt))
      (not_lt.mp fun lt => lt_irrefl _ (less.mpr lt))
    rw [compare_eq_iff_eq.mpr rfl, compare_eq_iff_eq.mpr equal]
  · rw [compare_gt_iff_gt.mpr gt, compare_gt_iff_gt.mpr (more.mp gt)]

section

variable {Mag : Type} {modulus : ℕ} {toNat : Mag → ℕ}

/-- An integer that the width holds is the value of the result. -/
theorem Computes.toInt_eq {result : Signed Mag} {exact : ℤ} (computes : Computes modulus toNat result exact)
    (fits : exact.natAbs < modulus) : result.toInt toNat = exact := by
  have magnitude := computes.magnitude
  rw [Nat.mod_eq_of_lt fits] at magnitude
  rw [Signed.toInt, magnitude]
  rcases lt_trichotomy exact 0 with negative | rfl | positive
  · rw [computes.negative negative, if_neg Bool.false_ne_true]
    omega
  · simp
  · rw [computes.positive positive, if_pos rfl]
    omega

namespace Signed

variable (a : Signed Mag)

theorem toInt_negate : a.negate.toInt toNat = -a.toInt toNat := by
  obtain ⟨mag, sign⟩ := a
  cases sign with
  | true => rfl
  | false => exact (neg_neg _).symm

theorem natAbs_toInt : (a.toInt toNat).natAbs = toNat a.magnitude := by
  rw [toInt]
  split <;> omega

theorem toInt_nonneg {a : Signed Mag} (sign : a.isPositive = true) : 0 ≤ a.toInt toNat := by
  rw [toInt, if_pos sign]
  exact Int.natCast_nonneg _

theorem toInt_nonpos {a : Signed Mag} (sign : a.isPositive = false) : a.toInt toNat ≤ 0 := by
  rw [toInt, sign, if_neg Bool.false_ne_true]
  exact Int.neg_nonpos_of_nonneg (Int.natCast_nonneg _)

end Signed

namespace MagnitudeLaws

variable [Magnitude Mag] (laws : MagnitudeLaws Mag modulus toNat)
include laws

/-- The sign state machine of the sum, by the signs and the larger magnitude. -/
theorem computes_add (a b : Signed Mag) :
    Computes modulus toNat (a.add b) (a.toInt toNat + b.toInt toNat) := by
  have smallA := laws.lt a.magnitude
  have smallB := laws.lt b.magnitude
  obtain ⟨magA, signA⟩ := a
  obtain ⟨magB, signB⟩ := b
  simp only at smallA smallB
  by_cases same : signB = signA
  · subst same
    have sum : (⟨magA, signB⟩ : Signed Mag).add ⟨magB, signB⟩ = ⟨Magnitude.add magA magB, signB⟩ := if_pos rfl
    rw [sum]
    have magnitude := laws.add magA magB
    cases signB with
    | true =>
        have exact_ : (⟨magA, true⟩ : Signed Mag).toInt toNat + (⟨magB, true⟩ : Signed Mag).toInt toNat =
            ((toNat magA + toNat magB : ℕ) : ℤ) := (Nat.cast_add _ _).symm
        rw [exact_]
        exact ⟨magnitude, fun _ => rfl, fun less => absurd less (by omega)⟩
    | false =>
        have exact_ : (⟨magA, false⟩ : Signed Mag).toInt toNat + (⟨magB, false⟩ : Signed Mag).toInt toNat =
            -((toNat magA + toNat magB : ℕ) : ℤ) := by
          rw [Nat.cast_add, neg_add]
          rfl
        rw [exact_]
        exact ⟨by rw [Int.natAbs_neg]; exact magnitude, fun more => absurd more (by omega), fun _ => rfl⟩
  · obtain rfl : signB = !signA := Bool.eq_not.mpr same
    have first : (⟨magA, true⟩ : Signed Mag).toInt toNat + (⟨magB, false⟩ : Signed Mag).toInt toNat =
        (toNat magA : ℤ) - toNat magB := (sub_eq_add_neg _ _).symm
    have second : (⟨magA, false⟩ : Signed Mag).toInt toNat + (⟨magB, true⟩ : Signed Mag).toInt toNat =
        (toNat magB : ℤ) - toNat magA := neg_add_eq_sub _ _
    rcases Nat.lt_or_ge (toNat magA) (toNat magB) with less | more
    · have sum : (⟨magA, signA⟩ : Signed Mag).add ⟨magB, !signA⟩ = ⟨Magnitude.sub magB magA, !signA⟩ := by
        rw [Signed.add, if_neg (Ne.symm same), if_neg]
        rw [laws.cmp, compare_lt_iff_lt.mpr less]
        decide
      rw [sum]
      have magnitude := laws.sub magB magA less.le
      rw [← Nat.mod_eq_of_lt (show toNat magB - toNat magA < modulus by omega)] at magnitude
      cases signA with
      | true =>
          rw [Bool.not_true, first]
          exact ⟨magnitude.trans (congrArg (· % modulus) (by omega)), by omega, fun _ => rfl⟩
      | false =>
          rw [Bool.not_false, second]
          exact ⟨magnitude.trans (congrArg (· % modulus) (by omega)), fun _ => rfl, by omega⟩
    · have sum : (⟨magA, signA⟩ : Signed Mag).add ⟨magB, !signA⟩ = ⟨Magnitude.sub magA magB, signA⟩ := by
        rw [Signed.add, if_neg (Ne.symm same), if_pos]
        rw [laws.cmp]
        exact fun lt => absurd (compare_lt_iff_lt.mp lt) (Nat.not_lt.mpr more)
      rw [sum]
      have magnitude := laws.sub magA magB more
      rw [← Nat.mod_eq_of_lt (show toNat magA - toNat magB < modulus by omega)] at magnitude
      cases signA with
      | true =>
          rw [Bool.not_true, first]
          exact ⟨magnitude.trans (congrArg (· % modulus) (by omega)), fun _ => rfl, by omega⟩
      | false =>
          rw [Bool.not_false, second]
          exact ⟨magnitude.trans (congrArg (· % modulus) (by omega)), by omega, fun _ => rfl⟩

theorem computes_sub (a b : Signed Mag) :
    Computes modulus toNat (a.sub b) (a.toInt toNat - b.toInt toNat) := by
  have sum := laws.computes_add a b.negate
  rwa [b.toInt_negate, ← sub_eq_add_neg] at sum

/-- Two zeros are equal, whatever their signs. -/
theorem eq_iff (a b : Signed Mag) : a.eq b = true ↔ a.toInt toNat = b.toInt toNat := by
  obtain ⟨magA, signA⟩ := a
  obtain ⟨magB, signB⟩ := b
  have zeros := laws.isZero
  simp only [Signed.eq, Signed.toInt, laws.cmp, Bool.or_eq_true, Bool.and_eq_true, beq_iff_eq,
    compare_eq_iff_eq, zeros]
  cases signA <;> cases signB <;> simp only [Bool.false_eq_true, reduceCtorEq, false_and, true_and, or_false, if_true,
    if_false] <;> omega

/-- The order is the order of the integers. -/
theorem cmp_eq (a b : Signed Mag) : a.cmp b = compare (a.toInt toNat) (b.toInt toNat) := by
  by_cases zeros : toNat a.magnitude = 0 ∧ toNat b.magnitude = 0
  · have equal : a.toInt toNat = b.toInt toNat := by
      rw [Signed.toInt, Signed.toInt, zeros.1, zeros.2]
      simp
    rw [Signed.cmp, if_pos (by rw [(laws.isZero _).mpr zeros.1, (laws.isZero _).mpr zeros.2]; rfl), equal]
    exact (compare_eq_iff_eq.mpr rfl).symm
  · rw [Signed.cmp, if_neg (by rwa [Bool.and_eq_true, laws.isZero, laws.isZero])]
    obtain ⟨magA, signA⟩ := a
    obtain ⟨magB, signB⟩ := b
    simp only at zeros
    cases signA <;> cases signB
    · have swapped : (Magnitude.cmp magA magB).swap = compare (toNat magB) (toNat magA) := by
        rw [laws.cmp]
        exact Std.OrientedCmp.eq_swap.symm
      exact swapped.trans (compare_congr (by simp [Signed.toInt]) (by simp [Signed.toInt]))
    · exact (compare_lt_iff_lt.mpr (by simp [Signed.toInt]; omega)).symm
    · exact (compare_gt_iff_gt.mpr (by simp [Signed.toInt]; omega)).symm
    · exact (laws.cmp magA magB).trans (compare_congr (by simp [Signed.toInt]) (by simp [Signed.toInt]))

omit [Magnitude Mag] laws in
/-- Every value computes its own integer. -/
theorem computes_self (lt : ∀ a, toNat a < modulus) (a : Signed Mag) :
    Computes modulus toNat a (a.toInt toNat) where
  magnitude := by rw [a.natAbs_toInt, Nat.mod_eq_of_lt (lt a.magnitude)]
  positive more := Bool.not_eq_false _ ▸ fun sign => absurd (Signed.toInt_nonpos sign) (not_le.mpr more)
  negative less := Bool.not_eq_true _ ▸ fun sign => absurd (Signed.toInt_nonneg sign) (not_le.mpr less)

end MagnitudeLaws

/-- A product of signs and magnitudes, whatever the widths. -/
theorem computes_product {Mag' Mag'' : Type} {toNat' : Mag' → ℕ} {toNat'' : Mag'' → ℕ} (a : Signed Mag')
    (b : Signed Mag'') {product : Mag}
    (magnitude : toNat product = toNat' a.magnitude * toNat'' b.magnitude % modulus) :
    Computes modulus toNat ⟨product, a.isPositive == b.isPositive⟩ (a.toInt toNat' * b.toInt toNat'') := by
  have same : a.isPositive = b.isPositive → 0 ≤ a.toInt toNat' * b.toInt toNat'' := fun same => by
    rcases sign : b.isPositive with _ | _
    · exact mul_nonneg_of_nonpos_of_nonpos (Signed.toInt_nonpos (same.trans sign)) (Signed.toInt_nonpos sign)
    · exact mul_nonneg (Signed.toInt_nonneg (same.trans sign)) (Signed.toInt_nonneg sign)
  have differ : a.isPositive ≠ b.isPositive → a.toInt toNat' * b.toInt toNat'' ≤ 0 := fun differ => by
    rcases sign : b.isPositive with _ | _
    · rw [sign, Bool.ne_false_iff] at differ
      exact mul_nonpos_of_nonneg_of_nonpos (Signed.toInt_nonneg differ) (Signed.toInt_nonpos sign)
    · rw [sign, ne_eq, Bool.not_eq_true] at differ
      exact mul_nonpos_of_nonpos_of_nonneg (Signed.toInt_nonpos differ) (Signed.toInt_nonneg sign)
  refine ⟨by rw [magnitude, Int.natAbs_mul, a.natAbs_toInt, b.natAbs_toInt], fun more => ?_, fun less => ?_⟩
  · exact beq_iff_eq.mpr (not_not.mp fun other => absurd (differ other) (not_le.mpr more))
  · exact beq_eq_false_iff_ne.mpr fun other => absurd (same other) (not_le.mpr less)

end

/-! ## Whole limbs -/

theorem Limbs.laws (N : ℕ) : MagnitudeLaws (Limbs N) (limbBase ^ N) Limbs.toNat where
  lt := Limbs.toNat_lt
  zero := Limbs.toNat_zero
  isZero := Limbs.isZero_iff
  cmp := Limbs.cmp_eq
  add := Limbs.toNat_addWithCarry
  sub _ _ := Limbs.toNat_subWithBorrow

/-! ## Limbs and a 32-bit head -/

namespace Hi32

variable {N : ℕ}

/-- The number of a magnitude with a head. -/
def toNat (a : Hi32 N) : ℕ := a.lo.toNat + limbBase ^ N * a.hi

/-- The width: whole limbs and 32 bits. -/
def modulus (N : ℕ) : ℕ := limbBase ^ N * 2 ^ 32

theorem toNat_limbs (a : Hi32 N) : a.limbs.toNat = a.toNat := by
  rw [Limbs.toNat, limbs, Nat.ofDigits_append, a.lo.isLimbs.length, Nat.ofDigits_singleton]
  rfl

theorem toNat_lt (a : Hi32 N) : a.toNat < modulus N := by
  have low := a.lo.toNat_lt
  have head := a.hi_lt
  have : limbBase ^ N * (a.hi + 1) ≤ limbBase ^ N * 2 ^ 32 := Nat.mul_le_mul_left _ head
  rw [toNat, modulus]
  linarith

theorem isZero_iff (a : Hi32 N) : a.isZero = true ↔ a.toNat = 0 := by
  have positive : limbBase ^ N ≠ 0 := (Nat.pow_pos limbBase_pos).ne'
  have low : a.lo.limbs.all (· == 0) = true ↔ a.lo.toNat = 0 := a.lo.isZero_iff
  rw [isZero, Bool.and_eq_true, low, toNat, Nat.add_eq_zero_iff, Nat.mul_eq_zero, beq_iff_eq]
  tauto

/-- The head decides first, as the highest limb. -/
theorem cmp_eq (a b : Hi32 N) : a.cmp b = compare a.toNat b.toNat := by
  rw [← toNat_limbs, ← toNat_limbs, ← Limbs.cmp_eq, Limbs.cmp, limbs, limbs, List.reverse_append,
    List.reverse_append, List.reverse_singleton, List.reverse_singleton,
    compareHigh_append (by rfl : [a.hi].length = [b.hi].length), cmp, compareHigh]
  cases compare a.hi b.hi <;> rfl

theorem toNat_add (a b : Hi32 N) : (a.add b).toNat = (a.toNat + b.toNat) % modulus N := by
  obtain ⟨sum, -⟩ := a.lo.addAssignTrunc_carry b.lo
  rw [Nat.mod_eq_of_lt b.lo.toNat_lt] at sum
  have low := (a.lo.addAssignTrunc b.lo).toNat_lt
  have whole : a.toNat + b.toNat = (a.lo.addAssignTrunc b.lo).toNat +
      limbBase ^ N * (a.hi + b.hi + (chain addStep a.lo.limbs b.lo.limbs 0).2) := by
    rw [toNat, toNat]
    linear_combination -sum
  rw [whole, modulus, Nat.mod_mul, Nat.add_mul_mod_self_left, Nat.mod_eq_of_lt low,
    Nat.add_mul_div_left _ _ (Nat.pow_pos limbBase_pos), Nat.div_eq_of_lt low, Nat.zero_add]
  rfl

theorem toNat_sub {a b : Hi32 N} (le : b.toNat ≤ a.toNat) : (a.sub b).toNat = a.toNat - b.toNat := by
  have low := a.lo.subWithBorrow_add b.lo
  have smallA := a.lo.toNat_lt
  have smallB := b.lo.toNat_lt
  have headA := a.hi_lt
  have headB := b.hi_lt
  rw [toNat, toNat] at le
  have difference := (a.lo.subWithBorrow b.lo).1.toNat_lt
  have heads : b.hi + (a.lo.subWithBorrow b.lo).2.toNat ≤ a.hi := by
    by_contra more
    have scaled : limbBase ^ N * (a.hi + 1) ≤ limbBase ^ N * (b.hi + (a.lo.subWithBorrow b.lo).2.toNat) :=
      Nat.mul_le_mul_left _ (by omega)
    rw [Nat.mul_add, Nat.mul_add] at scaled
    omega
  have wrapped : (a.sub b).hi = a.hi - (b.hi + (a.lo.subWithBorrow b.lo).2.toNat) := by
    change wrappingSub (wrappingSub a.hi b.hi) (a.lo.subWithBorrow b.lo).2.toNat = _
    rw [wrappingSub, wrappingSub]
    omega
  have whole : (a.sub b).toNat = (a.lo.subWithBorrow b.lo).1.toNat + limbBase ^ N * (a.sub b).hi := rfl
  have scaled := Nat.mul_le_mul_left (limbBase ^ N) heads
  rw [whole, wrapped, Nat.mul_sub, toNat, toNat]
  rw [Nat.mul_add] at scaled ⊢
  omega

/-- A row adds its product, up to what leaves the magnitude. -/
theorem mulRow_modEq (b : Hi32 N) {prod : List ℕ} {i a : ℕ} (inside : i + (N + 1) ≤ 16) (small : a < limbBase)
    (is : IsDigits limbBase 16 prod) : Nat.ofDigits limbBase (b.mulRow prod i a) ≡
      Nat.ofDigits limbBase prod + limbBase ^ i * (b.toNat * a) [MOD limbBase ^ (N + 1)] := by
  have front : (prod.take i).length = i := by
    rw [List.length_take, is.length]
    omega
  have window : ((prod.drop i).take (N + 1)).length = N + 1 := by
    rw [List.length_take, List.length_drop, is.length]
    omega
  obtain ⟨sum, digits, -⟩ := chain_mul (mulStep limbBase a) (· < limbBase) limbBase_pos
    (fun x y carry => mulStep_spec small)
    (fun x member => is.small x (List.mem_of_mem_drop (List.mem_of_mem_take member)) :
      ∀ x ∈ (prod.drop i).take (N + 1), x < limbBase) b.limbs.isLimbs.small limbBase_pos
  have read : b.limbs.limbs.take (N + 1) = b.limbs.limbs := List.take_of_length_le b.limbs.isLimbs.length.le
  have value : Nat.ofDigits limbBase b.limbs.limbs = b.toNat := b.toNat_limbs
  simp only [window, read, value, Nat.add_zero] at sum
  have length := digits.length.trans window
  have whole : Nat.ofDigits limbBase prod = Nat.ofDigits limbBase (prod.take i) +
      limbBase ^ i * (Nat.ofDigits limbBase ((prod.drop i).take (N + 1)) +
        limbBase ^ (N + 1) * Nat.ofDigits limbBase (prod.drop (i + (N + 1)))) := by
    rw [ofDigits_take_drop prod i, ofDigits_take_drop (prod.drop i) (N + 1), List.drop_drop]
  unfold mulRow
  generalize chain (mulStep limbBase a) ((prod.drop i).take (N + 1)) b.limbs.limbs 0 = row at sum length
  refine modEq_of_add_mul (k := limbBase ^ i * row.2) ?_
  rw [Nat.ofDigits_append, Nat.ofDigits_append, List.length_append, front, length, whole, pow_add]
  linear_combination limbBase ^ i * sum

theorem mulRows_modEq (b : Hi32 N) {as : List ℕ} (small : ∀ a ∈ as, a < limbBase) {i : ℕ}
    (inside : i + as.length + N ≤ 16) {prod : List ℕ} (is : IsDigits limbBase 16 prod) :
    Nat.ofDigits limbBase ((as.zipIdx i).foldl (fun prod (limb, i) => b.mulRow prod i limb) prod) ≡
      Nat.ofDigits limbBase prod + limbBase ^ i * (b.toNat * Nat.ofDigits limbBase as)
        [MOD limbBase ^ (N + 1)] := by
  induction as generalizing i prod with
  | nil => exact Nat.ModEq.refl _
  | cons a as ih =>
      have smallA := small a List.mem_cons_self
      rw [List.length_cons] at inside
      have first := b.mulRow_modEq (i := i) (by omega) smallA is
      have rest := ih (fun a member => small a (List.mem_cons_of_mem _ member)) (i := i + 1) (by omega)
        (b.mulRow_isLimbs (i := i) smallA is)
      refine rest.trans ((first.add_right _).trans ?_)
      rw [Nat.ofDigits_cons, pow_succ]
      exact congrArg (· % _) (by ring)

/-- The product, where the buffer holds all rows. -/
theorem toNat_mul (fits : 2 * (N + 1) ≤ 16) (a b : Hi32 N) :
    (a.mul b).toNat = a.toNat * b.toNat % modulus N := by
  have product : Nat.ofDigits limbBase (a.mulBuffer b) ≡ a.toNat * b.toNat [MOD limbBase ^ (N + 1)] := by
    have rows := b.mulRows_modEq a.limbs.isLimbs.small (i := 0) (by rw [a.limbs.isLimbs.length]; omega)
      (.replicate limbBase_pos 16)
    have value : Nat.ofDigits limbBase a.limbs.limbs = a.toNat := a.toNat_limbs
    rwa [Nat.ofDigits_replicate_zero, Nat.zero_add, pow_zero, Nat.one_mul, value, Nat.mul_comm] at rows
  have divides : modulus N ∣ limbBase ^ (N + 1) := by
    rw [modulus, pow_succ]
    exact Nat.mul_dvd_mul_left _ (by norm_num)
  have whole : (a.mul b).toNat = Nat.ofDigits limbBase (a.mulBuffer b) % modulus N := by
    have low : (a.mul b).lo.toNat = Nat.ofDigits limbBase (a.mulBuffer b) % limbBase ^ N :=
      (⟨a.mulBuffer b, a.mulBuffer_isLimbs b⟩ : Limbs 16).toNat_copyLow
    have head : (a.mul b).hi = Nat.ofDigits limbBase (a.mulBuffer b) / limbBase ^ N % 2 ^ 32 := by
      change (a.mulBuffer b).getD N 0 % 2 ^ 32 = _
      rw [getD_ofDigits (a.mulBuffer_isLimbs b).small, Nat.mod_mod_of_dvd _ (by norm_num)]
    rw [toNat, low, head, modulus, Nat.mod_mul]
  rw [whole]
  exact product.of_dvd divides

theorem laws (N : ℕ) : MagnitudeLaws (Hi32 N) (modulus N) toNat where
  lt := toNat_lt
  zero := by
    change (Limbs.zero : Limbs N).toNat + limbBase ^ N * 0 = 0
    rw [Limbs.toNat_zero]
    rfl
  isZero := isZero_iff
  cmp := cmp_eq
  add := toNat_add
  sub _ _ := toNat_sub

end Hi32

/-! ## The whole surface -/

/-- Every operation of a family computes with integers. -/
structure FamilyComputes (Mag : Type) [Magnitude Mag] (modulus : ℕ) (toNat : Mag → ℕ) : Prop where
  add : ∀ a b : Signed Mag, Computes modulus toNat (a.add b) (a.toInt toNat + b.toInt toNat)
  sub : ∀ a b : Signed Mag, Computes modulus toNat (a.sub b) (a.toInt toNat - b.toInt toNat)
  negate : ∀ a : Signed Mag, Computes modulus toNat a.negate (-a.toInt toNat)
  mul : ∀ a b : Signed Mag, Computes modulus toNat (a.mul b) (a.toInt toNat * b.toInt toNat)
  zero : (Signed.zero : Signed Mag).toInt toNat = 0
  isZero : ∀ a : Signed Mag, a.isZero = true ↔ a.toInt toNat = 0
  eq : ∀ a b : Signed Mag, a.eq b = true ↔ a.toInt toNat = b.toInt toNat
  cmp : ∀ a b : Signed Mag, a.cmp b = compare (a.toInt toNat) (b.toInt toNat)

theorem MagnitudeLaws.computes {Mag : Type} [Magnitude Mag] {modulus : ℕ} {toNat : Mag → ℕ}
    (laws : MagnitudeLaws Mag modulus toNat)
    (mul : ∀ a b, toNat (Magnitude.mul a b) = toNat a * toNat b % modulus) :
    FamilyComputes Mag modulus toNat where
  add := laws.computes_add
  sub := laws.computes_sub
  negate a := Signed.toInt_negate a ▸ computes_self laws.lt a.negate
  mul a b := computes_product a b (mul a.magnitude b.magnitude)
  zero := by
    rw [Signed.toInt, Signed.zero, laws.zero]
    rfl
  isZero a := by
    have abs : (a.toInt toNat).natAbs = toNat a.magnitude := a.natAbs_toInt
    rw [Signed.isZero, laws.isZero, ← abs, Int.natAbs_eq_zero]
  eq := laws.eq_iff
  cmp := laws.cmp_eq

/-- The forms that change the width: whole limbs and the head. -/
structure WidthsCompute : Prop where
  addTrunc : ∀ {N M P : ℕ} (a : Limbs N) (b : Limbs M),
    (a.addTrunc b : Limbs P).toNat = (a.toNat + b.toNat) % limbBase ^ P
  subTrunc : ∀ {N M P : ℕ} (a : Limbs N) (b : Limbs M),
    ((a.subTrunc b : Limbs P).toNat : ℤ) = (a.toNat - b.toNat) % limbBase ^ P
  zeroExtendFrom : ∀ {N M : ℕ} (a : Limbs M), M ≤ N → (Limbs.zeroExtendFrom a : Limbs N).toNat = a.toNat
  mulTrunc : ∀ {N M P : ℕ} (a : SignedBigInt N) (b : SignedBigInt M),
    Computes (limbBase ^ P) Limbs.toNat (SignedBigInt.mulTrunc a b : SignedBigInt P)
      (a.toInt Limbs.toNat * b.toInt Limbs.toNat)
  /-- The product is truncated, and then the sum. -/
  fmaddTrunc : ∀ {N M P : ℕ} (a : SignedBigInt N) (b : SignedBigInt M) (acc : SignedBigInt P),
    Computes (limbBase ^ P) Limbs.toNat (SignedBigInt.fmaddTrunc a b acc) (acc.toInt Limbs.toNat +
      (SignedBigInt.mulTrunc a b : SignedBigInt P).toInt Limbs.toNat)
  fmaddTrunc_exact : ∀ {N M P : ℕ} (a : SignedBigInt N) (b : SignedBigInt M) (acc : SignedBigInt P),
    (a.toInt Limbs.toNat * b.toInt Limbs.toNat).natAbs < limbBase ^ P →
      Computes (limbBase ^ P) Limbs.toNat (SignedBigInt.fmaddTrunc a b acc)
        (acc.toInt Limbs.toNat + a.toInt Limbs.toNat * b.toInt Limbs.toNat)
  toSignedBigintNplus1 : ∀ {N : ℕ} (a : SignedBigIntHi32 N),
    (SignedBigIntHi32.toSignedBigintNplus1 a).toInt Limbs.toNat = a.toInt Hi32.toNat

theorem widthsCompute : WidthsCompute where
  addTrunc := Limbs.toNat_addTrunc
  subTrunc a b := by
    refine (Int.emod_eq_of_lt (Int.natCast_nonneg _) ?_).symm.trans (a.subTrunc_modEq b)
    exact_mod_cast (a.subTrunc b).toNat_lt
  zeroExtendFrom a fits := Limbs.toNat_zeroExtendFrom fits a
  mulTrunc a b := computes_product a b (Limbs.toNat_mulTrunc a.magnitude b.magnitude)
  fmaddTrunc a b acc := (Limbs.laws _).computes_add acc (SignedBigInt.mulTrunc a b)
  fmaddTrunc_exact a b acc fits := by
    have product := (computes_product a b (Limbs.toNat_mulTrunc a.magnitude b.magnitude)).toInt_eq fits
    rw [← product]
    exact (Limbs.laws _).computes_add acc (SignedBigInt.mulTrunc a b)
  toSignedBigintNplus1 a := by
    rw [Signed.toInt, Signed.toInt, SignedBigIntHi32.toSignedBigintNplus1, Hi32.toNat_limbs]

/-! ## Conversions -/

namespace SignedBigInt

variable {N : ℕ}

/-- The integer of a magnitude and a sign. -/
theorem toInt_of_natAbs {result : SignedBigInt N} {value : ℤ} (magnitude : result.magnitude.toNat = value.natAbs)
    (sign : result.isPositive = decide (0 ≤ value)) : result.toInt Limbs.toNat = value := by
  rw [Signed.toInt, magnitude, sign]
  by_cases nonneg : 0 ≤ value
  · rw [decide_eq_true nonneg, if_pos rfl]
    omega
  · rw [decide_eq_false nonneg, if_neg Bool.false_ne_true]
    omega

theorem toNat_limbsOfU128 {value : ℕ} (small : value < 2 ^ 128) :
    (limbsOfU128 value : Limbs (N + 2)).toNat = value := by
  rw [Limbs.toNat, limbsOfU128, Nat.ofDigits_cons, Nat.ofDigits_cons, Nat.ofDigits_replicate_zero]
  simp only [limbBase]
  omega

theorem toInt_fromI64 (positive : 0 < N) {value : ℤ} (low : -2 ^ 63 ≤ value) (high : value < 2 ^ 63) :
    (fromI64 value : SignedBigInt N).toInt Limbs.toNat = value :=
  toInt_of_natAbs (Limbs.toNat_fromU64 positive (by simp only [limbBase]; omega)) rfl

theorem toInt_fromI128 {value : ℤ} (low : -2 ^ 127 ≤ value) (high : value < 2 ^ 127) :
    (fromI128 value : SignedBigInt (N + 2)).toInt Limbs.toNat = value :=
  toInt_of_natAbs (toNat_limbsOfU128 (by omega)) rfl

end SignedBigInt

theorem S64.magnitudeAsU64_eq (a : S64) : a.magnitudeAsU64 = a.magnitude.toNat := by
  obtain ⟨limb, same⟩ := List.length_eq_one_iff.mp a.magnitude.isLimbs.length
  rw [magnitudeAsU64, Limbs.toNat, same, Nat.ofDigits_singleton]
  rfl

theorem S64.toI128_eq (a : S64) : a.toI128 = a.toInt Limbs.toNat := by
  rw [toI128, magnitudeAsU64_eq]
  rfl

theorem S128.magnitudeAsU128_eq (a : S128) : a.magnitudeAsU128 = a.magnitude.toNat := by
  obtain ⟨low, high, same⟩ := List.length_eq_two.mp a.magnitude.isLimbs.length
  have small : low < 2 ^ 64 := a.magnitude.isLimbs.small low (by rw [same]; exact List.mem_cons_self)
  rw [magnitudeAsU128, Limbs.toNat, same, Nat.ofDigits_cons, Nat.ofDigits_singleton]
  change high <<< 64 ||| low = low + limbBase * high
  rw [← Nat.shiftLeft_add_eq_or_of_lt small, Nat.shiftLeft_eq]
  simp only [limbBase]
  omega

/-- The value is given exactly where 128 bits hold it; negative zero is zero. -/
theorem S128.toI128_eq (a : S128) : a.toI128 =
    if -2 ^ 127 ≤ a.toInt Limbs.toNat ∧ a.toInt Limbs.toNat < 2 ^ 127 then some (a.toInt Limbs.toNat)
    else none := by
  have shift : a.magnitude.toNat >>> 127 = 0 ↔ a.magnitude.toNat < 2 ^ 127 := by
    rw [Nat.shiftRight_eq_div_pow]
    omega
  have least : (1 <<< 127 : ℕ) = 2 ^ 127 := rfl
  simp only [toI128, magnitudeAsU128_eq, Signed.toInt, shift, least]
  obtain ⟨mag, sign⟩ := a
  cases sign with
  | true =>
      simp only [if_true]
      split <;> rename_i h <;> [rw [if_pos (by omega)]; rw [if_neg (by omega)]]
  | false =>
      simp only [Bool.false_eq_true, if_false]
      by_cases less : mag.toNat < 2 ^ 127
      · rw [if_pos less, if_pos (by omega)]
      · by_cases equal : mag.toNat = 2 ^ 127
        · rw [if_neg less, if_pos equal, if_pos (by omega), equal]
          rfl
        · rw [if_neg less, if_neg equal, if_neg (by omega)]

/-- The conversions from and to machine integers. -/
structure ConversionsRoundTrip : Prop where
  fromU64WithSign : ∀ {N value : ℕ} (isPositive : Bool), 0 < N → value < 2 ^ 64 →
    (SignedBigInt.fromU64WithSign value isPositive : SignedBigInt N).toInt Limbs.toNat =
      if isPositive then (value : ℤ) else -value
  fromU64 : ∀ {N value : ℕ}, 0 < N → value < 2 ^ 64 →
    (SignedBigInt.fromU64 value : SignedBigInt N).toInt Limbs.toNat = value
  fromI64 : ∀ {N : ℕ} {value : ℤ}, 0 < N → -2 ^ 63 ≤ value → value < 2 ^ 63 →
    (SignedBigInt.fromI64 value : SignedBigInt N).toInt Limbs.toNat = value
  fromU128 : ∀ {N value : ℕ}, value < 2 ^ 128 →
    (SignedBigInt.fromU128 value : SignedBigInt (N + 2)).toInt Limbs.toNat = value
  fromI128 : ∀ {N : ℕ} {value : ℤ}, -2 ^ 127 ≤ value → value < 2 ^ 127 →
    (SignedBigInt.fromI128 value : SignedBigInt (N + 2)).toInt Limbs.toNat = value
  s64 : ∀ a : S64, a.toI128 = a.toInt Limbs.toNat ∧ a.magnitudeAsU64 = (a.toInt Limbs.toNat).natAbs
  s64_round : ∀ {value : ℤ}, -2 ^ 63 ≤ value → value < 2 ^ 63 →
    S64.toI128 (SignedBigInt.fromI64 value) = value
  s128 : ∀ a : S128, a.magnitudeAsU128 = (a.toInt Limbs.toNat).natAbs ∧ a.toI128 =
    if -2 ^ 127 ≤ a.toInt Limbs.toNat ∧ a.toInt Limbs.toNat < 2 ^ 127 then some (a.toInt Limbs.toNat)
    else none
  s128_round : ∀ {value : ℤ}, -2 ^ 127 ≤ value → value < 2 ^ 127 →
    S128.toI128 (SignedBigInt.fromI128 value) = some value
  s160 : ∀ {value : ℕ}, value < 2 ^ 128 → (S160.ofU128 value).toInt Hi32.toNat = value

theorem conversionsRoundTrip : ConversionsRoundTrip where
  fromU64WithSign isPositive positive small := by
    rw [Signed.toInt, SignedBigInt.fromU64WithSign, Limbs.toNat_fromU64 positive small]
  fromU64 positive small := congrArg Nat.cast (Limbs.toNat_fromU64 positive small)
  fromI64 positive := SignedBigInt.toInt_fromI64 positive
  fromU128 small := congrArg Nat.cast (SignedBigInt.toNat_limbsOfU128 small)
  fromI128 := SignedBigInt.toInt_fromI128
  s64 a := ⟨a.toI128_eq, a.magnitudeAsU64_eq.trans a.natAbs_toInt.symm⟩
  s64_round low high := (S64.toI128_eq _).trans (SignedBigInt.toInt_fromI64 Nat.one_pos low high)
  s128 a := ⟨a.magnitudeAsU128_eq.trans a.natAbs_toInt.symm, a.toI128_eq⟩
  s128_round low high := by
    rw [S128.toI128_eq, SignedBigInt.toInt_fromI128 low high, if_pos ⟨low, high⟩]
  s160 {value} small := by
    have low : (SignedBigInt.limbsOfU128 value : Limbs 2).toNat = value :=
      SignedBigInt.toNat_limbsOfU128 small
    rw [Signed.toInt, S160.ofU128, if_pos rfl, Hi32.toNat, low]
    rfl

/-- Both families compute with integers, at every width that they have. -/
theorem signed_integers_compute : (∀ N, FamilyComputes (Limbs N) (limbBase ^ N) Limbs.toNat) ∧
    (∀ N, 2 * (N + 1) ≤ 16 → FamilyComputes (Hi32 N) (Hi32.modulus N) Hi32.toNat) ∧
    WidthsCompute ∧ ConversionsRoundTrip :=
  ⟨fun N => (Limbs.laws N).computes Limbs.toNat_mulTrunc,
    fun N fits => (Hi32.laws N).computes (Hi32.toNat_mul fits), widthsCompute, conversionsRoundTrip⟩

end JoltWasm
