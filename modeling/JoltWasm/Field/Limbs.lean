import Mathlib.Data.Int.ModEq
import JoltWasm.Lib.Digits

/-!
# Limbs

Fixed-width arrays of 64-bit limbs, little end first, and their truncating arithmetic.
-/

namespace JoltWasm

open Lib

/-- The base of the limbs. -/
abbrev limbBase : ℕ := 2 ^ 64

/-- `Limbs<N>`. -/
@[ext]
structure Limbs (N : ℕ) where
  limbs : List ℕ
  isLimbs : IsDigits limbBase N limbs
  deriving DecidableEq

theorem two_le_limbBase : 1 < limbBase := by norm_num

theorem limbBase_pos : 0 < limbBase := by norm_num

/-! ## Steps of the loops -/

/-- A sum in 128 bits: its low limb and the carry. -/
def addStep (x y carry : ℕ) : ℕ × ℕ := ((x + y + carry) % limbBase, (x + y + carry) / limbBase)

/-- Two `overflowing_sub`. -/
def subStep (x y borrow : ℕ) : ℕ × ℕ :=
  let d1 := (x + limbBase - y) % limbBase
  let b1 := decide (x < y)
  let d2 := (d1 + limbBase - borrow) % limbBase
  let b2 := decide (d1 < borrow)
  (d2, (b1 || b2).toNat)

/-- Two `wrapping_sub` in 128 bits. -/
def subTruncStep (x y borrow : ℕ) : ℕ × ℕ :=
  let diff := ((x + 2 ^ 128 - y) % 2 ^ 128 + 2 ^ 128 - borrow) % 2 ^ 128
  (diff % limbBase, (decide (limbBase - 1 < diff)).toNat)

/-- What a step that adds has to satisfy, on limbs with a carry of at most one. -/
theorem addStep_spec {x y carry : ℕ} (smallX : x < limbBase) (smallY : y < limbBase) (bit : carry ≤ 1) :
    (addStep x y carry).1 + limbBase * (addStep x y carry).2 = x + y * 1 + carry ∧
      (addStep x y carry).1 < limbBase ∧ (addStep x y carry).2 ≤ 1 := by
  simp only [addStep, limbBase] at smallX smallY ⊢
  omega

theorem subStep_spec {x y borrow : ℕ} (smallX : x < limbBase) (smallY : y < limbBase) (bit : borrow ≤ 1) :
    (subStep x y borrow).1 + (y + borrow) = x + limbBase * (subStep x y borrow).2 ∧
      (subStep x y borrow).1 < limbBase ∧ (subStep x y borrow).2 ≤ 1 := by
  simp only [subStep, limbBase] at smallX smallY ⊢
  rcases Nat.lt_or_ge x y with less | more
  · have first : (x + 2 ^ 64 - y) % 2 ^ 64 = x + 2 ^ 64 - y := Nat.mod_eq_of_lt (by omega)
    rw [first, decide_eq_true less, Bool.true_or]
    simp only [Bool.toNat_true]
    omega
  · have first : (x + 2 ^ 64 - y) % 2 ^ 64 = x - y := by omega
    rw [first, decide_eq_false (Nat.not_lt.mpr more), Bool.false_or]
    by_cases under : x - y < borrow
    · rw [decide_eq_true under]
      simp only [Bool.toNat_true]
      omega
    · rw [decide_eq_false under]
      simp only [Bool.toNat_false]
      omega

theorem subTruncStep_spec {x y borrow : ℕ} (smallX : x < limbBase) (smallY : y < limbBase)
    (bit : borrow ≤ 1) : (subTruncStep x y borrow).1 + (y + borrow) =
        x + limbBase * (subTruncStep x y borrow).2 ∧
      (subTruncStep x y borrow).1 < limbBase ∧ (subTruncStep x y borrow).2 ≤ 1 := by
  simp only [subTruncStep, limbBase] at smallX smallY ⊢
  rcases Nat.lt_or_ge x (y + borrow) with less | more
  · have diff : ((x + 2 ^ 128 - y) % 2 ^ 128 + 2 ^ 128 - borrow) % 2 ^ 128 = x + 2 ^ 128 - (y + borrow) := by
      omega
    rw [diff, decide_eq_true (by omega)]
    simp only [Bool.toNat_true]
    omega
  · have diff : ((x + 2 ^ 128 - y) % 2 ^ 128 + 2 ^ 128 - borrow) % 2 ^ 128 = x - (y + borrow) := by omega
    rw [diff, decide_eq_false (by omega)]
    simp only [Bool.toNat_false]
    omega

namespace Limbs

variable {N M P : ℕ}

def toNat (a : Limbs N) : ℕ := Nat.ofDigits limbBase a.limbs

theorem toNat_lt (a : Limbs N) : a.toNat < limbBase ^ N := a.isLimbs.lt two_le_limbBase

theorem toNat_inj {a b : Limbs N} : a.toNat = b.toNat ↔ a = b :=
  ⟨fun same => Limbs.ext (a.isLimbs.inj two_le_limbBase b.isLimbs same), fun same => same ▸ rfl⟩

def zero : Limbs N := ⟨List.replicate N 0, .replicate limbBase_pos N⟩

def isZero (a : Limbs N) : Bool := a.limbs.all (· == 0)

/-- A single limb in the lowest position, where there is one. -/
def fromU64 (value : ℕ) : Limbs N :=
  ⟨(List.replicate N 0).modifyHead fun _ => value % limbBase, by
    cases N with
    | zero => exact .nil
    | succ N => exact (IsDigits.replicate limbBase_pos N).cons (Nat.mod_lt _ limbBase_pos)⟩

/-- The limbs of a loop with carries over the limbs of `a`. -/
theorem isLimbs_add (a : Limbs N) (b : Limbs M) :
    IsDigits limbBase N (chain addStep a.limbs b.limbs 0).1 := by
  have spec := chain_mul addStep (· ≤ 1) limbBase_pos (fun x y carry => addStep_spec) a.isLimbs.small
    b.isLimbs.small (Nat.zero_le 1)
  rw [a.isLimbs.length] at spec
  exact spec.2.1

theorem isLimbs_sub (a : Limbs N) (b : Limbs M) :
    IsDigits limbBase N (chain subStep a.limbs b.limbs 0).1 := by
  have spec := chain_sub subStep limbBase_pos (fun x y borrow => subStep_spec) a.isLimbs.small
    b.isLimbs.small (Nat.zero_le 1)
  rw [a.isLimbs.length] at spec
  exact spec.2.1

theorem isLimbs_subTrunc (a : Limbs N) (b : Limbs M) :
    IsDigits limbBase N (chain subTruncStep a.limbs b.limbs 0).1 := by
  have spec := chain_sub subTruncStep limbBase_pos (fun x y borrow => subTruncStep_spec) a.isLimbs.small
    b.isLimbs.small (Nat.zero_le 1)
  rw [a.isLimbs.length] at spec
  exact spec.2.1

/-- The sum, and whether it leaves the limbs. -/
def addWithCarry (a b : Limbs N) : Limbs N × Bool :=
  (⟨(chain addStep a.limbs b.limbs 0).1, a.isLimbs_add b⟩, decide ((chain addStep a.limbs b.limbs 0).2 ≠ 0))

/-- The difference, and whether it is below zero. -/
def subWithBorrow (a b : Limbs N) : Limbs N × Bool :=
  (⟨(chain subStep a.limbs b.limbs 0).1, a.isLimbs_sub b⟩, decide ((chain subStep a.limbs b.limbs 0).2 ≠ 0))

def addAssignTrunc (a : Limbs N) (b : Limbs M) : Limbs N :=
  ⟨(chain addStep a.limbs b.limbs 0).1, a.isLimbs_add b⟩

def subAssignTrunc (a : Limbs N) (b : Limbs M) : Limbs N :=
  ⟨(chain subTruncStep a.limbs b.limbs 0).1, a.isLimbs_subTrunc b⟩

/-- The low limbs, with zeros where there are not enough. -/
def copyLow (a : Limbs N) : Limbs P :=
  ⟨a.limbs.take P ++ List.replicate (P - N) 0, by
    have low : IsDigits limbBase (min P N) (a.limbs.take P) :=
      ⟨by rw [List.length_take, a.isLimbs.length], fun x member =>
        a.isLimbs.small x (List.mem_of_mem_take member)⟩
    have both := low.append (IsDigits.replicate limbBase_pos (P - N))
    rwa [show min P N + (P - N) = P by omega] at both⟩

def addTrunc (a : Limbs N) (b : Limbs M) : Limbs P := (a.copyLow : Limbs P).addAssignTrunc b

def subTrunc (a : Limbs N) (b : Limbs M) : Limbs P := (a.copyLow : Limbs P).subAssignTrunc b

theorem zero_drop (N P : ℕ) :
    (zero : Limbs P).limbs.drop (0 + N) = List.replicate (P - (0 + N)) 0 := List.drop_replicate

def mulTrunc (a : Limbs N) (b : Limbs M) : Limbs P :=
  ⟨addRows limbBase a.limbs b.limbs 0 (zero : Limbs P).limbs,
    (addRows_spec two_le_limbBase a.isLimbs b.isLimbs.small 0 zero.isLimbs (zero_drop N P)).2⟩

def mulLow (a b : Limbs N) : Limbs N := a.mulTrunc b

def zeroExtendFrom (smaller : Limbs M) : Limbs N := smaller.copyLow

def cmp (a b : Limbs N) : Ordering := compareHigh a.limbs.reverse b.limbs.reverse

/-! ## Values -/

@[simp] theorem toNat_zero : (zero : Limbs N).toNat = 0 := Nat.ofDigits_replicate_zero

theorem isZero_iff (a : Limbs N) : a.isZero = true ↔ a.toNat = 0 := by
  constructor
  · intro zeros
    have all : a = zero := Limbs.ext (List.eq_replicate_iff.mpr ⟨a.isLimbs.length, fun x member => by
      simpa using List.all_eq_true.mp zeros x member⟩)
    rw [all, toNat_zero]
  · intro none
    rw [(toNat_inj (b := zero)).mp (none.trans toNat_zero.symm)]
    exact List.all_eq_true.mpr fun x member => by rw [List.eq_of_mem_replicate member]; rfl

theorem toNat_fromU64 (positive : 0 < N) {value : ℕ} (small : value < limbBase) :
    (fromU64 value : Limbs N).toNat = value := by
  cases N with
  | zero => cases positive
  | succ N =>
      change Nat.ofDigits limbBase (value % limbBase :: List.replicate N 0) = value
      rw [Nat.ofDigits_cons, Nat.ofDigits_replicate_zero, Nat.mod_eq_of_lt small, Nat.mul_zero,
        Nat.add_zero]

theorem cmp_eq (a b : Limbs N) : a.cmp b = compare a.toNat b.toNat :=
  compareHigh_reverse a.isLimbs b.isLimbs

/-- The limbs that a loop over `N` limbs reads. -/
theorem toNat_take (b : Limbs M) (N : ℕ) :
    Nat.ofDigits limbBase (b.limbs.take N) = b.toNat % limbBase ^ N := by
  have split : b.toNat = Nat.ofDigits limbBase (b.limbs.take N) +
      limbBase ^ (b.limbs.take N).length * Nat.ofDigits limbBase (b.limbs.drop N) := by
    rw [← Nat.ofDigits_append, List.take_append_drop, toNat]
  rcases Nat.lt_or_ge M N with short | long
  · rw [List.take_of_length_le (by rw [b.isLimbs.length]; omega)]
    exact (Nat.mod_eq_of_lt (b.toNat_lt.trans (Nat.pow_lt_pow_right two_le_limbBase short))).symm
  · have low : IsDigits limbBase N (b.limbs.take N) :=
      ⟨by rw [List.length_take, b.isLimbs.length]; omega, fun x member =>
        b.isLimbs.small x (List.mem_of_mem_take member)⟩
    rw [split, low.length, Nat.add_mul_mod_self_left, Nat.mod_eq_of_lt (low.lt two_le_limbBase)]

/-- The sum of `N` limbs, with the carry. -/
theorem addAssignTrunc_carry (a : Limbs N) (b : Limbs M) :
    (a.addAssignTrunc b).toNat + limbBase ^ N * (chain addStep a.limbs b.limbs 0).2 =
      a.toNat + b.toNat % limbBase ^ N ∧ (chain addStep a.limbs b.limbs 0).2 ≤ 1 := by
  have spec := chain_mul addStep (· ≤ 1) limbBase_pos (fun x y carry => addStep_spec) a.isLimbs.small
    b.isLimbs.small (Nat.zero_le 1)
  rw [a.isLimbs.length, toNat_take, Nat.mul_one, Nat.add_zero] at spec
  exact ⟨spec.1, spec.2.2⟩

theorem toNat_addAssignTrunc (a : Limbs N) (b : Limbs M) :
    (a.addAssignTrunc b).toNat = (a.toNat + b.toNat) % limbBase ^ N := by
  have sum := (a.addAssignTrunc_carry b).1
  rw [← Nat.mod_eq_of_lt (a.addAssignTrunc b).toNat_lt, ← Nat.add_mod_mod, ← sum,
    Nat.add_mul_mod_self_left]

theorem toNat_addWithCarry (a b : Limbs N) :
    (a.addWithCarry b).1.toNat = (a.toNat + b.toNat) % limbBase ^ N := a.toNat_addAssignTrunc b

/-- The difference, with the borrow. -/
theorem subWithBorrow_add (a b : Limbs N) : (a.subWithBorrow b).1.toNat + b.toNat =
    a.toNat + limbBase ^ N * (a.subWithBorrow b).2.toNat := by
  have spec := chain_sub subStep limbBase_pos (fun x y borrow => subStep_spec) a.isLimbs.small
    b.isLimbs.small (Nat.zero_le 1)
  rw [a.isLimbs.length, toNat_take, Nat.mod_eq_of_lt b.toNat_lt, Nat.add_zero] at spec
  obtain ⟨sum, -, bit⟩ := spec
  refine sum.trans ?_
  rw [subWithBorrow]
  obtain none | one : (chain subStep a.limbs b.limbs 0).2 = 0 ∨ (chain subStep a.limbs b.limbs 0).2 = 1 := by
    omega
  · rw [none]
    rfl
  · rw [one]
    rfl

/-- A difference that is not below zero. -/
theorem toNat_subWithBorrow {a b : Limbs N} (le : b.toNat ≤ a.toNat) :
    (a.subWithBorrow b).1.toNat = a.toNat - b.toNat := by
  have sum := a.subWithBorrow_add b
  have small := (a.subWithBorrow b).1.toNat_lt
  generalize (a.subWithBorrow b).2 = borrow at sum
  cases borrow with
  | false => exact Nat.eq_sub_of_add_eq (by rwa [Bool.toNat_false, Nat.mul_zero, Nat.add_zero] at sum)
  | true =>
      rw [Bool.toNat_true] at sum
      omega

/-- A difference, modulo the width. -/
theorem subAssignTrunc_modEq (a : Limbs N) (b : Limbs M) :
    ((a.subAssignTrunc b).toNat : ℤ) ≡ a.toNat - b.toNat [ZMOD limbBase ^ N] := by
  have spec := chain_sub subTruncStep limbBase_pos (fun x y borrow => subTruncStep_spec) a.isLimbs.small
    b.isLimbs.small (Nat.zero_le 1)
  rw [a.isLimbs.length, toNat_take, Nat.add_zero] at spec
  obtain ⟨sum, -, -⟩ := spec
  change (a.subAssignTrunc b).toNat + b.toNat % limbBase ^ N = a.toNat + limbBase ^ N * _ at sum
  have whole := Nat.mod_add_div b.toNat (limbBase ^ N)
  generalize (chain subTruncStep a.limbs b.limbs 0).2 = borrow at sum
  generalize b.toNat / limbBase ^ N = quotient at whole
  zify at sum whole
  refine Int.modEq_iff_add_fac.mpr ⟨-(borrow + quotient), ?_⟩
  linear_combination whole - sum

theorem toNat_subAssignTrunc {a : Limbs N} {b : Limbs M} (le : b.toNat ≤ a.toNat) :
    (a.subAssignTrunc b).toNat = a.toNat - b.toNat := by
  have congruent := a.subAssignTrunc_modEq b
  rw [← Nat.cast_sub le] at congruent
  have small := (Nat.sub_le a.toNat b.toNat).trans_lt a.toNat_lt
  rw [← Nat.cast_pow, Int.natCast_modEq_iff] at congruent
  exact congruent.eq_of_lt_of_lt (a.subAssignTrunc b).toNat_lt small

theorem toNat_copyLow (a : Limbs N) : (a.copyLow : Limbs P).toNat = a.toNat % limbBase ^ P := by
  rw [toNat, copyLow, Nat.ofDigits_append_replicate_zero, toNat_take]

theorem toNat_addTrunc (a : Limbs N) (b : Limbs M) :
    (a.addTrunc b : Limbs P).toNat = (a.toNat + b.toNat) % limbBase ^ P := by
  rw [addTrunc, toNat_addAssignTrunc, toNat_copyLow, Nat.mod_add_mod]

/-- The truncated difference of any two numbers. -/
theorem subTrunc_modEq (a : Limbs N) (b : Limbs M) :
    ((a.subTrunc b : Limbs P).toNat : ℤ) ≡ a.toNat - b.toNat [ZMOD limbBase ^ P] := by
  refine ((a.copyLow : Limbs P).subAssignTrunc_modEq b).trans (Int.ModEq.sub_right _ ?_)
  rw [toNat_copyLow, ← Nat.cast_pow, Int.natCast_modEq_iff]
  exact Nat.mod_modEq _ _

theorem toNat_subTrunc {a : Limbs N} {b : Limbs M} (fits : a.toNat < limbBase ^ P)
    (le : b.toNat ≤ a.toNat) : (a.subTrunc b : Limbs P).toNat = a.toNat - b.toNat := by
  have low : (a.copyLow : Limbs P).toNat = a.toNat := by rw [toNat_copyLow, Nat.mod_eq_of_lt fits]
  rw [subTrunc, toNat_subAssignTrunc (by rwa [low]), low]

theorem toNat_mulTrunc (a : Limbs N) (b : Limbs M) :
    (a.mulTrunc b : Limbs P).toNat = a.toNat * b.toNat % limbBase ^ P := by
  have product := (addRows_spec two_le_limbBase a.isLimbs b.isLimbs.small 0 zero.isLimbs (zero_drop N P)).1
  rw [pow_zero, Nat.one_mul] at product
  have zero_ : Nat.ofDigits limbBase (zero : Limbs P).limbs = 0 := toNat_zero
  rw [zero_, Nat.zero_add] at product
  rw [← Nat.mod_eq_of_lt (a.mulTrunc b : Limbs P).toNat_lt]
  exact product

theorem toNat_zeroExtendFrom (fits : M ≤ N) (smaller : Limbs M) :
    (zeroExtendFrom smaller : Limbs N).toNat = smaller.toNat := by
  rw [zeroExtendFrom, toNat_copyLow,
    Nat.mod_eq_of_lt (smaller.toNat_lt.trans_le (Nat.pow_le_pow_right limbBase_pos fits))]

end Limbs

end JoltWasm
