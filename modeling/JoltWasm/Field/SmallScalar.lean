import Mathlib.Data.Nat.Dist
import JoltWasm.Field.Accumulator

/-!
# What the small-scalar accumulator returns

Its sums are exact while they fit five limbs.  The Barrett step at the end reads 318 bits of their
difference, so the last two bits of headroom are lost.
-/

namespace JoltWasm

open Lib

namespace Mont

/-! ## Raw sums -/

/-- What a call adds to the positive and to the negative sum, as integers. -/
def Op.raw (ark : ArkFr) : Op → ℕ × ℕ
  | .add value => (value.limbs.toNat, 0)
  | .fmadd a b => ((a.mul ark b).limbs.toNat, 0)
  | .fmaddU8 a b => ((a.mul ark (.fromU8 ark b)).limbs.toNat, 0)
  | .fmaddU64 a b => (a.limbs.toNat * b.val, 0)
  | .fmaddU128 a b => ((a.mul ark (.fromU128 ark b)).limbs.toNat, 0)
  | .fmaddI64 a b => if 0 ≤ b.1 then (a.limbs.toNat * b.1.natAbs, 0) else (0, a.limbs.toNat * b.1.natAbs)
  | .fmaddSignedU64 value magnitude isPositive =>
      if isPositive then (value.limbs.toNat * magnitude.val, 0)
      else (((value.neg ark).mul ark (.ofMagnitude ark (SignedBigInt.fromU64WithSign magnitude false))).limbs.toNat, 0)
  | .fmaddS256 value scalar =>
      if scalar.isPositive then ((value.mul ark (.ofMagnitude ark scalar)).limbs.toNat, 0)
      else (((value.neg ark).mul ark (.ofMagnitude ark scalar)).limbs.toNat, 0)
  | .fmaddBool a b => if b then (a.limbs.toNat, 0) else (0, 0)

/-- The positive and the negative sum of a history, as integers. -/
def History.raw (ark : ArkFr) : History → ℕ × ℕ
  | .default => (0, 0)
  | .op history call => history.raw ark + call.raw ark
  | .merge history other => history.raw ark + other.raw ark

namespace FrSmallScalarAccumulator

variable {ark : ArkFr}

theorem toNat_addTo (slots : Limbs 5) (value : Fr) :
    (addTo slots value).toNat = (slots.toNat + value.limbs.toNat) % limbBase ^ 5 :=
  Limbs.toNat_addAssignTrunc _ _

/-- The shortcuts for zero and one change nothing. -/
theorem toNat_fmaddMagnitude (slots : Limbs 5) (value : Fr) (scalar : U64) :
    (fmaddMagnitude slots value scalar).toNat = (slots.toNat + value.limbs.toNat * scalar.val) % limbBase ^ 5 := by
  rw [fmaddMagnitude]
  split_ifs with zero one
  · rw [zero, Fin.val_zero, Nat.mul_zero, Nat.add_zero, Nat.mod_eq_of_lt slots.toNat_lt]
  · rw [one, toNat_addTo]
    norm_num
  · rw [Limbs.toNat_addAssignTrunc, toNat_bigint4MulU64 _ scalar.isLt]

/-- The sums that an accumulator holds. -/
structure Holds (acc : FrSmallScalarAccumulator) (raw : ℕ × ℕ) : Prop where
  pos : acc.pos.toNat = raw.1 % limbBase ^ 5
  neg : acc.neg.toNat = raw.2 % limbBase ^ 5

variable {acc other : FrSmallScalarAccumulator} {raw raw' : ℕ × ℕ}

theorem Holds.add (holds : Holds acc raw) (value : Fr) :
    Holds (acc.add value) (raw + (value.limbs.toNat, 0)) where
  pos := by rw [FrSmallScalarAccumulator.add, toNat_addTo, holds.pos, Nat.mod_add_mod]; rfl
  neg := holds.neg

theorem Holds.fmaddPos (holds : Holds acc raw) (value : Fr) (scalar : U64) :
    Holds { acc with pos := fmaddMagnitude acc.pos value scalar } (raw + (value.limbs.toNat * scalar.val, 0)) where
  pos := by rw [toNat_fmaddMagnitude, holds.pos, Nat.mod_add_mod]; rfl
  neg := holds.neg

theorem Holds.fmaddNeg (holds : Holds acc raw) (value : Fr) (scalar : U64) :
    Holds { acc with neg := fmaddMagnitude acc.neg value scalar } (raw + (0, value.limbs.toNat * scalar.val)) where
  pos := holds.pos
  neg := by rw [toNat_fmaddMagnitude, holds.neg, Nat.mod_add_mod]; rfl

theorem Holds.merge (holds : Holds acc raw) (holds' : Holds other raw') :
    Holds (acc.merge other) (raw + raw') where
  pos := by rw [FrSmallScalarAccumulator.merge, Limbs.toNat_addAssignTrunc, holds.pos, holds'.pos, ← Nat.add_mod]; rfl
  neg := by rw [FrSmallScalarAccumulator.merge, Limbs.toNat_addAssignTrunc, holds.neg, holds'.neg, ← Nat.add_mod]; rfl

theorem Holds.call (holds : Holds acc raw) (call : Op) :
    Holds (call.apply (accumulator ark) acc) (raw + call.raw ark) := by
  cases call with
  | add value => exact holds.add value
  | fmadd a b => exact holds.add _
  | fmaddU8 a b => exact holds.add _
  | fmaddU64 a b => exact holds.fmaddPos a b
  | fmaddU128 a b => exact holds.add _
  | fmaddI64 a b =>
      change Holds (fmaddI64 acc a b) _
      rw [fmaddI64, Op.raw]
      split
      · exact holds.fmaddPos a b.unsignedAbs
      · exact holds.fmaddNeg a b.unsignedAbs
  | fmaddSignedU64 value magnitude isPositive =>
      cases isPositive with
      | true => exact holds.fmaddPos value magnitude
      | false => exact holds.add _
  | fmaddS256 value scalar =>
      obtain ⟨magnitude, isPositive⟩ := scalar
      cases isPositive with
      | true => exact holds.add _
      | false => exact holds.add _
  | fmaddBool a b =>
      cases b with
      | true => exact holds.add a
      | false => exact holds

theorem Holds.run (history : History) : Holds (history.run (accumulator ark)) (history.raw ark) := by
  induction history with
  | default => exact ⟨Limbs.toNat_zero, Limbs.toNat_zero⟩
  | op history call ih => exact ih.call call
  | merge history other ih ih' => exact ih.merge ih'

end FrSmallScalarAccumulator

/-! ## The field sum -/

/-- The raw sums of a call differ by its value in Montgomery form. -/
theorem Op.raw_value (ark : ArkFr) (call : Op) :
    ((call.raw ark).1 : ZMod order) - (call.raw ark).2 = call.value * 2 ^ 256 := by
  cases call with
  | add value => simp [raw, Op.value, Fr.cast_toNat]
  | fmadd a b => simp [raw, Op.value, Fr.cast_toNat]
  | fmaddU8 a b => simp [raw, Op.value, Fr.cast_toNat]
  | fmaddU64 a b =>
      simp only [raw, Op.value, Nat.cast_mul, Fr.cast_toNat, Nat.cast_zero]
      ring
  | fmaddU128 a b => simp [raw, Op.value, Fr.cast_toNat]
  | fmaddI64 a b =>
      have abs : ((b.1.natAbs : ℕ) : ZMod order) = ((|b.1| : ℤ) : ZMod order) := by
        rw [← Int.natCast_natAbs, Int.cast_natCast]
      rw [raw]
      split_ifs with sign
      · simp only [Op.value, Nat.cast_mul, Fr.cast_toNat, Nat.cast_zero, abs, abs_of_nonneg sign]
        ring
      · simp only [Op.value, Nat.cast_mul, Fr.cast_toNat, Nat.cast_zero, abs, abs_of_neg (not_le.mp sign),
          Int.cast_neg]
        ring
  | fmaddSignedU64 value magnitude isPositive =>
      cases isPositive with
      | true =>
          simp only [raw, Op.value, if_true, Nat.cast_mul, Fr.cast_toNat, Nat.cast_zero]
          ring
      | false =>
          have limbs : (SignedBigInt.fromU64WithSign magnitude false : S256).magnitude.toNat = magnitude.val :=
            Limbs.toNat_fromU64 (by norm_num) magnitude.isLt
          simp [raw, Op.value, Fr.cast_toNat, limbs]
  | fmaddS256 value scalar =>
      obtain ⟨magnitude, isPositive⟩ := scalar
      cases isPositive with
      | true => simp [raw, Op.value, Fr.cast_toNat, Signed.toInt]
      | false => simp [raw, Op.value, Fr.cast_toNat, Signed.toInt]
  | fmaddBool a b =>
      cases b with
      | true => simp [raw, Op.value, Fr.cast_toNat]
      | false => simp [raw, Op.value]

theorem History.raw_value (ark : ArkFr) (history : History) :
    ((history.raw ark).1 : ZMod order) - (history.raw ark).2 = history.value * 2 ^ 256 := by
  induction history with
  | default => simp [raw, value]
  | op history call ih =>
      have last := call.raw_value ark
      simp only [raw, value, Prod.fst_add, Prod.snd_add, Nat.cast_add]
      linear_combination ih + last
  | merge history other ih ih' =>
      simp only [raw, value, Prod.fst_add, Prod.snd_add, Nat.cast_add]
      linear_combination ih + ih'

/-! ## Reduction -/

/-- A number of 320 bits keeps its element when the bits from 318 on are dropped only if they are zero. -/
theorem dropped_bits {n : ℕ} (small : n < limbBase ^ 5) :
    ((n % 2 ^ 318 : ℕ) : ZMod order) = (n : ZMod order) ↔ n < 2 ^ 318 := by
  constructor
  · intro same
    by_contra large
    have none : ((2 ^ 318 * (n / 2 ^ 318) : ℕ) : ZMod order) = 0 := by
      have split := congrArg (Nat.cast : ℕ → ZMod order) (Nat.mod_add_div n (2 ^ 318))
      rwa [Nat.cast_add, same, add_eq_left] at split
    rw [ZMod.natCast_eq_zero_iff] at none
    -- The modulus divides what was dropped, which is below four.
    have positive : 0 < n / 2 ^ 318 := by omega
    have le := Nat.le_of_dvd positive (dvd_of_dvd_pow_mul none)
    simp only [limbBase, order] at small le
    omega
  · intro less
    rw [Nat.mod_eq_of_lt less]

/-- The Barrett step on a number of 320 bits. -/
theorem barrett_isMontgomery_iff {c : Limbs 5} {x : ZMod order} (value : (c.toNat : ZMod order) = x * 2 ^ 256) :
    IsMontgomery (barrettReduce5To4 c) x ↔ c.toNat < 2 ^ 318 := by
  rw [← dropped_bits c.toNat_lt, value]
  have cast : ((barrettReduce5To4 c).toNat : ZMod order) = ((c.toNat % 2 ^ 318 : ℕ) : ZMod order) := by
    rw [toNat_barrettReduce5To4, ZMod.natCast_mod]
  rw [← cast]
  exact ⟨fun is => is.value, fun same => ⟨by
    rw [toNat_barrettReduce5To4]
    exact Nat.mod_lt _ order_pos, same⟩⟩

/-- Negation loses nothing. -/
theorem neg_isMontgomery_iff (ark : ArkFr) {a : Limbs 4} {x : ZMod order} (canonical : a.toNat < order) :
    IsMontgomery (ark.neg a) x ↔ IsMontgomery a (-x) := by
  constructor
  · intro is
    have own : IsMontgomery (ark.neg a) (-(⟨a, canonical⟩ : Fr).value) :=
      ark.neg_isMontgomery (Fr.isMontgomery ⟨a, canonical⟩)
    have same : x * 2 ^ 256 = -(⟨a, canonical⟩ : Fr).value * 2 ^ 256 := is.value.symm.trans own.value
    refine ⟨canonical, ?_⟩
    rw [neg_mul, same, neg_mul, neg_neg]
    exact (Fr.isMontgomery ⟨a, canonical⟩).value
  · intro is
    have negated := ark.neg_isMontgomery is
    rwa [neg_neg] at negated

namespace FrSmallScalarAccumulator

/-- The reduction is exact if and only if the difference of the sums fits 318 bits. -/
theorem reduce_iff (ark : ArkFr) {acc : FrSmallScalarAccumulator} {x : ZMod order}
    (value : (acc.pos.toNat : ZMod order) - acc.neg.toNat = x * 2 ^ 256) :
    IsMontgomery (reduce ark acc) x ↔ Nat.dist acc.pos.toNat acc.neg.toNat < 2 ^ 318 := by
  have order_ : acc.pos.cmp acc.neg ≠ .lt ↔ acc.neg.toNat ≤ acc.pos.toNat := by
    rw [Limbs.cmp_eq, ne_eq, compare_lt_iff_lt, Nat.not_lt]
  rw [reduce]
  split_ifs with ge
  · have le := order_.mp ge
    have difference : (acc.pos.subTrunc acc.neg : Limbs 5).toNat = acc.pos.toNat - acc.neg.toNat :=
      Limbs.toNat_subTrunc acc.pos.toNat_lt le
    rw [barrett_isMontgomery_iff (by rw [difference, Nat.cast_sub le, value]), difference, Nat.dist_comm,
      Nat.dist_eq_sub_of_le le]
  · have le : acc.pos.toNat ≤ acc.neg.toNat := (Nat.lt_of_not_le (order_.not.mp ge)).le
    have difference : (acc.neg.subTrunc acc.pos : Limbs 5).toNat = acc.neg.toNat - acc.pos.toNat :=
      Limbs.toNat_subTrunc acc.neg.toNat_lt le
    have canonical : (barrettReduce5To4 (acc.neg.subTrunc acc.pos)).toNat < order := by
      rw [toNat_barrettReduce5To4]
      exact Nat.mod_lt _ order_pos
    rw [neg_isMontgomery_iff ark canonical, barrett_isMontgomery_iff (by
      rw [difference, Nat.cast_sub le, neg_mul, ← value, neg_sub]), difference, Nat.dist_eq_sub_of_le le]

/-- The largest canonical limbs. -/
def greatest : Fr := ⟨limbsOfNat (order - 1), by rw [toNat_limbsOfNat] <;> norm_num [order]⟩

/-- Two products of a full-magnitude element by a full-magnitude scalar. -/
def twoProducts : History :=
  .op (.op .default (.fmaddU64 greatest (2 ^ 64 - 1))) (.fmaddU64 greatest (2 ^ 64 - 1))

/-- Two full-magnitude products already exceed what the Barrett step reads. -/
theorem twoProducts_reduce : ¬ ∀ (ark : ArkFr) (history : History), (history.raw ark).1 < 2 ^ 320 →
    (history.raw ark).2 < 2 ^ 320 →
      IsMontgomery (reduce ark (history.run (accumulator ark))) history.value := by
  intro always
  have sums : (twoProducts.raw .reference).1 = 2 * ((order - 1) * (2 ^ 64 - 1)) ∧
      (twoProducts.raw .reference).2 = 0 := by decide
  have exact_ := always .reference twoProducts (by
    rw [sums.1]
    simp only [order]
    omega) (by
    rw [sums.2]
    norm_num)
  have value := twoProducts.raw_value .reference
  rw [sums.1, sums.2, Nat.cast_zero, sub_zero, ← exact_.value] at value
  have same := (ZMod.natCast_eq_natCast_iff' _ _ _).mp value
  revert same
  decide

/-- While both sums fit five limbs, the reduction of a history is the field sum of its products if and only
if the sums differ by less than `2^318`. -/
theorem reduce_run_iff (ark : ArkFr) (history : History) (posFits : (history.raw ark).1 < 2 ^ 320)
    (negFits : (history.raw ark).2 < 2 ^ 320) :
    IsMontgomery (reduce ark (history.run (accumulator ark))) history.value ↔
      Nat.dist (history.raw ark).1 (history.raw ark).2 < 2 ^ 318 := by
  have holds := @Holds.run ark history
  have width : limbBase ^ 5 = 2 ^ 320 := by simp only [limbBase, ← pow_mul, Nat.reduceMul]
  have pos := holds.pos
  have neg := holds.neg
  rw [width, Nat.mod_eq_of_lt posFits] at pos
  rw [width, Nat.mod_eq_of_lt negFits] at neg
  rw [reduce_iff ark (by rw [pos, neg, history.raw_value]), pos, neg]

/-- One product. -/
def oneProduct : History := .op .default (.fmaddU64 greatest (2 ^ 64 - 1))

theorem oneProduct_reduce : IsMontgomery (reduce .reference (oneProduct.run (accumulator .reference)))
    oneProduct.value := by
  have sums : (oneProduct.raw .reference).1 = (order - 1) * (2 ^ 64 - 1) ∧ (oneProduct.raw .reference).2 = 0 := by
    decide
  refine (reduce_run_iff .reference oneProduct ?_ ?_).mpr ?_
  · rw [sums.1]
    simp only [order]
    omega
  · rw [sums.2]
    norm_num
  · rw [sums.1, sums.2, Nat.dist_zero_right]
    simp only [order]
    omega

end FrSmallScalarAccumulator

end Mont

end JoltWasm
