import JoltWasm.Field.SmallScalar
import JoltWasm.Field.WideSums

/-!
# When the reductions of slots are exact

The documented headroom is `2^63` calls.  Within it, a reduction returns the field sum of the products if
and only if no slot has received `2^128` or more, which is certain up to `2^61` calls.
-/

namespace JoltWasm

open Lib

namespace Mont

open Slots

/-! ## What has wrapped -/

variable {s : Slots} {raw : Fin 8 → ℕ} {terms : ℕ}

/-- How often a slot has wrapped. -/
def wraps (raw : Fin 8 → ℕ) (k : Fin 8) : ℕ := raw k / 2 ^ 128

theorem Slots.Tracks.number (tracks : Tracks s raw) :
    Slots.number raw = Slots.number s.slots + 2 ^ 128 * Slots.number (wraps raw) := by
  rw [Slots.number, Slots.number, Slots.number, Finset.mul_sum, ← Finset.sum_add_distrib]
  refine Finset.sum_congr rfl fun k _ => ?_
  rw [tracks.slots, wraps, ← mul_assoc, ← Nat.add_mul, Nat.mod_add_div]

/-- Within the documented headroom a slot wraps at most three times, and the outermost slots never. -/
theorem Grown.wraps_le (grown : Grown raw terms) (few : terms ≤ 2 ^ 63) :
    (∀ k, wraps raw k ≤ 3) ∧ wraps raw 0 = 0 ∧ wraps raw 7 = 0 := by
  have first := grown.first
  have last := grown.last
  refine ⟨fun k => ?_, ?_, ?_⟩
  · have all := grown.all k
    rw [wraps]
    omega
  · rw [wraps]
    omega
  · rw [wraps]
    omega

/-- No slot has received more than it holds. -/
def Fits (raw : Fin 8 → ℕ) : Prop := ∀ k, raw k < 2 ^ 128

instance (raw : Fin 8 → ℕ) : Decidable (Fits raw) := inferInstanceAs (Decidable (∀ k, raw k < 2 ^ 128))

theorem fits_iff_wraps : Fits raw ↔ ∀ k, wraps raw k = 0 :=
  forall_congr' fun k => by
    rw [wraps, Nat.div_eq_zero_iff]
    omega

theorem Slots.Tracks.overflowed_iff (tracks : Tracks s raw) : s.overflowed = false ↔ Fits raw := by
  rw [← Bool.not_eq_true, tracks.overflowed, not_exists]
  exact forall_congr' fun k => Nat.not_le

theorem Slots.Tracks.slots_eq (tracks : Tracks s raw) (fits : Fits raw) : s.slots = raw :=
  funext fun k => by rw [tracks.slots, Nat.mod_eq_of_lt (fits k)]

/-- Up to `2^61` calls no slot can wrap. -/
theorem Grown.fits (grown : Grown raw terms) (few : terms ≤ 2 ^ 61) : Fits raw := fun k => by
  have all := grown.all k
  omega

/-- The slots as limbs, within the documented headroom. -/
theorem Slots.Tracks.toNat_normalize (tracks : Tracks s raw) (grown : Grown raw terms) (few : terms ≤ 2 ^ 63) :
    (normalize s).toNat = Slots.number s.slots := by
  refine toNat_normalize_of_small tracks.small ?_
  have last := grown.last
  have le := tracks.le 7
  omega

/-- The number in the slots stands for the raw sums if and only if nothing has wrapped. -/
theorem Slots.Tracks.cast_number_iff (tracks : Tracks s raw) (grown : Grown raw terms) (few : terms ≤ 2 ^ 63) :
    (Slots.number s.slots : ZMod order) = Slots.number raw ↔ Fits raw := by
  obtain ⟨small, first, last⟩ := grown.wraps_le few
  rw [fits_iff_wraps]
  constructor
  · intro same
    refine wrapped_zero small first last ?_
    rw [tracks.number, Nat.cast_add, left_eq_add, ZMod.natCast_eq_zero_iff] at same
    exact dvd_of_dvd_pow_mul same
  · intro none
    rw [tracks.slots_eq (fits_iff_wraps.mpr none)]

/-! ## The wide accumulator -/

namespace WideAccumulator

variable {ark : ArkFr}

theorem reduce_eq : (accumulator ark).reduce = fun acc => fromMontgomeryReduce acc.normalize := by
  rw [accumulator]

/-- Within the documented headroom: no slot overflows and the reduction is the field sum of the products,
if and only if every slot holds what it receives. -/
theorem exact_iff (history : History) (few : history.terms ≤ 2 ^ 63) :
    ((history.run (accumulator ark)).overflowed = false ∧
      IsMontgomery ((accumulator ark).reduce (history.run (accumulator ark))) history.value) ↔
    Fits (history.wide ark) := by
  have tracks := history.wide_tracks ark
  have grown := history.wide_grown ark
  have reduced : IsMontgomery ((accumulator ark).reduce (history.run (accumulator ark))) history.value ↔
      Fits (history.wide ark) := by
    rw [reduce_eq, reduce_isMontgomery_iff, tracks.toNat_normalize grown few, ← history.wide_value ark]
    exact tracks.cast_number_iff grown few
  rw [reduced, tracks.overflowed_iff, and_self]

end WideAccumulator

/-! ## The signed-product accumulator -/

theorem r2_isMontgomery : IsMontgomery r2 (2 ^ 256) :=
  isMontgomery_of_mod (n := 2 ^ 256 * 2 ^ 256) (by decide) (by rw [Nat.cast_mul, Nat.cast_pow, Nat.cast_ofNat])

/-- What a call adds to the slots of the positive and of the negative products. -/
def Op.signed (ark : ArkFr) : Op → List (Fin 8 × ℕ) × List (Fin 8 × ℕ)
  | .add value => (products value.limbs (Limbs.fromU64 1), [])
  | .fmadd a b => (products (a.mul ark b).limbs (Limbs.fromU64 1), [])
  | .fmaddU8 a b => (products (a.mul ark (.fromU8 ark b)).limbs (Limbs.fromU64 1), [])
  | .fmaddU64 a b => (products a.limbs (Limbs.fromU64 b), [])
  | .fmaddU128 a b => (products (a.mul ark (.fromU128 ark b)).limbs (Limbs.fromU64 1), [])
  | .fmaddI64 a b =>
      if 0 ≤ b.1 then (products a.limbs (Limbs.fromU64 b.unsignedAbs), [])
      else ([], products a.limbs (Limbs.fromU64 b.unsignedAbs))
  | .fmaddSignedU64 value magnitude isPositive =>
      if isPositive then (products value.limbs (Limbs.fromU64 magnitude), [])
      else ([], products value.limbs (Limbs.fromU64 magnitude))
  | .fmaddS256 value scalar =>
      if scalar.magnitude.isZero then ([], [])
      else if scalar.isPositive then (products value.limbs scalar.magnitude, [])
      else ([], products value.limbs scalar.magnitude)
  | .fmaddBool a b => if b then (products a.limbs (Limbs.fromU64 1), []) else ([], [])

/-- What a history adds to each of the positive and of the negative slots. -/
def History.signed (ark : ArkFr) : History → (Fin 8 → ℕ) × (Fin 8 → ℕ)
  | .default => 0
  | .op history call => history.signed ark + (total (call.signed ark).1, total (call.signed ark).2)
  | .merge history other => history.signed ark + other.signed ark

variable {ark : ArkFr}

theorem Op.apply_signed (call : Op) (state : FrSignedProductAccumulator) :
    call.apply (FrSignedProductAccumulator.accumulator ark) state =
      ⟨state.pos.bumps (call.signed ark).1, state.neg.bumps (call.signed ark).2⟩ := by
  cases call with
  | fmaddI64 a b =>
      change FrSignedProductAccumulator.fmaddSigned _ _ _ _ = _
      rw [FrSignedProductAccumulator.fmaddSigned, signed]
      by_cases sign : 0 ≤ b.1
      · rw [if_pos (decide_eq_true sign), if_pos sign]
        rfl
      · rw [if_neg (by simpa using sign), if_neg sign]
        rfl
  | fmaddSignedU64 value magnitude isPositive => cases isPositive <;> rfl
  | fmaddS256 value scalar =>
      obtain ⟨magnitude, isPositive⟩ := scalar
      change (if magnitude.isZero then state else _) = _
      rw [signed]
      split_ifs with zero sign
      · rfl
      · cases sign
        rfl
      · cases (Bool.not_eq_true _).mp sign
        rfl
  | fmaddBool a b => cases b <;> rfl
  | _ => rfl

theorem Op.signed_bounded (call : Op) :
    Bounded (total (call.signed ark).1) ∧ Bounded (total (call.signed ark).2) := by
  cases call with
  | fmaddI64 a b =>
      rw [signed]
      split_ifs
      · exact ⟨products_bounded a.limb_three_lt, empty_bounded⟩
      · exact ⟨empty_bounded, products_bounded a.limb_three_lt⟩
  | fmaddSignedU64 value magnitude isPositive =>
      cases isPositive with
      | true => exact ⟨products_bounded value.limb_three_lt, empty_bounded⟩
      | false => exact ⟨empty_bounded, products_bounded value.limb_three_lt⟩
  | fmaddS256 value scalar =>
      rw [signed]
      split_ifs
      · exact ⟨empty_bounded, empty_bounded⟩
      · exact ⟨products_bounded value.limb_three_lt, empty_bounded⟩
      · exact ⟨empty_bounded, products_bounded value.limb_three_lt⟩
  | fmaddBool a b =>
      cases b with
      | true => exact ⟨products_bounded a.limb_three_lt, empty_bounded⟩
      | false => exact ⟨empty_bounded, empty_bounded⟩
  | add value => exact ⟨products_bounded value.limb_three_lt, empty_bounded⟩
  | fmadd a b => exact ⟨products_bounded (a.mul ark b).limb_three_lt, empty_bounded⟩
  | fmaddU8 a b => exact ⟨products_bounded (a.mul ark (.fromU8 ark b)).limb_three_lt, empty_bounded⟩
  | fmaddU64 a b => exact ⟨products_bounded a.limb_three_lt, empty_bounded⟩
  | fmaddU128 a b => exact ⟨products_bounded (a.mul ark (.fromU128 ark b)).limb_three_lt, empty_bounded⟩

/-- The product of an element by a plain integer. -/
theorem Fr.number_integer (a : Fr) (b : Limbs 4) :
    ((number (total (products a.limbs b)) : ℕ) : ZMod order) = a.value * b.toNat * 2 ^ 256 := by
  rw [Slots.number_products, Nat.cast_mul, a.cast_toNat, mul_right_comm]

theorem Fr.number_u64 (a : Fr) (b : U64) :
    ((number (total (products a.limbs (Limbs.fromU64 b))) : ℕ) : ZMod order) = a.value * b.val * 2 ^ 256 := by
  rw [a.number_integer, Limbs.toNat_fromU64 (by norm_num) b.isLt]

theorem Fr.number_one (a : Fr) :
    ((number (total (products a.limbs (Limbs.fromU64 1))) : ℕ) : ZMod order) = a.value * 2 ^ 256 := by
  have one := a.number_u64 1
  rwa [Fin.val_one, Nat.cast_one, mul_one] at one

theorem number_nil : number (total []) = 0 := by simp [number, total]

/-- The difference of the two sums of a call. -/
theorem Op.signed_value (ark : ArkFr) (call : Op) : ((number (total (call.signed ark).1) : ℕ) : ZMod order) -
    (number (total (call.signed ark).2) : ℕ) = call.value * 2 ^ 256 := by
  cases call with
  | add value => rw [signed, value.number_one, number_nil, Nat.cast_zero, sub_zero]; rfl
  | fmadd a b => rw [signed, Fr.number_one, number_nil, Nat.cast_zero, sub_zero, Fr.value_mul]; rfl
  | fmaddU8 a b =>
      rw [signed, Fr.number_one, number_nil, Nat.cast_zero, sub_zero, Fr.value_mul, Fr.value_fromU8]
      rfl
  | fmaddU64 a b => rw [signed, a.number_u64, number_nil, Nat.cast_zero, sub_zero]; rfl
  | fmaddU128 a b =>
      rw [signed, Fr.number_one, number_nil, Nat.cast_zero, sub_zero, Fr.value_mul, Fr.value_fromU128]
      rfl
  | fmaddI64 a b =>
      have abs : ((b.unsignedAbs.val : ℕ) : ZMod order) = ((|b.1| : ℤ) : ZMod order) := by
        rw [← Int.natCast_natAbs, Int.cast_natCast]
        rfl
      rw [signed]
      split_ifs with sign
      · rw [a.number_u64, number_nil, abs, abs_of_nonneg sign, Nat.cast_zero, sub_zero]
        rfl
      · rw [a.number_u64, number_nil, abs, abs_of_neg (not_le.mp sign), Nat.cast_zero, zero_sub, Int.cast_neg,
          mul_neg, neg_mul, neg_neg]
        rfl
  | fmaddSignedU64 value magnitude isPositive =>
      cases isPositive with
      | true =>
          change ((number (total (products _ _)) : ℕ) : ZMod order) - (number (total []) : ℕ) = _
          rw [value.number_u64, number_nil, Nat.cast_zero, sub_zero]
          rfl
      | false =>
          change ((number (total []) : ℕ) : ZMod order) - (number (total (products _ _)) : ℕ) = _
          rw [value.number_u64, number_nil, Nat.cast_zero, zero_sub, ← neg_mul]
          rfl
  | fmaddS256 value scalar =>
      obtain ⟨magnitude, isPositive⟩ := scalar
      rw [signed]
      split_ifs with zero sign
      · have none := (Limbs.isZero_iff magnitude).mp zero
        cases isPositive <;> simp [Op.value, Signed.toInt, none]
      · cases sign
        rw [value.number_integer, number_nil, Nat.cast_zero, sub_zero]
        simp [Op.value, Signed.toInt]
      · cases (Bool.not_eq_true _).mp sign
        rw [value.number_integer, number_nil, Nat.cast_zero, zero_sub]
        simp [Op.value, Signed.toInt]
  | fmaddBool a b =>
      cases b with
      | true =>
          change ((number (total (products _ _)) : ℕ) : ZMod order) - (number (total []) : ℕ) = _
          rw [a.number_one, number_nil, Nat.cast_zero, sub_zero]
          rfl
      | false => simp [signed, Op.value]

theorem History.signed_tracks (ark : ArkFr) (history : History) :
    Tracks (history.run (FrSignedProductAccumulator.accumulator ark)).pos (history.signed ark).1 ∧
      Tracks (history.run (FrSignedProductAccumulator.accumulator ark)).neg (history.signed ark).2 := by
  induction history with
  | default => exact ⟨zero_tracks, zero_tracks⟩
  | op history call ih =>
      rw [run, Op.apply_signed]
      exact ⟨ih.1.bumps _, ih.2.bumps _⟩
  | merge history other ih ih' => exact ⟨ih.1.merge ih'.1, ih.2.merge ih'.2⟩

theorem History.signed_grown (ark : ArkFr) (history : History) :
    Grown (history.signed ark).1 history.terms ∧ Grown (history.signed ark).2 history.terms := by
  induction history with
  | default => exact ⟨.zero, .zero⟩
  | op history call ih =>
      exact ⟨ih.1.add call.signed_bounded.1.grown, ih.2.add call.signed_bounded.2.grown⟩
  | merge history other ih ih' => exact ⟨ih.1.add ih'.1, ih.2.add ih'.2⟩

theorem History.signed_value (ark : ArkFr) (history : History) : ((number (history.signed ark).1 : ℕ) : ZMod order) -
    (number (history.signed ark).2 : ℕ) = history.value * 2 ^ 256 := by
  induction history with
  | default => simp [signed, value, number]
  | op history call ih =>
      have last := call.signed_value ark
      simp only [signed, value, Prod.fst_add, Prod.snd_add, number_add, Nat.cast_add]
      linear_combination ih + last
  | merge history other ih ih' =>
      simp only [signed, value, Prod.fst_add, Prod.snd_add, number_add, Nat.cast_add]
      linear_combination ih + ih'

namespace FrSignedProductAccumulator

/-- The reduction multiplies by `2^256` what the Montgomery reduction has divided twice. -/
theorem reduce_isMontgomery {acc : FrSignedProductAccumulator} {x : ZMod order}
    (value : (acc.pos.normalize.toNat : ZMod order) - acc.neg.normalize.toNat = x * 2 ^ 256) :
    IsMontgomery (reduce ark acc) x := by
  have inverse : (2 ^ 256 : ZMod order)⁻¹ * 2 ^ 256 = 1 := by rw [mul_comm, r_mul_inv]
  -- The difference has the value of the sum, divided by `2^256`.
  have scaled : x * (2 ^ 256 : ZMod order)⁻¹ * 2 ^ 512 = x * 2 ^ 256 := by
    rw [show (512 : ℕ) = 256 + 256 from rfl, pow_add, ← mul_assoc, mul_assoc x, inverse, mul_one]
  have back : x * (2 ^ 256 : ZMod order)⁻¹ * 2 ^ 256 = x := by rw [mul_assoc, inverse, mul_one]
  have order_ : acc.pos.normalize.cmp acc.neg.normalize ≠ .lt ↔
      acc.neg.normalize.toNat ≤ acc.pos.normalize.toNat := by
    rw [Limbs.cmp_eq, ne_eq, compare_lt_iff_lt, Nat.not_lt]
  have reduced : IsMontgomery (if acc.pos.normalize.cmp acc.neg.normalize ≠ .lt then
        fromMontgomeryReduce (acc.pos.normalize.subTrunc acc.neg.normalize : Limbs (8 + 1))
      else ark.neg (fromMontgomeryReduce (acc.neg.normalize.subTrunc acc.pos.normalize : Limbs (8 + 1))))
      (x * (2 ^ 256 : ZMod order)⁻¹) := by
    split_ifs with ge
    · have le := order_.mp ge
      refine reduce_isMontgomery_iff.mpr ?_
      rw [Limbs.toNat_subTrunc acc.pos.normalize.toNat_lt le, Nat.cast_sub le, value, scaled]
    · have le : acc.pos.normalize.toNat ≤ acc.neg.normalize.toNat :=
        (Nat.lt_of_not_le (order_.not.mp ge)).le
      have opposite : IsMontgomery (fromMontgomeryReduce (acc.neg.normalize.subTrunc acc.pos.normalize :
          Limbs (8 + 1))) (-(x * (2 ^ 256 : ZMod order)⁻¹)) := by
        rw [reduce_isMontgomery_iff, Limbs.toNat_subTrunc acc.neg.normalize.toNat_lt le, Nat.cast_sub le,
          neg_mul, scaled, ← value, neg_sub]
      have negated := ark.neg_isMontgomery opposite
      rwa [neg_neg] at negated
  have result := ark.mul_isMontgomery reduced r2_isMontgomery
  rwa [back] at result

/-- Within the documented headroom: no slot overflows and the reduction is the field sum of the products,
if and only if every slot holds what it receives. -/
theorem exact_iff (history : History) (few : history.terms ≤ 2 ^ 63) :
    ((history.run (accumulator ark)).pos.overflowed = false ∧
      (history.run (accumulator ark)).neg.overflowed = false ∧
      IsMontgomery ((accumulator ark).reduce (history.run (accumulator ark))) history.value) ↔
    Fits (history.signed ark).1 ∧ Fits (history.signed ark).2 := by
  obtain ⟨pos, neg⟩ := history.signed_tracks ark
  obtain ⟨grownPos, grownNeg⟩ := history.signed_grown ark
  rw [pos.overflowed_iff, neg.overflowed_iff]
  refine ⟨fun holds => ⟨holds.1, holds.2.1⟩, fun fits => ⟨fits.1, fits.2, reduce_isMontgomery ?_⟩⟩
  rw [pos.toNat_normalize grownPos few, neg.toNat_normalize grownNeg few, pos.slots_eq fits.1,
    neg.slots_eq fits.2]
  exact history.signed_value ark

end FrSignedProductAccumulator

/-! ## Both accumulators -/

/-- No slot has overflowed before the reduction, and the reduction is the field sum of the products. -/
def WideAccumulator.Exact (ark : ArkFr) (history : History) : Prop :=
  (history.run (accumulator ark)).overflowed = false ∧
    IsMontgomery ((accumulator ark).reduce (history.run (accumulator ark))) history.value

def FrSignedProductAccumulator.Exact (ark : ArkFr) (history : History) : Prop :=
  ((history.run (accumulator ark)).pos.overflowed = false ∧ (history.run (accumulator ark)).neg.overflowed = false) ∧
    IsMontgomery ((accumulator ark).reduce (history.run (accumulator ark))) history.value

/-- A history merged with itself, again and again. -/
def History.doubled (history : History) : ℕ → History
  | 0 => history
  | n + 1 => .merge (history.doubled n) (history.doubled n)

theorem History.terms_doubled (history : History) (n : ℕ) : (history.doubled n).terms = 2 ^ n * history.terms := by
  induction n with
  | zero => rw [doubled, pow_zero, Nat.one_mul]
  | succ n ih => rw [doubled, terms, ih, pow_succ]; ring

theorem History.wide_doubled (history : History) (n : ℕ) (k : Fin 8) :
    (history.doubled n).wide ark k = 2 ^ n * history.wide ark k := by
  induction n with
  | zero => rw [doubled, pow_zero, Nat.one_mul]
  | succ n ih => rw [doubled, wide, Pi.add_apply, ih, pow_succ]; ring

/-- Three equal limbs: both halves of their square are almost full. -/
def fullHalves : Fr :=
  ⟨⟨[2 ^ 64 - 2 ^ 32 + 1, 2 ^ 64 - 2 ^ 32 + 1, 2 ^ 64 - 2 ^ 32 + 1, 0], rfl, by simp [limbBase]⟩, by decide⟩

/-- The square of this element, `2^62` times. -/
def fullSlots : History := (History.op .default (.fmadd fullHalves fullHalves)).doubled 62

theorem fullSlots_three : 2 ^ 128 ≤ fullSlots.wide ark 3 := by
  have once : total (products fullHalves.limbs fullHalves.limbs) 3 = 5 * (2 ^ 64 - 2 ^ 33) + 8 := by decide
  have slot : (History.op .default (.fmadd fullHalves fullHalves)).wide ark 3 = 5 * (2 ^ 64 - 2 ^ 33) + 8 :=
    (Nat.zero_add _).trans once
  rw [fullSlots, History.wide_doubled, slot]
  norm_num

/-- Half of the documented headroom already overflows a slot. -/
theorem fullSlots_overflows : ¬ ∀ (ark : ArkFr) (history : History), history.terms ≤ 2 ^ 63 →
    WideAccumulator.Exact ark history ∧ FrSignedProductAccumulator.Exact ark history := by
  intro always
  have few : fullSlots.terms ≤ 2 ^ 63 := by
    rw [fullSlots, History.terms_doubled]
    exact (Nat.mul_one _).le.trans (by norm_num)
  have fits := (WideAccumulator.exact_iff fullSlots few).mp (always .reference fullSlots few).1
  exact absurd (fits 3) (Nat.not_lt.mpr fullSlots_three)

/-- Within the documented headroom, each reduction is exact if and only if no slot receives more than it
holds. -/
theorem wideSums_exact_iff (ark : ArkFr) (history : History) (few : history.terms ≤ 2 ^ 63) :
    (WideAccumulator.Exact ark history ↔ Fits (history.wide ark)) ∧
    (FrSignedProductAccumulator.Exact ark history ↔ Fits (history.signed ark).1 ∧ Fits (history.signed ark).2) := by
  refine ⟨WideAccumulator.exact_iff history few, ?_⟩
  rw [FrSignedProductAccumulator.Exact, and_assoc]
  exact FrSignedProductAccumulator.exact_iff history few

/-- One square. -/
theorem oneSquare_exact :
    WideAccumulator.Exact .reference (.op .default (.fmadd fullHalves fullHalves)) ∧
      FrSignedProductAccumulator.Exact .reference (.op .default (.fmadd fullHalves fullHalves)) := by
  have few : (History.op .default (.fmadd fullHalves fullHalves)).terms ≤ 2 ^ 61 := by
    rw [History.terms, History.terms]
    norm_num
  obtain ⟨wide, signed⟩ := wideSums_exact_iff .reference (.op .default (.fmadd fullHalves fullHalves))
    (few.trans (by norm_num))
  exact ⟨wide.mpr ((History.wide_grown _ _).fits few), signed.mpr
    ⟨(History.signed_grown _ _).1.fits few, (History.signed_grown _ _).2.fits few⟩⟩

/-- Up to `2^61` calls every reduction is exact. -/
theorem wideSums_exact (ark : ArkFr) (history : History) (few : history.terms ≤ 2 ^ 61) :
    WideAccumulator.Exact ark history ∧ FrSignedProductAccumulator.Exact ark history := by
  have documented : history.terms ≤ 2 ^ 63 := few.trans (by norm_num)
  refine ⟨(WideAccumulator.exact_iff history documented).mpr ((history.wide_grown ark).fits few), ?_⟩
  rw [FrSignedProductAccumulator.Exact, and_assoc]
  exact (FrSignedProductAccumulator.exact_iff history documented).mpr
    ⟨(history.signed_grown ark).1.fits few, (history.signed_grown ark).2.fits few⟩

end Mont

end JoltWasm
