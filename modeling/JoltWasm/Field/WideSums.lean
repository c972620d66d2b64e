import JoltWasm.Field.SlotSums

/-!
# What the wide accumulators return

Every call adds limb halves to slots.  The reduction is the field sum of the products if and only if no
slot has received `2^128` or more.
-/

namespace JoltWasm

open Lib

namespace Mont

open Slots

theorem Fr.limb_three_lt (a : Fr) : a.limbs.limb 3 < 2 ^ 62 := by
  have canonical := a.canonical
  rw [Limbs.limb_eq]
  simp only [order, limbBase] at canonical ⊢
  omega

theorem empty_bounded : Bounded (total []) := ⟨fun _ => Nat.zero_le _, Nat.zero_le _, Nat.zero_le _⟩

/-- The limbs of an element, four positions up. -/
def Fr.limbsAt (a : Fr) : List (Fin 8 × ℕ) := (List.finRange 4).map fun i : Fin 4 => (upperAt i, a.limbs.limb i)

theorem Fr.number_limbsAt (a : Fr) : ((number (total a.limbsAt) : ℕ) : ZMod order) = a.value * 2 ^ 512 := by
  have power : ((limbBase ^ 4 : ℕ) : ZMod order) = 2 ^ 256 := by
    rw [show limbBase ^ 4 = 2 ^ 256 by norm_num, Nat.cast_pow, Nat.cast_ofNat]
  rw [limbsAt, number_limbs, Nat.cast_mul, a.cast_toNat, power, mul_assoc, ← pow_add]

theorem Fr.number_products (a b : Fr) :
    ((number (total (products a.limbs b.limbs)) : ℕ) : ZMod order) = a.value * b.value * 2 ^ 512 := by
  rw [Slots.number_products, Nat.cast_mul, a.cast_toNat, b.cast_toNat, mul_mul_mul_comm, ← pow_add]

/-! ## The wide accumulator -/

/-- What a call adds to the slots. -/
def Op.wide (ark : ArkFr) : Op → List (Fin 8 × ℕ)
  | .add value => value.limbsAt
  | .fmadd a b => products a.limbs b.limbs
  | .fmaddU8 a b => products a.limbs (Fr.fromU8 ark b).limbs
  | .fmaddU64 a b => (a.mulU64 b).limbsAt
  | .fmaddU128 a b => (a.mulU128 b).limbsAt
  | .fmaddI64 a b => products a.limbs (Fr.fromI64 ark b).limbs
  | .fmaddSignedU64 value magnitude isPositive =>
      if isPositive then (value.mulU64 magnitude).limbsAt
      else products (value.neg ark).limbs (Fr.ofMagnitude ark (SignedBigInt.fromU64WithSign magnitude false)).limbs
  | .fmaddS256 value scalar =>
      if scalar.isPositive then products value.limbs (Fr.ofMagnitude ark scalar).limbs
      else products (value.neg ark).limbs (Fr.ofMagnitude ark scalar).limbs
  | .fmaddBool a b => if b then a.limbsAt else []

variable {ark : ArkFr}

theorem Op.apply_wide (call : Op) (state : Slots) :
    call.apply (WideAccumulator.accumulator ark) state = state.bumps (call.wide ark) := by
  cases call with
  | fmaddSignedU64 value magnitude isPositive => cases isPositive <;> rfl
  | fmaddS256 value scalar =>
      obtain ⟨magnitude, isPositive⟩ := scalar
      cases isPositive <;> rfl
  | fmaddBool a b => cases b <;> rfl
  | _ => rfl

theorem Op.wide_bounded (call : Op) : Bounded (total (call.wide ark)) := by
  cases call with
  | add value => exact limbs_bounded value.limb_three_lt
  | fmaddU64 a b => exact limbs_bounded (a.mulU64 b).limb_three_lt
  | fmaddU128 a b => exact limbs_bounded (a.mulU128 b).limb_three_lt
  | fmaddSignedU64 value magnitude isPositive =>
      cases isPositive with
      | true => exact limbs_bounded (value.mulU64 magnitude).limb_three_lt
      | false => exact products_bounded (value.neg ark).limb_three_lt
  | fmaddS256 value scalar =>
      rw [wide]
      split_ifs
      · exact products_bounded value.limb_three_lt
      · exact products_bounded (value.neg ark).limb_three_lt
  | fmaddBool a b =>
      cases b with
      | true => exact limbs_bounded a.limb_three_lt
      | false => exact empty_bounded
  | fmadd a b => exact products_bounded a.limb_three_lt
  | fmaddU8 a b => exact products_bounded a.limb_three_lt
  | fmaddI64 a b => exact products_bounded a.limb_three_lt

theorem Op.wide_value (call : Op) :
    ((number (total (call.wide ark)) : ℕ) : ZMod order) = call.value * 2 ^ 512 := by
  cases call with
  | add value => exact value.number_limbsAt
  | fmadd a b => exact a.number_products b
  | fmaddU8 a b => rw [wide, Fr.number_products, Fr.value_fromU8]; rfl
  | fmaddU64 a b => rw [wide, Fr.number_limbsAt, Fr.value_mulU64]; rfl
  | fmaddU128 a b => rw [wide, Fr.number_limbsAt, Fr.value_mulU128]; rfl
  | fmaddI64 a b => rw [wide, Fr.number_products, Fr.value_fromI64]; rfl
  | fmaddSignedU64 value magnitude isPositive =>
      cases isPositive with
      | true =>
          refine ((value.mulU64 magnitude).number_limbsAt).trans ?_
          rw [Fr.value_mulU64]
          rfl
      | false =>
          have limbs : (SignedBigInt.fromU64WithSign magnitude false : S256).magnitude.toNat = magnitude.val :=
            Limbs.toNat_fromU64 (by norm_num) magnitude.isLt
          refine ((value.neg ark).number_products _).trans ?_
          rw [Fr.value_neg, Fr.value_ofMagnitude, limbs, neg_mul]
          rfl
  | fmaddS256 value scalar =>
      rw [wide]
      split_ifs with sign
      · rw [Fr.number_products, Fr.value_ofMagnitude]
        simp [Op.value, Signed.toInt, sign]
      · rw [Fr.number_products, Fr.value_ofMagnitude]
        simp [Op.value, Signed.toInt, sign]
  | fmaddBool a b =>
      cases b with
      | true => exact a.number_limbsAt
      | false => simp [wide, Op.value, number, total]

/-- What a history adds to each slot. -/
def History.wide (ark : ArkFr) : History → Fin 8 → ℕ
  | .default => 0
  | .op history call => history.wide ark + total (call.wide ark)
  | .merge history other => history.wide ark + other.wide ark

theorem History.wide_tracks (ark : ArkFr) (history : History) :
    Tracks (history.run (WideAccumulator.accumulator ark)) (history.wide ark) := by
  induction history with
  | default => exact zero_tracks
  | op history call ih =>
      rw [run, Op.apply_wide]
      exact ih.bumps (call.wide ark)
  | merge history other ih ih' => exact ih.merge ih'

theorem History.wide_value (ark : ArkFr) (history : History) :
    ((number (history.wide ark) : ℕ) : ZMod order) = history.value * 2 ^ 512 := by
  induction history with
  | default => simp [wide, value, number]
  | op history call ih => rw [wide, number_add, Nat.cast_add, ih, call.wide_value, ← add_mul]; rfl
  | merge history other ih ih' => rw [wide, number_add, Nat.cast_add, ih, ih', ← add_mul]; rfl

/-- Slots after a number of calls. -/
structure Grown (raw : Fin 8 → ℕ) (terms : ℕ) : Prop where
  all : ∀ k, raw k ≤ 7 * 2 ^ 64 * terms
  first : raw 0 ≤ 2 ^ 64 * terms
  last : raw 7 ≤ 2 ^ 62 * terms

theorem Grown.zero : Grown 0 0 := ⟨fun _ => Nat.zero_le _, Nat.zero_le _, Nat.zero_le _⟩

theorem Grown.add {raw raw' : Fin 8 → ℕ} {terms terms' : ℕ} (grown : Grown raw terms)
    (grown' : Grown raw' terms') : Grown (raw + raw') (terms + terms') where
  all k := by rw [Nat.mul_add]; exact Nat.add_le_add (grown.all k) (grown'.all k)
  first := by rw [Nat.mul_add]; exact Nat.add_le_add grown.first grown'.first
  last := by rw [Nat.mul_add]; exact Nat.add_le_add grown.last grown'.last

theorem Slots.Bounded.grown {t : Fin 8 → ℕ} (bounded : Bounded t) : Grown t 1 :=
  ⟨bounded.all, bounded.first, bounded.last⟩

theorem History.wide_grown (ark : ArkFr) (history : History) : Grown (history.wide ark) history.terms := by
  induction history with
  | default => exact .zero
  | op history call ih => exact ih.add call.wide_bounded.grown
  | merge history other ih ih' => exact ih.add ih'

/-! ## Reduction of nine limbs -/

/-- The reduction of nine limbs divides twice by `2^256`. -/
theorem reduce_isMontgomery_iff {t : Limbs (8 + 1)} {x : ZMod order} :
    IsMontgomery (fromMontgomeryReduce t) x ↔ (t.toNat : ZMod order) = x * 2 ^ 512 := by
  obtain ⟨canonical, value⟩ := @fromMontgomeryReduce_spec 1 t (.inl Nat.one_pos)
  rw [← value]
  constructor
  · intro is
    rw [is.value, mul_assoc, ← pow_add]
  · intro same
    refine ⟨canonical, ?_⟩
    have cancelled := congrArg (· * (2 ^ 256 : ZMod order)⁻¹) same
    simp only [mul_assoc, r_mul_inv, mul_one] at cancelled
    rw [cancelled, show (512 : ℕ) = 256 + 256 from rfl, pow_add, mul_assoc (2 ^ 256 : ZMod order), r_mul_inv, mul_one]

variable {s : Slots} {raw : Fin 8 → ℕ}

theorem number_eq (raw : Fin 8 → ℕ) : number raw = raw 0 + raw 1 * limbBase + raw 2 * limbBase ^ 2 +
    raw 3 * limbBase ^ 3 + raw 4 * limbBase ^ 4 + raw 5 * limbBase ^ 5 + raw 6 * limbBase ^ 6 +
    raw 7 * limbBase ^ 7 := by
  rw [number, Fin.sum_univ_eight]
  simp only [Fin.val_zero, Fin.val_one, pow_zero, pow_one, mul_one]
  rfl

/-- Nine limbs hold the slots, while the last slot is small. -/
theorem toNat_normalize_of_small (small : ∀ k, s.slots k < 2 ^ 128) (last : s.slots 7 ≤ 2 ^ 127) :
    (normalize s).toNat = number s.slots := by
  refine toNat_normalize small ?_
  have h0 := small 0
  have h1 := small 1
  have h2 := small 2
  have h3 := small 3
  have h4 := small 4
  have h5 := small 5
  have h6 := small 6
  rw [number_eq]
  simp only [limbBase] at *
  omega

/-- What wraps out of the slots, a few times `2^128` each, is no multiple of the modulus. -/
theorem wrapped_zero {e : Fin 8 → ℕ} (small : ∀ k, e k ≤ 3) (first : e 0 = 0) (last : e 7 = 0)
    (divides : order ∣ number e) : ∀ k, e k = 0 := by
  have h1 := small 1
  have h2 := small 2
  have h3 := small 3
  have h4 := small 4
  have h5 := small 5
  have h6 := small 6
  obtain ⟨low, isLow⟩ : ∃ low, low = e 1 + e 2 * limbBase + e 3 * limbBase ^ 2 + e 4 * limbBase ^ 3 := ⟨_, rfl⟩
  have shifted : number e = 2 ^ 64 * (low + (e 5 + e 6 * limbBase) * limbBase ^ 4) := by
    rw [number_eq, first, last, isLow]
    simp only [limbBase]
    ring
  rw [shifted] at divides
  obtain ⟨q, multiple⟩ := dvd_of_dvd_pow_mul divides
  -- The low part is too small to reach a multiple of the modulus from any of the high parts.
  have high : e 5 = 0 ∧ e 6 = 0 ∧ low = 0 := by
    have bound : low ≤ 3 + 3 * limbBase + 3 * limbBase ^ 2 + 3 * limbBase ^ 3 := by
      rw [isLow]
      simp only [limbBase]
      omega
    clear shifted divides isLow
    simp only [limbBase, order] at multiple bound
    generalize e 5 = e5 at *
    generalize e 6 = e6 at *
    interval_cases e5 <;> interval_cases e6 <;> omega
  have zero : e 1 = 0 ∧ e 2 = 0 ∧ e 3 = 0 ∧ e 4 = 0 ∧ e 5 = 0 ∧ e 6 = 0 := by
    rw [high.2.2] at isLow
    simp only [limbBase] at isLow
    omega
  intro k
  fin_cases k
  · exact first
  · exact zero.1
  · exact zero.2.1
  · exact zero.2.2.1
  · exact zero.2.2.2.1
  · exact zero.2.2.2.2.1
  · exact zero.2.2.2.2.2
  · exact last

end Mont

end JoltWasm
