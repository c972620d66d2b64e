import JoltWasm.Lib.PairBits
import JoltWasm.Tables.Interleave

/-!
# Counting the bits of words

The bits of an uninterleaved index, and the zeros and ones of a word of `n` bits, as the sums over
pairs count them.
-/

namespace JoltWasm

open Lib

variable {F : Type} [CommRing F]

/-- The bits of an index are the interleaved bits of its operands. -/
theorem bitPoint_index (v : U128) {n : ℕ} (bound : n ≤ 64) :
    bitPoint F (2 * n) v.toNat =
      pairPoint F n (uninterleaveBits v).1.toNat (uninterleaveBits v).2.toNat := by
  apply bitPoint_eq_pairPoint
  · intro i hi
    exact (getLsbD_uninterleave v (by omega)).1
  · intro i hi
    exact (getLsbD_uninterleave v (by omega)).2

/-- A natural whose bits from `n` on are clear. -/
theorem lt_two_pow_of_clear {v n : ℕ} (clear : ∀ i, n ≤ i → v.testBit i = false) : v < 2 ^ n :=
  Nat.lt_pow_two_of_testBit v clear

/-- The operands of a short index are short. -/
theorem uninterleave_lt {v : U128} {n : ℕ} (short : v.toNat < 2 ^ (2 * n)) :
    (uninterleaveBits v).1.toNat < 2 ^ n ∧ (uninterleaveBits v).2.toNat < 2 ^ n := by
  have clear : ∀ i, 2 * n ≤ i → v.getLsbD i = false := fun i hi =>
    Nat.testBit_lt_two_pow (short.trans_le (Nat.pow_le_pow_right two_pos hi))
  constructor
  · apply lt_two_pow_of_clear
    intro i hi
    by_cases inside : i < 64
    · exact (getLsbD_uninterleave v inside).1.trans (clear _ (by omega))
    · exact BitVec.getLsbD_of_ge _ i (by omega)
  · apply lt_two_pow_of_clear
    intro i hi
    by_cases inside : i < 64
    · exact (getLsbD_uninterleave v inside).2.trans (clear _ (by omega))
    · exact BitVec.getLsbD_of_ge _ i (by omega)

section

variable (x : U64) {n : ℕ} (bound : n ≤ 64) (short : x.toNat < 2 ^ n)

include short in
theorem getLsbD_of_short {i : ℕ} (hi : n ≤ i) : x.getLsbD i = false :=
  Nat.testBit_lt_two_pow (short.trans_le (Nat.pow_le_pow_right two_pos hi))

/-- The recursion of the count, over the low bits. -/
theorem cpopNatRec_eq_popcount (m : ℕ) : x.cpopNatRec m 0 = popcount m x.toNat := by
  induction m with
  | zero => rfl
  | succ m ih =>
    rw [BitVec.cpopNatRec_succ, BitVec.cpopNatRec_eq, ih, popcount, BitVec.getLsbD, Nat.zero_add,
      Nat.add_comm]

theorem toNat_cpop : x.cpop.toNat = popcount 64 x.toNat := by
  have small := popcount_le 64 x.toNat
  rw [BitVec.cpop, cpopNatRec_eq_popcount, BitVec.toNat_ofNat, Nat.mod_eq_of_lt]
  exact lt_of_le_of_lt small (by norm_num)

include bound short

/-- `count_ones` of a short word. -/
theorem pairSum_cpop (y : ℕ) :
    pairSum (fun x _ => x) (pairPoint F n x.toNat y) = (x.cpop.toNat : F) := by
  rw [pairSum_fst_pairPoint, toNat_cpop, popcount_of_lt short bound]

/-- The leading zeros of a short word that is not zero. -/
theorem clz_short (some : x ≠ 0) : 64 - n ≤ x.clz.toNat ∧ x.clz.toNat < 64 := by
  have top : x.getLsbD (63 - x.clz.toNat) = true := BitVec.getLsbD_true_clz_of_ne_zero (by decide) some
  have below : x.clz.toNat < 64 := by
    have := BitVec.clz_lt_iff_ne_zero.mpr some
    exact this
  have inside : 63 - x.clz.toNat < n := by
    by_contra outside
    rw [getLsbD_of_short x short (by omega)] at top
    exact absurd top (by simp)
  omega

/-- `leading_zeros` within `n` bits. -/
theorem pairLeadingZeros_clz (y : ℕ) :
    pairLeadingZeros (pairPoint F n x.toNat y) =
      ((if x = 0 then n else n - (64 - x.clz.toNat) : ℕ) : F) := by
  by_cases zero : x = 0
  · subst zero
    rw [if_pos rfl]
    apply pairLeadingZeros_pairPoint y le_rfl
    · intro i _ _
      exact Nat.zero_testBit i
    · intro below
      exact absurd below (by omega)
  · obtain ⟨lower, upper⟩ := clz_short x bound short zero
    rw [if_neg zero]
    apply pairLeadingZeros_pairPoint y (by omega)
    · intro i low high
      have above : x.toNat < 2 ^ (64 - x.clz.toNat) := BitVec.toNat_lt_two_pow_sub_clz
      exact Nat.testBit_lt_two_pow (above.trans_le (Nat.pow_le_pow_right two_pos (by omega)))
    · intro _
      have top : x.getLsbD (63 - x.clz.toNat) = true :=
        BitVec.getLsbD_true_clz_of_ne_zero (by decide) zero
      rw [show n - (n - (64 - x.clz.toNat)) - 1 = 63 - x.clz.toNat by omega]
      exact top

omit bound in
/-- `trailing_zeros` within `n` bits. -/
theorem pairTrailingZeros_ctz (y : ℕ) :
    pairTrailingZeros (pairPoint F n x.toNat y) =
      ((if x = 0 then n else x.ctz.toNat : ℕ) : F) := by
  by_cases zero : x = 0
  · subst zero
    rw [if_pos rfl]
    apply pairTrailingZeros_pairPoint y le_rfl
    · intro i _
      exact Nat.zero_testBit i
    · intro below
      exact absurd below (by omega)
  · have one : x.getLsbD x.ctz.toNat = true := BitVec.getLsbD_true_ctz_of_ne_zero zero
    have inside : x.ctz.toNat < n := by
      by_contra outside
      rw [getLsbD_of_short x short (by omega)] at one
      exact absurd one (by simp)
    rw [if_neg zero]
    apply pairTrailingZeros_pairPoint y inside.le
    · intro i hi
      exact BitVec.getLsbD_false_of_lt_ctz hi
    · intro _
      exact one

end

/-! ## Zeros at the ends of a vector -/

section

variable {w : ℕ} {z : BitVec w}

theorem ctz_eq {s : ℕ} (one : z.getLsbD s = true) (zeros : ∀ i < s, z.getLsbD i = false) :
    z.ctz.toNat = s := by
  have nonzero : z ≠ 0#w := by
    intro zero
    rw [zero, BitVec.getLsbD_zero] at one
    exact absurd one (by simp)
  have top := BitVec.getLsbD_true_ctz_of_ne_zero nonzero
  rcases Nat.lt_trichotomy z.ctz.toNat s with below | same | above
  · rw [zeros _ below] at top
    exact absurd top (by simp)
  · exact same
  · rw [BitVec.getLsbD_false_of_lt_ctz above] at one
    exact absurd one (by simp)

theorem clz_eq {c : ℕ} (one : z.getLsbD (w - 1 - c) = true) (inside : c < w)
    (zeros : ∀ i, w - 1 - c < i → i < w → z.getLsbD i = false) : z.clz.toNat = c := by
  have nonzero : z ≠ 0#w := by
    intro zero
    rw [zero, BitVec.getLsbD_zero] at one
    exact absurd one (by simp)
  have top := BitVec.getLsbD_true_clz_of_ne_zero (by omega) nonzero
  have bound : z.toNat < 2 ^ (w - z.clz.toNat) := BitVec.toNat_lt_two_pow_sub_clz
  rcases Nat.lt_trichotomy z.clz.toNat c with below | same | above
  · rw [zeros _ (by omega) (by omega)] at top
    exact absurd top (by simp)
  · exact same
  · have clear : z.getLsbD (w - 1 - c) = false :=
      Nat.testBit_lt_two_pow (bound.trans_le (Nat.pow_le_pow_right two_pos (by omega)))
    rw [clear] at one
    exact absurd one (by simp)

theorem ctz_zero : (0 : BitVec w).ctz.toNat = w := by
  have whole : (0#w).reverse.clz = BitVec.ofNat w w :=
    BitVec.clz_eq_iff_eq_zero.mpr (BitVec.reverse_eq_zero_iff.mpr rfl)
  change (0#w).ctz.toNat = w
  rw [BitVec.ctz, whole, BitVec.toNat_ofNat, Nat.mod_eq_of_lt Nat.lt_two_pow_self]

end

end JoltWasm
