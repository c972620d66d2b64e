import Mathlib.Tactic.Ring
import JoltWasm.Tables.Catalog

/-!
# The shift tables on a bitmask

The loops of the three shift tables, on a right operand that is the bitmask of a shift `s`.
-/

namespace JoltWasm

theorem toNat_bitWord (v : U64) (i : ℕ) : (bitWord v i).toNat = v.toNat / 2 ^ i % 2 := by
  rw [bitWord, BitVec.getLsbD, Nat.testBit_eq_decide_div_mod_eq, U64.ofBool]
  split
  · next one => exact (of_decide_eq_true one).symm
  · next zero =>
      have := of_decide_eq_false (Bool.not_eq_true _ ▸ zero)
      change 0 = _
      omega

theorem bitWord_bitmask {s i : ℕ} (small : s < 64) (inside : i < 64) :
    bitWord (shiftRightBitmask (BitVec.ofNat 64 s)) i = if s ≤ i then 1 else 0 := by
  rw [bitWord, getLsbD_shiftRightBitmask small, U64.ofBool]
  simp [inside]

/-- Splitting off the next bit of a shifted word. -/
theorem shift_split (v i : ℕ) : v / 2 ^ i = 2 * (v / 2 ^ (i + 1)) + v / 2 ^ i % 2 := by
  rw [pow_succ, ← Nat.div_div_eq_div_mul]
  omega

theorem mod_div_bit (v : ℕ) {s i : ℕ} (below : i < s) :
    v % 2 ^ s / 2 ^ i % 2 = v / 2 ^ i % 2 := by
  have bits := Nat.testBit_mod_two_pow v s i
  rw [Nat.testBit_eq_decide_div_mod_eq, Nat.testBit_eq_decide_div_mod_eq, decide_eq_true below,
    Bool.true_and, decide_eq_decide] at bits
  omega

section

variable {s : ℕ} (small : s < 64) (x : U64)

include small

/-- The shift of `n` bits read so far, without the bits below the shift. -/
theorem toNat_srlLoop {n : ℕ} (inside : n ≤ 64) :
    (srlLoop x (shiftRightBitmask (BitVec.ofNat 64 s)) n).toNat =
      x.toNat / 2 ^ (max (64 - n) s) := by
  have wordSize := x.isLt
  induction n with
  | zero =>
      rw [Nat.sub_zero, max_eq_left (by omega), Nat.div_eq_of_lt wordSize]
      rfl
  | succ n ih =>
      have previous := ih (by omega)
      rw [srlLoop, bitWord_bitmask small (by omega)]
      by_cases kept : s ≤ 63 - n
      · have here : max (64 - (n + 1)) s = 63 - n := by omega
        have before : max (64 - n) s = 63 - n + 1 := by omega
        have bit := toNat_bitWord x (63 - n)
        have split := shift_split x.toNat (63 - n)
        have bound := Nat.div_le_self x.toNat (2 ^ (63 - n))
        rw [before] at previous
        rw [if_pos kept, here, BitVec.toNat_add, BitVec.toNat_mul, BitVec.toNat_mul, previous, bit]
        change (_ * 2 % 2 ^ 64 + _ * 1 % 2 ^ 64) % 2 ^ 64 = _
        omega
      · have same : max (64 - (n + 1)) s = max (64 - n) s := by omega
        rw [if_neg kept, same, ← previous]
        simp

/-- The sign bits of a shift. -/
theorem toNat_signExtensionLoop {n : ℕ} (inside : n ≤ 64) :
    (signExtensionLoop (shiftRightBitmask (BitVec.ofNat 64 s)) n).toNat =
      2 ^ n - 2 ^ (min n (64 - s)) := by
  induction n with
  | zero => simp [signExtensionLoop]
  | succ n ih =>
      have previous := ih (by omega)
      rw [signExtensionLoop, bitWord_bitmask small (by omega)]
      by_cases first : n = 0
      · subst first
        have only : min (0 + 1) (64 - s) = 1 := by omega
        rw [if_pos rfl, only]
        rfl
      · rw [if_neg first]
        by_cases kept : s ≤ 63 - n
        · have here : min (n + 1) (64 - s) = n + 1 := by omega
          have before : min n (64 - s) = n := by omega
          rw [before, Nat.sub_self] at previous
          rw [if_pos kept, here, Nat.sub_self, BitVec.toNat_add, previous]
          simp
        · have here : min (n + 1) (64 - s) = 64 - s := by omega
          have before : min n (64 - s) = 64 - s := by omega
          have bound : 2 ^ n ≤ 2 ^ 63 := Nat.pow_le_pow_right (by omega) (by omega)
          have positive := Nat.two_pow_pos (64 - s)
          have covered : 2 ^ (64 - s) ≤ 2 ^ n := Nat.pow_le_pow_right (by omega) (by omega)
          have weight : ((1 : U64) <<< n).toNat = 2 ^ n := by
            rw [BitVec.toNat_shiftLeft, Nat.shiftLeft_eq]
            change 1 * 2 ^ n % 2 ^ 64 = _
            omega
          rw [before] at previous
          rw [if_neg kept, here, BitVec.toNat_add, BitVec.toNat_mul, previous, weight, pow_succ]
          change (_ + 2 ^ n * 1 % 2 ^ 64) % 2 ^ 64 = _
          omega

/-- The weight of a rotated bit. -/
theorem toNat_rotatedBit {i : ℕ} {prod : U128} (below : i < s) (power : prod.toNat = 2 ^ (64 - s)) :
    (bitWord x i * ((1 - (0 : U64).setWidth 128) * prod).setWidth 64 * ((1 : U64) <<< i)).toNat =
      x.toNat / 2 ^ i % 2 * (2 ^ i * 2 ^ (64 - s)) := by
  have bound : 2 ^ i * 2 ^ (64 - s) < 2 ^ 64 := by
    rw [← pow_add]
    exact Nat.pow_lt_pow_right (by omega) (by omega)
  have factor : 2 ^ (64 - s) < 2 ^ 64 := Nat.pow_lt_pow_right (by omega) (by omega)
  have weight : ((1 : U64) <<< i).toNat = 2 ^ i := by
    have := Nat.pow_lt_pow_right (show 1 < 2 by omega) (show i < 64 by omega)
    rw [BitVec.toNat_shiftLeft, Nat.shiftLeft_eq]
    change 1 * 2 ^ i % 2 ^ 64 = _
    omega
  have scaled : (((1 - (0 : U64).setWidth 128) * prod).setWidth 64).toNat = 2 ^ (64 - s) := by
    have one : (1 - (0 : U64).setWidth 128) * prod = prod := by
      change (1 : U128) * prod = prod
      exact BitVec.one_mul prod
    rw [one, BitVec.toNat_setWidth, power, Nat.mod_eq_of_lt factor]
  rw [BitVec.toNat_mul, BitVec.toNat_mul, toNat_bitWord, scaled, weight]
  rcases Nat.mod_two_eq_zero_or_one (x.toNat / 2 ^ i) with bit | bit
  · rw [bit]
    simp
  · rw [bit, Nat.one_mul, Nat.one_mul, Nat.mod_eq_of_lt factor, Nat.mul_comm,
      Nat.mod_eq_of_lt bound]

theorem toNat_rotrLoop_prod {n : ℕ} (inside : n ≤ 64) :
    (rotrLoop x (shiftRightBitmask (BitVec.ofNat 64 s)) n).prod.toNat = 2 ^ (min n (64 - s)) := by
  induction n with
  | zero => simp [rotrLoop]
  | succ n ih =>
      have previous := ih (by omega)
      rw [rotrLoop, bitWord_bitmask small (by omega), BitVec.toNat_mul, previous]
      by_cases kept : s ≤ 63 - n
      · have here : min (n + 1) (64 - s) = n + 1 := by omega
        have before : min n (64 - s) = n := by omega
        have bound : 2 ^ n ≤ 2 ^ 63 := Nat.pow_le_pow_right (by omega) (by omega)
        rw [if_pos kept, here, before, pow_succ]
        change 2 ^ n * 2 % 2 ^ 128 = _
        omega
      · have same : min (n + 1) (64 - s) = min n (64 - s) := by omega
        have bound : 2 ^ (min n (64 - s)) ≤ 2 ^ 64 := Nat.pow_le_pow_right (by omega) (by omega)
        rw [if_neg kept, same]
        change 2 ^ (min n (64 - s)) * 1 % 2 ^ 128 = _
        omega

/-- The sums of a rotation: the bits from the shift upward, and those below it. -/
theorem rotrLoop_sums {n : ℕ} (inside : n ≤ 64) :
    (rotrLoop x (shiftRightBitmask (BitVec.ofNat 64 s)) n).first.toNat =
        x.toNat / 2 ^ (max (64 - n) s) ∧
      (rotrLoop x (shiftRightBitmask (BitVec.ofNat 64 s)) n).second.toNat =
        x.toNat % 2 ^ s / 2 ^ (64 - n) * 2 ^ (64 - n) * 2 ^ (64 - s) := by
  have firstIsSrl : ∀ n, (rotrLoop x (shiftRightBitmask (BitVec.ofNat 64 s)) n).first =
      srlLoop x (shiftRightBitmask (BitVec.ofNat 64 s)) n := by
    intro n
    induction n with
    | zero => rfl
    | succ n ih => rw [rotrLoop, srlLoop, ← ih]
  have lowBits : x.toNat % 2 ^ s < 2 ^ s := Nat.mod_lt _ (Nat.two_pow_pos s)
  have prodOnes : ∀ n, n ≤ 64 → 64 - s ≤ n →
      (rotrLoop x (shiftRightBitmask (BitVec.ofNat 64 s)) n).prod.toNat = 2 ^ (64 - s) := by
    intro n bound above
    rw [toNat_rotrLoop_prod small x bound, min_eq_right above]
  rw [firstIsSrl]
  refine ⟨toNat_srlLoop small x inside, ?_⟩
  · induction n with
    | zero =>
        have none : x.toNat % 2 ^ s / 2 ^ 64 = 0 :=
          Nat.div_eq_of_lt (lt_of_lt_of_le lowBits (Nat.pow_le_pow_right (by omega) (by omega)))
        rw [Nat.sub_zero, none]
        simp [rotrLoop]
    | succ n ih =>
        have previous := ih (by omega)
        rw [rotrLoop, bitWord_bitmask small (by omega), show 64 - (n + 1) = 63 - n by omega]
        rw [show 64 - n = 63 - n + 1 by omega] at previous
        by_cases kept : s ≤ 63 - n
        · have none : ∀ k, s ≤ k → x.toNat % 2 ^ s / 2 ^ k = 0 := fun k above =>
            Nat.div_eq_of_lt (lt_of_lt_of_le lowBits (Nat.pow_le_pow_right (by omega) above))
          rw [none _ (by omega), Nat.zero_mul, Nat.zero_mul] at previous
          rw [if_pos kept, none _ kept, Nat.zero_mul, Nat.zero_mul, BitVec.toNat_add, previous]
          simp
        · have weight := toNat_rotatedBit small x (show 63 - n < s by omega)
            (prodOnes n (by omega) (by omega))
          have split := shift_split (x.toNat % 2 ^ s) (63 - n)
          have bit : x.toNat % 2 ^ s / 2 ^ (63 - n) % 2 = x.toNat / 2 ^ (63 - n) % 2 :=
            mod_div_bit x.toNat (show 63 - n < s by omega)
          have fits : x.toNat % 2 ^ s / 2 ^ (63 - n) * 2 ^ (63 - n) * 2 ^ (64 - s) < 2 ^ 64 :=
            calc x.toNat % 2 ^ s / 2 ^ (63 - n) * 2 ^ (63 - n) * 2 ^ (64 - s)
                ≤ x.toNat % 2 ^ s * 2 ^ (64 - s) :=
                  Nat.mul_le_mul_right _ (Nat.div_mul_le_self _ _)
              _ < 2 ^ s * 2 ^ (64 - s) := Nat.mul_lt_mul_of_pos_right lowBits (Nat.two_pow_pos _)
              _ = 2 ^ 64 := by rw [← pow_add]; congr 1; omega
          have sum : x.toNat % 2 ^ s / 2 ^ (63 - n) * 2 ^ (63 - n) * 2 ^ (64 - s) =
              x.toNat % 2 ^ s / 2 ^ (63 - n + 1) * 2 ^ (63 - n + 1) * 2 ^ (64 - s) +
                x.toNat / 2 ^ (63 - n) % 2 * (2 ^ (63 - n) * 2 ^ (64 - s)) := by
            rw [← bit]
            conv_lhs => rw [split]
            ring
          rw [if_neg kept]
          dsimp only
          rw [BitVec.toNat_add, previous, weight, ← sum, Nat.mod_eq_of_lt fits]

end

end JoltWasm
