import Mathlib.Data.Nat.Prime.Basic
import JoltWasm.Tables.PrefixSuffix
import JoltWasm.Tables.MleCorrect
import JoltWasm.Tables.Shift

/-!
# The prefixes and suffixes as polynomials

Every prefix is a multilinear function of the bound variables; a phase extends it by the bits of
the phase, and the suffixes complete it to the extension of the table.
-/

namespace JoltWasm

open Lib

variable {F : Type} [CommRing F]

/-! ## Substrings -/

namespace LookupBits

theorem new_of_short {v : U128} {len : ℕ} (short : v.toNat < 2 ^ len) : new v len = ⟨v, len⟩ := by
  unfold new
  by_cases inside : len < 128
  · have power : ((1 : U128) <<< len).toNat = 2 ^ len := by
      have room : 2 ^ len < 2 ^ 128 := Nat.pow_lt_pow_right (by norm_num) inside
      rw [BitVec.toNat_shiftLeft, Nat.shiftLeft_eq]
      change 1 * 2 ^ len % 2 ^ 128 = _
      rw [Nat.one_mul, Nat.mod_eq_of_lt room]
    have same : v % ((1 : U128) <<< len) = v := by
      apply BitVec.eq_of_toNat_eq
      rw [BitVec.toNat_umod, power, Nat.mod_eq_of_lt short]
    rw [if_pos inside, same]
  · rw [if_neg inside]

@[simp] theorem toU64_setWidth (x : U64) (len : ℕ) : toU64 ⟨x.setWidth 128, len⟩ = x := by
  simp [toU64]

theorem uninterleave_of_short {v : U128} {n : ℕ} (short : v.toNat < 2 ^ (2 * n)) :
    uninterleave ⟨v, 2 * n⟩ =
      (⟨(uninterleaveBits v).1.setWidth 128, n⟩, ⟨(uninterleaveBits v).2.setWidth 128, n⟩) := by
  obtain ⟨left, right⟩ := uninterleave_lt short
  have wide (x : U64) (hx : x.toNat < 2 ^ n) : (x.setWidth 128).toNat < 2 ^ n := by
    rw [BitVec.toNat_setWidth, Nat.mod_eq_of_lt (by have := x.isLt; omega)]
    exact hx
  have half : 2 * n / 2 = n := by omega
  have rest : 2 * n - n = n := by omega
  simp only [uninterleave, half, new_of_short (wide _ left), rest, new_of_short (wide _ right)]

end LookupBits

/-! ## Polynomials of the prefixes -/

namespace Prefixes

/-- The prefix as a function of the bound variables, with `s` unbound ones. -/
def prefixMle (p : Prefixes) (s : ℕ) (q : List F) : F :=
  match p with
  | lowerWord => 2 ^ s * word (q.drop 64)
  | lowerHalfWord => 2 ^ s * word (q.drop 96)
  | eq => pairProd pairEq q
  | and => 2 ^ (s / 2) * pairWord (fun x y => x * y) q
  | andn => 2 ^ (s / 2) * pairWord (fun x y => x * (1 - y)) q
  | or => 2 ^ (s / 2) * pairWord (fun x y => x + y - x * y) q
  | xor => 2 ^ (s / 2) * pairWord (fun x y => (1 - x) * y + x * (1 - y)) q
  | lessThan => pairLess q
  | leftOperandIsZero => pairProd (fun x _ => 1 - x) q
  | leftOperandMsb => q.getD 0 0
  | rightOperandMsb => q.getD 1 0
  | pow2 => twoPow (q.drop 122)
  | rightShift => pairGather q
  | signExtension => q.getD 0 0 * (2 * pairFill (q.drop 2))
  | leftShift => 2 ^ (s / 2) * pairRaise q
  | leftShiftHelper => pairProd (fun _ y => 1 + y) q
  | signExtensionUpperHalf => if 32 ≤ s then 1 else (2 ^ 32 - 1) * 2 ^ 32 * q.getD 96 0
  | rightOperand => 2 ^ (s / 2) * pairWord (fun _ y => y) q
  | leftMsbRightOperand => 2 ^ (s / 2) * (q.getD 0 0 * pairWord (fun _ y => y) q)
  | leftMsbRightOperandIsZero => q.getD 0 0 * pairProd (fun _ y => 1 - y) q
  | overflowBitsZero => allZero (q.take 64)
  | popcnt => pairSum (fun x _ => x) q
  | clz => pairLeadingZeros q
  | ctz => pairTrailingZeros q

theorem prefixMle_multilinear (p : Prefixes) (s : ℕ) :
    Multilinear (p.prefixMle s : List F → F) := by
  cases p <;> unfold prefixMle
  case lowerWord => exact (Multilinear.word.drop 64).const_mul _
  case lowerHalfWord => exact (Multilinear.word.drop 96).const_mul _
  case eq => exact .pairProd .pairEq
  case and => exact (Multilinear.pairWord ⟨0, 0, 0, 1, fun x y => by ring⟩).const_mul _
  case andn => exact (Multilinear.pairWord ⟨0, 1, 0, -1, fun x y => by ring⟩).const_mul _
  case or => exact (Multilinear.pairWord ⟨0, 1, 1, -1, fun x y => by ring⟩).const_mul _
  case xor => exact (Multilinear.pairWord ⟨0, 1, 1, -2, fun x y => by ring⟩).const_mul _
  case lessThan => exact .pairLess
  case leftOperandIsZero => exact .pairProd .zeroFst
  case leftOperandMsb => exact .getD 0 0
  case rightOperandMsb => exact .getD 1 0
  case pow2 => exact Multilinear.twoPow.drop 122
  case rightShift => exact .pairGather
  case signExtension =>
    exact multilinear_head_mul ((Multilinear.pairFill.drop 2).const_mul 2) fun _ _ => rfl
  case leftShift => exact Multilinear.pairRaise.const_mul _
  case leftShiftHelper => exact .pairProd .oneAddSnd
  case signExtensionUpperHalf =>
    by_cases high : 32 ≤ s
    · simp only [if_pos high]
      exact .const 1
    · simp only [if_neg high]
      exact (Multilinear.getD 96 0).const_mul _
  case rightOperand => exact (Multilinear.pairWord .snd).const_mul _
  case leftMsbRightOperand =>
    exact (multilinear_head_mul (.pairWord .snd) pairWord_snd_ignores).const_mul _
  case leftMsbRightOperandIsZero =>
    exact multilinear_head_mul (.pairProd .zeroSnd) pairProd_snd_ignores
  case overflowBitsZero => exact Multilinear.allZero.take 64
  case popcnt => exact .pairSum .fst
  case clz => exact .pairLeadingZeros
  case ctz => exact .pairTrailingZeros

theorem defaultCheckpoint_eq (p : Prefixes) :
    p.defaultCheckpoint F = p.prefixMle 128 ([] : List F) := by
  cases p <;> simp [defaultCheckpoint, prefixMle, word, allZero, twoPow, pairWord, pairSum,
    pairProd, pairLess, pairGather, pairRaise, pairFill, pairLeadingZeros, pairTrailingZeros]

/-- The phase lengths at which a prefix extends through its cut-offs: none of them lies inside a
phase. -/
def Aligned (p : Prefixes) (len : ℕ) : Prop :=
  match p with
  | lowerWord => len ≤ 64
  | lowerHalfWord | signExtensionUpperHalf => len ≤ 32
  | pow2 => 8 ≤ len
  | leftShiftHelper => len ≤ 64
  | _ => True

end Prefixes

/-! ## A phase -/

/-- Shifting a short word stays in the word. -/
theorem toNat_shiftLeft_of_lt {w : ℕ} {v : BitVec w} {n k : ℕ} (short : v.toNat < 2 ^ n)
    (room : n + k ≤ w) : (v <<< k).toNat = v.toNat * 2 ^ k := by
  have bound : v.toNat * 2 ^ k < 2 ^ w := by
    calc v.toNat * 2 ^ k < 2 ^ n * 2 ^ k := Nat.mul_lt_mul_of_pos_right short (Nat.two_pow_pos k)
      _ = 2 ^ (n + k) := (pow_add 2 n k).symm
      _ ≤ 2 ^ w := Nat.pow_le_pow_right two_pos room
  rw [BitVec.toNat_shiftLeft, Nat.shiftLeft_eq, Nat.mod_eq_of_lt bound]

/-- The top bit of a short word. -/
theorem toNat_topBit {v : U64} {n : ℕ} (short : v.toNat < 2 ^ (n + 1)) :
    ((v >>> n).toNat : F) = ofBit F (v.toNat.testBit n) := by
  rw [BitVec.toNat_ushiftRight, Nat.shiftRight_eq_div_pow, ofBit_eq_cast, testBit_top short]
  congr 1
  have positive := Nat.two_pow_pos n
  rw [pow_succ] at short
  by_cases top : 2 ^ n ≤ v.toNat
  · rw [decide_eq_true top, Bool.toNat_true]
    exact Nat.div_eq_of_lt_le (by omega) (by omega)
  · rw [decide_eq_false top, Bool.toNat_false, Nat.div_eq_of_lt (by omega)]

/-! ## Loops over the bits of a phase -/

theorem bitFromTop_eq (v : U64) (n i : ℕ) :
    bitFromTop v n i = U64.ofBool (v.toNat.testBit (n - 1 - i)) := by
  apply BitVec.eq_of_toNat_eq
  have bit := toNat_bitWord v (n - 1 - i)
  rw [bitWord, BitVec.getLsbD] at bit
  rw [bitFromTop, bit, BitVec.toNat_and, BitVec.toNat_ushiftRight, Nat.shiftRight_eq_div_pow]
  change _ &&& 1 = _
  rw [Nat.and_one_is_mod]

theorem ofBool_eq_one (b : Bool) : U64.ofBool b = 1 ↔ b = true := by
  cases b <;> decide

theorem ofBool_eq_zero (b : Bool) : U64.ofBool b = 0 ↔ b = false := by
  cases b <;> decide

theorem getD_pairPoint_bits {n i : ℕ} (x y : ℕ) (inside : i < n) :
    (pairPoint F n x y).getD (2 * i) 0 = ofBit F (x.testBit (n - 1 - i)) ∧
      (pairPoint F n x y).getD (2 * i + 1) 0 = ofBit F (y.testBit (n - 1 - i)) := by
  induction n generalizing i with
  | zero => omega
  | succ n ih =>
    cases i with
    | zero => exact ⟨rfl, rfl⟩
    | succ i =>
      have rest := ih (i := i) (by omega)
      rw [show n + 1 - 1 - (i + 1) = n - 1 - i by omega]
      exact rest

/-- A loop over the bits of a phase is a loop over the pairs of its point. -/
theorem foldl_eq_forPairs {S : Type} {n : ℕ} (x y : ℕ) (start : S) (loop : S → ℕ → S)
    (body : ℕ → F → F → S → S)
    (step : ∀ s, ∀ i < n, loop s i =
      body i (ofBit F (x.testBit (n - 1 - i))) (ofBit F (y.testBit (n - 1 - i))) s) :
    (List.range n).foldl loop start = forPairs n (pairPoint F n x y) start body := by
  refine List.foldl_ext _ _ _ fun s i hi => ?_
  have inside := List.mem_range.mp hi
  obtain ⟨left, right⟩ := getD_pairPoint_bits (F := F) x y inside
  rw [step s i inside, left, right]

theorem rightShiftPhase_eq (x y : U64) (n : ℕ) (start : F) :
    rightShiftPhase x y n start =
      start * 2 ^ popcount n y.toNat + pairGather (pairPoint F n x.toNat y.toNat) := by
  have loop := foldl_eq_forPairs (n := n) x.toNat y.toNat start
    (fun result i =>
      if bitFromTop y n i = 1 then result + result + ((bitFromTop x n i).toNat : F) else result)
    (fun _ x y s => s * (1 + y) + x * y) ?_
  · rw [rightShiftPhase, loop, forPairs_srl (length_pairPoint ..), pairProd_oneAddSnd_pairPoint]
  · intro s i _
    rw [bitFromTop_eq, bitFromTop_eq, cast_ofBool]
    cases y.toNat.testBit (n - 1 - i) with
    | false =>
      rw [if_neg (by decide), ofBit_false]
      ring
    | true =>
      rw [if_pos (by decide), ofBit_true, ofBit]
      ring

/-- The left shift over the pairs of a phase, with weights `w` at its last pair. -/
theorem forPairs_leftShift {n : ℕ} {p : List F} (length : p.length = 2 * n) (w s m : F)
    (body : ℕ → F → F → F × F → F × F)
    (step : ∀ i x y s m, i < n → body i x y (s, m) =
      (s + x * (1 - y) * m * (w * 2 ^ (n - 1 - i)), m * (1 + y))) :
    forPairs n p (s, m) body =
      (s + w * (m * pairRaise p), m * pairProd (fun _ y => 1 + y) p) := by
  induction n generalizing p s m body with
  | zero =>
    rw [eq_nil length]
    simp [forPairs_zero, pairRaise, pairProd]
  | succ n ih =>
    obtain ⟨x, y, q, rfl, tail⟩ := exists_pair length
    have rest := fun s m =>
      ih tail s m (fun i => body (i + 1)) fun i x y s m hi => by
        rw [step (i + 1) x y s m (by omega), show n + 1 - 1 - (i + 1) = n - 1 - i by omega]
    rw [forPairs_pair, step 0 x y s m (by omega), rest, pairRaise, pairProd, tail,
      Nat.mul_div_cancel_left _ two_pos, Nat.sub_zero, Nat.add_sub_cancel]
    refine Prod.ext ?_ ?_ <;> ring

theorem leftShiftPhase_eq (x y : U64) {n m jStart : ℕ} (total : jStart + 2 * n + 2 * m = 128)
    (start helper : F) :
    (leftShiftPhase x y n jStart (start, helper)).1 =
      start + 2 ^ m * (helper * pairRaise (pairPoint F n x.toNat y.toNat)) := by
  rw [leftShiftPhase, foldl_eq_forPairs (n := n) x.toNat y.toNat (start, helper) _
    (fun i x y state =>
      (state.1 + x * (1 - y) * state.2 * (2 ^ m * 2 ^ (n - 1 - i)), state.2 * (1 + y))) ?_]
  · rw [forPairs_leftShift (length_pairPoint ..) (2 ^ m) _ _ _ fun _ _ _ _ _ _ => rfl]
  · rintro ⟨s, m'⟩ i hi
    have exponent : xlen64 - 1 - jStart / 2 - i = m + (n - 1 - i) := by
      change 64 - 1 - jStart / 2 - i = _
      omega
    have weight : (((1 : U64) <<< (m + (n - 1 - i))).toNat : F) = 2 ^ m * 2 ^ (n - 1 - i) := by
      rw [toNat_one_shiftLeft (by omega), Nat.cast_pow, pow_add]
      rfl
    simp only [bitFromTop_eq, ofBool_eq_one, ofBool_eq_zero, exponent, weight]
    cases x.toNat.testBit (n - 1 - i) <;> cases y.toNat.testBit (n - 1 - i) <;>
      simp only [ofBit_true, ofBit_false, and_true, and_false, if_true, if_false, Bool.false_eq_true,
        Bool.true_eq_false] <;>
      refine Prod.ext ?_ ?_ <;> ring

theorem signExtensionPhase_eq (x : ℕ) (y : U64) {n base : ℕ} (bound : base + n ≤ 64) :
    signExtensionPhase F y n base =
      2 ^ base * pairFill (pairPoint F n x y.toNat) := by
  have total : ∀ (q : List F) (k o : ℕ) (s : F), q.length = 2 * k →
      forPairs k q s (fun i _ y s => s + (1 - y) * 2 ^ (i + o)) = s + 2 ^ o * pairFill q := by
    intro q k
    induction k generalizing q with
    | zero =>
      intro o s length
      have none : pairFill ([] : List F) = 0 := rfl
      rw [eq_nil length, forPairs_zero, none, mul_zero, add_zero]
    | succ k ih =>
      intro o s length
      obtain ⟨x, y, q, rfl, tail⟩ := exists_pair length
      have next (i : ℕ) : i + 1 + o = i + (o + 1) := by omega
      rw [forPairs_pair]
      simp only [next]
      rw [ih q (o + 1) _ tail, pairFill]
      ring
  have loop := foldl_eq_forPairs (F := F) (n := n) x y.toNat 0
    (fun newSum i =>
      if bitFromTop y n i = 0 then newSum + (((1 : U64) <<< (base + i)).toNat : F) else newSum)
    (fun i _ y s => s + (1 - y) * 2 ^ (i + base)) ?_
  · rw [signExtensionPhase, loop, total _ _ _ _ (length_pairPoint ..), zero_add]
  · intro s i hi
    rw [bitFromTop_eq, toNat_one_shiftLeft (by omega), Nat.cast_pow, Nat.add_comm base i]
    cases y.toNat.testBit (n - 1 - i) with
    | false =>
      rw [if_pos (by decide), ofBit_false]
      push_cast
      ring
    | true =>
      rw [if_neg (by decide), ofBit_true]
      ring

theorem signExtensionFirst_eq (y : U64) (n i : ℕ) :
    signExtensionFirst y n i = signExtensionLoopAt n y i := by
  induction i with
  | zero => rfl
  | succ i ih =>
    rw [signExtensionFirst, signExtensionLoopAt, ih, bitFromTop_eq, bitWord, BitVec.getLsbD]
    by_cases first : i = 0
    · rw [if_pos first, if_pos first]
    · rw [if_neg first, if_neg first]
      cases y.toNat.testBit (n - 1 - i) with
      | false =>
        have whole : (1 - U64.ofBool false : U64) = 1 := by decide
        rw [if_pos (by decide), whole, mul_one]
      | true =>
        have none : (1 - U64.ofBool true : U64) = 0 := by decide
        rw [if_neg (by decide), none, mul_zero, add_zero]

/-! ## Phase boundaries -/

/-- A phase length that is at most a smaller power of two divides it. -/
theorem dvd_two_pow_of_le {len k : ℕ} (divides : len ∣ 128) (le : len ≤ 2 ^ k) : len ∣ 2 ^ k := by
  obtain ⟨j, _, rfl⟩ := (Nat.dvd_prime_pow Nat.prime_two).mp (show len ∣ 2 ^ 7 from divides)
  exact pow_dvd_pow 2 ((Nat.pow_le_pow_iff_right (by norm_num)).mp le)

/-- A phase that starts before a boundary ends before it. -/
theorem phase_le {len start boundary : ℕ} (starts : len ∣ start) (ends : len ∣ boundary)
    (before : start < boundary) : start + len ≤ boundary := by
  have gap := Nat.le_of_dvd (by omega) (Nat.dvd_sub ends starts)
  omega

section

variable {n m : ℕ} {r : List F} {v : U128} {checkpoints : Prefixes → F}
  (total : r.length + 2 * n + 2 * m = 128) (positive : 0 < n) (short : v.toNat < 2 ^ (2 * n))
  (divides : 2 * n ∣ 128) (starts : 2 * n ∣ r.length)
  (holds : ∀ q : Prefixes, r = [] ∨ q.Aligned (2 * n) →
    checkpoints q = q.prefixMle (2 * m + 2 * n) r)

/-- A phase's words join those of the phases before. -/
theorem pairWord_phase {g : F → F → F} {x y w : ℕ} {z : BitVec w} (even : Even r.length)
    (value : pairWord g (pairPoint F n x y) = (z.toNat : F)) (fits : z.toNat < 2 ^ n)
    (room : n + m ≤ w) {s : ℕ} (half : s = m + n) :
    2 ^ s * pairWord g r + ((z <<< m).toNat : F) =
      2 ^ m * pairWord g (r ++ pairPoint F n x y) := by
  rw [toNat_shiftLeft_of_lt fits room, pairWord_append _ even (even_length_pairPoint ..),
    half_length_pairPoint, value, half, Nat.cast_mul, Nat.cast_pow, pow_add]
  push_cast
  ring

/-- The first coordinate is that of the first phase. -/
theorem getD_zero_phase {x y : ℕ} :
    (r ++ pairPoint F (n + 1) x y).getD 0 0 =
        (if r.length = 0 then ofBit F (x.testBit n) else r.getD 0 0) ∧
      (Even r.length → (r ++ pairPoint F (n + 1) x y).getD 1 0 =
        if r.length = 0 then ofBit F (y.testBit n) else r.getD 1 0) := by
  match r with
  | [] => exact ⟨rfl, fun _ => rfl⟩
  | [_] => exact ⟨rfl, fun even => absurd even (by simp)⟩
  | _ :: _ :: _ => exact ⟨rfl, fun _ => rfl⟩

/-- The low word from position `a` on, a phase boundary. -/
theorem word_phase {a : ℕ} (boundary : 2 * n ∣ a) (starts : 2 * n ∣ r.length)
    (short : v.toNat < 2 ^ (2 * n)) (room : 2 * n + 2 * m ≤ 128) :
    (if r.length < a then 0
      else 2 ^ (2 * m + 2 * n) * word (r.drop a) + ((v <<< (2 * m)).toNat : F)) =
      2 ^ (2 * m) * word ((r ++ bitPoint F (2 * n) v.toNat).drop a) := by
  by_cases before : r.length < a
  · have ends := phase_le starts boundary before
    have none : (r ++ bitPoint F (2 * n) v.toNat).drop a = [] := by
      apply List.drop_eq_nil_of_le
      rw [List.length_append, length_bitPoint]
      exact ends
    rw [if_pos before, none]
    simp [word]
  · rw [if_neg before, List.drop_append_of_le_length (by omega), word_append, word_bitPoint,
      length_bitPoint, Nat.mod_eq_of_lt short, toNat_shiftLeft_of_lt short room, pow_add]
    push_cast
    ring

/-- The overflow bits of a phase. -/
theorem allZero_phase (total : r.length + 2 * n + 2 * m = 128)
    (short : v.toNat < 2 ^ (2 * n)) :
    (if r.length ≥ 64 then allZero (r.take 64)
      else if (if 2 * m ≥ 64 then v else v >>> (64 - 2 * m)) ≠ 0 then 0
        else allZero (r.take 64)) =
      allZero ((r ++ bitPoint F (2 * n) v.toNat).take 64) := by
  by_cases after : r.length ≥ 64
  · rw [if_pos after, List.take_append_of_le_length after]
  · have whole : r.take 64 = r := List.take_of_length_le (by omega)
    rw [if_neg after, List.take_append, whole, allZero_append]
    by_cases inside : 2 * m ≥ 64
    · have all : (bitPoint F (2 * n) v.toNat).take (64 - r.length) = bitPoint F (2 * n) v.toNat :=
        List.take_of_length_le (by rw [length_bitPoint]; omega)
      have zero : v.toNat = 0 ↔ v = 0 := BitVec.toNat_inj (y := 0)
      rw [if_pos inside, all, allZero_bitPoint, Nat.mod_eq_of_lt short]
      by_cases clear : v = 0
      · rw [if_neg (not_not.mpr clear), if_pos (zero.mpr clear), mul_one]
      · rw [if_pos clear, if_neg (fun h => clear (zero.mp h)), mul_zero]
    · obtain ⟨a, ha⟩ : ∃ a, 64 - r.length = a := ⟨_, rfl⟩
      obtain ⟨b, hb⟩ : ∃ b, 64 - 2 * m = b := ⟨_, rfl⟩
      have parts : 2 * n = a + b := by omega
      have high : v.toNat / 2 ^ b < 2 ^ a :=
        Nat.div_lt_of_lt_mul (by rwa [← pow_add, Nat.add_comm, ← parts])
      have zero : v.toNat / 2 ^ b = 0 ↔ v >>> b = 0 := by
        rw [← BitVec.toNat_inj, BitVec.toNat_ushiftRight, Nat.shiftRight_eq_div_pow]
        rfl
      rw [if_neg inside, ha, hb, parts, take_bitPoint, allZero_bitPoint, Nat.mod_eq_of_lt high]
      by_cases clear : v >>> b = 0
      · rw [if_neg (not_not.mpr clear), if_pos (zero.mpr clear), mul_one]
      · rw [if_pos clear, if_neg (fun h => clear (zero.mp h)), mul_zero]

include total short

/-- The pairs of a phase. -/
theorem phase_point : n ≤ 64 ∧ Even r.length ∧ 2 * xlen64 - 2 * m - 2 * n = r.length ∧
    (uninterleaveBits v).1.toNat < 2 ^ n ∧ (uninterleaveBits v).2.toNat < 2 ^ n ∧
    bitPoint F (2 * n) v.toNat =
      pairPoint F n (uninterleaveBits v).1.toNat (uninterleaveBits v).2.toNat := by
  have bound : n ≤ 64 := by omega
  obtain ⟨left, right⟩ := uninterleave_lt short
  refine ⟨bound, ?_, ?_, left, right, bitPoint_index v bound⟩
  · rw [Nat.even_iff]
    omega
  · change 2 * 64 - 2 * m - 2 * n = _
    omega

include positive divides starts holds

/-- A prefix at the bits of a phase is its polynomial at the bound variables and these bits. -/
theorem evaluate_eq {p : Prefixes} (aligned : p.Aligned (2 * n)) :
    p.evaluate checkpoints (LookupBits.new v (2 * n)) (2 * m) =
      p.prefixMle (2 * m) (r ++ bitPoint F (2 * n) v.toNat) := by
  obtain ⟨bound, even, start, left, right, point⟩ := phase_point (r := r) total short
  have here := holds p (.inr aligned)
  have half : 2 * m / 2 = m := Nat.mul_div_cancel_left m two_pos
  have whole : (2 * m + 2 * n) / 2 = m + n := by omega
  rw [LookupBits.new_of_short short, Prefixes.evaluate]
  simp only [LookupBits.uninterleave_of_short short, LookupBits.toU64_setWidth, start, half]
  generalize uninterleaveBits v = operands at left right point ⊢
  obtain ⟨x, y⟩ := operands
  simp only at left right point ⊢
  obtain ⟨k, rfl⟩ : ∃ k, n = k + 1 := ⟨n - 1, by omega⟩
  have first := getD_zero_phase (F := F) (n := k) (r := r) (x := x.toNat) (y := y.toNat)
  have xTop := toNat_topBit (F := F) left
  have yTop := toNat_topBit (F := F) right
  have xZero : x.toNat = 0 ↔ x = 0 := (BitVec.toNat_inj (y := 0)).symm.symm
  have yZero : y.toNat = 0 ↔ y = 0 := (BitVec.toNat_inj (y := 0)).symm.symm
  have started : r ≠ [] ↔ r.length ≠ 0 := not_congr List.length_eq_zero_iff.symm
  cases p <;> simp only [Prefixes.prefixMle, half, whole] at here ⊢
  case and =>
    rw [here, point]
    exact pairWord_phase even (pairWord_and bound left right)
      (lt_of_le_of_lt Nat.and_le_left left) (by omega) rfl
  case andn =>
    rw [here, point]
    exact pairWord_phase even (pairWord_andn bound left right)
      (lt_of_le_of_lt Nat.and_le_left left) (by omega) rfl
  case or =>
    rw [here, point]
    exact pairWord_phase even (pairWord_or bound left right)
      (by rw [BitVec.toNat_or]; exact Nat.or_lt_two_pow left right) (by omega) rfl
  case xor =>
    rw [here, point]
    exact pairWord_phase even (pairWord_xor bound left right)
      (by rw [BitVec.toNat_xor]; exact Nat.xor_lt_two_pow left right) (by omega) rfl
  case eq =>
    rw [here, point, pairProd_append _ even, pairProd_eq_pairPoint, Nat.mod_eq_of_lt left,
      Nat.mod_eq_of_lt right]
    have same : x.setWidth 128 = y.setWidth 128 ↔ x.toNat = y.toNat := by
      rw [← BitVec.toNat_inj, BitVec.toNat_setWidth, BitVec.toNat_setWidth,
        Nat.mod_eq_of_lt (by have := x.isLt; omega), Nat.mod_eq_of_lt (by have := y.isLt; omega)]
    by_cases equal : x.toNat = y.toNat
    · rw [if_pos (same.mpr equal), if_pos equal, mul_one]
    · rw [if_neg (fun h => equal (same.mp h)), if_neg equal, mul_zero]
  case lessThan =>
    have equal := holds .eq (.inr trivial)
    simp only [Prefixes.prefixMle] at equal
    rw [here, equal, point, pairLess_append _ even, pairLess_pairPoint, Nat.mod_eq_of_lt left,
      Nat.mod_eq_of_lt right]
    by_cases less : x.toNat < y.toNat
    · rw [if_pos (BitVec.lt_def.mpr less), if_pos less, mul_one]
    · rw [if_neg (fun h => less (BitVec.lt_def.mp h)), if_neg less, mul_zero, add_zero]
  case leftOperandIsZero =>
    rw [here, point, pairProd_append _ even, pairProd_zeroFst_pairPoint, Nat.mod_eq_of_lt left]
    by_cases zero : x = 0
    · rw [if_neg (not_not.mpr zero), if_pos (xZero.mpr zero), mul_one]
    · rw [if_pos zero, if_neg (fun h => zero (xZero.mp h)), mul_zero]
  case leftOperandMsb =>
    rw [here, point, first.1, Nat.add_sub_cancel, xTop]
    by_cases none : r.length = 0
    · rw [if_neg (by omega), if_pos none]
    · rw [if_pos (by omega), if_neg none]
  case rightOperandMsb =>
    rw [here, point, first.2 even, Nat.add_sub_cancel, yTop]
    by_cases none : r.length = 0
    · rw [if_neg (by omega), if_pos none]
    · rw [if_pos (by omega), if_neg none]
  case rightShift =>
    rw [here, point, rightShiftPhase_eq, pairGather_append _ even, pairProd_oneAddSnd_pairPoint]
  case leftShift =>
    have helper := holds .leftShiftHelper (by
      by_cases none : r = []
      · exact .inl none
      · right
        change 2 * (k + 1) ≤ 64
        have some := Nat.le_of_dvd (Nat.pos_of_ne_zero (started.mp none)) starts
        omega)
    simp only [Prefixes.prefixMle] at helper
    rw [here, helper, point, leftShiftPhase_eq _ _ total,
      pairRaise_append _ even (even_length_pairPoint ..), half_length_pairPoint, pow_add]
    ring
  case leftShiftHelper =>
    have ones := popcount_le (k + 1) y.toNat
    have short' : k + 1 ≤ 32 := by
      change 2 * (k + 1) ≤ 64 at aligned
      omega
    rw [here, point, pairProd_append _ even, pairProd_oneAddSnd_pairPoint, toNat_cpop,
      popcount_of_lt right bound, Nat.mod_eq_of_lt (by omega), toNat_one_shiftLeft (by omega),
      Nat.cast_pow, Nat.cast_ofNat]
  case popcnt =>
    rw [here, point, pairSum_append _ even, pairSum_cpop x bound left]
  case clz =>
    have zero := holds .leftOperandIsZero (.inr trivial)
    simp only [Prefixes.prefixMle] at zero
    rw [here, zero, point, pairLeadingZeros_append _ even, pairLeadingZeros_clz x bound left]
    simp only [leadingZeros, LookupBits.toU64_setWidth]
  case ctz =>
    rw [here, point, pairTrailingZeros_append _ even, pairTrailingZeros_ctz x left,
      pairProd_zeroFst_pairPoint, Nat.mod_eq_of_lt left]
    by_cases zero : x = 0
    · subst zero
      simp [add_comm]
    · rw [if_neg zero, if_neg zero, if_neg (fun h => zero (xZero.mp h)), zero_mul, add_zero]
  case rightOperand =>
    have wide : (y.setWidth 128).toNat = y.toNat := by
      rw [BitVec.toNat_setWidth, Nat.mod_eq_of_lt (by have := y.isLt; omega)]
    rw [here, point]
    exact pairWord_phase even (by rw [pairWord_snd bound left right, wide])
      (by rwa [wide]) (by omega) rfl
  case leftMsbRightOperand =>
    have wide : (y.setWidth 128).toNat = y.toNat := by
      rw [BitVec.toNat_setWidth, Nat.mod_eq_of_lt (by have := y.isLt; omega)]
    have joined := pairWord_phase (m := m) even (z := y.setWidth 128)
      (by rw [pairWord_snd bound left right, wide]) (by rwa [wide]) (by omega) rfl
    have sign := holds .leftOperandMsb (.inr trivial)
    simp only [Prefixes.prefixMle] at sign
    rw [here, sign, point, first.1, Nat.add_sub_cancel, xTop]
    by_cases none : r.length = 0
    · have empty : pairWord (fun _ y => y) r = 0 := by
        rw [List.length_eq_zero_iff.mp none]
        rfl
      rw [if_pos none]
      linear_combination ofBit F (x.toNat.testBit k) * joined +
        (r.getD 0 0 - ofBit F (x.toNat.testBit k)) * 2 ^ (m + (k + 1)) * empty
    · rw [if_neg none]
      linear_combination r.getD 0 0 * joined
  case leftMsbRightOperandIsZero =>
    rw [here, point, first.1, Nat.add_sub_cancel, xTop, pairProd_append _ even,
      pairProd_zeroSnd_pairPoint, Nat.mod_eq_of_lt right]
    by_cases zero : y = 0
    · rw [if_neg (not_not.mpr zero), if_pos (yZero.mpr zero), mul_one]
      by_cases none : r.length = 0
      · rw [if_pos none, if_pos none, List.length_eq_zero_iff.mp none]
        simp [pairProd]
      · rw [if_neg none, if_neg none]
    · rw [if_pos zero, if_neg (fun h => zero (yZero.mp h)), mul_zero, mul_zero]
  case lowerWord =>
    rw [here]
    exact word_phase (dvd_two_pow_of_le (k := 6) divides aligned) starts short (by omega)
  case lowerHalfWord =>
    have boundary : 2 * (k + 1) ∣ 96 :=
      (dvd_two_pow_of_le (k := 5) divides aligned).trans (by norm_num)
    rw [here]
    exact word_phase boundary starts short (by omega)
  case overflowBitsZero =>
    rw [here]
    exact allZero_phase total short
  case pow2 =>
    have long : 8 ≤ 2 * (k + 1) := aligned
    have before : r.drop 122 = [] := List.drop_eq_nil_of_le (by omega)
    by_cases last : 2 * m = 0
    · have shift : (v.setWidth 64 &&& 63).toNat = v.toNat % 2 ^ 6 := by
        rw [BitVec.toNat_and, BitVec.toNat_setWidth]
        change v.toNat % 2 ^ 64 &&& (2 ^ 6 - 1) = _
        rw [Nat.and_two_pow_sub_one_eq_mod, Nat.mod_mod_of_dvd _ (by norm_num)]
      have below := Nat.mod_lt v.toNat (Nat.two_pow_pos 6)
      have parts : 2 * (k + 1) = 122 - r.length + 6 := by omega
      have none : twoPow ([] : List F) = 1 := rfl
      rw [if_neg (not_not.mpr last), here, List.drop_append, before, none, one_mul, List.nil_append,
        parts, drop_bitPoint, twoPow_bitPoint, LookupBits.toU64, BitVec.shiftLeft_eq', shift,
        toNat_one_shiftLeft (by omega), Nat.cast_pow, Nat.cast_ofNat]
    · have rest : 2 * (k + 1) ∣ 2 * m := by
        have := Nat.dvd_sub (Nat.dvd_sub divides starts) (dvd_refl (2 * (k + 1)))
        rwa [show 128 - r.length - 2 * (k + 1) = 2 * m by omega] at this
      have room := Nat.le_of_dvd (by omega) rest
      have none : (r ++ bitPoint F (2 * (k + 1)) v.toNat).drop 122 = [] := by
        apply List.drop_eq_nil_of_le
        rw [List.length_append, length_bitPoint]
        omega
      rw [if_pos last, none]
      rfl
  case signExtension =>
    by_cases none : r.length = 0
    · have sign : (x >>> k) &&& 1 = 0 ↔ x.toNat.testBit k = false := by
        have bit := bitFromTop_eq x (k + 1) 0
        rw [bitFromTop, Nat.add_sub_cancel, Nat.sub_zero] at bit
        rw [bit, ofBool_eq_zero]
      have sum := (signExtensionLoopAt_eq (F := F) bound x y le_rfl).2
      rw [readBits_all, readBits_all] at sum
      rw [if_pos none, point, List.length_eq_zero_iff.mp none, List.nil_append,
        (getD_pairPoint ..).1, Nat.add_sub_cancel, signExtensionFirst_eq, sum]
      cases bit : x.toNat.testBit k with
      | false => rw [if_pos (sign.mpr bit), ofBit_false, zero_mul]
      | true => rw [if_neg (fun h => by simp [bit] at sign; exact sign h), ofBit_true, one_mul]
    · have sign := holds .leftOperandMsb (.inr trivial)
      simp only [Prefixes.prefixMle] at sign
      have longer : 2 ≤ r.length := by
        rw [Nat.even_iff] at even
        omega
      have evenRest : Even (r.drop 2).length := by
        rw [List.length_drop, Nat.even_iff]
        rw [Nat.even_iff] at even
        omega
      have halfRest : (r.drop 2).length / 2 = r.length / 2 - 1 := by
        rw [List.length_drop]
        omega
      have double : (2 : F) ^ (r.length / 2) = 2 * 2 ^ (r.length / 2 - 1) := by
        rw [← pow_succ', Nat.sub_add_cancel (by omega)]
      rw [if_neg none, here, sign, signExtensionPhase_eq x.toNat y (by omega), point, first.1,
        if_neg none, List.drop_append_of_le_length longer, pairFill_append _ evenRest, halfRest,
        double]
      ring
  case signExtensionUpperHalf =>
    have boundary : 2 * (k + 1) ∣ 96 :=
      (dvd_two_pow_of_le (k := 5) divides aligned).trans (by norm_num)
    have short' : 2 * (k + 1) ≤ 32 := aligned
    change (if 2 * m ≥ 32 then (1 : F)
      else if r.length ≤ 96 ∧ 96 < r.length + 2 * (k + 1) then
        (((((1 : U128) <<< 32) - 1) <<< 32).toNat : F) *
          (((x >>> (k + 1 - 1)) &&& 1).toNat : F)
      else checkpoints .signExtensionUpperHalf) = _
    by_cases high : 32 ≤ 2 * m
    · rw [if_pos high, if_pos high]
    · rw [if_neg high, if_neg high]
      by_cases now : r.length = 96
      · have fill : (((1 : U128) <<< 32 - 1) <<< 32).toNat = (2 ^ 32 - 1) * 2 ^ 32 := rfl
        have bit := bitFromTop_eq x (k + 1) 0
        rw [bitFromTop, Nat.sub_zero] at bit
        rw [if_pos (by omega), fill, bit, cast_ofBool, point,
          List.getD_append_right _ _ _ _ (by omega), now, (getD_pairPoint ..).1, ofBit]
        norm_num
      · have past : 96 < r.length := by
          by_contra before
          have := phase_le starts boundary (by omega)
          omega
        rw [if_neg (by omega), here, if_neg (by omega), List.getD_append _ _ _ _ past]

end

end JoltWasm
