import JoltWasm.Tables.MleForms
import JoltWasm.Tables.WordBits

/-!
# The tables' extensions at boolean points

At the bits of an index the extension of every table is the table's entry.  The loops of the shift
tables never overflow a word, so they compute the sums over pairs of the bits read so far.
-/

namespace JoltWasm

open Lib

variable {F : Type} [CommRing F]

/-! ## The shift loops -/

/-- The bits of a word read after `n` rounds. -/
def readBits (xlen n : ℕ) (v : U64) : ℕ := v.toNat / 2 ^ (xlen - n)

/-- The next bit joins the bits read so far. -/
theorem readBits_succ {xlen n : ℕ} (inside : n < xlen) (v : U64) :
    readBits xlen (n + 1) v / 2 = readBits xlen n v ∧
      (readBits xlen (n + 1) v).testBit 0 = v.getLsbD (xlen - 1 - n) := by
  unfold readBits
  constructor
  · rw [Nat.div_div_eq_div_mul, ← pow_succ, show xlen - (n + 1) + 1 = xlen - n by omega]
  · rw [Nat.testBit_div_two_pow, show xlen - (n + 1) = xlen - 1 - n by omega, Nat.zero_add]
    rfl

theorem pairPoint_readBits_succ {xlen n : ℕ} (inside : n < xlen) (x y : U64) :
    pairPoint F (n + 1) (readBits xlen (n + 1) x) (readBits xlen (n + 1) y) =
      pairPoint F n (readBits xlen n x) (readBits xlen n y) ++
        [ofBit F (x.getLsbD (xlen - 1 - n)), ofBit F (y.getLsbD (xlen - 1 - n))] := by
  obtain ⟨xRest, xBit⟩ := readBits_succ inside x
  obtain ⟨yRest, yBit⟩ := readBits_succ inside y
  rw [pairPoint_succ_low, xRest, xBit, yRest, yBit]

theorem popcount_readBits_succ {xlen n : ℕ} (inside : n < xlen) (y : U64) :
    popcount (n + 1) (readBits xlen (n + 1) y) =
      popcount n (readBits xlen n y) + (y.getLsbD (xlen - 1 - n)).toNat := by
  obtain ⟨yRest, yBit⟩ := readBits_succ inside y
  rw [popcount_succ_low, yRest, yBit]

theorem readBits_all (xlen : ℕ) (v : U64) : readBits xlen xlen v = v.toNat := by
  simp [readBits]

/-- A round of a shift at a one of the mask. -/
theorem toNat_shiftIn {e : U64} (room : e.toNat < 2 ^ 63) (a : Bool) :
    (e * (1 + U64.ofBool true) + U64.ofBool a * U64.ofBool true).toNat =
      2 * e.toNat + a.toNat := by
  have two : (1 + U64.ofBool true : U64) = 2 := by decide
  have bit : U64.ofBool a * U64.ofBool true = U64.ofBool a := by cases a <;> decide
  have value : (U64.ofBool a).toNat = a.toNat := by cases a <;> rfl
  have small := Bool.toNat_le a
  rw [two, bit, BitVec.toNat_add, BitVec.toNat_mul, value]
  change (e.toNat * 2 % 2 ^ 64 + a.toNat) % 2 ^ 64 = _
  omega

/-- A round of a shift at a zero of the mask. -/
theorem shiftIn_false (e a : U64) : e * (1 + U64.ofBool false) + a * U64.ofBool false = e := by
  change e * (1 + 0) + a * 0 = e
  simp

theorem toNat_one_shiftLeft {i : ℕ} (small : i < 64) : ((1 : U64) <<< i).toNat = 2 ^ i := by
  have room : 2 ^ i ≤ 2 ^ 63 := Nat.pow_le_pow_right two_pos (by omega)
  rw [BitVec.toNat_shiftLeft, Nat.shiftLeft_eq]
  change 1 * 2 ^ i % 2 ^ 64 = _
  omega

/-- The bit a rotation moves up at a zero of the mask. -/
theorem toNat_raised {prod : U128} {i k : ℕ} (power : prod.toNat = 2 ^ k)
    (room : 2 ^ i * 2 ^ k < 2 ^ 64) (small : i < 64) (a : Bool) :
    (U64.ofBool a * ((1 - (U64.ofBool false).setWidth 128) * prod).setWidth 64 *
      (1 : U64) <<< i).toNat = a.toNat * (2 ^ i * 2 ^ k) := by
  have all : (1 - (U64.ofBool false).setWidth 128 : U128) = 1 := by decide
  have below : 2 ^ k ≤ 2 ^ i * 2 ^ k := Nat.le_mul_of_pos_left _ (Nat.two_pow_pos i)
  have kept : (prod.setWidth 64).toNat = 2 ^ k := by
    rw [BitVec.toNat_setWidth, power, Nat.mod_eq_of_lt (by omega)]
  have bit : (U64.ofBool a * prod.setWidth 64).toNat = a.toNat * 2 ^ k := by
    cases a with
    | false =>
      change (0 * prod.setWidth 64 : U64).toNat = _
      rw [zero_mul, Bool.toNat_false, Nat.zero_mul]
      rfl
    | true =>
      change (1 * prod.setWidth 64 : U64).toNat = _
      rw [one_mul, kept, Bool.toNat_true, Nat.one_mul]
  have order : a.toNat * 2 ^ k * 2 ^ i = a.toNat * (2 ^ i * 2 ^ k) := by ring
  have least : a.toNat * (2 ^ i * 2 ^ k) ≤ 1 * (2 ^ i * 2 ^ k) :=
    Nat.mul_le_mul_right _ (Bool.toNat_le a)
  rw [all, one_mul, BitVec.toNat_mul, bit, toNat_one_shiftLeft small, order,
    Nat.mod_eq_of_lt (by omega)]

/-- A rotation moves nothing at a one of the mask. -/
theorem raised_true (prod : U128) (a w : U64) :
    a * ((1 - (U64.ofBool true).setWidth 128) * prod).setWidth 64 * w = 0 := by
  have none : (1 - (U64.ofBool true).setWidth 128 : U128) = 0 := by decide
  rw [none, zero_mul]
  simp

section

variable {xlen : ℕ} (size : xlen ≤ 64) (x y : U64)

include size

/-- The shift of the bits read so far has one bit for each one of the mask. -/
theorem srlLoopAt_eq {n : ℕ} (inside : n ≤ xlen) :
    (srlLoopAt xlen x y n).toNat < 2 ^ popcount n (readBits xlen n y) ∧
      ((srlLoopAt xlen x y n).toNat : F) =
        pairGather (pairPoint F n (readBits xlen n x) (readBits xlen n y)) := by
  induction n with
  | zero => simp [srlLoopAt, popcount, pairPoint, pairGather]
  | succ n ih =>
    obtain ⟨bound, value⟩ := ih (by omega)
    have ones := popcount_le n (readBits xlen n y)
    have room : 2 ^ popcount n (readBits xlen n y) ≤ 2 ^ 63 :=
      Nat.pow_le_pow_right two_pos (by omega)
    rw [srlLoopAt, pairPoint_readBits_succ (by omega), pairGather_append _ (even_length_pairPoint ..),
      popcount_readBits_succ (by omega), ← value]
    simp only [bitWord]
    cases y.getLsbD (xlen - 1 - n) with
    | false =>
      rw [shiftIn_false]
      constructor
      · exact bound
      · simp [pairProd, pairGather]
    | true =>
      have bit := Bool.toNat_le (x.getLsbD (xlen - 1 - n))
      rw [toNat_shiftIn (by omega)]
      constructor
      · rw [Bool.toNat_true, pow_succ]
        omega
      · simp only [pairProd, pairGather, ofBit_true, ofBit_eq_cast (F := F) (x.getLsbD _)]
        push_cast
        ring

/-- The sign extension of the bits read so far fills the zeros of the mask above the first. -/
theorem signExtensionLoopAt_eq {n : ℕ} (inside : n ≤ xlen) :
    (signExtensionLoopAt xlen y n).toNat + 2 ^ popcount n (readBits xlen n y) ≤ 2 ^ n ∧
      ((signExtensionLoopAt xlen y n).toNat : F) =
        2 * pairFill ((pairPoint F n (readBits xlen n x) (readBits xlen n y)).drop 2) := by
  induction n with
  | zero => simp [signExtensionLoopAt, popcount, pairPoint, pairFill]
  | succ n ih =>
    obtain ⟨bound, value⟩ := ih (by omega)
    have ones : 2 ^ popcount n (readBits xlen n y) ≤ 2 ^ n :=
      Nat.pow_le_pow_right two_pos (popcount_le ..)
    have room : 2 ^ n ≤ 2 ^ 63 := Nat.pow_le_pow_right two_pos (by omega)
    have positive := Nat.two_pow_pos (popcount n (readBits xlen n y))
    rw [signExtensionLoopAt, pairPoint_readBits_succ (by omega), popcount_readBits_succ (by omega),
      bitWord]
    by_cases first : n = 0
    · subst first
      rw [if_pos rfl]
      cases y.getLsbD (xlen - 1 - 0) <;> simp [signExtensionLoopAt, popcount, pairPoint, pairFill]
    · have length := length_pairPoint (F := F) n (readBits xlen n x) (readBits xlen n y)
      have half : ((pairPoint F n (readBits xlen n x) (readBits xlen n y)).drop 2).length / 2 =
          n - 1 := by
        rw [List.length_drop]
        omega
      have even : Even ((pairPoint F n (readBits xlen n x) (readBits xlen n y)).drop 2).length := by
        rw [List.length_drop, Nat.even_iff]
        omega
      have power : (2 : F) ^ n = 2 * 2 ^ (n - 1) := by
        rw [← pow_succ', Nat.sub_add_cancel (by omega)]
      rw [if_neg first, List.drop_append_of_le_length (by omega), pairFill_append _ even, half]
      cases y.getLsbD (xlen - 1 - n) with
      | false =>
        have grown : (signExtensionLoopAt xlen y n + (1 : U64) <<< n * (1 - U64.ofBool false)).toNat =
            (signExtensionLoopAt xlen y n).toNat + 2 ^ n := by
          have whole : (1 - U64.ofBool false : U64) = 1 := by decide
          rw [whole, mul_one, BitVec.toNat_add, toNat_one_shiftLeft (by omega)]
          omega
        rw [grown, Bool.toNat_false, Nat.add_zero, pow_succ]
        refine ⟨by omega, ?_⟩
        push_cast
        rw [value, power]
        simp only [pairFill, ofBit_false]
        ring
      | true =>
        have same : signExtensionLoopAt xlen y n + (1 : U64) <<< n * (1 - U64.ofBool true) =
            signExtensionLoopAt xlen y n := by
          have none : (1 - U64.ofBool true : U64) = 0 := by decide
          rw [none, mul_zero, add_zero]
        rw [same, Bool.toNat_true, pow_succ, pow_succ]
        refine ⟨by omega, ?_⟩
        rw [value]
        simp only [pairFill, ofBit_true]
        ring

omit size in
/-- The first sum of a rotation is the shift. -/
theorem rotrLoopAt_first (n : ℕ) : (rotrLoopAt xlen x y n).first = srlLoopAt xlen x y n := by
  induction n with
  | zero => rfl
  | succ n ih => rw [rotrLoopAt, srlLoopAt, ih]

theorem rotrLoopAt_prod {n : ℕ} (inside : n ≤ xlen) :
    (rotrLoopAt xlen x y n).prod.toNat = 2 ^ popcount n (readBits xlen n y) := by
  induction n with
  | zero => rfl
  | succ n ih =>
    have room : 2 ^ popcount n (readBits xlen n y) ≤ 2 ^ 64 :=
      Nat.pow_le_pow_right two_pos ((popcount_le ..).trans (by omega))
    have factor : (1 + (bitWord y (xlen - 1 - n)).setWidth 128 : U128).toNat =
        2 ^ (y.getLsbD (xlen - 1 - n)).toNat := by
      rw [bitWord]
      cases y.getLsbD (xlen - 1 - n) <;> decide
    have bit := Bool.toNat_le (y.getLsbD (xlen - 1 - n))
    have small : 2 ^ (y.getLsbD (xlen - 1 - n)).toNat ≤ 2 ^ 1 := Nat.pow_le_pow_right two_pos bit
    have product := Nat.mul_le_mul room small
    rw [rotrLoopAt, popcount_readBits_succ (by omega), pow_add, BitVec.toNat_mul, ih (by omega),
      factor, Nat.mod_eq_of_lt (by omega)]

/-- The second sum of a rotation leaves room for the first. -/
theorem rotrLoopAt_second {n : ℕ} (inside : n ≤ xlen) :
    (rotrLoopAt xlen x y n).second.toNat +
        2 ^ (xlen - n) * 2 ^ popcount n (readBits xlen n y) ≤ 2 ^ xlen ∧
      ((rotrLoopAt xlen x y n).second.toNat : F) =
        2 ^ (xlen - n) * pairRaise (pairPoint F n (readBits xlen n x) (readBits xlen n y)) := by
  induction n with
  | zero => simp [rotrLoopAt, popcount, pairPoint, pairRaise]
  | succ n ih =>
    obtain ⟨bound, value⟩ := ih (by omega)
    obtain ⟨i, hi⟩ : ∃ i, xlen - 1 - n = i := ⟨_, rfl⟩
    have here : xlen - n = i + 1 := by omega
    have next : xlen - (n + 1) = i := by omega
    have prod := rotrLoopAt_prod size x y (n := n) (by omega)
    have whole : 2 ^ xlen ≤ 2 ^ 64 := Nat.pow_le_pow_right two_pos size
    rw [rotrLoopAt, pairPoint_readBits_succ (by omega), popcount_readBits_succ (by omega), hi, next,
      pairRaise_append _ (even_length_pairPoint ..) (by simp), pairProd_oneAddSnd_pairPoint]
    rw [here] at bound value
    generalize popcount n (readBits xlen n y) = k at bound prod ⊢
    generalize pairRaise (pairPoint F n (readBits xlen n x) (readBits xlen n y)) = raised at value ⊢
    simp only [bitWord]
    have split : 2 ^ (i + 1) * 2 ^ k = 2 * (2 ^ i * 2 ^ k) := by ring
    have positive : 0 < 2 ^ i * 2 ^ k := Nat.mul_pos (Nat.two_pow_pos i) (Nat.two_pow_pos k)
    cases y.getLsbD i with
    | false =>
      have bit := Bool.toNat_le (x.getLsbD i)
      have moved : (x.getLsbD i).toNat * (2 ^ i * 2 ^ k) ≤ 1 * (2 ^ i * 2 ^ k) :=
        Nat.mul_le_mul_right _ bit
      rw [BitVec.toNat_add, toNat_raised prod (by omega) (by omega), Nat.mod_eq_of_lt (by omega)]
      constructor
      · rw [Bool.toNat_false, Nat.add_zero]
        omega
      · push_cast
        rw [value]
        simp only [pairRaise, List.length_nil, List.length_cons, ofBit_false,
          ofBit_eq_cast (F := F) (x.getLsbD i)]
        ring
    | true =>
      rw [raised_true, add_zero]
      constructor
      · rw [Bool.toNat_true, pow_succ, ← Nat.mul_assoc]
        omega
      · rw [value]
        simp only [pairRaise, List.length_nil, List.length_cons, ofBit_true]
        ring

end

/-! ## Operands -/

/-- A word whose bits are an operation on the bits of two short words. -/
theorem pairWord_word {g : F → F → F} (op : Bool → Bool → Bool) {x y z : U64} {n : ℕ}
    (bound : n ≤ 64) (left : x.toNat < 2 ^ n) (right : y.toNat < 2 ^ n)
    (bits : ∀ a b, g (ofBit F a) (ofBit F b) = ofBit F (op a b)) (none : op false false = false)
    (hz : ∀ i < 64, z.getLsbD i = op (x.getLsbD i) (y.getLsbD i)) :
    pairWord g (pairPoint F n x.toNat y.toNat) = (z.toNat : F) := by
  have short : z.toNat < 2 ^ n := by
    apply lt_two_pow_of_clear
    intro i hi
    by_cases inside : i < 64
    · change z.getLsbD i = false
      rw [hz i inside, getLsbD_of_short x left hi, getLsbD_of_short y right hi, none]
    · exact BitVec.getLsbD_of_ge _ i (by omega)
  rw [pairWord_pairPoint (z := z.toNat) bits fun i hi => hz i (by omega), Nat.mod_eq_of_lt short]

theorem pairWord_and {x y : U64} {n : ℕ} (bound : n ≤ 64) (left : x.toNat < 2 ^ n)
    (right : y.toNat < 2 ^ n) :
    pairWord (fun x y => x * y) (pairPoint F n x.toNat y.toNat) = ((x &&& y).toNat : F) := by
  apply pairWord_word (fun a b => a && b) bound left right
  · intro a b
    cases a <;> cases b <;> simp
  · rfl
  · intro i _
    exact BitVec.getLsbD_and

theorem pairWord_andn {x y : U64} {n : ℕ} (bound : n ≤ 64) (left : x.toNat < 2 ^ n)
    (right : y.toNat < 2 ^ n) :
    pairWord (fun x y => x * (1 - y)) (pairPoint F n x.toNat y.toNat) =
      ((x &&& ~~~y).toNat : F) := by
  apply pairWord_word (fun a b => a && !b) bound left right
  · intro a b
    cases a <;> cases b <;> simp
  · rfl
  · intro i hi
    simp [hi]

theorem pairWord_or {x y : U64} {n : ℕ} (bound : n ≤ 64) (left : x.toNat < 2 ^ n)
    (right : y.toNat < 2 ^ n) :
    pairWord (fun x y => x + y - x * y) (pairPoint F n x.toNat y.toNat) =
      ((x ||| y).toNat : F) := by
  apply pairWord_word (fun a b => a || b) bound left right
  · intro a b
    cases a <;> cases b <;> simp
  · rfl
  · intro i _
    exact BitVec.getLsbD_or

theorem pairWord_xor {x y : U64} {n : ℕ} (bound : n ≤ 64) (left : x.toNat < 2 ^ n)
    (right : y.toNat < 2 ^ n) :
    pairWord (fun x y => (1 - x) * y + x * (1 - y)) (pairPoint F n x.toNat y.toNat) =
      ((x ^^^ y).toNat : F) := by
  apply pairWord_word (fun a b => a ^^ b) bound left right
  · intro a b
    cases a <;> cases b <;> simp
  · rfl
  · intro i _
    exact BitVec.getLsbD_xor

theorem pairWord_snd {x y : U64} {n : ℕ} (bound : n ≤ 64) (left : x.toNat < 2 ^ n)
    (right : y.toNat < 2 ^ n) :
    pairWord (fun _ y => y) (pairPoint F n x.toNat y.toNat) = (y.toNat : F) :=
  pairWord_word (fun _ b => b) bound left right (fun _ _ => rfl) rfl fun _ _ => rfl

/-- A comparison as an element of the ring. -/
theorem cast_ofBool (b : Bool) : ((U64.ofBool b).toNat : F) = if b then 1 else 0 := by
  cases b
  · exact Nat.cast_zero
  · exact Nat.cast_one

section

variable {x y : U64} {n : ℕ} (left : x.toNat < 2 ^ n) (right : y.toNat < 2 ^ n)

include left right

theorem pairProd_equal :
    pairProd pairEq (pairPoint F n x.toNat y.toNat) = ((U64.ofBool (x == y)).toNat : F) := by
  rw [pairProd_eq_pairPoint, Nat.mod_eq_of_lt left, Nat.mod_eq_of_lt right, cast_ofBool]
  simp [BitVec.toNat_inj]

theorem pairLess_ult :
    pairLess (pairPoint F n x.toNat y.toNat) = ((U64.ofBool (x.ult y)).toNat : F) := by
  rw [pairLess_pairPoint, Nat.mod_eq_of_lt left, Nat.mod_eq_of_lt right, cast_ofBool]
  simp [BitVec.ult]

end

/-! ## Words -/

/-- The low coordinates of a boolean point. -/
theorem drop_bitPoint (m n v : ℕ) : (bitPoint F (m + n) v).drop m = bitPoint F n v := by
  rw [bitPoint_add, List.drop_left' (length_bitPoint _ _)]

theorem take_bitPoint (m n v : ℕ) :
    (bitPoint F (m + n) v).take m = bitPoint F m (v / 2 ^ n) := by
  rw [bitPoint_add, List.take_left' (length_bitPoint _ _)]

theorem getD_bitPoint (m n v : ℕ) :
    (bitPoint F (m + (n + 1)) v).getD m 0 = ofBit F (v.testBit n) := by
  rw [bitPoint_add, List.getD_append_right _ _ _ _ (by simp)]
  simp [bitPoint, ofBit]

theorem getD_pairPoint (n x y : ℕ) :
    (pairPoint F (n + 1) x y).getD 0 0 = ofBit F (x.testBit n) ∧
      (pairPoint F (n + 1) x y).getD 1 0 = ofBit F (y.testBit n) := ⟨rfl, rfl⟩

/-- The top bit of a short word. -/
theorem testBit_top {v n : ℕ} (short : v < 2 ^ (n + 1)) :
    v.testBit n = decide (2 ^ n ≤ v) := by
  rw [Nat.testBit_eq_decide_div_mod_eq, decide_eq_decide]
  have positive := Nat.two_pow_pos n
  rw [pow_succ] at short
  by_cases top : 2 ^ n ≤ v
  · have : v / 2 ^ n = 1 := Nat.div_eq_of_lt_le (by omega) (by omega)
    simp [this, top]
  · rw [Nat.div_eq_of_lt (by omega)]
    simp [top]

/-- Sign extension from a supported word size. -/
theorem signExtendTo64_eq {n : ℕ} (supported : SupportedXlen (n + 1)) {x : U64}
    (short : x.toNat < 2 ^ (n + 1)) :
    signExtendTo64 (n + 1) x =
      (x.toNat : ℤ) - if x.toNat.testBit n then 2 ^ (n + 1) else 0 := by
  rw [testBit_top short, signExtendTo64]
  obtain size | size := supported
  · obtain rfl : n = 63 := by omega
    simp only [Nat.sub_self, BitVec.shiftLeft_zero, BitVec.sshiftRight_zero]
    rw [BitVec.toInt_eq_toNat_cond]
    simp only [decide_eq_true_eq]
    split_ifs <;> omega
  · obtain rfl : n = 7 := by omega
    rw [BitVec.toInt_sshiftRight, BitVec.toInt_eq_toNat_cond, BitVec.toNat_shiftLeft,
      Nat.shiftLeft_eq, Int.shiftRight_eq_div_pow]
    simp only [decide_eq_true_eq]
    norm_num at short ⊢
    rw [Nat.mod_eq_of_lt (by omega)]
    split_ifs <;> omega

/-- The signed comparison, from the unsigned one and the signs. -/
theorem signed_pairLess {n : ℕ} (supported : SupportedXlen (n + 1)) {x y : U64}
    (left : x.toNat < 2 ^ (n + 1)) (right : y.toNat < 2 ^ (n + 1)) :
    ofBit F (x.toNat.testBit n) - ofBit F (y.toNat.testBit n) +
        pairLess (pairPoint F (n + 1) x.toNat y.toNat) =
      if signExtendTo64 (n + 1) x < signExtendTo64 (n + 1) y then 1 else 0 := by
  have power : (2 : ℤ) ^ (n + 1) = ((2 ^ (n + 1) : ℕ) : ℤ) := by push_cast; rfl
  have double : 2 ^ (n + 1) = 2 * 2 ^ n := pow_succ' 2 n
  rw [pairLess_pairPoint, Nat.mod_eq_of_lt left, Nat.mod_eq_of_lt right,
    signExtendTo64_eq supported left, signExtendTo64_eq supported right, power]
  rw [testBit_top left, testBit_top right]
  -- The signs decide unless they are equal.
  by_cases xSign : 2 ^ n ≤ x.toNat <;> by_cases ySign : 2 ^ n ≤ y.toNat <;>
    simp only [xSign, ySign, decide_true, decide_false, ofBit_true, ofBit_false, if_true,
      Bool.false_eq_true, if_false] <;>
    split_ifs <;> first | omega | ring

/-- The entry of the negation table. -/
theorem toNat_negateIf {n : ℕ} (supported : SupportedXlen (n + 1)) {x y : U64}
    (right : y.toNat < 2 ^ (n + 1)) :
    let mask : U64 := (((1 : U128) <<< (n + 1)) - 1).setWidth 64
    (if x &&& ((1 : U64) <<< n) = 0 then y &&& mask else -(y &&& mask) &&& mask).toNat =
      if x.toNat.testBit n then if y.toNat = 0 then 0 else 2 ^ (n + 1) - y.toNat else y.toNat := by
  intro mask
  have sign : x &&& ((1 : U64) <<< n) = 0 ↔ x.toNat.testBit n = false := by
    have inside : n < 64 := by
      obtain size | size := supported <;> omega
    have power : (1 : U64) <<< n = BitVec.twoPow 64 n := rfl
    rw [power]
    constructor
    · intro zero
      have bit : (x &&& BitVec.twoPow 64 n).getLsbD n = false := by
        rw [zero]
        exact BitVec.getLsbD_zero
      rw [BitVec.getLsbD_and, BitVec.getLsbD_twoPow] at bit
      simpa [inside, BitVec.getLsbD] using bit
    · intro clear
      apply BitVec.eq_of_getLsbD_eq
      intro i hi
      by_cases same : n = i
      · subst same
        rw [BitVec.getLsbD_and]
        simp [BitVec.getLsbD, clear]
      · simp [same]
  have low (v : U64) : (v &&& mask).toNat = v.toNat % 2 ^ (n + 1) := by
    have ones : mask.toNat = 2 ^ (n + 1) - 1 := by
      obtain size | size := supported
      · obtain rfl : n = 63 := by omega
        rfl
      · obtain rfl : n = 7 := by omega
        rfl
    rw [BitVec.toNat_and, ones, Nat.and_two_pow_sub_one_eq_mod]
  have kept : y &&& mask = y := by
    apply BitVec.eq_of_toNat_eq
    rw [low, Nat.mod_eq_of_lt right]
  rw [kept]
  cases bit : x.toNat.testBit n with
  | false => rw [if_pos (sign.mpr bit), if_neg (by simp)]
  | true =>
    rw [if_neg (fun zero => absurd (sign.mp zero) (by simp [bit])), if_pos rfl, low,
      BitVec.toNat_neg]
    have divides : 2 ^ (n + 1) ∣ 2 ^ 64 := by
      obtain size | size := supported
      · rw [size]
      · rw [size]
        norm_num
    by_cases zero : y.toNat = 0
    · rw [if_pos zero, zero]
      simp
    · have positive := Nat.two_pow_pos (n + 1)
      have larger : 2 ^ (n + 1) ≤ 2 ^ 64 := Nat.le_of_dvd (by norm_num) divides
      obtain ⟨c, hc⟩ := divides
      have split : 2 ^ 64 - y.toNat = 2 ^ (n + 1) * (c - 1) + (2 ^ (n + 1) - y.toNat) := by
        cases c with
        | zero => omega
        | succ c =>
          rw [Nat.mul_succ] at hc
          rw [Nat.add_sub_cancel]
          omega
      have small : (2 ^ 64 - y.toNat) % 2 ^ 64 = 2 ^ 64 - y.toNat := Nat.mod_eq_of_lt (by omega)
      rw [if_neg zero, small, split, Nat.mul_add_mod, Nat.mod_eq_of_lt (by omega)]

/-- The entry of the sign-extension table. -/
theorem toNat_signExtend {h : ℕ} (supported : SupportedXlen (2 * (h + 1))) (v : ℕ) :
    let lowerHalf := BitVec.ofNat 64 (v % 2 ^ (h + 1))
    (if (lowerHalf >>> h) &&& 1 = 1 then
        lowerHalf ||| ((((1 : U64) <<< (h + 1)) - 1) <<< (h + 1)) else lowerHalf : U64).toNat =
      v % 2 ^ (h + 1) + if v.testBit h then (2 ^ (h + 1) - 1) * 2 ^ (h + 1) else 0 := by
  intro lowerHalf
  have below := Nat.mod_lt v (Nat.two_pow_pos (h + 1))
  have room : 2 ^ (h + 1) ≤ 2 ^ 32 := by
    obtain size | size := supported <;> exact Nat.pow_le_pow_right two_pos (by omega)
  have value : lowerHalf.toNat = v % 2 ^ (h + 1) := by
    rw [BitVec.toNat_ofNat, Nat.mod_eq_of_lt (by omega)]
  have sign : (lowerHalf >>> h) &&& 1 = 1 ↔ v.testBit h = true := by
    have bit : v.testBit h = lowerHalf.toNat.testBit h := by
      rw [value, Nat.testBit_mod_two_pow]
      simp
    rw [bit, ← BitVec.toNat_inj, BitVec.toNat_and, BitVec.toNat_ushiftRight,
      Nat.testBit_eq_decide_div_mod_eq, decide_eq_true_eq, Nat.shiftRight_eq_div_pow]
    change lowerHalf.toNat / 2 ^ h &&& 1 = 1 ↔ _
    rw [Nat.and_one_is_mod]
  have fill : ((((1 : U64) <<< (h + 1)) - 1) <<< (h + 1)).toNat =
      (2 ^ (h + 1) - 1) <<< (h + 1) := by
    obtain size | size := supported
    · obtain rfl : h = 31 := by omega
      rfl
    · obtain rfl : h = 3 := by omega
      rfl
  by_cases bit : v.testBit h = true
  · rw [if_pos (sign.mpr bit), if_pos bit, BitVec.toNat_or, fill, value, Nat.or_comm,
      ← Nat.shiftLeft_add_eq_or_of_lt below, Nat.shiftLeft_eq, Nat.add_comm]
  · rw [if_neg (fun one => bit (sign.mp one)), if_neg bit, value]
    rfl

/-! ## Tables of one word -/

section

variable {xlen : ℕ} (supported : SupportedXlen xlen) {index : U128}

include supported

theorem SupportedXlen.le : xlen ≤ 64 := by
  obtain rfl | rfl := supported <;> decide

theorem rangeCheck_bits :
    word ((bitPoint F (2 * xlen) index.toNat).drop xlen) =
      (((index &&& ((1 : U128) <<< xlen - 1)).setWidth 64).toNat : F) := by
  have mask : ((1 : U128) <<< xlen - 1).toNat = 2 ^ xlen - 1 := by
    obtain rfl | rfl := supported <;> rfl
  have fits : index.toNat % 2 ^ xlen < 2 ^ 64 :=
    (Nat.mod_lt _ (Nat.two_pow_pos _)).trans_le (Nat.pow_le_pow_right two_pos supported.le)
  rw [two_mul, drop_bitPoint, word_bitPoint, BitVec.toNat_setWidth, BitVec.toNat_and, mask,
    Nat.and_two_pow_sub_one_eq_mod, Nat.mod_eq_of_lt fits]

/-- The lower half of the low word. -/
theorem lowerHalf_bits :
    word ((bitPoint F (2 * xlen) index.toNat).drop (xlen + xlen / 2)) =
      ((index.toNat % 2 ^ (xlen / 2) : ℕ) : F) := by
  have lowHalf : 2 * xlen = xlen + xlen / 2 + xlen / 2 := by
    have := supported.half
    omega
  rw [lowHalf, drop_bitPoint, word_bitPoint]

theorem lowerHalfWord_bits :
    word ((bitPoint F (2 * xlen) index.toNat).drop (xlen + xlen / 2)) =
      ((BitVec.ofNat 64 (index.toNat % 2 ^ (xlen / 2))).toNat : F) := by
  have bound := supported.le
  have below := Nat.mod_lt index.toNat (Nat.two_pow_pos (xlen / 2))
  have room : 2 ^ (xlen / 2) ≤ 2 ^ 32 := Nat.pow_le_pow_right two_pos (by omega)
  have fits : index.toNat % 2 ^ (xlen / 2) % 2 ^ 64 = index.toNat % 2 ^ (xlen / 2) :=
    Nat.mod_eq_of_lt (by omega)
  rw [lowerHalf_bits supported, BitVec.toNat_ofNat, fits]

theorem signExtendWord_bits :
    let half := xlen / 2
    let lowerHalf := BitVec.ofNat 64 (index.toNat % 2 ^ half)
    word ((bitPoint F (2 * xlen) index.toNat).drop (xlen + xlen / 2)) +
        (2 ^ (xlen / 2) - 1) * 2 ^ (xlen / 2) *
          (bitPoint F (2 * xlen) index.toNat).getD (xlen + xlen / 2) 0 =
      ((if (lowerHalf >>> (half - 1)) &&& 1 = 1 then
          lowerHalf ||| ((((1 : U64) <<< half) - 1) <<< half) else lowerHalf : U64).toNat : F) := by
  intro half lowerHalf
  obtain ⟨twice, positive⟩ := supported.half
  obtain ⟨h, hh⟩ : ∃ h, xlen / 2 = h + 1 := ⟨xlen / 2 - 1, by omega⟩
  have entry := toNat_signExtend (h := h) (by rwa [← hh, twice]) index.toNat
  have lowHalf : 2 * xlen = xlen + (h + 1) + (h + 1) := by omega
  subst half
  rw [lowerHalf_bits supported]
  subst lowerHalf
  rw [hh, Nat.add_sub_cancel, entry, lowHalf, getD_bitPoint, Nat.cast_add]
  congr 1
  cases index.toNat.testBit h
  · simp
  · simp [Nat.cast_sub Nat.one_le_two_pow]

omit supported in
theorem mulUNoOverflow_bits (short : index.toNat < 2 ^ (2 * xlen)) :
    allZero ((bitPoint F (2 * xlen) index.toNat).take xlen) =
      ((U64.ofBool (index >>> xlen == 0)).toNat : F) := by
  have high : index.toNat / 2 ^ xlen < 2 ^ xlen :=
    Nat.div_lt_of_lt_mul (by rwa [← pow_add, ← two_mul])
  have zero : (index >>> xlen == 0) = decide (index.toNat / 2 ^ xlen = 0) := by
    rw [Bool.eq_iff_iff, beq_iff_eq, decide_eq_true_eq, ← BitVec.toNat_inj,
      BitVec.toNat_ushiftRight, Nat.shiftRight_eq_div_pow]
    rfl
  rw [two_mul, take_bitPoint, allZero_bitPoint, Nat.mod_eq_of_lt high, cast_ofBool, zero]
  simp

/-- The shift amount of an index. -/
theorem twoPow_bits :
    twoPow ((bitPoint F (2 * xlen) index.toNat).drop (2 * xlen - logXlen xlen)) =
      2 ^ (index.toNat % xlen) := by
  obtain ⟨size, _, _⟩ := supported.two_pow_log
  have lowLog : 2 * xlen = 2 * xlen - logXlen xlen + logXlen xlen := by
    have : logXlen xlen < 2 ^ logXlen xlen := Nat.lt_two_pow_self
    omega
  rw [congrArg (fun n => bitPoint F n index.toNat) lowLog, drop_bitPoint, twoPow_bitPoint, ← size]

theorem pow2_bits :
    twoPow ((bitPoint F (2 * xlen) index.toNat).drop (2 * xlen - logXlen xlen)) =
      (((1 : U64) <<< (index.toNat % xlen)).toNat : F) := by
  have below := Nat.mod_lt index.toNat supported.two_pow_log.2.2
  have bound := supported.le
  rw [twoPow_bits supported, toNat_one_shiftLeft (by omega), Nat.cast_pow, Nat.cast_ofNat]

omit supported in
/-- A right-shift bitmask of `n + s` bits. -/
theorem toNat_bitmask {n s : ℕ} (bound : n + s ≤ 64) :
    ((((1 : U128) <<< n) - 1).setWidth 64 <<< s : U64).toNat = (2 ^ n - 1) * 2 ^ s := by
  have larger : 2 ^ n ≤ 2 ^ 64 := Nat.pow_le_pow_right two_pos (by omega)
  have positive := Nat.two_pow_pos n
  have ones : (((1 : U128) <<< n) - 1).toNat = 2 ^ n - 1 := by
    rw [BitVec.toNat_sub, BitVec.toNat_shiftLeft, Nat.shiftLeft_eq]
    change (2 ^ 128 - 1 + 1 * 2 ^ n % 2 ^ 128) % 2 ^ 128 = _
    omega
  have fits : (2 ^ n - 1) * 2 ^ s < 2 ^ 64 := by
    have whole : 2 ^ n * 2 ^ s ≤ 2 ^ 64 := by
      rw [← pow_add]
      exact Nat.pow_le_pow_right two_pos bound
    have least := Nat.two_pow_pos s
    rw [Nat.sub_mul, Nat.one_mul]
    omega
  have word : (2 ^ n - 1) % 2 ^ 64 = 2 ^ n - 1 := Nat.mod_eq_of_lt (by omega)
  rw [BitVec.toNat_shiftLeft, BitVec.toNat_setWidth, ones, Nat.shiftLeft_eq, word,
    Nat.mod_eq_of_lt fits]

theorem shiftRightBitmask_bits :
    2 ^ xlen - twoPow ((bitPoint F (2 * xlen) index.toNat).drop (2 * xlen - logXlen xlen)) =
      ((((((1 : U128) <<< (xlen - index.toNat % xlen)) - 1).setWidth 64 : U64) <<<
        (index.toNat % xlen)).toNat : F) := by
  have below := Nat.mod_lt index.toNat supported.two_pow_log.2.2
  have bound := supported.le
  rw [twoPow_bits supported, toNat_bitmask (by omega)]
  generalize index.toNat % xlen = s at below
  have whole : (2 : F) ^ xlen = 2 ^ (xlen - s) * 2 ^ s := by
    rw [← pow_add, Nat.sub_add_cancel below.le]
  rw [Nat.cast_mul, Nat.cast_sub Nat.one_le_two_pow, whole]
  push_cast
  ring

end

/-! ## Tables of two operands -/

section

variable {xlen : ℕ} (supported : SupportedXlen xlen) {x y : U64} (left : x.toNat < 2 ^ xlen)
  (right : y.toNat < 2 ^ xlen)

include supported

theorem srl_bits :
    pairGather (pairPoint F xlen x.toNat y.toNat) = ((srlLoopAt xlen x y xlen).toNat : F) := by
  have loop := (srlLoopAt_eq (F := F) supported.le x y le_rfl).2
  rw [readBits_all, readBits_all] at loop
  exact loop.symm

theorem sra_bits :
    pairGather (pairPoint F xlen x.toNat y.toNat) +
        (pairPoint F xlen x.toNat y.toNat).getD 0 0 *
          (2 * pairFill ((pairPoint F xlen x.toNat y.toNat).drop 2)) =
      ((srlLoopAt xlen x y xlen +
        U64.ofBool (x.getLsbD (xlen - 1)) * signExtensionLoopAt xlen y xlen).toNat : F) := by
  obtain ⟨shifted, _⟩ := srlLoopAt_eq (F := F) supported.le x y le_rfl
  obtain ⟨extended, extension⟩ := signExtensionLoopAt_eq (F := F) supported.le x y le_rfl
  rw [readBits_all] at shifted extended extension
  rw [readBits_all] at extension
  have room : 2 ^ xlen ≤ 2 ^ 64 := Nat.pow_le_pow_right two_pos supported.le
  obtain ⟨n, hn⟩ : ∃ n, xlen = n + 1 := ⟨xlen - 1, by have := supported.half; omega⟩
  have sign : (pairPoint F xlen x.toNat y.toNat).getD 0 0 =
      ofBit F (x.getLsbD (xlen - 1)) := by
    rw [hn, (getD_pairPoint ..).1]
    rfl
  rw [srl_bits supported, sign, ← extension]
  cases x.getLsbD (xlen - 1) with
  | false =>
    change _ = ((srlLoopAt xlen x y xlen + 0 * signExtensionLoopAt xlen y xlen).toNat : F)
    rw [zero_mul, add_zero, ofBit_false, zero_mul, add_zero]
  | true =>
    change _ = ((srlLoopAt xlen x y xlen + 1 * signExtensionLoopAt xlen y xlen).toNat : F)
    rw [one_mul, ofBit_true, one_mul, BitVec.toNat_add, Nat.mod_eq_of_lt (by omega), Nat.cast_add]

theorem rotr_bits :
    pairGather (pairPoint F xlen x.toNat y.toNat) + pairRaise (pairPoint F xlen x.toNat y.toNat) =
      (((rotrLoopAt xlen x y xlen).first + (rotrLoopAt xlen x y xlen).second).toNat : F) := by
  obtain ⟨shifted, _⟩ := srlLoopAt_eq (F := F) supported.le x y le_rfl
  obtain ⟨raised, value⟩ := rotrLoopAt_second (F := F) supported.le x y le_rfl
  rw [readBits_all] at shifted raised value
  rw [readBits_all, Nat.sub_self, pow_zero, one_mul] at value
  rw [Nat.sub_self, pow_zero, one_mul] at raised
  have room : 2 ^ xlen ≤ 2 ^ 64 := Nat.pow_le_pow_right two_pos supported.le
  rw [rotrLoopAt_first, srl_bits supported, ← value, BitVec.toNat_add,
    Nat.mod_eq_of_lt (by omega), Nat.cast_add]

include left right

theorem signedLess_bits :
    (pairPoint F xlen x.toNat y.toNat).getD 0 0 - (pairPoint F xlen x.toNat y.toNat).getD 1 0 +
        pairLess (pairPoint F xlen x.toNat y.toNat) =
      if signExtendTo64 xlen x < signExtendTo64 xlen y then 1 else 0 := by
  obtain ⟨n, rfl⟩ : ∃ n, xlen = n + 1 := ⟨xlen - 1, by have := supported.half; omega⟩
  rw [(getD_pairPoint ..).1, (getD_pairPoint ..).2, signed_pairLess supported left right]

theorem negateIf_bits :
    let value : F := pairWord (fun _ y => y) (pairPoint F xlen x.toNat y.toNat)
    let sign := (pairPoint F xlen x.toNat y.toNat).getD 0 0
    let mask : U64 := (((1 : U128) <<< xlen) - 1).setWidth 64
    value - 2 * (sign * value) + 2 ^ xlen * sign -
        2 ^ xlen * (sign * pairProd (fun _ y => 1 - y) (pairPoint F xlen x.toNat y.toNat)) =
      ((if x &&& ((1 : U64) <<< (xlen - 1)) = 0 then y &&& mask
        else -(y &&& mask) &&& mask : U64).toNat : F) := by
  obtain ⟨n, rfl⟩ : ∃ n, xlen = n + 1 := ⟨xlen - 1, by have := supported.half; omega⟩
  have entry := toNat_negateIf supported (x := x) right
  simp only [Nat.add_sub_cancel] at entry ⊢
  rw [entry, pairWord_snd supported.le left right, (getD_pairPoint ..).1,
    pairProd_zeroSnd_pairPoint, Nat.mod_eq_of_lt right]
  cases x.toNat.testBit n with
  | false => simp
  | true =>
    by_cases zero : y.toNat = 0
    · simp [zero]
    · simp only [zero, if_true, if_false, ofBit_true, Nat.cast_sub right.le]
      push_cast
      ring

omit right in
theorem clz_bits :
    pairLeadingZeros (pairPoint F xlen x.toNat y.toNat) =
      ((if x = 0 then BitVec.ofNat 64 xlen
        else x.clz - (64 - BitVec.ofNat 64 xlen) : U64).toNat : F) := by
  have bound := supported.le
  have size : (BitVec.ofNat 64 xlen).toNat = xlen := by
    rw [BitVec.toNat_ofNat, Nat.mod_eq_of_lt (by omega)]
  rw [pairLeadingZeros_clz x bound left]
  congr 1
  by_cases zero : x = 0
  · rw [if_pos zero, if_pos zero, size]
  · obtain ⟨lower, upper⟩ := clz_short x bound left zero
    have gap : (64 - BitVec.ofNat 64 xlen : U64).toNat = 64 - xlen := by
      rw [BitVec.toNat_sub, size]
      change (2 ^ 64 - xlen + 64) % 2 ^ 64 = _
      omega
    rw [if_neg zero, if_neg zero, BitVec.toNat_sub, gap]
    omega

omit right in
theorem ctz_bits :
    pairTrailingZeros (pairPoint F xlen x.toNat y.toNat) =
      ((if x = 0 then BitVec.ofNat 64 xlen else x.ctz : U64).toNat : F) := by
  have bound := supported.le
  rw [pairTrailingZeros_ctz x left]
  congr 1
  by_cases zero : x = 0
  · rw [if_pos zero, if_pos zero, BitVec.toNat_ofNat, Nat.mod_eq_of_lt (by omega)]
  · rw [if_neg zero, if_neg zero]

end

/-! ## The tables -/

section

variable {xlen : ℕ} (supported : SupportedXlen xlen) {index : U128}
  (short : index.toNat < 2 ^ (2 * xlen))

include supported short

/-- At the bits of an index the extension of a table is the table's entry. -/
theorem tableMle_bitPoint (t : WasmTable) :
    t.tableMle xlen (bitPoint F (2 * xlen) index.toNat) =
      ((t.materializeEntryAt xlen index).toNat : F) := by
  have bound := supported.le
  have point := bitPoint_index (F := F) index bound
  obtain ⟨left, right⟩ := uninterleave_lt short
  have less := pairLess_ult (F := F) left right
  have equal := pairProd_equal (F := F) left right
  have signedLess := signedLess_bits (F := F) supported left right
  cases t
  case rangeCheck => exact rangeCheck_bits supported
  case lowerHalfWord => exact lowerHalfWord_bits supported
  case mulUNoOverflow => exact mulUNoOverflow_bits short
  case pow2 => exact pow2_bits supported
  case shiftRightBitmask => exact shiftRightBitmask_bits supported
  case signExtendWord => exact signExtendWord_bits supported
  all_goals rw [point, WasmTable.tableMle, WasmTable.materializeEntryAt]
  all_goals generalize uninterleaveBits index = operands at left right less equal signedLess ⊢
  all_goals obtain ⟨x, y⟩ := operands
  all_goals simp only at left right less equal signedLess ⊢
  case and => exact pairWord_and bound left right
  case andn => exact pairWord_andn bound left right
  case or => exact pairWord_or bound left right
  case xor => exact pairWord_xor bound left right
  case equal => exact equal
  case notEqual =>
    rw [equal, cast_ofBool, cast_ofBool]
    by_cases same : x = y <;> simp [same]
  case unsignedLessThan => exact less
  case signedLessThan =>
    rw [signedLess, cast_ofBool]
    simp
  case unsignedGreaterThanEqual =>
    rw [less, cast_ofBool, cast_ofBool]
    by_cases below : x.toNat < y.toNat <;>
      simp [BitVec.ult, BitVec.ule, below, Nat.not_le.mpr, Nat.not_lt.mp]
  case signedGreaterThanEqual =>
    rw [signedLess, cast_ofBool]
    by_cases below : signExtendTo64 xlen x < signExtendTo64 xlen y <;> simp [below]
  case unsignedLessThanEqual =>
    rw [less, equal, cast_ofBool, cast_ofBool, cast_ofBool]
    simp only [BitVec.ult, BitVec.ule, beq_iff_eq, decide_eq_true_eq, ← BitVec.toNat_inj]
    split_ifs <;> first | omega | ring
  case srl => exact srl_bits supported
  case sra => exact sra_bits supported
  case rotr => exact rotr_bits supported
  case negateIf => exact negateIf_bits supported left right
  case clz => exact clz_bits supported left
  case ctz => exact ctz_bits supported left
  case popcnt => exact pairSum_cpop x bound left y.toNat

end

/-- The verifier's formula is the multilinear extension of the table: it is affine in every
coordinate, and at the bits of an index it is the entry. -/
theorem evaluateMle_extends {xlen : ℕ} (supported : SupportedXlen xlen) (t : WasmTable) :
    (∀ r : List F, r.length = 2 * xlen → ∀ i < 2 * xlen, ∀ v,
        t.evaluateMle xlen (r.set i v) =
          (1 - v) * t.evaluateMle xlen (r.set i 0) + v * t.evaluateMle xlen (r.set i 1)) ∧
      ∀ index : U128, index.toNat < 2 ^ (2 * xlen) →
        t.evaluateMle xlen (bitPoint F (2 * xlen) index.toNat) =
          ((t.materializeEntryAt xlen index).toNat : F) := by
  constructor
  · intro r length i hi v
    have replaced (w : F) : t.evaluateMle xlen (r.set i w) =
        t.tableMle xlen (r.take i ++ w :: r.drop (i + 1)) := by
      rw [evaluateMle_eq_tableMle (by rw [List.length_set, length]) supported,
        List.set_eq_take_append_cons_drop, if_pos (by omega)]
    rw [replaced, replaced, replaced]
    exact tableMle_multilinear xlen t _ _ v
  · intro index short
    rw [evaluateMle_eq_tableMle (length_bitPoint _ _) supported, tableMle_bitPoint supported short]

theorem evaluateMle_extends_clz :
    (WasmTable.clz.evaluateMle 8 ((List.replicate 16 (2 : ℤ)).set 4 5) =
        (1 - 5) * WasmTable.clz.evaluateMle 8 ((List.replicate 16 (2 : ℤ)).set 4 0) +
          5 * WasmTable.clz.evaluateMle 8 ((List.replicate 16 (2 : ℤ)).set 4 1)) ∧
      WasmTable.clz.evaluateMle 8 (bitPoint ℤ 16 0x0800) =
        ((WasmTable.clz.materializeEntryAt 8 0x0800).toNat : ℤ) :=
  ⟨(evaluateMle_extends (.inr rfl) .clz).1 _ rfl 4 (by decide) 5,
    (evaluateMle_extends (.inr rfl) .clz).2 0x0800 (by decide)⟩

/-! ## Production words -/

theorem srlLoopAt_64 (x y : U64) (n : ℕ) : srlLoopAt 64 x y n = srlLoop x y n := by
  induction n with
  | zero => rfl
  | succ n ih => rw [srlLoopAt, srlLoop, ih]

theorem signExtensionLoopAt_64 (y : U64) (n : ℕ) :
    signExtensionLoopAt 64 y n = signExtensionLoop y n := by
  induction n with
  | zero => rfl
  | succ n ih => rw [signExtensionLoopAt, signExtensionLoop, ih]

theorem rotrLoopAt_64 (x y : U64) (n : ℕ) : rotrLoopAt 64 x y n = rotrLoop x y n := by
  induction n with
  | zero => rfl
  | succ n ih => rw [rotrLoopAt, rotrLoop, ih]

/-- With words of 64 bits the entries are those of the catalog. -/
theorem materializeEntryAt_64 (t : WasmTable) (index : U128) :
    t.materializeEntryAt 64 index = t.materializeEntry index := by
  rw [WasmTable.materializeEntryAt, WasmTable.materializeEntry]
  obtain ⟨x, y⟩ := uninterleaveBits index
  cases t <;> simp only [srlLoopAt_64, signExtensionLoopAt_64, rotrLoopAt_64, signExtendTo64,
    Nat.sub_self, BitVec.shiftLeft_zero, BitVec.sshiftRight_zero]
  all_goals first | rfl | simp

end JoltWasm
