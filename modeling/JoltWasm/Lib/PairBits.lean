import JoltWasm.Lib.PairSums

/-!
# Sums and products over pairs, at boolean points

At the interleaved bits of two naturals the sums and products over pairs are the bitwise
operations, comparisons, counts and shifts of the naturals.
-/

namespace JoltWasm.Lib

variable {F : Type*} [CommRing F]

/-- A bit as an element of the ring. -/
def ofBit (F : Type*) [CommRing F] (b : Bool) : F := if b then 1 else 0

@[simp] theorem ofBit_true : ofBit F true = 1 := rfl

@[simp] theorem ofBit_false : ofBit F false = 0 := rfl

theorem ofBit_eq_cast (b : Bool) : ofBit F b = (b.toNat : F) := by
  cases b <;> simp

/-- The low `n` bits of `x` and `y`, interleaved. -/
def pairPoint (F : Type*) [CommRing F] : ℕ → ℕ → ℕ → List F
  | 0, _, _ => []
  | n + 1, x, y => ofBit F (x.testBit n) :: ofBit F (y.testBit n) :: pairPoint F n x y

@[simp] theorem length_pairPoint (n x y : ℕ) : (pairPoint F n x y).length = 2 * n := by
  induction n with
  | zero => rfl
  | succ n ih =>
    simp only [pairPoint, List.length_cons, ih]
    ring

theorem half_length_pairPoint (n x y : ℕ) : (pairPoint F n x y).length / 2 = n := by
  simp

theorem even_length_pairPoint (n x y : ℕ) : Even (pairPoint F n x y).length := by
  simp

/-- The bits of an interleaved word. -/
theorem bitPoint_eq_pairPoint {n v x y : ℕ} (left : ∀ i < n, x.testBit i = v.testBit (2 * i + 1))
    (right : ∀ i < n, y.testBit i = v.testBit (2 * i)) :
    bitPoint F (2 * n) v = pairPoint F n x y := by
  induction n with
  | zero => rfl
  | succ n ih =>
    have next : 2 * (n + 1) = 2 * n + 1 + 1 := by ring
    rw [next, bitPoint, bitPoint, ← left n (by omega), ← right n (by omega),
      ih (fun i hi => left i (by omega)) fun i hi => right i (by omega)]
    rfl

/-- The higher pairs, then the lowest one. -/
theorem pairPoint_succ_low (n x y : ℕ) :
    pairPoint F (n + 1) x y =
      pairPoint F n (x / 2) (y / 2) ++ [ofBit F (x.testBit 0), ofBit F (y.testBit 0)] := by
  induction n with
  | zero => rfl
  | succ n ih =>
    rw [pairPoint, ih, pairPoint, List.cons_append, List.cons_append, Nat.testBit_div_two,
      Nat.testBit_div_two]

/-! ## Words -/

theorem mod_two_pow_succ (z n : ℕ) :
    z % 2 ^ (n + 1) = z % 2 ^ n + 2 ^ n * (z.testBit n).toNat := by
  rw [Nat.mod_pow_succ, Nat.testBit_eq_decide_div_mod_eq]
  rcases Nat.mod_two_eq_zero_or_one (z / 2 ^ n) with zero | one
  · simp [zero]
  · simp [one]

/-- The next bit of a natural, with the bits below. -/
theorem cast_mod_two_pow_succ (z n : ℕ) :
    ((z % 2 ^ (n + 1) : ℕ) : F) = ofBit F (z.testBit n) * 2 ^ n + ((z % 2 ^ n : ℕ) : F) := by
  rw [mod_two_pow_succ, ofBit_eq_cast]
  push_cast
  ring

theorem word_bitPoint (n v : ℕ) : word (bitPoint F n v) = ((v % 2 ^ n : ℕ) : F) := by
  induction n with
  | zero => simp [bitPoint, word, Nat.mod_one]
  | succ n ih =>
    rw [bitPoint, word, ih, length_bitPoint, cast_mod_two_pow_succ]
    rfl

theorem mod_two_pow_eq_zero_iff {z n : ℕ} :
    z % 2 ^ n = 0 ↔ ∀ i < n, z.testBit i = false := by
  constructor
  · intro zero i hi
    have bit := Nat.testBit_mod_two_pow z n i
    rw [zero, Nat.zero_testBit, decide_eq_true hi, Bool.true_and] at bit
    exact bit.symm
  · intro clear
    apply Nat.eq_of_testBit_eq
    intro i
    rw [Nat.testBit_mod_two_pow, Nat.zero_testBit]
    by_cases hi : i < n
    · rw [clear i hi, Bool.and_false]
    · rw [decide_eq_false hi, Bool.false_and]

theorem mod_two_pow_eq_iff {x y n : ℕ} :
    x % 2 ^ n = y % 2 ^ n ↔ ∀ i < n, x.testBit i = y.testBit i := by
  constructor
  · intro same i hi
    have left := Nat.testBit_mod_two_pow x n i
    rw [same, Nat.testBit_mod_two_pow, decide_eq_true hi, Bool.true_and, Bool.true_and] at left
    exact left.symm
  · intro same
    apply Nat.eq_of_testBit_eq
    intro i
    rw [Nat.testBit_mod_two_pow, Nat.testBit_mod_two_pow]
    by_cases hi : i < n
    · rw [same i hi]
    · rw [decide_eq_false hi, Bool.false_and, Bool.false_and]

theorem allZero_bitPoint (n v : ℕ) :
    allZero (bitPoint F n v) = if v % 2 ^ n = 0 then 1 else 0 := by
  induction n with
  | zero => simp [bitPoint, allZero, Nat.mod_one]
  | succ n ih =>
    rw [bitPoint, allZero, ih]
    by_cases top : v.testBit n = true
    · have positive := Nat.two_pow_pos n
      simp [top, mod_two_pow_succ]
    · rw [Bool.not_eq_true] at top
      simp [top, mod_two_pow_succ]

theorem twoPow_bitPoint (n v : ℕ) : twoPow (bitPoint F n v) = 2 ^ (v % 2 ^ n) := by
  induction n with
  | zero => simp [bitPoint, twoPow, Nat.mod_one]
  | succ n ih =>
    rw [bitPoint, twoPow, ih, length_bitPoint, mod_two_pow_succ, pow_add]
    cases v.testBit n <;> simp [mul_comm]

theorem pairWord_pairPoint {g : F → F → F} {op : Bool → Bool → Bool} {n x y z : ℕ}
    (bits : ∀ a b, g (ofBit F a) (ofBit F b) = ofBit F (op a b))
    (hz : ∀ i < n, z.testBit i = op (x.testBit i) (y.testBit i)) :
    pairWord g (pairPoint F n x y) = ((z % 2 ^ n : ℕ) : F) := by
  induction n with
  | zero => simp [pairPoint, pairWord, Nat.mod_one]
  | succ n ih =>
    rw [pairPoint, pairWord, bits, half_length_pairPoint, ih fun i hi => hz i (by omega),
      cast_mod_two_pow_succ, hz n (by omega)]

/-! ## Comparisons -/

theorem pairProd_pairPoint {g : F → F → F} (op : Bool → Bool → Bool) (n x y : ℕ)
    (bits : ∀ a b, g (ofBit F a) (ofBit F b) = ofBit F (op a b)) :
    pairProd g (pairPoint F n x y) =
      if ∀ i < n, op (x.testBit i) (y.testBit i) = true then 1 else 0 := by
  induction n with
  | zero => simp [pairPoint, pairProd]
  | succ n ih =>
    rw [pairPoint, pairProd, bits, ih]
    simp only [Nat.forall_lt_succ_right]
    by_cases top : op (x.testBit n) (y.testBit n) = true
    · simp [top]
    · simp [top]

theorem pairProd_eq_pairPoint (n x y : ℕ) :
    pairProd pairEq (pairPoint F n x y) = if x % 2 ^ n = y % 2 ^ n then 1 else 0 := by
  rw [pairProd_pairPoint (fun a b => a == b) n x y]
  · simp only [beq_iff_eq, mod_two_pow_eq_iff]
  · intro a b
    cases a <;> cases b <;> simp [pairEq]

theorem pairProd_zeroFst_pairPoint (n x y : ℕ) :
    pairProd (fun x _ => 1 - x) (pairPoint F n x y) = if x % 2 ^ n = 0 then 1 else 0 := by
  rw [pairProd_pairPoint (fun a _ => !a) n x y]
  · simp only [Bool.not_eq_true', mod_two_pow_eq_zero_iff]
  · intro a b
    cases a <;> simp

theorem pairProd_zeroSnd_pairPoint (n x y : ℕ) :
    pairProd (fun _ y => 1 - y) (pairPoint F n x y) = if y % 2 ^ n = 0 then 1 else 0 := by
  rw [pairProd_pairPoint (fun _ b => !b) n x y]
  · simp only [Bool.not_eq_true', mod_two_pow_eq_zero_iff]
  · intro a b
    cases b <;> simp

theorem pairLess_pairPoint (n x y : ℕ) :
    pairLess (pairPoint F n x y) = if x % 2 ^ n < y % 2 ^ n then 1 else 0 := by
  induction n with
  | zero => simp [pairPoint, pairLess, Nat.mod_one]
  | succ n ih =>
    have hx := Nat.mod_lt x (Nat.two_pow_pos n)
    have hy := Nat.mod_lt y (Nat.two_pow_pos n)
    rw [pairPoint, pairLess, ih, mod_two_pow_succ, mod_two_pow_succ]
    -- The top pair decides unless its bits are equal.
    cases x.testBit n <;> cases y.testBit n <;>
      simp only [ofBit_true, ofBit_false, pairEq, Bool.toNat_true, Bool.toNat_false] <;>
      split_ifs <;> first | omega | ring

/-! ## Counts -/

/-- The ones among the low `n` bits. -/
def popcount : ℕ → ℕ → ℕ
  | 0, _ => 0
  | n + 1, x => (x.testBit n).toNat + popcount n x

theorem popcount_le (n x : ℕ) : popcount n x ≤ n := by
  induction n with
  | zero => exact le_rfl
  | succ n ih =>
    have := Bool.toNat_le (x.testBit n)
    rw [popcount]
    omega

/-- No bit of a short word is above its length. -/
theorem popcount_of_lt {m n x : ℕ} (short : x < 2 ^ n) (bound : n ≤ m) :
    popcount m x = popcount n x := by
  induction m, bound using Nat.le_induction with
  | base => rfl
  | succ m above ih =>
    have top : x.testBit m = false :=
      Nat.testBit_lt_two_pow (short.trans_le (Nat.pow_le_pow_right two_pos above))
    rw [popcount, ih, top]
    exact Nat.zero_add _

/-- The lowest bit, and the higher ones. -/
theorem popcount_succ_low (n x : ℕ) :
    popcount (n + 1) x = popcount n (x / 2) + (x.testBit 0).toNat := by
  induction n with
  | zero => simp [popcount]
  | succ n ih =>
    rw [popcount, ih, popcount, Nat.testBit_div_two, Nat.add_assoc]

theorem pairSum_fst_pairPoint (n x y : ℕ) :
    pairSum (fun x _ => x) (pairPoint F n x y) = (popcount n x : F) := by
  induction n with
  | zero => simp [pairPoint, pairSum, popcount]
  | succ n ih =>
    rw [pairPoint, pairSum, ih, popcount, ofBit_eq_cast]
    push_cast
    ring

theorem pairProd_oneAddSnd_pairPoint (n x y : ℕ) :
    pairProd (fun _ y => 1 + y) (pairPoint F n x y) = 2 ^ popcount n y := by
  induction n with
  | zero => simp [pairPoint, pairProd, popcount]
  | succ n ih =>
    rw [pairPoint, pairProd, ih, popcount, pow_add]
    cases y.testBit n
    · simp
    · simp [one_add_one_eq_two]

/-- The zeros above the first one, which is at `n - k - 1`. -/
theorem pairLeadingZeros_pairPoint {n k x : ℕ} (y : ℕ) (bound : k ≤ n)
    (zeros : ∀ i, n - k ≤ i → i < n → x.testBit i = false)
    (one : k < n → x.testBit (n - k - 1) = true) :
    pairLeadingZeros (pairPoint F n x y) = (k : F) := by
  induction n generalizing k with
  | zero => simp [pairPoint, pairLeadingZeros, Nat.le_zero.mp bound]
  | succ n ih =>
    rw [pairPoint, pairLeadingZeros]
    cases k with
    | zero =>
      have top : x.testBit n = true := one (by omega)
      simp [top]
    | succ k =>
      have top : x.testBit n = false := zeros n (by omega) (by omega)
      have rest := ih (k := k) (by omega) (fun i low high => zeros i (by omega) (by omega))
        fun below => by
          have := one (by omega)
          rwa [show n + 1 - (k + 1) - 1 = n - k - 1 by omega] at this
      rw [top, rest, ofBit_false]
      push_cast
      ring

/-- The zeros below the last one, which is at `k`. -/
theorem pairTrailingZeros_pairPoint {n k x : ℕ} (y : ℕ) (bound : k ≤ n)
    (zeros : ∀ i < k, x.testBit i = false) (one : k < n → x.testBit k = true) :
    pairTrailingZeros (pairPoint F n x y) = (k : F) := by
  induction n generalizing k with
  | zero => simp [pairPoint, pairTrailingZeros, Nat.le_zero.mp bound]
  | succ n ih =>
    rw [pairPoint, pairTrailingZeros, pairProd_zeroFst_pairPoint]
    by_cases within : k ≤ n
    · rw [ih within zeros fun below => one (by omega)]
      by_cases last : k = n
      · subst last
        rw [one (by omega), ofBit_true]
        ring
      · have some : ¬ x % 2 ^ n = 0 := by
          rw [mod_two_pow_eq_zero_iff]
          intro clear
          rw [clear k (by omega)] at one
          exact absurd (one (by omega)) (by simp)
        rw [if_neg some]
        ring
    · have all : k = n + 1 := by omega
      subst all
      have none : x % 2 ^ n = 0 := mod_two_pow_eq_zero_iff.mpr fun i hi => zeros i (by omega)
      rw [ih le_rfl (fun i hi => zeros i (by omega)) (fun below => absurd below (by omega)),
        if_pos none, zeros n (by omega), ofBit_false]
      push_cast
      ring

/-! ## Masked words -/

section

variable {n y : ℕ} (x : ℕ) (clear : ∀ i < n, y.testBit i = false)

include clear

theorem popcount_clear : popcount n y = 0 := by
  induction n with
  | zero => rfl
  | succ n ih =>
    rw [popcount, ih fun i hi => clear i (by omega), clear n (by omega)]
    rfl

theorem pairGather_clear : pairGather (pairPoint F n x y) = 0 := by
  induction n with
  | zero => rfl
  | succ n ih =>
    rw [pairPoint, pairGather, ih fun i hi => clear i (by omega), clear n (by omega), ofBit_false]
    ring

theorem pairRaise_clear : pairRaise (pairPoint F n x y) = ((x % 2 ^ n : ℕ) : F) := by
  induction n with
  | zero => simp [pairPoint, pairRaise, Nat.mod_one]
  | succ n ih =>
    rw [pairPoint, pairRaise, half_length_pairPoint, ih fun i hi => clear i (by omega),
      clear n (by omega), ofBit_false, cast_mod_two_pow_succ]
    ring

theorem pairFill_clear : pairFill (pairPoint F n x y) = 2 ^ n - 1 := by
  induction n with
  | zero => simp [pairPoint, pairFill]
  | succ n ih =>
    rw [pairPoint, pairFill, ih fun i hi => clear i (by omega), clear n (by omega), ofBit_false]
    ring

end

section

variable {s k y : ℕ} (x : ℕ) (mask : ∀ i < s + k, y.testBit i = decide (s ≤ i))

include mask

theorem clear_of_mask : ∀ i < s, y.testBit i = false := by
  intro i hi
  rw [mask i (by omega), decide_eq_false (by omega)]

/-- Ones from the mask's shift upward. -/
theorem popcount_mask : popcount (s + k) y = k := by
  induction k with
  | zero => exact popcount_clear (clear_of_mask mask)
  | succ k ih =>
    rw [← Nat.add_assoc, popcount, ih fun i hi => mask i (by omega), mask (s + k) (by omega),
      decide_eq_true (by omega), Bool.toNat_true, Nat.add_comm]

theorem pairGather_mask :
    pairGather (pairPoint F (s + k) x y) = ((x % 2 ^ (s + k) / 2 ^ s : ℕ) : F) := by
  induction k with
  | zero =>
    rw [Nat.add_zero, pairGather_clear x (clear_of_mask mask),
      Nat.div_eq_of_lt (Nat.mod_lt _ (Nat.two_pow_pos _)), Nat.cast_zero]
  | succ k ih =>
    have shifted : x % 2 ^ (s + k + 1) / 2 ^ s =
        x % 2 ^ (s + k) / 2 ^ s + 2 ^ k * (x.testBit (s + k)).toNat := by
      rw [mod_two_pow_succ, Nat.pow_add 2 s k, Nat.mul_assoc,
        Nat.add_mul_div_left _ _ (Nat.two_pow_pos s)]
    rw [← Nat.add_assoc, pairPoint, pairGather, pairProd_oneAddSnd_pairPoint,
      ih fun i hi => mask i (by omega), popcount_mask fun i hi => mask i (by omega),
      mask (s + k) (by omega), decide_eq_true (by omega), ofBit_true, ofBit_eq_cast, shifted]
    push_cast
    ring

theorem pairRaise_mask :
    pairRaise (pairPoint F (s + k) x y) = 2 ^ k * ((x % 2 ^ s : ℕ) : F) := by
  induction k with
  | zero => rw [Nat.add_zero, pairRaise_clear x (clear_of_mask mask), pow_zero, one_mul]
  | succ k ih =>
    rw [← Nat.add_assoc, pairPoint, pairRaise, ih fun i hi => mask i (by omega),
      mask (s + k) (by omega), decide_eq_true (by omega), ofBit_true]
    ring

theorem pairFill_mask : pairFill (pairPoint F (s + k) x y) = 2 ^ (s + k) - 2 ^ k := by
  induction k with
  | zero => rw [Nat.add_zero, pairFill_clear x (clear_of_mask mask), pow_zero]
  | succ k ih =>
    rw [← Nat.add_assoc, pairPoint, pairFill, ih fun i hi => mask i (by omega),
      mask (s + k) (by omega), decide_eq_true (by omega), ofBit_true]
    ring

end

end JoltWasm.Lib
