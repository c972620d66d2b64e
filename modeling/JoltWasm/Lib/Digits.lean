import Mathlib.Data.Nat.Digits.Lemmas
import Mathlib.Tactic.Linarith
import Mathlib.Tactic.LinearCombination
import Mathlib.Tactic.Ring
import JoltWasm.Lib.Numerals

/-!
# Carry chains

Little-endian digits in a base, and the loops of multi-precision arithmetic over them.
-/

namespace JoltWasm.Lib

/-- Digits of a number below `base ^ count`. -/
structure IsDigits (base count : ℕ) (digits : List ℕ) : Prop where
  length : digits.length = count
  small : ∀ digit ∈ digits, digit < base

/-- A step for each digit of the left operand; it takes the digits of both and a carry. -/
def chain (step : ℕ → ℕ → ℕ → ℕ × ℕ) : List ℕ → List ℕ → ℕ → List ℕ × ℕ
  | [], _, carry => ([], carry)
  | x :: xs, ys, carry =>
      let first := step x (ys.headD 0) carry
      let rest := chain step xs ys.tail first.2
      (first.1 :: rest.1, rest.2)

/-- The comparison of digits, high digits first. -/
def compareHigh : List ℕ → List ℕ → Ordering
  | x :: xs, y :: ys =>
      match compare x y with
      | .eq => compareHigh xs ys
      | order => order
  | _, _ => .eq

/-- One digit of a product with `m` that is added to `x`. -/
def mulStep (base m x y carry : ℕ) : ℕ × ℕ :=
  ((y * m + x + carry) % base, (y * m + x + carry) / base)

/-- The row `m · ys`, added at position `j` of the accumulator; what leaves the accumulator is lost. -/
def addRow (base : ℕ) (ys : List ℕ) (acc : List ℕ) (j m : ℕ) : List ℕ :=
  let row := chain (mulStep base m) ((acc.drop j).take ys.length) ys 0
  acc.take j ++ row.1 ++
    match acc.drop (j + ys.length) with
    | [] => []
    | next :: later => (next + row.2) % base :: later

section

variable {base : ℕ}

namespace IsDigits

variable {count : ℕ} {digits : List ℕ}

theorem lt (is : IsDigits base count digits) (two : 1 < base) : Nat.ofDigits base digits < base ^ count := by
  rw [← is.length]
  exact Nat.ofDigits_lt_base_pow_length two is.small

theorem nil : IsDigits base 0 [] := ⟨rfl, nofun⟩

theorem cons {digit : ℕ} (small : digit < base) (is : IsDigits base count digits) :
    IsDigits base (count + 1) (digit :: digits) :=
  ⟨congrArg (· + 1) is.length, List.forall_mem_cons.mpr ⟨small, is.small⟩⟩

theorem tail (is : IsDigits base (count + 1) digits) : IsDigits base count digits.tail :=
  ⟨by rw [List.length_tail, is.length, Nat.add_sub_cancel],
    fun digit member => is.small digit (List.mem_of_mem_tail member)⟩

theorem append {count' : ℕ} {digits' : List ℕ} (is : IsDigits base count digits)
    (is' : IsDigits base count' digits') : IsDigits base (count + count') (digits ++ digits') :=
  ⟨by rw [List.length_append, is.length, is'.length], fun digit member =>
    (List.mem_append.mp member).elim (is.small digit) (is'.small digit)⟩

theorem replicate (positive : 0 < base) (count : ℕ) : IsDigits base count (List.replicate count 0) :=
  ⟨List.length_replicate, fun digit member => by rwa [List.eq_of_mem_replicate member]⟩

theorem inj {digits' : List ℕ} (two : 1 < base) (is : IsDigits base count digits)
    (is' : IsDigits base count digits') (same : Nat.ofDigits base digits = Nat.ofDigits base digits') :
    digits = digits' :=
  Nat.ofDigits_inj_of_len_eq two (is.length.trans is'.length.symm) is.small is'.small same

end IsDigits

theorem headD_lt {ys : List ℕ} (positive : 0 < base) (small : ∀ y ∈ ys, y < base) : ys.headD 0 < base := by
  cases ys with
  | nil => exact positive
  | cons y ys => exact small y List.mem_cons_self

/-- The digits of the right operand that a chain of `count` steps reads. -/
theorem ofDigits_take_succ (ys : List ℕ) (count : ℕ) : Nat.ofDigits base (ys.take (count + 1)) =
    ys.headD 0 + base * Nat.ofDigits base (ys.tail.take count) := by
  cases ys with
  | nil => simp
  | cons y ys => simp [Nat.ofDigits_cons]

theorem ofDigits_take_drop (digits : List ℕ) (k : ℕ) : Nat.ofDigits base digits =
    Nat.ofDigits base (digits.take k) + base ^ k * Nat.ofDigits base (digits.drop k) := by
  rcases Nat.le_total k digits.length with le | ge
  · conv_lhs => rw [← List.take_append_drop k digits, Nat.ofDigits_append, List.length_take, Nat.min_eq_left le]
  · rw [List.take_of_length_le ge, List.drop_eq_nil_of_le ge, Nat.ofDigits_nil, Nat.mul_zero, Nat.add_zero]

/-- One digit of a number. -/
theorem getD_ofDigits {digits : List ℕ} (small : ∀ digit ∈ digits, digit < base) (i : ℕ) :
    digits.getD i 0 = Nat.ofDigits base digits / base ^ i % base := by
  induction digits generalizing i with
  | nil => simp
  | cons x xs ih =>
      have smallX := small x List.mem_cons_self
      cases i with
      | zero =>
          rw [Nat.ofDigits_cons, pow_zero, Nat.div_one, Nat.add_mul_mod_self_left, Nat.mod_eq_of_lt smallX]
          rfl
      | succ i =>
          rw [List.getD_cons_succ, ih (fun y member => small y (List.mem_cons_of_mem _ member)),
            Nat.ofDigits_cons, pow_succ', ← Nat.div_div_eq_div_mul,
            Nat.add_mul_div_left _ _ (Nat.zero_lt_of_lt smallX), Nat.div_eq_of_lt smallX, Nat.zero_add]

/-! ## Chains -/

theorem chain_isDigits {step : ℕ → ℕ → ℕ → ℕ × ℕ} (small : ∀ x y carry, (step x y carry).1 < base)
    (xs ys : List ℕ) (carry : ℕ) : IsDigits base xs.length (chain step xs ys carry).1 := by
  induction xs generalizing ys carry with
  | nil => exact .nil
  | cons x xs ih => exact (ih ys.tail _).cons (small x (ys.headD 0) carry)

/-- A chain that multiplies its right operand by `m` and adds. -/
theorem chain_mul (step : ℕ → ℕ → ℕ → ℕ × ℕ) (carries : ℕ → Prop) {m : ℕ} (positive : 0 < base)
    (each : ∀ x y carry, x < base → y < base → carries carry →
      (step x y carry).1 + base * (step x y carry).2 = x + y * m + carry ∧
        (step x y carry).1 < base ∧ carries (step x y carry).2)
    {xs ys : List ℕ} {carry : ℕ} (smallX : ∀ x ∈ xs, x < base) (smallY : ∀ y ∈ ys, y < base)
    (start : carries carry) :
    Nat.ofDigits base (chain step xs ys carry).1 + base ^ xs.length * (chain step xs ys carry).2 =
        Nat.ofDigits base xs + Nat.ofDigits base (ys.take xs.length) * m + carry ∧
      IsDigits base xs.length (chain step xs ys carry).1 ∧ carries (chain step xs ys carry).2 := by
  induction xs generalizing ys carry with
  | nil => exact ⟨by simp [chain], .nil, start⟩
  | cons x xs ih =>
      obtain ⟨sum, digit, next⟩ := each x (ys.headD 0) carry (smallX x List.mem_cons_self)
        (headD_lt positive smallY) start
      obtain ⟨rest, digits, last⟩ := @ih ys.tail _ (fun x member => smallX x (List.mem_cons_of_mem _ member))
        (fun y member => smallY y (List.mem_of_mem_tail member)) next
      refine ⟨?_, digits.cons digit, last⟩
      rw [chain, List.length_cons, ofDigits_take_succ, Nat.ofDigits_cons, Nat.ofDigits_cons, pow_succ]
      linear_combination sum + base * rest

/-- A chain that subtracts, with borrows. -/
theorem chain_sub (step : ℕ → ℕ → ℕ → ℕ × ℕ) (positive : 0 < base)
    (each : ∀ x y borrow, x < base → y < base → borrow ≤ 1 →
      (step x y borrow).1 + (y + borrow) = x + base * (step x y borrow).2 ∧
        (step x y borrow).1 < base ∧ (step x y borrow).2 ≤ 1)
    {xs ys : List ℕ} {borrow : ℕ} (smallX : ∀ x ∈ xs, x < base) (smallY : ∀ y ∈ ys, y < base)
    (start : borrow ≤ 1) :
    Nat.ofDigits base (chain step xs ys borrow).1 + (Nat.ofDigits base (ys.take xs.length) + borrow) =
        Nat.ofDigits base xs + base ^ xs.length * (chain step xs ys borrow).2 ∧
      IsDigits base xs.length (chain step xs ys borrow).1 ∧ (chain step xs ys borrow).2 ≤ 1 := by
  induction xs generalizing ys borrow with
  | nil => exact ⟨by simp [chain], .nil, start⟩
  | cons x xs ih =>
      obtain ⟨sum, digit, next⟩ := each x (ys.headD 0) borrow (smallX x List.mem_cons_self)
        (headD_lt positive smallY) start
      obtain ⟨rest, digits, last⟩ := @ih ys.tail _ (fun x member => smallX x (List.mem_cons_of_mem _ member))
        (fun y member => smallY y (List.mem_of_mem_tail member)) next
      refine ⟨?_, digits.cons digit, last⟩
      rw [chain, List.length_cons, ofDigits_take_succ, Nat.ofDigits_cons, Nat.ofDigits_cons, pow_succ]
      linear_combination sum + base * rest

/-! ## Order -/

theorem compareHigh_append {xs ys xs' ys' : List ℕ} (same : xs.length = ys.length) :
    compareHigh (xs ++ xs') (ys ++ ys') = (compareHigh xs ys).then (compareHigh xs' ys') := by
  induction xs generalizing ys with
  | nil =>
      rw [List.eq_nil_of_length_eq_zero same.symm]
      rfl
  | cons x xs ih =>
      cases ys with
      | nil => cases same
      | cons y ys =>
          rw [List.cons_append, List.cons_append, compareHigh, compareHigh]
          cases compare x y with
          | eq => exact ih (Nat.succ.inj same)
          | lt => rfl
          | gt => rfl

/-- Digits compare as their numbers. -/
theorem compareHigh_reverse {count : ℕ} {xs ys : List ℕ} (isX : IsDigits base count xs)
    (isY : IsDigits base count ys) : compareHigh xs.reverse ys.reverse =
      compare (Nat.ofDigits base xs) (Nat.ofDigits base ys) := by
  induction count generalizing xs ys with
  | zero =>
      rw [List.eq_nil_of_length_eq_zero isX.length, List.eq_nil_of_length_eq_zero isY.length]
      rfl
  | succ count ih =>
      obtain ⟨x, xs, rfl⟩ := List.exists_cons_of_length_eq_add_one isX.length
      obtain ⟨y, ys, rfl⟩ := List.exists_cons_of_length_eq_add_one isY.length
      have smallX := isX.small x List.mem_cons_self
      have smallY := isY.small y List.mem_cons_self
      have restX : IsDigits base count xs := isX.tail
      have restY : IsDigits base count ys := isY.tail
      rw [List.reverse_cons, List.reverse_cons, compareHigh_append
        (by rw [List.length_reverse, List.length_reverse, restX.length, restY.length]), ih restX restY,
        Nat.ofDigits_cons, Nat.ofDigits_cons]
      have one : compareHigh [x] [y] = compare x y := by
        rw [compareHigh]
        cases compare x y <;> rfl
      rw [one]
      rcases Nat.lt_trichotomy (Nat.ofDigits base xs) (Nat.ofDigits base ys) with less | same | more
      · have below : x + base * Nat.ofDigits base xs < y + base * Nat.ofDigits base ys := by nlinarith
        rw [compare_lt_iff_lt.mpr less, compare_lt_iff_lt.mpr below]
        rfl
      · rw [same, compare_eq_iff_eq.mpr rfl]
        rcases Nat.lt_trichotomy x y with less | rfl | more
        · rw [compare_lt_iff_lt.mpr less, compare_lt_iff_lt.mpr (by omega)]
          rfl
        · rw [compare_eq_iff_eq.mpr rfl, compare_eq_iff_eq.mpr rfl]
          rfl
        · rw [compare_gt_iff_gt.mpr more, compare_gt_iff_gt.mpr (by omega)]
          rfl
      · have above : y + base * Nat.ofDigits base ys < x + base * Nat.ofDigits base xs := by nlinarith
        rw [compare_gt_iff_gt.mpr more, compare_gt_iff_gt.mpr above]
        rfl

/-! ## Products -/

theorem mulStep_spec {m x y carry : ℕ} (smallM : m < base) (smallX : x < base) (smallY : y < base)
    (smallCarry : carry < base) :
    (mulStep base m x y carry).1 + base * (mulStep base m x y carry).2 = x + y * m + carry ∧
      (mulStep base m x y carry).1 < base ∧ (mulStep base m x y carry).2 < base := by
  refine ⟨?_, Nat.mod_lt _ (by omega), Nat.div_lt_of_lt_mul ?_⟩
  · rw [mulStep, Nat.mod_add_div]
    ring
  · nlinarith [Nat.mul_le_mul (Nat.le_sub_one_of_lt smallY) (Nat.le_sub_one_of_lt smallM)]

/-- Rows of a product, from position `j` on. -/
def addRows (base : ℕ) (ys ms : List ℕ) (j : ℕ) (acc : List ℕ) : List ℕ :=
  (ms.zipIdx j).foldl (fun acc (m, j) => if m = 0 then acc else addRow base ys acc j m) acc

/-- Numbers that differ by a multiple of the modulus. -/
theorem modEq_of_add_mul {n a b k : ℕ} (differ : a + n * k = b) : a ≡ b [MOD n] := by
  rw [← differ]
  exact (Nat.add_mul_mod_self_left a n k).symm

/-- A row, where the accumulator is zero past the row. -/
theorem addRow_spec {N P j m : ℕ} {ys acc : List ℕ} (two : 1 < base) (isY : IsDigits base N ys)
    (isAcc : IsDigits base P acc) (smallM : m < base)
    (zeros : acc.drop (j + N) = List.replicate (P - (j + N)) 0) :
    Nat.ofDigits base (addRow base ys acc j m) ≡
        Nat.ofDigits base acc + base ^ j * (Nat.ofDigits base ys * m) [MOD base ^ P] ∧
      IsDigits base P (addRow base ys acc j m) ∧
      (addRow base ys acc j m).drop (j + 1 + N) = List.replicate (P - (j + 1 + N)) 0 := by
  have positive : 0 < base := by omega
  have window : ∀ x ∈ (acc.drop j).take ys.length, x < base := fun x member =>
    isAcc.small x (List.mem_of_mem_drop (List.mem_of_mem_take member))
  obtain ⟨sum, digits, carry⟩ := chain_mul (mulStep base m) (· < base) positive
    (fun x y carry => mulStep_spec smallM) window isY.small positive
  have front : IsDigits base (acc.take j).length (acc.take j) :=
    ⟨rfl, fun x member => isAcc.small x (List.mem_of_mem_take member)⟩
  have whole : Nat.ofDigits base acc = Nat.ofDigits base (acc.take j) +
      base ^ (acc.take j).length * (Nat.ofDigits base ((acc.drop j).take ys.length) +
        base ^ ((acc.drop j).take ys.length).length * Nat.ofDigits base (acc.drop (j + ys.length))) := by
    rw [← List.drop_drop, ← Nat.ofDigits_append, List.take_append_drop, ← Nat.ofDigits_append,
      List.take_append_drop]
  rw [isY.length] at sum digits carry whole
  rw [zeros, Nat.ofDigits_replicate_zero, mul_zero, add_zero] at whole
  unfold addRow
  simp only [isY.length, zeros]
  generalize chain (mulStep base m) ((acc.drop j).take N) ys 0 = row at sum digits carry
  have split : Nat.ofDigits base ys = Nat.ofDigits base (ys.take ((acc.drop j).take N).length) +
      base ^ (ys.take ((acc.drop j).take N).length).length *
        Nat.ofDigits base (ys.drop ((acc.drop j).take N).length) := by
    rw [← Nat.ofDigits_append, List.take_append_drop]
  have lengths : (acc.take j).length = min j P ∧ ((acc.drop j).take N).length = min N (P - j) ∧
      (ys.take ((acc.drop j).take N).length).length = min N (P - j) := by
    have front := List.length_take (i := j) (l := acc)
    have row := List.length_take (i := N) (l := acc.drop j)
    rw [List.length_drop, isAcc.length] at row
    rw [isAcc.length] at front
    refine ⟨front, row, ?_⟩
    rw [List.length_take, isY.length, row]
    omega
  rw [lengths.1] at whole front
  rw [lengths.2.2, lengths.2.1] at split
  rw [lengths.2.1] at sum digits
  rcases Nat.lt_or_ge (j + N) P with inside | outside
  · -- The carry goes to a digit that no row has reached.
    obtain ⟨rest, isRest⟩ : ∃ rest, P - (j + N) = rest + 1 := ⟨P - (j + N) - 1, by omega⟩
    have later : P - (j + 1 + N) = rest := by omega
    have frontLength : min j P = j := by omega
    have rowLength : min N (P - j) = N := by omega
    rw [frontLength] at whole front
    rw [rowLength] at sum digits split
    rw [List.take_of_length_le isY.length.le] at sum
    rw [isRest, later, List.replicate_succ]
    simp only [Nat.zero_add, Nat.mod_eq_of_lt carry]
    have total : j + N + (rest + 1) = P := by omega
    refine ⟨Nat.ModEq.refl _ |>.trans (modEq_of_add_mul (k := 0) ?_), ?_, ?_⟩
    · rw [Nat.ofDigits_append, Nat.ofDigits_append, Nat.ofDigits_cons, Nat.ofDigits_replicate_zero,
        List.length_append, front.length, digits.length, whole]
      linear_combination base ^ j * sum
    · rw [← total]
      exact (front.append digits).append ((IsDigits.replicate positive rest).cons carry)
    · rw [List.drop_append, List.drop_eq_nil_of_le (by rw [List.length_append, front.length, digits.length]; omega),
        List.length_append, front.length, digits.length, show j + 1 + N - (j + N) = 1 by omega]
      rfl
  · -- The carry leaves the accumulator.
    rw [show P - (j + N) = 0 by omega, show P - (j + 1 + N) = 0 by omega]
    simp only [List.replicate_zero, List.append_nil]
    have total : min j P + min N (P - j) = P := by omega
    refine ⟨?_, ?_, ?_⟩
    · rcases Nat.lt_or_ge P j with far | near
      · have none : Nat.ofDigits base row.1 = 0 := by
          rw [List.eq_nil_of_length_eq_zero (digits.length.trans (by omega))]
          rfl
        refine modEq_of_add_mul (k := base ^ (j - P) * (Nat.ofDigits base ys * m)) ?_
        have empty : Nat.ofDigits base ((acc.drop j).take N) = 0 := by
          rw [List.eq_nil_of_length_eq_zero (lengths.2.1.trans (by omega))]
          rfl
        rw [Nat.ofDigits_append, none, whole, empty, show j = P + (j - P) by omega, pow_add]
        simp only [Nat.add_sub_cancel_left]
        ring
      · refine modEq_of_add_mul (k := row.2 + Nat.ofDigits base (ys.drop ((acc.drop j).take N).length) * m) ?_
        have frontLength : min j P = j := by omega
        have rowLength : min N (P - j) = P - j := by omega
        have power : base ^ P = base ^ j * base ^ (P - j) := by
          rw [← pow_add]
          congr 1
          omega
        rw [frontLength] at whole front
        rw [rowLength] at sum digits split
        rw [Nat.ofDigits_append, front.length, whole, split, power]
        rw [lengths.2.1, rowLength]
        linear_combination base ^ j * sum
    · rw [← total]
      exact front.append digits
    · exact List.drop_eq_nil_of_le (by rw [List.length_append, front.length, digits.length]; omega)

/-- The rows of a product add the product, up to what leaves the accumulator. -/
theorem addRows_spec {N P : ℕ} {ys ms acc : List ℕ} (two : 1 < base) (isY : IsDigits base N ys)
    (small : ∀ m ∈ ms, m < base) (j : ℕ) (isAcc : IsDigits base P acc)
    (zeros : acc.drop (j + N) = List.replicate (P - (j + N)) 0) :
    Nat.ofDigits base (addRows base ys ms j acc) ≡
        Nat.ofDigits base acc + base ^ j * (Nat.ofDigits base ys * Nat.ofDigits base ms) [MOD base ^ P] ∧
      IsDigits base P (addRows base ys ms j acc) := by
  induction ms generalizing j acc with
  | nil => exact ⟨by simp [addRows, Nat.ModEq], isAcc⟩
  | cons m ms ih =>
      have split : Nat.ofDigits base acc + base ^ j * (Nat.ofDigits base ys * Nat.ofDigits base (m :: ms)) =
          Nat.ofDigits base acc + base ^ j * (Nat.ofDigits base ys * m) +
            base ^ (j + 1) * (Nat.ofDigits base ys * Nat.ofDigits base ms) := by
        rw [Nat.ofDigits_cons, pow_succ]
        ring
      have rest : ∀ m ∈ ms, m < base := fun m member => small m (List.mem_cons_of_mem _ member)
      have step : addRows base ys (m :: ms) j acc =
          addRows base ys ms (j + 1) (if m = 0 then acc else addRow base ys acc j m) := rfl
      rw [split, step]
      by_cases zero : m = 0
      · have shifted : acc.drop (j + 1 + N) = List.replicate (P - (j + 1 + N)) 0 := by
          rw [show j + 1 + N = (j + N) + 1 by omega, ← List.drop_drop, zeros, List.drop_replicate]
          congr 1
        obtain ⟨value, is⟩ := ih rest (j + 1) isAcc shifted
        rw [if_pos zero, zero, Nat.mul_zero, Nat.mul_zero, Nat.add_zero]
        exact ⟨value, is⟩
      · obtain ⟨first, isFirst, shifted⟩ := addRow_spec two isY isAcc (small m List.mem_cons_self) zeros
        obtain ⟨value, is⟩ := ih rest (j + 1) isFirst shifted
        rw [if_neg zero]
        exact ⟨value.trans (first.add_right _), is⟩

end

end JoltWasm.Lib
