import JoltWasm.Tables.Mle

/-!
# The tables' extensions as sums over pairs

Every verifier's formula is a loop; each loop is one of the sums and products over pairs, and so
multilinear.
-/

namespace JoltWasm

open Lib

variable {F : Type} [CommRing F]

/-! ## Loops over pairs -/

theorem forPairs_zero {S : Type} (r : List F) (s : S) (body : ℕ → F → F → S → S) :
    forPairs 0 r s body = s := rfl

theorem forPairs_pair {S : Type} (n : ℕ) (x y : F) (p : List F) (s : S)
    (body : ℕ → F → F → S → S) :
    forPairs (n + 1) (x :: y :: p) s body =
      forPairs n p (body 0 x y s) fun i => body (i + 1) := by
  unfold forPairs
  rw [List.range_succ_eq_map, List.foldl_cons, List.foldl_map]
  rfl

omit [CommRing F] in
/-- The first pair of a list of pairs. -/
theorem exists_pair {p : List F} {n : ℕ} (length : p.length = 2 * (n + 1)) :
    ∃ x y q, p = x :: y :: q ∧ q.length = 2 * n := by
  obtain ⟨x, p, rfl⟩ := List.exists_cons_of_length_eq_add_one
    (show p.length = 2 * n + 1 + 1 by omega)
  rw [List.length_cons] at length
  obtain ⟨y, q, rfl⟩ := List.exists_cons_of_length_eq_add_one
    (show p.length = 2 * n + 1 by omega)
  rw [List.length_cons] at length
  exact ⟨x, y, q, rfl, by omega⟩

omit [CommRing F] in
theorem eq_nil {p : List F} (length : p.length = 2 * 0) : p = [] := by
  simpa using length

section

variable {p : List F} {n : ℕ} (length : p.length = 2 * n)

include length

theorem forPairs_word {g : F → F → F} (s : F) (body : ℕ → F → F → F → F)
    (step : ∀ i x y s, i < n → body i x y s = s + ((2 ^ (n - 1 - i) : ℕ) : F) * g x y) :
    forPairs n p s body = s + pairWord g p := by
  induction n generalizing p s body with
  | zero => rw [eq_nil length, forPairs_zero, pairWord, add_zero]; simp
  | succ n ih =>
    obtain ⟨x, y, q, rfl, tail⟩ := exists_pair length
    have rest := ih tail (body 0 x y s) (fun i => body (i + 1)) fun i x y s hi => by
      rw [step (i + 1) x y s (by omega), show n + 1 - 1 - (i + 1) = n - 1 - i by omega]
    rw [forPairs_pair, rest, step 0 x y s (by omega), pairWord, tail,
      Nat.mul_div_cancel_left _ two_pos, Nat.sub_zero, Nat.add_sub_cancel]
    push_cast
    ring

theorem forPairs_sum {g : F → F → F} (s : F) :
    forPairs n p s (fun _ x y s => s + g x y) = s + pairSum g p := by
  induction n generalizing p s with
  | zero => rw [eq_nil length, forPairs_zero, pairSum, add_zero]; simp
  | succ n ih =>
    obtain ⟨x, y, q, rfl, tail⟩ := exists_pair length
    rw [forPairs_pair, ih tail, pairSum, add_assoc]

theorem forPairs_prod {g : F → F → F} (s : F) :
    forPairs n p s (fun _ x y s => s * g x y) = s * pairProd g p := by
  induction n generalizing p s with
  | zero => rw [eq_nil length, forPairs_zero, pairProd, mul_one]; simp
  | succ n ih =>
    obtain ⟨x, y, q, rfl, tail⟩ := exists_pair length
    rw [forPairs_pair, ih tail, pairProd, mul_assoc]

theorem forPairs_lt (l e : F) :
    forPairs n p (l, e) (fun _ x y (lt, eq) =>
        (lt + (1 - x) * y * eq, eq * (x * y + (1 - x) * (1 - y)))) =
      (l + e * pairLess p, e * pairProd pairEq p) := by
  induction n generalizing p l e with
  | zero =>
    rw [eq_nil length]
    simp [forPairs_zero, pairLess, pairProd]
  | succ n ih =>
    obtain ⟨x, y, q, rfl, tail⟩ := exists_pair length
    rw [forPairs_pair, ih tail, pairLess, pairProd, pairEq]
    refine Prod.ext ?_ ?_ <;> ring

theorem forPairs_srl (s : F) :
    forPairs n p s (fun _ x y s => s * (1 + y) + x * y) =
      s * pairProd (fun _ y => 1 + y) p + pairGather p := by
  induction n generalizing p s with
  | zero =>
    rw [eq_nil length]
    simp [forPairs_zero, pairGather, pairProd]
  | succ n ih =>
    obtain ⟨x, y, q, rfl, tail⟩ := exists_pair length
    rw [forPairs_pair, ih tail, pairGather, pairProd]
    ring

/-- The arithmetic shift after its first pair, at pair `o`. -/
theorem forPairs_sra (o : ℕ) (s e : F) :
    forPairs n p (s, e) (fun i x y (s, e) =>
        (s * (1 + y) + x * y,
          if i + o + 1 = 0 then e else e + ((2 ^ (i + o + 1) : ℕ) : F) * (1 - y))) =
      (s * pairProd (fun _ y => 1 + y) p + pairGather p, e + 2 ^ (o + 1) * pairFill p) := by
  induction n generalizing p o s e with
  | zero =>
    rw [eq_nil length]
    simp [forPairs_zero, pairGather, pairProd, pairFill]
  | succ n ih =>
    obtain ⟨x, y, q, rfl, tail⟩ := exists_pair length
    have next (i : ℕ) : i + 1 + o + 1 = i + (o + 1) + 1 := by omega
    rw [forPairs_pair]
    simp only [next]
    rw [ih tail (o + 1), pairGather, pairProd, pairFill, if_neg (by omega)]
    push_cast
    refine Prod.ext ?_ ?_ <;> ring

theorem forPairs_rotr (m f s : F) (body : ℕ → F → F → F × F × F → F × F × F)
    (step : ∀ i x y m f s, i < n → body i x y (m, f, s) =
      (m * (1 + y), f * (1 + y) + x * y,
        s + x * (1 - y) * m * ((2 ^ (n - 1 - i) : ℕ) : F))) :
    forPairs n p (m, f, s) body =
      (m * pairProd (fun _ y => 1 + y) p, f * pairProd (fun _ y => 1 + y) p + pairGather p,
        s + m * pairRaise p) := by
  induction n generalizing p m f s body with
  | zero =>
    rw [eq_nil length]
    simp [forPairs_zero, pairGather, pairProd, pairRaise]
  | succ n ih =>
    obtain ⟨x, y, q, rfl, tail⟩ := exists_pair length
    have rest := fun m f s =>
      ih tail m f s (fun i => body (i + 1)) fun i x y m f s hi => by
        rw [step (i + 1) x y m f s (by omega), show n + 1 - 1 - (i + 1) = n - 1 - i by omega]
    rw [forPairs_pair, step 0 x y m f s (by omega), rest, pairGather, pairProd, pairRaise, tail,
      Nat.mul_div_cancel_left _ two_pos, Nat.sub_zero, Nat.add_sub_cancel]
    push_cast
    refine Prod.ext ?_ (Prod.ext ?_ ?_) <;> ring

theorem forPairs_negateIf (v z : F) (body : ℕ → F → F → F × F → F × F)
    (step : ∀ i x y v z, i < n →
      body i x y (v, z) = (v + ((2 ^ (n - 1 - i) : ℕ) : F) * y, z * (1 - y))) :
    forPairs n p (v, z) body =
      (v + pairWord (fun _ y => y) p, z * pairProd (fun _ y => 1 - y) p) := by
  induction n generalizing p v z body with
  | zero =>
    rw [eq_nil length]
    simp [forPairs_zero, pairWord, pairProd]
  | succ n ih =>
    obtain ⟨x, y, q, rfl, tail⟩ := exists_pair length
    have rest := fun v z =>
      ih tail v z (fun i => body (i + 1)) fun i x y v z hi => by
        rw [step (i + 1) x y v z (by omega), show n + 1 - 1 - (i + 1) = n - 1 - i by omega]
    rw [forPairs_pair, step 0 x y v z (by omega), rest, pairWord, pairProd, tail,
      Nat.mul_div_cancel_left _ two_pos, Nat.sub_zero, Nat.add_sub_cancel]
    push_cast
    refine Prod.ext ?_ ?_ <;> ring

/-- Leading zeros from pair `o` on: the sum runs to the last pair, so the zero word is left out. -/
theorem forPairs_clz (o : ℕ) (s a : F) :
    forPairs n p (s, a) (fun i x _ (s, a) => (s + a * x * ((i + o : ℕ) : F), a * (1 - x))) =
      (s + a * (o * (1 - pairProd (fun x _ => 1 - x) p) + pairLeadingZeros p -
          n * pairProd (fun x _ => 1 - x) p),
        a * pairProd (fun x _ => 1 - x) p) := by
  induction n generalizing p o s a with
  | zero =>
    rw [eq_nil length]
    simp [forPairs_zero, pairProd, pairLeadingZeros]
  | succ n ih =>
    obtain ⟨x, y, q, rfl, tail⟩ := exists_pair length
    have next (i : ℕ) : i + 1 + o = i + (o + 1) := by omega
    rw [forPairs_pair]
    simp only [next]
    rw [ih tail (o + 1), pairLeadingZeros, pairProd]
    push_cast
    refine Prod.ext ?_ ?_ <;> ring

/-- Trailing zeros, over the pairs from the last to the first. -/
theorem foldl_ctz :
    (List.range n).foldl (fun (s, a) k =>
        (s + a * p.getD (2 * (n - 1 - k)) 0 * (k : F), a * (1 - p.getD (2 * (n - 1 - k)) 0)))
          ((0, 1) : F × F) =
      (pairTrailingZeros p - n * pairProd (fun x _ => 1 - x) p,
        pairProd (fun x _ => 1 - x) p) := by
  induction n generalizing p with
  | zero =>
    rw [eq_nil length]
    simp [pairProd, pairTrailingZeros]
  | succ n ih =>
    obtain ⟨x, y, q, rfl, tail⟩ := exists_pair length
    have earlier := List.foldl_ext (l := List.range n) (a := ((0, 1) : F × F))
      (fun (s, a) k =>
        (s + a * (x :: y :: q).getD (2 * (n + 1 - 1 - k)) 0 * (k : F),
          a * (1 - (x :: y :: q).getD (2 * (n + 1 - 1 - k)) 0)))
      (fun (s, a) k =>
        (s + a * q.getD (2 * (n - 1 - k)) 0 * (k : F), a * (1 - q.getD (2 * (n - 1 - k)) 0)))
      fun _ k hk => by
        have below := List.mem_range.mp hk
        rw [show 2 * (n + 1 - 1 - k) = 2 * (n - 1 - k) + 1 + 1 by omega, List.getD_cons_succ,
          List.getD_cons_succ]
    rw [List.range_succ, List.foldl_append, earlier, ih tail, pairTrailingZeros, pairProd]
    simp only [List.foldl_cons, List.foldl_nil, Nat.add_sub_cancel, Nat.sub_self, Nat.mul_zero,
      List.getD_cons_zero]
    push_cast
    refine Prod.ext ?_ ?_ <;> ring

end

/-! ## Sums and products over single coordinates -/

theorem sum_word (p : List F) :
    ∑ i ∈ Finset.range p.length, ((2 ^ (p.length - 1 - i) : ℕ) : F) * p.getD i 0 = word p := by
  induction p with
  | nil => rfl
  | cons x p ih =>
    rw [List.length_cons, Finset.sum_range_succ', word, ← ih, add_comm]
    congr 1
    · rw [List.getD_cons_zero, Nat.add_sub_cancel, Nat.sub_zero]
      push_cast
      ring
    · refine Finset.sum_congr rfl fun i _ => ?_
      rw [List.getD_cons_succ, show p.length + 1 - 1 - (i + 1) = p.length - 1 - i by omega]

theorem sum_word_drop {p : List F} {n o : ℕ} (length : p.length = o + n) :
    ∑ i ∈ Finset.range n, ((2 ^ (n - 1 - i) : ℕ) : F) * p.getD (o + i) 0 = word (p.drop o) := by
  have rest : (p.drop o).length = n := by
    rw [List.length_drop]
    omega
  rw [← sum_word, rest]
  refine Finset.sum_congr rfl fun i _ => ?_
  simp [List.getD_eq_getElem?_getD]

theorem prod_allZero {p : List F} {n : ℕ} (bound : n ≤ p.length) :
    ∏ i ∈ Finset.range n, (1 - p.getD i 0) = allZero (p.take n) := by
  induction n generalizing p with
  | zero => rfl
  | succ n ih =>
    obtain ⟨x, p, rfl⟩ := List.exists_cons_of_length_pos (show 0 < p.length by omega)
    rw [Finset.prod_range_succ', List.take_succ_cons, allZero,
      ← ih (show n ≤ p.length by simpa using bound), mul_comm]
    rfl

theorem prod_twoPow (p : List F) :
    ∏ i ∈ Finset.range p.length,
        (1 + ((2 ^ 2 ^ i - 1 : ℕ) : F) * p.getD (p.length - i - 1) 0) = twoPow p := by
  induction p with
  | nil => rfl
  | cons x p ih =>
    rw [List.length_cons, Finset.prod_range_succ, twoPow, ← ih, mul_comm]
    congr 1
    · rw [show p.length + 1 - p.length - 1 = 0 by omega, List.getD_cons_zero,
        Nat.cast_sub Nat.one_le_two_pow]
      push_cast
      ring
    · refine Finset.prod_congr rfl fun i hi => ?_
      have below := Finset.mem_range.mp hi
      rw [show p.length + 1 - i - 1 = p.length - i - 1 + 1 by omega, List.getD_cons_succ]

/-- The indicator of `s` at a point. -/
def indicator (p : List F) (s : ℕ) : F :=
  ∏ i ∈ Finset.range p.length,
    if s / 2 ^ i % 2 = 0 then 1 - p.getD (p.length - i - 1) 0 else p.getD (p.length - i - 1) 0

theorem indicator_cons {x : F} {p : List F} {s : ℕ} (bound : s < 2 ^ p.length) :
    indicator (x :: p) s = (1 - x) * indicator p s ∧
      indicator (x :: p) (2 ^ p.length + s) = x * indicator p s := by
  have rest (s' : ℕ) (same : ∀ i < p.length, s' / 2 ^ i % 2 = s / 2 ^ i % 2) :
      indicator (x :: p) s' =
        indicator p s * if s' / 2 ^ p.length % 2 = 0 then 1 - x else x := by
    unfold indicator
    rw [List.length_cons, Finset.prod_range_succ]
    congr 1
    · refine Finset.prod_congr rfl fun i hi => ?_
      have below := Finset.mem_range.mp hi
      rw [same i below, show p.length + 1 - i - 1 = p.length - i - 1 + 1 by omega,
        List.getD_cons_succ]
    · rw [show p.length + 1 - p.length - 1 = 0 by omega, List.getD_cons_zero]
  constructor
  · rw [rest s fun _ _ => rfl, Nat.div_eq_of_lt bound, if_pos (Nat.zero_mod 2), mul_comm]
  · rw [rest (2 ^ p.length + s), Nat.add_div_left _ (Nat.two_pow_pos _), Nat.div_eq_of_lt bound,
      if_neg (by decide), mul_comm]
    intro i hi
    obtain ⟨k, hk⟩ := Nat.exists_eq_add_of_lt hi
    rw [hk, show 2 ^ (i + k + 1) = 2 ^ i * (2 * 2 ^ k) by rw [pow_add, pow_add]; ring,
      Nat.mul_add_div (Nat.two_pow_pos i), Nat.mul_add_mod]

theorem sum_indicator_cons (x : F) (p : List F) (v : ℕ → F) :
    ∑ s ∈ Finset.range (2 ^ (p.length + 1)), v s * indicator (x :: p) s =
      (1 - x) * ∑ s ∈ Finset.range (2 ^ p.length), v s * indicator p s +
        x * ∑ s ∈ Finset.range (2 ^ p.length), v (2 ^ p.length + s) * indicator p s := by
  rw [pow_succ, mul_two, Finset.sum_range_add, Finset.mul_sum, Finset.mul_sum]
  congr 1 <;> refine Finset.sum_congr rfl fun s hs => ?_
  · rw [(indicator_cons (Finset.mem_range.mp hs)).1]
    ring
  · rw [(indicator_cons (Finset.mem_range.mp hs)).2]
    ring

theorem sum_indicator_one (p : List F) :
    ∑ s ∈ Finset.range (2 ^ p.length), indicator p s = 1 := by
  induction p with
  | nil => simp [indicator]
  | cons x p ih =>
    have split := sum_indicator_cons x p fun _ => 1
    simp only [one_mul, ih] at split
    rw [List.length_cons, split]
    ring

theorem sum_indicator_pow (p : List F) :
    ∑ s ∈ Finset.range (2 ^ p.length), 2 ^ s * indicator p s = twoPow p := by
  induction p with
  | nil => simp [indicator, twoPow]
  | cons x p ih =>
    have high : ∑ s ∈ Finset.range (2 ^ p.length), (2 : F) ^ (2 ^ p.length + s) * indicator p s =
        2 ^ 2 ^ p.length * twoPow p := by
      rw [← ih, Finset.mul_sum]
      refine Finset.sum_congr rfl fun s _ => ?_
      rw [pow_add, mul_assoc]
    rw [List.length_cons, sum_indicator_cons x p fun s => 2 ^ s, ih, high, twoPow]
    ring

/-- The right-shift bitmasks, weighted by the indicators. -/
theorem sum_indicator_bitmask {p : List F} {xlen : ℕ} (size : xlen = 2 ^ p.length) :
    ∑ s ∈ Finset.range xlen, (((2 ^ (xlen - s) - 1) * 2 ^ s : ℕ) : F) * indicator p s =
      2 ^ xlen - twoPow p := by
  have each : ∀ s ∈ Finset.range xlen,
      (((2 ^ (xlen - s) - 1) * 2 ^ s : ℕ) : F) * indicator p s =
        2 ^ xlen * indicator p s - 2 ^ s * indicator p s := by
    intro s hs
    have below := Finset.mem_range.mp hs
    have whole : (2 : F) ^ xlen = 2 ^ (xlen - s) * 2 ^ s := by
      rw [← pow_add, Nat.sub_add_cancel (by omega)]
    rw [Nat.cast_mul, Nat.cast_sub Nat.one_le_two_pow, whole]
    push_cast
    ring
  rw [Finset.sum_congr rfl each, Finset.sum_sub_distrib, ← Finset.mul_sum]
  subst size
  rw [sum_indicator_one, sum_indicator_pow, mul_one]

/-! ## The tables -/

/-- A supported word size. -/
def SupportedXlen (xlen : ℕ) : Prop := xlen = 64 ∨ xlen = 8

theorem logXlen_eq : logXlen 64 = 6 ∧ logXlen 8 = 3 := by decide +kernel

theorem SupportedXlen.two_pow_log {xlen : ℕ} (supported : SupportedXlen xlen) :
    xlen = 2 ^ logXlen xlen ∧ logXlen xlen ≤ 6 ∧ 0 < xlen := by
  obtain rfl | rfl := supported
  · rw [logXlen_eq.1]
    decide
  · rw [logXlen_eq.2]
    decide

/-- `x` in the top half of a pair of words, with the words' lower halves below. -/
theorem SupportedXlen.half {xlen : ℕ} (supported : SupportedXlen xlen) :
    2 * (xlen / 2) = xlen ∧ 0 < xlen / 2 := by
  obtain rfl | rfl := supported <;> decide

namespace WasmTable

/-- The table's extension, by sums and products over the coordinates. -/
def tableMle (xlen : ℕ) (t : WasmTable) (p : List F) : F :=
  match t with
  | rangeCheck => word (p.drop xlen)
  | lowerHalfWord => word (p.drop (xlen + xlen / 2))
  | and => pairWord (fun x y => x * y) p
  | andn => pairWord (fun x y => x * (1 - y)) p
  | or => pairWord (fun x y => x + y - x * y) p
  | xor => pairWord (fun x y => (1 - x) * y + x * (1 - y)) p
  | equal => pairProd pairEq p
  | notEqual => 1 - pairProd pairEq p
  | unsignedLessThan => pairLess p
  | signedLessThan => p.getD 0 0 - p.getD 1 0 + pairLess p
  | unsignedGreaterThanEqual => 1 - pairLess p
  | signedGreaterThanEqual => 1 - (p.getD 0 0 - p.getD 1 0 + pairLess p)
  | unsignedLessThanEqual => pairLess p + pairProd pairEq p
  | srl => pairGather p
  | sra => pairGather p + p.getD 0 0 * (2 * pairFill (p.drop 2))
  | rotr => pairGather p + pairRaise p
  | negateIf =>
      pairWord (fun _ y => y) p - 2 * (p.getD 0 0 * pairWord (fun _ y => y) p) +
        2 ^ xlen * p.getD 0 0 - 2 ^ xlen * (p.getD 0 0 * pairProd (fun _ y => 1 - y) p)
  | mulUNoOverflow => allZero (p.take xlen)
  | pow2 => twoPow (p.drop (2 * xlen - logXlen xlen))
  | shiftRightBitmask => 2 ^ xlen - twoPow (p.drop (2 * xlen - logXlen xlen))
  | signExtendWord =>
      word (p.drop (xlen + xlen / 2)) +
        (2 ^ (xlen / 2) - 1) * 2 ^ (xlen / 2) * p.getD (xlen + xlen / 2) 0
  | clz => pairLeadingZeros p
  | ctz => pairTrailingZeros p
  | popcnt => pairSum (fun x _ => x) p

end WasmTable

/-- The geometric sum of the sign bits. -/
theorem sum_two_pow_reflect (n : ℕ) (c : F) :
    ∑ i ∈ Finset.range n, ((2 ^ (n - 1 - i) : ℕ) : F) * c = (2 ^ n - 1) * c := by
  induction n with
  | zero => simp
  | succ n ih =>
    have rest : ∀ i, n + 1 - 1 - (i + 1) = n - 1 - i := by omega
    rw [Finset.sum_range_succ']
    simp only [rest]
    rw [ih, Nat.add_sub_cancel, Nat.sub_zero]
    push_cast
    ring

section

variable {xlen : ℕ} {p : List F} (length : p.length = 2 * xlen)

include length

theorem ltLoop_eq : ltLoop xlen p = (pairLess p, pairProd pairEq p) := by
  rw [ltLoop, forPairs_lt length]
  simp

theorem forPairs_equal :
    forPairs (p.length / 2) p 1 (fun _ x y s => s * (x * y + (1 - x) * (1 - y))) =
      pairProd pairEq p := by
  have loop := forPairs_prod length (g := pairEq) 1
  rw [length, Nat.mul_div_cancel_left _ two_pos]
  exact loop.trans (one_mul _)

/-- The verifier's formula of every table is the table's extension. -/
theorem evaluateMle_eq_tableMle (supported : SupportedXlen xlen) (t : WasmTable) :
    t.evaluateMle xlen p = t.tableMle xlen p := by
  obtain ⟨size, small, positive⟩ := supported.two_pow_log
  have halves := supported.half
  have lower : ∑ i ∈ Finset.range (xlen / 2),
      ((2 ^ (xlen / 2 - 1 - i) : ℕ) : F) * p.getD (xlen + xlen / 2 + i) 0 =
        word (p.drop (xlen + xlen / 2)) := sum_word_drop (by omega)
  have logBound : logXlen xlen < 2 ^ logXlen xlen := Nat.lt_two_pow_self
  have low : (p.drop (2 * xlen - logXlen xlen)).length = logXlen xlen := by
    rw [List.length_drop]
    omega
  cases t <;> simp only [WasmTable.evaluateMle, WasmTable.tableMle]
  case rangeCheck => exact sum_word_drop (by omega)
  case lowerHalfWord => exact lower
  case and =>
    rw [forPairs_word length (g := fun x y => x * y), zero_add]
    intro i x y s _
    ring
  case andn =>
    rw [forPairs_word length (g := fun x y => x * (1 - y)), zero_add]
    intro i x y s _
    ring
  case or => rw [forPairs_word length (g := fun x y => x + y - x * y) _ _ fun _ _ _ _ _ => rfl, zero_add]
  case xor =>
    rw [forPairs_word length (g := fun x y => (1 - x) * y + x * (1 - y)) _ _ fun _ _ _ _ _ => rfl,
      zero_add]
  case equal => exact forPairs_equal length
  case notEqual => rw [forPairs_equal length]
  case unsignedLessThan => rw [ltLoop_eq length]
  case signedLessThan => rw [ltLoop_eq length]
  case unsignedGreaterThanEqual => rw [ltLoop_eq length]
  case signedGreaterThanEqual => rw [ltLoop_eq length]
  case unsignedLessThanEqual => rw [ltLoop_eq length]
  case srl => rw [forPairs_srl length, zero_mul, zero_add]
  case sra =>
    obtain ⟨n, rfl⟩ : ∃ n, xlen = n + 1 := ⟨xlen - 1, by omega⟩
    obtain ⟨x, y, q, rfl, tail⟩ := exists_pair length
    have first := forPairs_sra tail 0 (0 * (1 + y) + x * y) 0
    rw [forPairs_pair]
    simp only [Nat.add_zero] at first
    rw [if_pos rfl, first, pairGather]
    simp only [List.drop_succ_cons, List.drop_zero, List.getD_cons_zero]
    ring
  case rotr =>
    rw [forPairs_rotr length _ _ _ _ fun _ _ _ _ _ _ _ => rfl]
    ring
  case negateIf =>
    rw [forPairs_negateIf length _ _ _ fun _ _ _ _ _ _ => rfl]
    push_cast
    ring
  case mulUNoOverflow => exact prod_allZero (by omega)
  case pow2 =>
    rw [← prod_twoPow, low]
    refine Finset.prod_congr rfl fun i hi => ?_
    have below := Finset.mem_range.mp hi
    rw [List.getD_eq_getElem?_getD, List.getD_eq_getElem?_getD, List.getElem?_drop,
      show p.length - i - 1 = 2 * xlen - logXlen xlen + (logXlen xlen - i - 1) by omega]
  case shiftRightBitmask =>
    have wordSize : xlen = 2 ^ (p.drop (2 * xlen - logXlen xlen)).length := by rw [low]; exact size
    have bitmask := sum_indicator_bitmask wordSize
    rw [← bitmask]
    refine Finset.sum_congr rfl fun s _ => ?_
    rw [indicator, low, length]
  case signExtendWord =>
    rw [lower, sum_two_pow_reflect]
    push_cast
    ring
  case clz =>
    have loop := forPairs_clz length 0 0 1
    simp only [Nat.add_zero] at loop
    rw [loop]
    push_cast
    ring
  case ctz =>
    rw [foldl_ctz length]
    ring
  case popcnt => rw [forPairs_sum length, zero_add]

end

/-! ## Multilinearity -/

/-- The first coordinate times a function of the others. -/
theorem multilinear_head_mul {f : List F → F} (hf : Multilinear f)
    (ignores : ∀ x q, f (x :: q) = f (0 :: q)) : Multilinear fun p => p.getD 0 0 * f p := by
  have split : (fun p : List F => p.getD 0 0 * f p) =
      fun p => (p.take 1).getD 0 0 * f ([0] ++ p.drop 1) := by
    funext p
    cases p with
    | nil => simp
    | cons x q => simp [ignores x q]
  rw [split]
  exact (Multilinear.getD 0 0).take_mul_drop 1 (hf.append_left [0])

/-- Words of the right operand. -/
theorem pairWord_snd_ignores {g : F → F} (x : F) (q : List F) :
    pairWord (fun _ y => g y) (x :: q) = pairWord (fun _ y => g y) (0 :: q) := by
  cases q <;> rfl

theorem pairProd_snd_ignores {g : F → F} (x : F) (q : List F) :
    pairProd (fun _ y => g y) (x :: q) = pairProd (fun _ y => g y) (0 :: q) := by
  cases q <;> rfl

theorem tableMle_multilinear (xlen : ℕ) (t : WasmTable) :
    Multilinear (t.tableMle xlen : List F → F) := by
  have less := Multilinear.pairLess (F := F)
  have equal := Multilinear.pairProd (BiAffine.pairEq (F := F))
  have signedLess : Multilinear fun p : List F => p.getD 0 0 - p.getD 1 0 + pairLess p :=
    ((Multilinear.getD 0 0).sub (.getD 1 0)).add less
  cases t <;> unfold WasmTable.tableMle
  case rangeCheck => exact Multilinear.word.drop xlen
  case lowerHalfWord => exact Multilinear.word.drop _
  case and => exact .pairWord ⟨0, 0, 0, 1, fun x y => by ring⟩
  case andn => exact .pairWord ⟨0, 1, 0, -1, fun x y => by ring⟩
  case or => exact .pairWord ⟨0, 1, 1, -1, fun x y => by ring⟩
  case xor => exact .pairWord ⟨0, 1, 1, -2, fun x y => by ring⟩
  case equal => exact equal
  case notEqual => exact (Multilinear.const 1).sub equal
  case unsignedLessThan => exact less
  case signedLessThan => exact signedLess
  case unsignedGreaterThanEqual => exact (Multilinear.const 1).sub less
  case signedGreaterThanEqual => exact (Multilinear.const 1).sub signedLess
  case unsignedLessThanEqual => exact less.add equal
  case srl => exact .pairGather
  case sra =>
    exact Multilinear.pairGather.add
      (multilinear_head_mul ((Multilinear.pairFill.drop 2).const_mul 2) fun _ _ => rfl)
  case rotr => exact Multilinear.pairGather.add .pairRaise
  case negateIf =>
    have value := Multilinear.pairWord (BiAffine.snd (F := F))
    have isZero := Multilinear.pairProd (BiAffine.zeroSnd (F := F))
    exact ((value.sub ((multilinear_head_mul value pairWord_snd_ignores).const_mul 2)).add
      ((Multilinear.getD 0 0).const_mul _)).sub
        ((multilinear_head_mul isZero pairProd_snd_ignores).const_mul _)
  case mulUNoOverflow => exact Multilinear.allZero.take xlen
  case pow2 => exact Multilinear.twoPow.drop _
  case shiftRightBitmask => exact (Multilinear.const _).sub (Multilinear.twoPow.drop _)
  case signExtendWord =>
    exact (Multilinear.word.drop _).add ((Multilinear.getD _ 0).const_mul _)
  case clz => exact .pairLeadingZeros
  case ctz => exact .pairTrailingZeros
  case popcnt => exact .pairSum .fst

end JoltWasm
