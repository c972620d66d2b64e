import JoltWasm.Poly.Lt

/-!
# The equality-plus-one polynomial

Its evaluation at a point, its tables, and the split of the tables into a prefix and a suffix part.
-/

namespace JoltWasm

open Lib Finset

section

variable {F : Type} [Field F]

structure EqPlusOnePolynomial (F : Type) where
  point : List F

namespace EqPlusOnePolynomial

/-- The coordinate of the `i`th bit. -/
def bitOf (x : List F) (i : ℕ) : F := x.getD (x.length - 1 - i) 0

/-- The words that differ from bit `k` on down, where the carry stops. -/
def carryTerm (x y : List F) (k : ℕ) : F :=
  let lowerBits := ((List.range k).map fun i => bitOf x i * (1 - bitOf y i)).prod
  let flip := (1 - bitOf x k) * bitOf y k
  let higherBits := ((List.range' (k + 1) (x.length - (k + 1))).map fun i =>
    bitOf x i * bitOf y i + (1 - bitOf x i) * (1 - bitOf y i)).prod
  lowerBits * flip * higherBits

def evaluate (p : EqPlusOnePolynomial F) (y : List F) : Option F :=
  if y.length = p.point.length then some ((List.range p.point.length).map (carryTerm p.point y)).sum else none

/-- The two arrays. -/
structure Tables (F : Type) where
  eqEvals : ℕ → F
  eqPlusOneEvals : ℕ → F

/-- The round of the loop for the coordinate `i`; the entries are read and written with stride `step`. -/
def evalsStep (r : List F) (tables : Tables F) (i : ℕ) : Tables F :=
  let step := 1 <<< (r.length - i)
  let halfStep := step / 2
  let rLowerProduct := (r.drop (i + 1)).foldl (· * ·) 1 * (1 - r.getD i 0)
  { eqPlusOneEvals := fun idx =>
      if idx % step = halfStep then tables.eqEvals (idx - halfStep) * rLowerProduct else tables.eqPlusOneEvals idx
    eqEvals := fun k =>
      let eqStep := 1 <<< (r.length - i - 1)
      if k % (eqStep * 2) = 0 then tables.eqEvals k - tables.eqEvals k * r.getD i 0
      else if k % (eqStep * 2) = eqStep then tables.eqEvals (k - eqStep) * r.getD i 0
      else tables.eqEvals k }

def evals (r : List F) (scalingFactor : Option F) : List F × List F :=
  let start : Tables F := ⟨fun k => if k = 0 then scalingFactor.getD 1 else 0, fun _ => 0⟩
  let tables := (List.range r.length).foldl (evalsStep r) start
  (listed r.length tables.eqEvals, listed r.length tables.eqPlusOneEvals)

end EqPlusOnePolynomial

structure EqPlusOnePrefixSuffix (F : Type) where
  prefix0 : List F
  suffix0 : List F
  prefix1 : List F
  suffix1 : List F

def EqPlusOnePrefixSuffix.new (r : List F) : EqPlusOnePrefixSuffix F :=
  let mid := r.length / 2
  let (rHi, rLo) := r.splitAt mid
  let ones := List.replicate rLo.length 1
  let isMaxEval := eqMle ones rLo
  let prefix1 := listed rLo.length fun j => if j = 0 then isMaxEval else 0
  let (suffix0, suffix1) := EqPlusOnePolynomial.evals rHi none
  ⟨(EqPlusOnePolynomial.evals rLo none).2, suffix0, prefix1, suffix1⟩

/-! ## Evaluation -/

namespace EqPlusOnePolynomial

theorem bitOf_cons_low (a : F) (x : List F) {i : ℕ} (inside : i < x.length) : bitOf (a :: x) i = bitOf x i := by
  obtain ⟨k, size⟩ := Nat.exists_eq_add_of_lt inside
  rw [bitOf, bitOf, List.length_cons, size, show i + k + 1 + 1 - 1 - i = k + 1 by omega,
    show i + k + 1 - 1 - i = k by omega, List.getD_cons_succ]

theorem bitOf_cons_high (a : F) (x : List F) : bitOf (a :: x) x.length = a := by
  rw [bitOf, List.length_cons, Nat.add_sub_cancel, Nat.sub_self, List.getD_cons_zero]

/-- The product over all bits of a word of ones and a word of zeros. -/
theorem prod_lowerBits {x y : List F} (same : x.length = y.length) :
    ((List.range x.length).map fun i => bitOf x i * (1 - bitOf y i)).prod = x.prod * allZero y := by
  induction x generalizing y with
  | nil =>
      obtain rfl := List.eq_nil_of_length_eq_zero same.symm
      simp [allZero]
  | cons a x ih =>
      obtain ⟨b, y, rfl⟩ := List.exists_cons_of_length_eq_add_one same.symm
      have same : x.length = y.length := Nat.succ.inj same
      have rest : (List.range x.length).map (fun i => bitOf (a :: x) i * (1 - bitOf (b :: y) i)) =
          (List.range x.length).map fun i => bitOf x i * (1 - bitOf y i) :=
        List.map_congr_left fun i member => by
          have inside := List.mem_range.mp member
          rw [bitOf_cons_low a x inside, bitOf_cons_low b y (by rwa [← same])]
      rw [List.length_cons, List.range_succ, List.map_append, List.prod_append, rest, ih same, List.map_singleton,
        List.prod_singleton, bitOf_cons_high, same, bitOf_cons_high, List.prod_cons, allZero]
      ring

theorem carryTerm_cons_low {x y : List F} (same : x.length = y.length) (a b : F) {k : ℕ} (inside : k < x.length) :
    carryTerm (a :: x) (b :: y) k = pairEq a b * carryTerm x y k := by
  have low (i : ℕ) (below : i < x.length) : bitOf (a :: x) i = bitOf x i ∧ bitOf (b :: y) i = bitOf y i :=
    ⟨bitOf_cons_low a x below, bitOf_cons_low b y (by rwa [← same])⟩
  have lower : (List.range k).map (fun i => bitOf (a :: x) i * (1 - bitOf (b :: y) i)) =
      (List.range k).map fun i => bitOf x i * (1 - bitOf y i) :=
    List.map_congr_left fun i member => by
      obtain ⟨left, right⟩ := low i ((List.mem_range.mp member).trans inside)
      rw [left, right]
  have higher : (List.range' (k + 1) (x.length - (k + 1))).map (fun i => bitOf (a :: x) i * bitOf (b :: y) i +
        (1 - bitOf (a :: x) i) * (1 - bitOf (b :: y) i)) =
      (List.range' (k + 1) (x.length - (k + 1))).map fun i => bitOf x i * bitOf y i +
        (1 - bitOf x i) * (1 - bitOf y i) :=
    List.map_congr_left fun i member => by
      obtain ⟨left, right⟩ := low i (by have := List.mem_range'_1.mp member; omega)
      rw [left, right]
  have size : (a :: x).length - (k + 1) = x.length - (k + 1) + 1 := by rw [List.length_cons]; omega
  have last : k + 1 + (x.length - (k + 1)) = x.length := by omega
  obtain ⟨left, right⟩ := low k inside
  unfold carryTerm
  simp only
  rw [lower, size, List.range'_concat, List.map_append, List.prod_append, higher, left, right, Nat.one_mul, last,
    List.map_singleton, List.prod_singleton, bitOf_cons_high, same, bitOf_cons_high, pairEq]
  ring

theorem carryTerm_cons_high {x y : List F} (same : x.length = y.length) (a b : F) :
    carryTerm (a :: x) (b :: y) x.length = (1 - a) * b * (x.prod * allZero y) := by
  have lower : (List.range x.length).map (fun i => bitOf (a :: x) i * (1 - bitOf (b :: y) i)) =
      (List.range x.length).map fun i => bitOf x i * (1 - bitOf y i) :=
    List.map_congr_left fun i member => by
      have inside := List.mem_range.mp member
      rw [bitOf_cons_low a x inside, bitOf_cons_low b y (by rwa [← same])]
  unfold carryTerm
  simp only
  rw [lower, prod_lowerBits same, List.length_cons, Nat.sub_self, List.range'_zero, List.map_nil, List.prod_nil,
    bitOf_cons_high, same, bitOf_cons_high]
  ring

theorem sum_carryTerm {x y : List F} (same : x.length = y.length) :
    ((List.range x.length).map (carryTerm x y)).sum = follows x y := by
  induction x generalizing y with
  | nil =>
      obtain rfl := List.eq_nil_of_length_eq_zero same.symm
      simp
  | cons a x ih =>
      obtain ⟨b, y, rfl⟩ := List.exists_cons_of_length_eq_add_one same.symm
      have same : x.length = y.length := Nat.succ.inj same
      have rest : (List.range x.length).map (carryTerm (a :: x) (b :: y)) =
          (List.range x.length).map fun k => pairEq a b * carryTerm x y k :=
        List.map_congr_left fun k member => carryTerm_cons_low same a b (List.mem_range.mp member)
      rw [List.length_cons, List.range_succ, List.map_append, List.sum_append, rest, List.sum_map_mul_left, ih same,
        List.map_singleton, List.sum_singleton, carryTerm_cons_high same, follows_cons same]

theorem evaluate_eq {x y : List F} (same : y.length = x.length) : evaluate ⟨x⟩ y = some (follows x y) := by
  rw [evaluate, if_pos same, sum_carryTerm same.symm]

/-! ## The tables -/

/-- After the coordinates before `i`: the entries at the multiples of the stride are final but for the rest of the
point, the others are zero. -/
structure Filled (r : List F) (scale : F) (tables : Tables F) (i : ℕ) : Prop where
  eqEvals : ∀ k < 2 ^ r.length, tables.eqEvals k =
    if k % 2 ^ (r.length - i) = 0 then scale * eqWeight (r.take i) (k / 2 ^ (r.length - i)) else 0
  eqPlusOneEvals : ∀ k < 2 ^ r.length, tables.eqPlusOneEvals k =
    if k % 2 ^ (r.length - i) = 0 ∧ k ≠ 0 then scale * eqWeight r (k - 1) else 0

/-- The predecessor of an odd multiple of half the stride. -/
theorem eqWeight_pred {r : List F} {i : ℕ} (inside : i < r.length) (a : ℕ) :
    eqWeight r (a * 2 ^ (r.length - i) + (2 ^ (r.length - i - 1) - 1)) =
      eqWeight (r.take i) a * ((r.drop (i + 1)).prod * (1 - r.getD i 0)) := by
  have whole : r = r.take i ++ r.getD i 0 :: r.drop (i + 1) := by
    rw [List.getD_eq_getElem _ _ inside, ← List.drop_eq_getElem_cons inside, List.take_append_drop]
  have size : r.length - i = (r.getD i 0 :: r.drop (i + 1)).length := by
    rw [List.length_cons, List.length_drop]
    omega
  have half : r.length - i - 1 = (r.drop (i + 1)).length := by
    rw [List.length_drop]
    omega
  have positive := Nat.two_pow_pos (r.drop (i + 1)).length
  rw [half, size]
  nth_rewrite 1 [whole]
  rw [EqPolynomial.eqWeight_append_add _ _ _ (by rw [List.length_cons, pow_succ]; omega),
    eqWeight_cons_low _ _ (by omega), eqWeight_ones]
  ring

/-- A multiple of half the stride is an even or an odd one. -/
theorem mod_half (k m : ℕ) :
    k % 2 ^ m = 0 ↔ k % 2 ^ (m + 1) = 0 ∨ k % 2 ^ (m + 1) = 2 ^ m := by
  have positive := Nat.two_pow_pos m
  have below : k % 2 ^ (m + 1) < 2 ^ m * 2 := by
    rw [← pow_succ]
    exact Nat.mod_lt _ (Nat.two_pow_pos _)
  rw [← Nat.mod_mod_of_dvd k (pow_dvd_pow 2 (Nat.le_succ m))]
  constructor
  · intro multiple
    obtain ⟨c, shown⟩ := Nat.dvd_of_mod_eq_zero multiple
    rw [shown] at below ⊢
    have few := Nat.lt_of_mul_lt_mul_left below
    interval_cases c <;> simp
  · rintro (zero | half)
    · rw [zero, Nat.zero_mod]
    · rw [half, Nat.mod_self]

theorem Filled.step {r : List F} {scale : F} {tables : Tables F} {i : ℕ} (filled : Filled r scale tables i)
    (inside : i < r.length) : Filled r scale (evalsStep r tables i) (i + 1) := by
  obtain ⟨m, size⟩ := Nat.exists_eq_succ_of_ne_zero (n := r.length - i) (by omega)
  have next : r.length - (i + 1) = m := by omega
  have half : r.length - i - 1 = m := by omega
  have positive := Nat.two_pow_pos m
  have double : 2 ^ m * 2 = 2 ^ (m + 1) := (pow_succ 2 m).symm
  have grown : r.take (i + 1) = r.take i ++ [r.getD i 0] := by
    rw [List.getD_eq_getElem _ _ inside, List.take_append_getElem]
  have even (a : ℕ) : 2 ^ (m + 1) * a / 2 ^ m = 2 * a := by
    rw [← double, Nat.mul_assoc, Nat.mul_div_cancel_left _ positive]
  have odd (a : ℕ) : (2 ^ (m + 1) * a + 2 ^ m) / 2 ^ m = 2 * a + 1 := by
    rw [Nat.add_div_right _ positive, even]
  have eqEvals := filled.eqEvals
  have eqPlusOneEvals := filled.eqPlusOneEvals
  rw [size] at eqEvals eqPlusOneEvals
  refine ⟨fun k below => ?_, fun k below => ?_⟩
  · have split := Nat.div_add_mod k (2 ^ (m + 1))
    obtain ⟨low, high⟩ := EqPolynomial.eqWeight_concat (r.take i) (r.getD i 0) (k / 2 ^ (m + 1))
    rw [next, evalsStep]
    simp only [half, Nat.one_shiftLeft, double]
    by_cases zero : k % 2 ^ (m + 1) = 0
    · rw [if_pos zero, if_pos ((mod_half k m).mpr (.inl zero)), eqEvals k below, if_pos zero, grown]
      rw [zero, Nat.add_zero] at split
      nth_rewrite 3 [← split]
      rw [even, low]
      ring
    · rw [if_neg zero]
      by_cases middle : k % 2 ^ (m + 1) = 2 ^ m
      · rw [middle] at split
        have before : k - 2 ^ m = 2 ^ (m + 1) * (k / 2 ^ (m + 1)) := by omega
        rw [if_pos middle, if_pos ((mod_half k m).mpr (.inr middle)), eqEvals _ (by omega), before,
          if_pos (Nat.mul_mod_right _ _), Nat.mul_div_cancel_left _ (Nat.two_pow_pos _), grown]
        nth_rewrite 2 [← split]
        rw [odd, high]
        ring
      · rw [if_neg middle, eqEvals k below, if_neg zero,
          if_neg fun multiple => ((mod_half k m).mp multiple).elim zero middle]
  · have split := Nat.div_add_mod k (2 ^ (m + 1))
    have whole : 2 ^ (m + 1) / 2 = 2 ^ m := half_pow_succ m
    rw [next, evalsStep]
    simp only [size, Nat.succ_eq_add_one, Nat.one_shiftLeft, whole]
    by_cases middle : k % 2 ^ (m + 1) = 2 ^ m
    · rw [middle] at split
      have before : k - 2 ^ m = 2 ^ (m + 1) * (k / 2 ^ (m + 1)) := by omega
      have pred : k - 1 = k / 2 ^ (m + 1) * 2 ^ (r.length - i) + (2 ^ (r.length - i - 1) - 1) := by
        rw [half, size, Nat.succ_eq_add_one, Nat.mul_comm (k / 2 ^ (m + 1))]
        omega
      rw [if_pos middle, if_pos ⟨(mod_half k m).mpr (.inr middle), by omega⟩, eqEvals _ (by omega), before,
        if_pos (Nat.mul_mod_right _ _), Nat.mul_div_cancel_left _ (Nat.two_pow_pos _), pred, eqWeight_pred inside,
        ← List.prod_eq_foldl, mul_assoc]
    · rw [if_neg middle, eqPlusOneEvals k below]
      exact if_congr (by rw [mod_half k m]; tauto) rfl rfl

/-- The rounds fill both tables. -/
theorem filled_foldl {r : List F} {scale : F} {tables : Tables F} (filled : Filled r scale tables 0) {n : ℕ}
    (inside : n ≤ r.length) : Filled r scale ((List.range n).foldl (evalsStep r) tables) n := by
  induction n with
  | zero => exact filled
  | succ n ih =>
      rw [List.range_succ, List.foldl_append]
      exact (ih (by omega)).step (by omega)

/-- The weights, and the weights of the predecessors. -/
theorem evals_eq (r : List F) (scalingFactor : Option F) : evals r scalingFactor =
    (EqPolynomial.table (scalingFactor.getD 1) r,
      listed r.length fun k => if k = 0 then 0 else scalingFactor.getD 1 * eqWeight r (k - 1)) := by
  have start : Filled r (scalingFactor.getD 1) ⟨fun k => if k = 0 then scalingFactor.getD 1 else 0, fun _ => 0⟩ 0 := by
    refine ⟨fun k below => ?_, fun k below => ?_⟩
    · rw [Nat.sub_zero, Nat.mod_eq_of_lt below, List.take_zero, eqWeight, mul_one]
    · rw [Nat.sub_zero, Nat.mod_eq_of_lt below, if_neg fun both => both.2 both.1]
  have filled := filled_foldl start le_rfl
  rw [evals]
  refine Prod.ext (listed_congr fun k below => ?_) (listed_congr fun k below => ?_)
  · rw [filled.eqEvals k below, Nat.sub_self, pow_zero, Nat.mod_one, if_pos rfl, List.take_length, Nat.div_one]
  · rw [filled.eqPlusOneEvals k below, Nat.sub_self, pow_zero, Nat.mod_one]
    by_cases zero : k = 0
    · rw [if_neg fun both => both.2 zero, if_pos zero]
    · rw [if_pos ⟨rfl, zero⟩, if_neg zero]

/-- An entry is the extension at the bits of its index. -/
theorem follows_bitPoint (r : List F) {k : ℕ} (inside : k < 2 ^ r.length) :
    follows r (bitPoint F r.length k) = if k = 0 then 0 else eqWeight r (k - 1) := by
  have entry : ∀ j < 2 ^ r.length, extension (fun k => if k = j + 1 then 1 else 0) (bitPoint F r.length k) =
      if k = j + 1 then (1 : F) else 0 := fun j _ => extension_bitPoint _ inside
  rw [follows, extension_congr entry]
  split_ifs with zero
  · exact (extension_congr fun j _ => if_neg (by omega)).trans (extension_zero r)
  · rw [← one_mul (eqWeight r (k - 1)), ← extension_single r (by omega)]
    exact extension_congr fun j _ => if_congr (by omega) rfl rfl

theorem evals_eq_follows (r : List F) (scalingFactor : Option F) : evals r scalingFactor =
    (EqPolynomial.table (scalingFactor.getD 1) r,
      listed r.length fun k => scalingFactor.getD 1 * follows r (bitPoint F r.length k)) := by
  rw [evals_eq]
  refine Prod.ext rfl (listed_congr fun k below => ?_)
  rw [follows_bitPoint r below]
  split_ifs
  · rw [mul_zero]
  · rfl

/-- The table of a multilinear function, at a point. -/
theorem extension_listed {f : List F → F} (hf : Multilinear f) (point : List F) :
    extension (fun k => (listed point.length fun k => f (bitPoint F point.length k)).getD k 0) point = f point :=
  (extension_congr fun _ inside => getD_listed _ inside).trans (extension_bits hf point)

end EqPlusOnePolynomial

/-! ## The prefix and the suffix -/

theorem eqMle_ones (x : List F) : eqMle (List.replicate x.length 1) x = x.prod := by
  induction x with
  | nil => rfl
  | cons a x ih =>
      rw [eqMle] at ih ⊢
      rw [List.length_cons, List.replicate_succ, List.zipWith_cons_cons, List.prod_cons, ih, List.prod_cons]
      ring

theorem EqPlusOnePrefixSuffix.lengths (r : List F) :
    (new r).prefix0.length = 2 ^ (r.length - r.length / 2) ∧ (new r).suffix0.length = 2 ^ (r.length / 2) ∧
      (new r).prefix1.length = 2 ^ (r.length - r.length / 2) ∧ (new r).suffix1.length = 2 ^ (r.length / 2) := by
  have half : min (r.length / 2) r.length = r.length / 2 := min_eq_left (Nat.div_le_self _ _)
  simp [new, EqPlusOnePolynomial.evals, List.splitAt_eq, half]

/-- At every point that is split as the coordinates are. -/
theorem EqPlusOnePrefixSuffix.decomposes (r : List F) {yHi yLo : List F} (high : yHi.length = r.length / 2)
    (low : yLo.length = r.length - r.length / 2) :
    extension (fun j => (new r).suffix0.getD j 0) yHi * extension (fun j => (new r).prefix0.getD j 0) yLo +
        extension (fun j => (new r).suffix1.getD j 0) yHi * extension (fun j => (new r).prefix1.getD j 0) yLo =
      follows r (yHi ++ yLo) := by
  obtain ⟨rHi, rLo, whole, split⟩ : ∃ rHi rLo, r = rHi ++ rLo ∧
      (r.take (r.length / 2), r.drop (r.length / 2)) = (rHi, rLo) := ⟨_, _, (List.take_append_drop _ r).symm, rfl⟩
  obtain ⟨first, rest⟩ := Prod.mk.inj split
  have lengthHi : rHi.length = yHi.length := by
    rw [high, ← first, List.length_take]
    omega
  have lengthLo : rLo.length = yLo.length := by
    rw [low, ← rest, List.length_drop]
  have shown : new r = ⟨(EqPlusOnePolynomial.evals rLo none).2, (EqPlusOnePolynomial.evals rHi none).1,
      listed rLo.length fun j => if j = 0 then eqMle (List.replicate rLo.length 1) rLo else 0,
      (EqPlusOnePolynomial.evals rHi none).2⟩ := by
    rw [new, List.splitAt_eq, split]
  have equalHi : extension (fun j => (EqPolynomial.table 1 rHi).getD j 0) yHi = equal rHi yHi :=
    extension_congr fun j inside => by
      rw [EqPolynomial.getD_table 1 rHi (by rwa [lengthHi]), one_mul]
  have succ {x y : List F} (same : x.length = y.length) :
      extension (fun j => (listed x.length fun k => 1 * follows x (bitPoint F x.length k)).getD j 0) y = follows x y := by
    rw [same]
    simp only [one_mul]
    exact EqPlusOnePolynomial.extension_listed (multilinear_follows x) y
  have last : extension (fun j => (listed rLo.length fun j => if j = 0 then rLo.prod else 0).getD j 0) yLo =
      rLo.prod * allZero yLo := by
    rw [← eqWeight_zero, ← extension_single yLo (Nat.two_pow_pos _), lengthLo]
    exact extension_congr fun j inside => getD_listed _ inside
  rw [shown, EqPlusOnePolynomial.evals_eq_follows, EqPlusOnePolynomial.evals_eq_follows, eqMle_ones]
  simp only [Option.getD_none]
  rw [equalHi, succ lengthLo, succ lengthHi, last, whole, follows_append lengthHi lengthLo]

/-! ## All representations -/

/-- What the two polynomials of a point and their tables are. -/
structure OrderingAgrees (r : List F) : Prop where
  ltTable : LtPolynomial.evaluations r = listed r.length fun j => lessThan (bitPoint F r.length j) r
  ltEvaluate : ∀ x : List F, x.length = r.length → LtPolynomial.evaluate x r = some (lessThan x r)
  ltBound : ∀ challenges : List F, challenges.length ≤ r.length → ∃ p,
    challenges.foldlM LtPolynomial.bind (LtPolynomial.new r) = some p ∧
    p.numVars = r.length - challenges.length ∧ p.len = 2 ^ p.numVars ∧
    (∀ idx < 2 ^ p.numVars, p.get idx = lessThan (challenges ++ bitPoint F p.numVars idx) r) ∧
    ∀ m, p.numVars = m + 1 → ∀ j < 2 ^ m, p.sumcheckEvalPair j =
      (lessThan (challenges ++ 0 :: bitPoint F m j) r, lessThan (challenges ++ 1 :: bitPoint F m j) r)
  ltLowToHigh : ∀ (constant : F) (challenges : List F),
    (∀ m, challenges.length + (m + 1) = r.length → ∀ y < 2 ^ m,
      (challenges.foldl SplitLt.bind (SplitLt.newPlusConstant r constant)).pair y =
        (lessThan (bitPoint F m y ++ 0 :: challenges.reverse) r + constant,
          lessThan (bitPoint F m y ++ 1 :: challenges.reverse) r + constant)) ∧
    (challenges.length = r.length →
      (challenges.foldl SplitLt.bind (SplitLt.newPlusConstant r constant)).finalValue =
        some (lessThan challenges.reverse r + constant))
  plusOneEvaluate : ∀ y : List F, y.length = r.length → EqPlusOnePolynomial.evaluate ⟨r⟩ y = some (follows r y)
  plusOneTables : ∀ scalingFactor, EqPlusOnePolynomial.evals r scalingFactor =
    (EqPolynomial.evals r scalingFactor,
      listed r.length fun k => scalingFactor.getD 1 * follows r (bitPoint F r.length k))
  prefixSuffix : ∀ yHi yLo : List F, yHi.length = r.length / 2 → yLo.length = r.length - r.length / 2 →
    extension (fun j => (EqPlusOnePrefixSuffix.new r).suffix0.getD j 0) yHi *
        extension (fun j => (EqPlusOnePrefixSuffix.new r).prefix0.getD j 0) yLo +
      extension (fun j => (EqPlusOnePrefixSuffix.new r).suffix1.getD j 0) yHi *
        extension (fun j => (EqPlusOnePrefixSuffix.new r).prefix1.getD j 0) yLo = follows r (yHi ++ yLo)

theorem orderingAgrees (r : List F) : OrderingAgrees r := by
  obtain ⟨rHi, rLo, whole, split⟩ : ∃ rHi rLo, r = rHi ++ rLo ∧
      (r.take (r.length - r.length / 2), r.drop (r.length - r.length / 2)) = (rHi, rLo) :=
    ⟨_, _, (List.take_append_drop _ r).symm, rfl⟩
  have parts : r.take (r.length - r.length / 2) = rHi ∧ r.drop (r.length - r.length / 2) = rLo := Prod.mk.inj split
  have lengths : r.length = rHi.length + rLo.length := by rw [whole, List.length_append]
  have start := LtPolynomial.bound_new r
  rw [parts.1, parts.2] at start
  have startLow := SplitLt.bound_new r
  rw [parts.1, parts.2] at startLow
  have fits (challenges : List F) (short : challenges.length ≤ r.length) :
      ([] : List F).length + challenges.length ≤ rHi.length + rLo.length := by
    rw [List.length_nil, Nat.zero_add, ← lengths]
    exact short
  refine ⟨(ltEvals_eq r).trans (tabulated_nil _ _), fun x => LtPolynomial.evaluate_eq, ?_, ?_,
    fun y => EqPlusOnePolynomial.evaluate_eq, ?_, fun _ _ => EqPlusOnePrefixSuffix.decomposes r⟩
  · intro challenges short
    obtain ⟨p, ran, bound⟩ := start.run (fits challenges short)
    rw [List.nil_append] at bound
    have get {idx : ℕ} (inside : idx < 2 ^ p.numVars) := bound.get_eq (by omega) inside
    rw [← whole] at get
    have size : p.numVars = r.length - challenges.length := by
      rw [LtPolynomial.numVars, bound.nHiVars, bound.nLoVars]
      omega
    have length : p.len = 2 ^ p.numVars := by
      rw [LtPolynomial.len, bound.ltHi, bound.ltLo, length_tabulated, length_tabulated, ← pow_add, LtPolynomial.numVars]
    refine ⟨p, ran, size, length, fun idx inside => get inside, fun m left j inside => ?_⟩
    have half : p.len / 2 = 2 ^ m := by rw [length, left, half_pow_succ]
    have double : 2 ^ p.numVars = 2 ^ m + 2 ^ m := by rw [left, pow_succ, mul_two]
    rw [LtPolynomial.sumcheckEvalPair, half, get (by omega), get (by omega), left, bitPoint_succ_low inside,
      bitPoint_succ_high inside]
  · intro constant challenges
    refine ⟨fun m left y inside => ?_, fun all => ?_⟩
    · have bound := (startLow constant).run (fits challenges (by omega))
      rw [List.append_nil] at bound
      rw [bound.pair_eq (m := m) (by rw [List.length_reverse]; omega) inside, ← whole]
    · have bound := (startLow constant).run (fits challenges (by omega))
      rw [List.append_nil] at bound
      rw [bound.finalValue_eq (by rw [List.length_reverse]; omega), ← whole]
  · intro scalingFactor
    rw [EqPlusOnePolynomial.evals_eq_follows, EqPolynomial.evals_eq]

end

end JoltWasm
