import JoltWasm.Poly.Lagrange
import JoltWasm.Sumcheck.Batch

/-!
# The interpolation family

Divided differences over consecutive integers, the compressed form, and what all constructors have in
common: each returns the only polynomial of its length through the data.
-/

namespace JoltWasm

open Polynomial Lib Finset

open UnivariatePoly (DistinctNodes)

variable {F : Type} [Field F]

theorem ofCoefficients_replicate (n : ℕ) : ofCoefficients (List.replicate n (0 : F)) = 0 := by
  ext k
  rw [coeff_ofCoefficients, coeff_zero, List.getD_eq_getElem?_getD, List.getElem?_replicate]
  split_ifs <;> rfl

namespace LagrangePolynomial

/-! ## Divided differences -/

/-- The divided difference of order `k` at position `i`. -/
def dividedDifference (f : ℕ → F) (k i : ℕ) : F := (fwdDiff 1)^[k] f i * (k.factorial : F)⁻¹

theorem dividedDifference_succ (f : ℕ → F) (k i : ℕ) : dividedDifference f (k + 1) i =
    (dividedDifference f k (i + 1) - dividedDifference f k i) * ((k + 1 : ℕ) : F)⁻¹ := by
  simp only [dividedDifference, Function.iterate_succ_apply', fwdDiff, Nat.factorial_succ, Nat.cast_mul, mul_inv]
  ring

theorem newtonCoefficients_eq (f : ℕ → F) (m k : ℕ) :
    newtonCoefficients ((List.range m).map fun j => ((k + 1 + j : ℕ) : F)⁻¹)
        ((List.range (m + 1)).map (dividedDifference f k)) =
      (List.range (m + 1)).map fun j => dividedDifference f (k + j) 0 := by
  induction m generalizing k with
  | zero => rfl
  | succ m ih =>
      have first : ((List.range (m + 1 + 1)).map (dividedDifference f k)).headD 0 = dividedDifference f k 0 := by
        rw [List.range_succ_eq_map]
        rfl
      have next : List.zipWith (fun low high => (high - low) * ((k + 1 + 0 : ℕ) : F)⁻¹)
          ((List.range (m + 1 + 1)).map (dividedDifference f k))
          ((List.range (m + 1 + 1)).map (dividedDifference f k)).tail =
          (List.range (m + 1)).map (dividedDifference f (k + 1)) := by
        refine List.ext_getElem (by simp) fun i _ _ => ?_
        simp only [List.getElem_zipWith, List.getElem_map, List.getElem_range, List.getElem_tail, Nat.add_zero]
        exact (dividedDifference_succ f k i).symm
      have shift (j : ℕ) : k + 1 + (j + 1) = k + 1 + 1 + j := by omega
      rw [List.range_succ_eq_map (n := m), List.map_cons, List.map_map, newtonCoefficients, first, next]
      have rest := ih (k + 1)
      have inverses : List.map ((fun j => ((k + 1 + j : ℕ) : F)⁻¹) ∘ Nat.succ) (List.range m) =
          (List.range m).map fun j => ((k + 1 + 1 + j : ℕ) : F)⁻¹ :=
        List.map_congr_left fun j _ => by rw [Function.comp_apply, Nat.succ_eq_add_one, shift]
      rw [inverses, rest, List.range_succ_eq_map (n := m + 1), List.map_cons, List.map_map, Nat.add_zero]
      refine congrArg _ (List.map_congr_left fun j _ => ?_)
      rw [Function.comp_apply, Nat.succ_eq_add_one, Nat.add_assoc k 1 j, Nat.add_comm 1 j]

/-! ## The Newton form -/

/-- The value of the Newton form from a basis polynomial on. -/
def newtonValue (start : ℤ) (x : F) : ℕ → F → List F → F
  | _, _, [] => 0
  | k, basis, scale :: newton => scale * basis + newtonValue start x (k + 1) (basis * (x - node F start k)) newton

theorem ofCoefficients_addScaled {coeffs basis : List F} (scale : F) (short : basis.length ≤ coeffs.length) :
    ofCoefficients (coeffs.zipIdx.map fun (c, j) => c + scale * basis.getD j 0) =
      ofCoefficients coeffs + C scale * ofCoefficients basis := by
  ext k
  rw [coeff_add, coeff_C_mul, coeff_ofCoefficients, coeff_ofCoefficients, coeff_ofCoefficients]
  rcases Nat.lt_or_ge k coeffs.length with low | high
  · rw [List.getD_eq_getElem _ _ (by simpa using low), List.getElem_map, List.getElem_zipIdx,
      List.getD_eq_getElem coeffs _ low, Nat.zero_add]
  · rw [List.getD_eq_default _ _ (by simpa using high), List.getD_eq_default _ _ high,
      List.getD_eq_default _ _ (short.trans high), mul_zero, add_zero]

theorem ofCoefficients_shift (basis : List F) (x : F) :
    ofCoefficients (List.zipWith (· - ·) (0 :: basis) (basis.map (· * x) ++ [0])) =
      ofCoefficients basis * (X - C x) := by
  have shifted : List.zipWith (· - ·) (0 :: basis) (basis.map (· * x) ++ [0]) =
      List.zipWith (fun a b => a + -1 * b) (0 :: basis) (basis.map (· * x) ++ [0]) := by
    simp only [neg_mul, one_mul, ← sub_eq_add_neg]
  rw [shifted, UnivariatePoly.ofCoefficients_zipWith (-1) (by simp), UnivariatePoly.ofCoefficients_append_zero,
    UnivariatePoly.ofCoefficients_map_mul, ofCoefficients]
  simp only [map_zero, map_one, map_neg]
  ring

theorem expandNewton_spec (start : ℤ) (x : F) {k : ℕ} {basis newton coeffs : List F}
    (room : newton = [] ∨ basis.length + newton.length ≤ coeffs.length + 1) :
    (expandNewton start k basis newton coeffs).length = coeffs.length ∧
      (ofCoefficients (expandNewton start k basis newton coeffs)).eval x =
        (ofCoefficients coeffs).eval x + newtonValue start x k ((ofCoefficients basis).eval x) newton := by
  induction newton generalizing k basis coeffs with
  | nil => exact ⟨rfl, (add_zero _).symm⟩
  | cons scale newton ih =>
      have room := room.resolve_left (List.cons_ne_nil _ _)
      rw [List.length_cons] at room
      have length : (coeffs.zipIdx.map fun (c, j) => c + scale * basis.getD j 0).length = coeffs.length := by simp
      obtain ⟨total, value⟩ := @ih (k + 1) (List.zipWith (· - ·) (0 :: basis) (basis.map (· * node F start k) ++ [0]))
        (coeffs.zipIdx.map fun (c, j) => c + scale * basis.getD j 0) (by
          refine .inr ?_
          rw [length, List.length_zipWith, List.length_append, List.length_map, List.length_cons, List.length_singleton,
            min_self]
          omega)
      refine ⟨total.trans length, value.trans ?_⟩
      rw [ofCoefficients_addScaled scale (by omega), ofCoefficients_shift, newtonValue, eval_add, eval_mul, eval_mul,
        eval_C, eval_sub, eval_X, eval_C]
      ring

/-- The basis polynomials at a node are falling factorials. -/
theorem prod_node_sub (start : ℤ) (i k : ℕ) :
    ∏ m ∈ range k, (node F start i - node F start m) = (i.descFactorial k : F) := by
  induction k with
  | zero => rw [prod_range_zero, Nat.descFactorial_zero, Nat.cast_one]
  | succ k ih =>
      rw [prod_range_succ, ih, node_sub, Nat.descFactorial_succ, Nat.cast_mul]
      rcases Nat.lt_or_ge i k with past | inside
      · rw [Nat.descFactorial_eq_zero_iff_lt.mpr past, Nat.cast_zero, zero_mul, mul_zero]
      · rw [Nat.cast_sub inside, mul_comm]

theorem newtonValue_eq (start : ℤ) (x : F) (c : ℕ → F) (m k : ℕ) :
    newtonValue start x k (∏ j ∈ range k, (x - node F start j)) ((List.range m).map fun j => c (k + j)) =
      ∑ j ∈ range m, c (k + j) * ∏ l ∈ range (k + j), (x - node F start l) := by
  induction m generalizing k with
  | zero => rfl
  | succ m ih =>
      rw [List.range_succ_eq_map, List.map_cons, List.map_map, newtonValue, ← prod_range_succ, sum_range_succ',
        add_comm, Nat.add_zero]
      congr 1
      have shift (j : ℕ) : k + 1 + j = k + (j + 1) := by omega
      have rest := ih (k + 1)
      simp only [shift] at rest
      exact rest

/-- The Newton form takes the given values at the nodes. -/
theorem sum_dividedDifference {n : ℕ} (distinct : DistinctNodes F n) (f : ℕ → F) (start : ℤ) {i : ℕ} (inside : i < n) :
    ∑ k ∈ range n, dividedDifference f k 0 * ∏ m ∈ range k, (node F start i - node F start m) = f i := by
  have forward := shift_eq_sum_fwdDiff_iter (1 : ℕ) f i 0
  have target : f (0 + i • 1) = f i := by rw [Nat.zero_add, smul_eq_mul, Nat.mul_one]
  rw [← target, forward, ← sum_subset (range_mono (Nat.succ_le_of_lt inside)) fun k _ outside => by
    rw [prod_node_sub, Nat.descFactorial_eq_zero_iff_lt.mpr (by simpa using outside), Nat.cast_zero, mul_zero]]
  refine sum_congr rfl fun k member => ?_
  have small : k < n := (mem_range.mp member).trans_le inside
  have nonzero := distinct.factorial_ne_zero small
  rw [prod_node_sub, Nat.descFactorial_eq_factorial_mul_choose, dividedDifference, Nat.cast_mul, nsmul_eq_mul]
  field_simp

variable [DecidableEq F]

/-- The points at consecutive integers from `start` on. -/
def pointsFrom (start : ℤ) (values : List F) : List (F × F) := values.zipIdx.map fun (y, i) => (node F start i, y)

omit [DecidableEq F] in
theorem nodup_pointsFrom {values : List F} (distinct : DistinctNodes F values.length) (start : ℤ) :
    ((pointsFrom start values).map Prod.fst).Nodup := by
  have nodes : (pointsFrom start values).map Prod.fst = (List.range values.length).map (node F start) := by
    refine List.ext_getElem (by simp [pointsFrom]) fun i _ _ => ?_
    simp [pointsFrom]
  rw [nodes]
  refine List.nodup_range.map_on fun i member j member' same => ?_
  exact distinct.node_injOn (mem_range.mpr (List.mem_range.mp member)) (mem_range.mpr (List.mem_range.mp member')) same

/-- The Newton form of values at consecutive integers from `start` on. -/
def newtonForm (start : ℤ) (values inverses : List F) : UnivariatePoly F :=
  ⟨expandNewton start 0 [1] (newtonCoefficients inverses values) (List.replicate values.length 0)⟩

theorem newtonForm_through (start : ℤ) {values : List F} {m : ℕ} (size : values.length = m + 1)
    (distinct : DistinctNodes F values.length) :
    (newtonForm start values (((List.range m).map fun j => ((j + 1 : ℕ) : F)).map (·⁻¹))).Through
      (pointsFrom start values) := by
  have data : values = (List.range (m + 1)).map (dividedDifference (fun i => values.getD i 0) 0) := by
    refine List.ext_getElem (by simpa using size) fun i here _ => ?_
    rw [List.getElem_map, List.getElem_range, dividedDifference, Function.iterate_zero_apply, Nat.factorial_zero,
      Nat.cast_one, inv_one, mul_one, List.getD_eq_getElem _ _ here]
  have newton : newtonCoefficients (((List.range m).map fun j => ((j + 1 : ℕ) : F)).map (·⁻¹)) values =
      (List.range (m + 1)).map fun j => dividedDifference (fun i => values.getD i 0) (0 + j) 0 := by
    rw [← newtonCoefficients_eq, ← data, List.map_map]
    refine congrArg (newtonCoefficients · values) (List.map_congr_left fun j _ => ?_)
    rw [Function.comp_apply, Nat.zero_add, Nat.add_comm]
  have expanded := fun x => @expandNewton_spec _ _ start x 0 [1]
    ((List.range (m + 1)).map fun j => dividedDifference (fun i => values.getD i 0) (0 + j) 0)
    (List.replicate values.length 0) (.inr (by simp [size, Nat.add_comm]))
  rw [newtonForm, newton]
  refine .of_values (nodup_pointsFrom distinct _) ?_ fun point member => ?_
  · exact (expanded 0).1.trans (by simp [pointsFrom])
  · obtain ⟨⟨y, i⟩, indexed, rfl⟩ := List.mem_map.mp member
    obtain ⟨-, inside, same⟩ := List.mem_zipIdx indexed
    rw [Nat.zero_add] at inside
    have basis : (ofCoefficients [(1 : F)]).eval (node F start i) =
        ∏ j ∈ range 0, (node F start i - node F start j) := by
      rw [ofCoefficients, ofCoefficients, mul_zero, add_zero, eval_C, prod_range_zero]
    change UnivariatePoly.evaluate _ (node F start i) = y
    rw [UnivariatePoly.evaluate_eq_eval, UnivariatePoly.polynomial, (expanded _).2, ofCoefficients_replicate, eval_zero,
      zero_add, basis,
      newtonValue_eq _ _ fun j => dividedDifference (fun i => values.getD i 0) j 0]
    simp only [Nat.zero_add]
    rw [← size, sum_dividedDifference distinct _ _ inside, List.getD_eq_getElem _ _ inside]
    simpa using same.symm

theorem interpolateCoeffs_through {values : List F} (nonempty : values ≠ [])
    (distinct : DistinctNodes F values.length) :
    ∃ p, interpolateCoeffs values = some p ∧ p.Through (pointsFrom (startI64 values.length) values) := by
  obtain ⟨m, size⟩ : ∃ m, values.length = m + 1 := Nat.exists_eq_succ_of_ne_zero fun none =>
    nonempty (List.length_eq_zero_iff.mp none)
  have inverses : batchInverse ((List.range m).map fun j => ((j + 1 : ℕ) : F)) =
      some (((List.range m).map fun j => ((j + 1 : ℕ) : F)).map (·⁻¹)) := batchInverse_eq fun d member => by
    obtain ⟨j, inside, rfl⟩ := List.mem_map.mp member
    have small := List.mem_range.mp inside
    exact distinct.cast_ne_zero (Nat.succ_pos j) (by omega)
  have degree : values.length - 1 = m := by omega
  refine ⟨_, ?_, newtonForm_through (startI64 values.length) size distinct⟩
  rw [interpolateCoeffs, degree, inverses, Option.bind_eq_bind, Option.bind_some]
  rfl

end LagrangePolynomial

namespace UnivariatePoly

/-! ## Basis polynomials -/

/-- A factor of the numerator and of the denominator. -/
def basisFactor (index : ℕ) (point : F) (fraction : F × F) (j : ℕ) : F × F :=
  if j = index then fraction else (fraction.1 * (point - j), fraction.2 * ((index : F) - j))

def evaluateBasis [DecidableEq F] (domainSize index : ℕ) (point : F) : Option F :=
  if domainSize ≤ index then none
  else do
    let (numer, denom) := (List.range domainSize).foldl (basisFactor index point) (1, 1)
    let denomInv ← inverse denom
    return numer * denomInv

theorem foldl_basisFactor (index : ℕ) (point : F) (l : List ℕ) (fraction : F × F) :
    l.foldl (basisFactor index point) fraction =
      (fraction.1 * (l.map fun j => if j = index then 1 else point - j).prod,
        fraction.2 * (l.map fun j => if j = index then 1 else (index : F) - j).prod) := by
  induction l generalizing fraction with
  | nil => exact Prod.ext (mul_one _).symm (mul_one _).symm
  | cons j l ih =>
      rw [List.foldl_cons, ih, basisFactor, List.map_cons, List.map_cons, List.prod_cons, List.prod_cons]
      split_ifs
      · rw [one_mul, one_mul]
      · rw [mul_assoc, mul_assoc]

/-- A product over the other positions. -/
theorem prod_others (n i : ℕ) (g : ℕ → F) :
    ((List.range n).map fun j => if j = i then 1 else g j).prod = ∏ j ∈ (range n).erase i, g j := by
  rw [← prod_congr rfl fun j member => if_neg (mem_erase.mp member).1]
  exact (prod_erase (range n) (f := fun j => if j = i then 1 else g j) (a := i) (if_pos rfl)).symm

theorem evaluateBasis_eq [DecidableEq F] {n i : ℕ} (distinct : DistinctNodes F n) (inside : i < n) (x : F) :
    evaluateBasis n i x = some (lagrangeWeight 0 n x i) := by
  have denominator : ((List.range n).map fun j => if j = i then 1 else (i : F) - j).prod = differenceProduct n i := by
    rw [prod_others, differenceProduct_eq]
  have nonzero := differenceProduct_ne_zero distinct inside
  have weight : lagrangeWeight 0 n x i = (∏ j ∈ (range n).erase i, (x - j)) * (differenceProduct n i)⁻¹ := by
    rw [lagrangeWeight, Lagrange.basis, eval_prod, differenceProduct_eq, ← prod_inv_distrib, ← prod_mul_distrib]
    refine prod_congr rfl fun j _ => ?_
    rw [Lagrange.basisDivisor, node_sub, eval_mul, eval_C, eval_sub, eval_X, eval_C, node, Int.zero_add,
      Int.cast_natCast, mul_comm]
  rw [evaluateBasis, if_neg (by omega), foldl_basisFactor]
  simp only [one_mul, denominator, inverse_of_ne nonzero, Option.bind_eq_bind, Option.bind_some]
  rw [prod_others, weight]
  rfl

/-! ## The compressed form -/

/-- The compressed form and the sum of the values at zero and one restore the polynomial. -/
theorem compress_restores {p : UnivariatePoly F} (linear : 2 ≤ p.coefficients.length) :
    ∃ c, p.compress = .ok c ∧ c.decompress (p.evaluate 0 + p.evaluate 1) = some p ∧
      ∀ x, c.evaluateWithHint (p.evaluate 0 + p.evaluate 1) x = some (p.evaluate x) := by
  obtain ⟨coefficients⟩ := p
  obtain ⟨c0, c1, cs, rfl⟩ : ∃ c0 c1 cs, coefficients = c0 :: c1 :: cs := by
    match coefficients, linear with
    | c0 :: c1 :: cs, _ => exact ⟨c0, c1, cs, rfl⟩
  have atZero : (⟨c0 :: c1 :: cs⟩ : UnivariatePoly F).evaluate 0 = c0 := by
    rw [evaluate_eq_eval, polynomial, eval_ofCoefficients_cons, zero_mul, add_zero]
  have value (x : F) : (⟨c0 :: c1 :: cs⟩ : UnivariatePoly F).evaluate x =
      c0 + x * (c1 + x * (ofCoefficients cs).eval x) := by
    rw [evaluate_eq_eval, polynomial, eval_ofCoefficients_cons, eval_ofCoefficients_cons]
  have restored : cs.foldl (fun linear c => linear - c)
      ((⟨c0 :: c1 :: cs⟩ : UnivariatePoly F).evaluate 0 + (⟨c0 :: c1 :: cs⟩ : UnivariatePoly F).evaluate 1 - c0 - c0) =
        c1 := by
    rw [foldl_sub, atZero, value]
    ring
  have recovered : (⟨c0 :: cs⟩ : CompressedPoly F).recoverLinearTerm
      ((⟨c0 :: c1 :: cs⟩ : UnivariatePoly F).evaluate 0 + (⟨c0 :: c1 :: cs⟩ : UnivariatePoly F).evaluate 1) =
        some c1 := congrArg some restored
  refine ⟨⟨c0 :: cs⟩, rfl, ?_, fun x => ?_⟩
  · rw [CompressedPoly.decompress, recovered]
    rfl
  · rw [CompressedPoly.evaluateWithHint, recovered]
    refine congrArg some ?_
    rw [foldl_power, value]
    ring

end UnivariatePoly

/-! ## The family -/

open UnivariatePoly LagrangePolynomial

/-- The constructors from values at distinct nodes, the evaluations by weights, and the compressed form. -/
structure InterpolationFamily (F : Type) [Field F] [DecidableEq F] : Prop where
  lagrange : ∀ {points : List (F × F)}, (points.map Prod.fst).Nodup → points ≠ [] →
    ∃ p, interpolate points = some p ∧ p.Through points
  integers : ∀ {evals : List F}, evals ≠ [] → DistinctNodes F evals.length →
    ∃ p, interpolateOverIntegers evals = some p ∧ fromEvals evals = some p ∧ p.Through (integerPoints evals)
  hint : ∀ {hint evalAt0 : F} {evals : List F}, DistinctNodes F (evals.length + 2) →
    ∃ p, fromEvalsAndHint hint (evalAt0 :: evals) = some p ∧
      p.Through (integerPoints (evalAt0 :: (hint - evalAt0) :: evals))
  toom : ∀ {evals : List F}, evals ≠ [] → DistinctNodes F (evals.length - 1) →
    ∃ p, fromEvalsToom evals = some p ∧ p.ThroughInfinity evals
  newton : ∀ {values : List F}, values ≠ [] → DistinctNodes F values.length →
    ∃ p, interpolateCoeffs values = some p ∧ p.Through (pointsFrom (startI64 values.length) values)
  weights : ∀ {n : ℕ} {start : ℤ}, DistinctNodes F n → 0 < n → FitsI64 start n → ∀ r, ∃ w, lagrangeEvals start n r =
    some w ∧ ∀ p : F[X], p.degree < n → ∑ i ∈ range n, p.eval (node F start i) * w.getD i 0 = p.eval r
  basis : ∀ {n : ℕ}, DistinctNodes F n → ∀ r (p : F[X]), p.degree < n →
    ∃ w : ℕ → F, (∀ i < n, evaluateBasis n i r = some (w i)) ∧ ∑ i ∈ range n, p.eval (i : F) * w i = p.eval r
  centeredWeights : ∀ {n : ℕ}, DistinctNodes F n → 0 < n → n ≤ 20 → ∀ r, ∃ w, LagrangePolynomial.evals n r = some w ∧
    ∀ p : F[X], p.degree < n → ∑ i ∈ range n, p.eval (node F (startI64 n) i) * w.getD i 0 = p.eval r
  barycentric : ∀ {values : List F}, values ≠ [] → DistinctNodes F values.length → values.length ≤ 20 →
    ∀ {p : UnivariatePoly F}, p.Through (pointsFrom (startI64 values.length) values) →
      ∀ r, LagrangePolynomial.evaluate values r = some (p.evaluate r)
  compressed : ∀ {p : UnivariatePoly F}, 2 ≤ p.coefficients.length →
    ∃ c, p.compress = .ok c ∧ c.decompress (p.evaluate 0 + p.evaluate 1) = some p ∧
      ∀ x, c.evaluateWithHint (p.evaluate 0 + p.evaluate 1) x = some (p.evaluate x)

/-- Weights listed for the nodes give the value of a polynomial. -/
theorem sum_listed {n : ℕ} {start : ℤ} (distinct : DistinctNodes F n) {p : F[X]} (degree : p.degree < n) (r : F) :
    ∑ i ∈ range n, p.eval (node F start i) * ((List.range n).map (lagrangeWeight start n r)).getD i 0 = p.eval r := by
  rw [← sum_lagrangeWeight start distinct degree r]
  refine sum_congr rfl fun i member => ?_
  rw [List.getD_eq_getElem _ _ (by simpa using mem_range.mp member), List.getElem_map, List.getElem_range]

theorem interpolation_family [DecidableEq F] : InterpolationFamily F where
  lagrange := interpolate_through
  integers nonempty distinct := by
    obtain ⟨p, found, through⟩ := interpolateOverIntegers_through nonempty distinct
    exact ⟨p, found, (fromEvals_eq nonempty distinct).trans found, through⟩
  hint {hint evalAt0 evals} distinct := by
    have full : DistinctNodes F (evalAt0 :: (hint - evalAt0) :: evals).length := distinct
    obtain ⟨p, found, through⟩ := interpolateOverIntegers_through (List.cons_ne_nil _ _) full
    exact ⟨p, (fromEvals_eq (List.cons_ne_nil _ _) full).trans found, through⟩
  toom := fromEvalsToom_through
  newton := interpolateCoeffs_through
  weights distinct positive fits r := ⟨_, lagrangeEvals_eq distinct positive fits r, fun _ degree =>
    sum_listed distinct degree r⟩
  basis {n} distinct r p degree := by
    refine ⟨lagrangeWeight 0 n r, fun i inside => evaluateBasis_eq distinct inside r, ?_⟩
    rw [← sum_lagrangeWeight 0 distinct degree r]
    refine sum_congr rfl fun i _ => ?_
    rw [node, Int.zero_add, Int.cast_natCast]
  centeredWeights distinct positive small r := ⟨_, evals_eq distinct positive small r, fun _ degree =>
    sum_listed distinct degree r⟩
  barycentric {values} nonempty distinct small p through r := by
    have length : p.coefficients.length = values.length := through.length.trans (by simp [pointsFrom])
    have degree : p.polynomial.degree < values.length := by
      rw [← length]
      exact degree_ofCoefficients_lt _
    rw [p.evaluate_eq_eval]
    refine evaluate_eq distinct nonempty small degree (fun i inside => ?_) r
    rw [← p.evaluate_eq_eval]
    refine through.value _ (List.mem_map.mpr ⟨(values.getD i 0, i), ?_, rfl⟩)
    rw [List.getD_eq_getElem _ _ inside, List.mk_mem_zipIdx_iff_getElem?]
    exact List.getElem?_eq_getElem inside
  compressed := compress_restores

end JoltWasm
