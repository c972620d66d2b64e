import JoltWasm.Poly.Interpolation

/-!
# The centred domain

The univariate skip interpolates over consecutive integers around zero, in coefficient form, and multiplies
the coefficients.
-/

namespace JoltWasm

open Polynomial Lib Finset LagrangePolynomial

open UnivariatePoly (DistinctNodes)

variable {F : Type} [Field F]

/-! ## Products of coefficients -/

/-- `poly_mul`. -/
def polyMul (a b : List F) : List F :=
  if a = [] ∨ b = [] then []
  else a.zipIdx.foldl (fun result (ai, i) =>
    b.zipIdx.foldl (fun result (bj, j) => result.modify (i + j) (· + ai * bj)) result)
    (List.replicate (a.length + b.length - 1) 0)

theorem ofCoefficients_modify (cs : List F) {k : ℕ} (inside : k < cs.length) (x : F) :
    ofCoefficients (cs.modify k (· + x)) = ofCoefficients cs + C x * X ^ k := by
  ext n
  rw [coeff_add, coeff_ofCoefficients, coeff_ofCoefficients, coeff_C_mul_X_pow, List.getD_eq_getElem?_getD,
    List.getElem?_modify, List.getD_eq_getElem?_getD]
  rcases eq_or_ne k n with rfl | other
  · simp [List.getElem?_eq_getElem inside]
  · simp [other, other.symm]

/-- One row of the product. -/
theorem foldl_row (ai : F) (i j : ℕ) {b result : List F} (inside : i + j + b.length ≤ result.length) :
    ((b.zipIdx j).foldl (fun result (bj, j) => result.modify (i + j) (· + ai * bj)) result).length = result.length ∧
      ofCoefficients ((b.zipIdx j).foldl (fun result (bj, j) => result.modify (i + j) (· + ai * bj)) result) =
        ofCoefficients result + C ai * X ^ (i + j) * ofCoefficients b := by
  induction b generalizing j result with
  | nil => exact ⟨rfl, by simp [ofCoefficients]⟩
  | cons bj b ih =>
      rw [List.length_cons] at inside
      rw [List.zipIdx_cons, List.foldl_cons]
      obtain ⟨length, value⟩ := @ih (j + 1) (result.modify (i + j) (· + ai * bj)) (by rw [List.length_modify]; omega)
      refine ⟨length.trans (List.length_modify _ _ _), value.trans ?_⟩
      rw [ofCoefficients_modify _ (by omega), ofCoefficients, map_mul, ← Nat.add_assoc, pow_succ]
      ring

theorem foldl_rows (i : ℕ) (b : List F) {a result : List F} (inside : i + a.length + b.length ≤ result.length + 1) :
    ofCoefficients ((a.zipIdx i).foldl (fun result (ai, i) =>
        b.zipIdx.foldl (fun result (bj, j) => result.modify (i + j) (· + ai * bj)) result) result) =
      ofCoefficients result + X ^ i * (ofCoefficients a * ofCoefficients b) := by
  induction a generalizing i result with
  | nil => simp [ofCoefficients]
  | cons ai a ih =>
      rw [List.length_cons] at inside
      obtain ⟨length, value⟩ := @foldl_row F _ ai i 0 b result (by omega)
      rw [List.zipIdx_cons, List.foldl_cons, ih _ (by rw [length]; omega), value, ofCoefficients, Nat.add_zero, pow_succ]
      ring

theorem polyMul_eq (a b : List F) : ofCoefficients (polyMul a b) = ofCoefficients a * ofCoefficients b := by
  rw [polyMul]
  split_ifs with empty
  · rcases empty with rfl | rfl
    · rw [ofCoefficients, zero_mul]
    · rw [ofCoefficients, mul_zero]
  · obtain ⟨someA, someB⟩ := not_or.mp empty
    have positiveA := List.length_pos_iff.mpr someA
    have positiveB := List.length_pos_iff.mpr someB
    rw [foldl_rows 0 b (by rw [List.length_replicate]; omega), ofCoefficients_replicate, zero_add, pow_zero, one_mul]

/-! ## Weights and coefficients -/

variable [DecidableEq F]

def centeredLagrangeEvals (domainSize : ℕ) (r : F) : Except CenteredIntegerDomainError (Option (List F)) := do
  let start ← centeredDomainStart domainSize
  return lagrangeEvals start domainSize r

/-- The sum of the products of the weights at two points. -/
def centeredLagrangeKernel (domainSize : ℕ) (x y : F) : Except CenteredIntegerDomainError (Option F) := do
  let xEvals ← centeredLagrangeEvals domainSize x
  let yEvals ← centeredLagrangeEvals domainSize y
  return do
    let xEvals ← xEvals
    let yEvals ← yEvals
    return (List.zipWith (· * ·) xEvals yEvals).sum

/-- The coefficients of the polynomial with the given values at consecutive integers. -/
def interpolateToCoeffs (domainStart : ℤ) (values : List F) : Option (List F) :=
  if values = [] then none
  else do
    let inverses ← (List.range (values.length - 1)).mapM fun step => inverse ((step + 1 : ℕ) : F)
    return (newtonForm domainStart values inverses).coefficients

theorem interpolateToCoeffs_eq (domainStart : ℤ) {values : List F} (nonempty : values ≠ [])
    (distinct : DistinctNodes F values.length) :
    ∃ coefficients, interpolateToCoeffs domainStart values = some coefficients ∧
      ∀ q : F[X], q.degree < values.length → (∀ i (inside : i < values.length), q.eval (node F domainStart i) = values[i]) →
        ofCoefficients coefficients = q := by
  obtain ⟨m, size⟩ : ∃ m, values.length = m + 1 := Nat.exists_eq_succ_of_ne_zero fun none =>
    nonempty (List.length_eq_zero_iff.mp none)
  have inverses : (List.range m).mapM (fun step => inverse ((step + 1 : ℕ) : F)) =
      some (((List.range m).map fun j => ((j + 1 : ℕ) : F)).map (·⁻¹)) := by
    rw [List.map_map]
    exact UnivariatePoly.mapM_some fun j member => inverse_of_ne
      (distinct.cast_ne_zero (Nat.succ_pos j) (by have := List.mem_range.mp member; omega))
  have through := newtonForm_through domainStart size distinct
  refine ⟨_, by rw [interpolateToCoeffs, if_neg nonempty, size, Nat.add_sub_cancel, inverses]; rfl, ?_⟩
  intro q degree values_
  have points : (pointsFrom domainStart values).length = values.length := by simp [pointsFrom]
  refine (through.unique q (by rwa [points]) fun point member => ?_).symm
  obtain ⟨⟨y, i⟩, indexed, rfl⟩ := List.mem_map.mp member
  obtain ⟨-, inside, same⟩ := List.mem_zipIdx indexed
  rw [Nat.zero_add] at inside
  simp only [values_ i inside]
  simpa using same.symm

/-- The first node of the centred domain. -/
def centeredStart (n : ℕ) : ℤ := -((n - 1) / 2 : ℕ)

theorem centeredLagrangeEvals_eq {n : ℕ} (distinct : DistinctNodes F n) (positive : 0 < n) (small : n < 2 ^ 63)
    (r : F) :
    centeredLagrangeEvals n r = .ok (some ((List.range n).map (lagrangeWeight (centeredStart n) n r))) := by
  have fits : FitsI64 (centeredStart n) n := by
    constructor
    · rw [centeredStart]; omega
    · rw [centeredStart]; omega
  rw [centeredLagrangeEvals, centeredDomainStart, if_neg (by omega), if_neg (by omega)]
  exact congrArg Except.ok (lagrangeEvals_eq distinct positive fits r)

theorem centeredLagrangeKernel_eq {n : ℕ} (distinct : DistinctNodes F n) (positive : 0 < n) (small : n < 2 ^ 63)
    (x y : F) : centeredLagrangeKernel n x y = .ok (some (∑ i ∈ range n,
      lagrangeWeight (centeredStart n) n x i * lagrangeWeight (centeredStart n) n y i)) := by
  rw [centeredLagrangeKernel, centeredLagrangeEvals_eq distinct positive small,
    centeredLagrangeEvals_eq distinct positive small]
  change Except.ok (some (List.zipWith _ _ _).sum) = _
  rw [List.zipWith_map, List.zipWith_self]
  rfl

end JoltWasm
