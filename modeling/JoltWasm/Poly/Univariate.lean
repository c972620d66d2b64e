import Mathlib.LinearAlgebra.Lagrange
import JoltWasm.Lib.Elimination
import JoltWasm.Sumcheck.Soundness

/-!
# Univariate polynomials from their values

The Lagrange constructor and the two constructors by Gaussian elimination, on the Vandermonde system and on
the system whose last row reads the leading coefficient.
-/

namespace JoltWasm

open Polynomial Lib

section

variable {F : Type} [Field F]

section Constructors

variable [DecidableEq F]

/-- `Field::inverse`; the callers stop where there is none. -/
def inverse (x : F) : Option F := if x = 0 then none else some x⁻¹

theorem inverse_of_ne {x : F} (nonzero : x ≠ 0) : inverse x = some x⁻¹ := if_neg nonzero

/-! ## Lagrange -/

namespace UnivariatePoly

/-- Multiply by `x - xm` and divide by `xj - xm`. -/
def basisStep (xj xm : F) (basis : List F) : Option (List F) := do
  let denom ← inverse (xj - xm)
  let shifted := List.zipWith (· + ·) (0 :: basis) (basis.map (· * -xm) ++ [0])
  return shifted.map (· * denom)

/-- The inner loop passes over its own node. -/
def basisUpdate (xj : F) (j : ℕ) (basis : List F) (node : (F × F) × ℕ) : Option (List F) :=
  if node.2 = j then some basis else basisStep xj node.1.1 basis

/-- The coefficients that the inner loop leaves for the node `j`. -/
def lagrangeBasis (points : List (F × F)) (j : ℕ) : Option (List F) :=
  points.zipIdx.foldlM (basisUpdate (points.getD j (0, 0)).1 j) [1]

/-- Add a basis polynomial, times its value. -/
def addTerm (points : List (F × F)) (result : List F) (node : (F × F) × ℕ) : Option (List F) := do
  let basis ← lagrangeBasis points node.2
  return List.zipWith (fun r b => r + node.1.2 * b) result basis

def interpolate (points : List (F × F)) : Option (UnivariatePoly F) :=
  if points = [] then none
  else do
    let result ← points.zipIdx.foldlM (addTerm points) (List.replicate points.length 0)
    return ⟨result⟩

/-- The points at the integers from zero on. -/
def integerPoints (evals : List F) : List (F × F) := evals.zipIdx.map fun (y, i) => ((i : F), y)

def interpolateOverIntegers (evals : List F) : Option (UnivariatePoly F) :=
  if evals = [] then none else interpolate (integerPoints evals)

/-! ## Gaussian elimination -/

/-- The first row from `i` on with a pivot in column `i`. -/
def pivotRow (size i : ℕ) (matrix : ℕ → ℕ → F) : Option ℕ :=
  (List.range' i (size - i)).find? fun r => matrix r i ≠ 0

/-- Clear column `i` in the rows below. -/
def clearBelow (size i : ℕ) (matrix : ℕ → ℕ → F) : ℕ → ℕ → F := fun j k =>
  if i < j ∧ i ≤ k ∧ k ≤ size then matrix j k - matrix j i * (matrix i i)⁻¹ * matrix i k else matrix j k

/-- Clear column `i` in the rows above. -/
def clearAbove (i : ℕ) (matrix : ℕ → ℕ → F) : ℕ → ℕ → F := fun j k =>
  if j < i then matrix j k - matrix j i * (matrix i i)⁻¹ * matrix i k else matrix j k

/-- Forward elimination of `steps` columns from column `i` on. -/
def eliminate (size : ℕ) : ℕ → ℕ → (ℕ → ℕ → F) → Option (ℕ → ℕ → F)
  | 0, _, matrix => some matrix
  | steps + 1, i, matrix => do
      let pivot ← pivotRow size i matrix
      eliminate size steps (i + 1) (clearBelow size i fun j => matrix (Equiv.swap i pivot j))

/-- Back substitution, from column `i` down to column one. -/
def backSubstitute : ℕ → (ℕ → ℕ → F) → Option (ℕ → ℕ → F)
  | 0, matrix => some matrix
  | i + 1, matrix => if matrix (i + 1) (i + 1) = 0 then none else backSubstitute i (clearAbove (i + 1) matrix)

def gaussianEliminationAugmented (size : ℕ) (matrix : ℕ → ℕ → F) : Option (List F) := do
  let eliminated ← eliminate size (size - 1) 0 matrix
  let diagonal ← backSubstitute (size - 1) eliminated
  (List.range size).mapM fun i => do
    let pivotInv ← inverse (diagonal i i)
    return diagonal i size * pivotInv

/-- The powers of the node `j`, then the value there. -/
def vandermonde (evals : List F) : ℕ → ℕ → F := fun j k =>
  if k < evals.length then (j : F) ^ k else evals.getD j 0

def gaussianEliminationVandermonde (evals : List F) : Option (List F) :=
  gaussianEliminationAugmented evals.length (vandermonde evals)

def fromEvals (evals : List F) : Option (UnivariatePoly F) := do
  let coefficients ← gaussianEliminationVandermonde evals
  return ⟨coefficients⟩

/-- `evals` at `0, 2, 3, ...`; the value at one makes up the hint. -/
def fromEvalsAndHint (hint : F) : List F → Option (UnivariatePoly F)
  | [] => none
  | evalAt0 :: evals => fromEvals (evalAt0 :: (hint - evalAt0) :: evals)

/-- The last row reads the leading coefficient. -/
def toomMatrix (evals : List F) : ℕ → ℕ → F := fun j k =>
  if j + 1 < evals.length then vandermonde evals j k
  else if k < evals.length then (if k + 1 = evals.length then 1 else 0)
  else evals.getD j 0

def fromEvalsToom (evals : List F) : Option (UnivariatePoly F) :=
  if evals = [] then none
  else do
    let coefficients ← gaussianEliminationAugmented evals.length (toomMatrix evals)
    return ⟨coefficients⟩

end UnivariatePoly

end Constructors

/-! ## Coefficient lists -/

theorem coeff_ofCoefficients (cs : List F) (k : ℕ) : (ofCoefficients cs).coeff k = cs.getD k 0 := by
  induction cs generalizing k with
  | nil => simp [ofCoefficients]
  | cons c cs ih =>
      rw [ofCoefficients, coeff_add]
      cases k with
      | zero => simp
      | succ k => rw [coeff_C_succ, zero_add, coeff_X_mul, ih, List.getD_cons_succ]

theorem degree_ofCoefficients_lt (cs : List F) : (ofCoefficients cs).degree < cs.length :=
  (degree_lt_iff_coeff_zero _ _).mpr fun k beyond => by
    rw [coeff_ofCoefficients, List.getD_eq_default _ _ beyond]

/-- A polynomial has one coefficient list of each length. -/
theorem ofCoefficients_inj {cs ds : List F} (length : cs.length = ds.length)
    (same : ofCoefficients cs = ofCoefficients ds) : cs = ds := by
  refine List.ext_getElem length fun k inside inside' => ?_
  have entry := congrArg (coeff · k) same
  rwa [coeff_ofCoefficients, coeff_ofCoefficients, List.getD_eq_getElem _ _ inside,
    List.getD_eq_getElem _ _ inside'] at entry

theorem ofCoefficients_range (p : F[X]) {n : ℕ} (degree : p.degree < n) :
    ofCoefficients ((List.range n).map p.coeff) = p := by
  ext k
  rw [coeff_ofCoefficients]
  rcases Nat.lt_or_ge k n with low | high
  · rw [List.getD_eq_getElem _ _ (by simpa using low), List.getElem_map, List.getElem_range]
  · rw [List.getD_eq_default _ _ (by simpa using high), (degree_lt_iff_coeff_zero _ _).mp degree k high]

/-! ## What a constructor returns -/

/-- The only polynomial of its length through the points. -/
structure UnivariatePoly.Through (p : UnivariatePoly F) (points : List (F × F)) : Prop where
  length : p.coefficients.length = points.length
  value : ∀ point ∈ points, p.evaluate point.1 = point.2
  unique : ∀ q : F[X], q.degree < points.length → (∀ point ∈ points, q.eval point.1 = point.2) → q = p.polynomial

/-- Values at distinct nodes determine a polynomial. -/
theorem eq_of_eval_points [DecidableEq F] {points : List (F × F)} (distinct : (points.map Prod.fst).Nodup) {p q : F[X]}
    (degreeP : p.degree < points.length) (degreeQ : q.degree < points.length)
    (same : ∀ point ∈ points, p.eval point.1 = q.eval point.1) : p = q := by
  have count : (points.map Prod.fst).toFinset.card = points.length := by
    rw [List.toFinset_card_of_nodup distinct, List.length_map]
  refine eq_of_degrees_lt_of_eval_finset_eq (points.map Prod.fst).toFinset (by rwa [count]) (by rwa [count]) ?_
  intro x member
  obtain ⟨point, inside, rfl⟩ := List.mem_map.mp (List.mem_toFinset.mp member)
  exact same point inside

/-- It is enough to have the values. -/
theorem UnivariatePoly.Through.of_values [DecidableEq F] {p : UnivariatePoly F} {points : List (F × F)}
    (distinct : (points.map Prod.fst).Nodup) (length : p.coefficients.length = points.length)
    (value : ∀ point ∈ points, p.evaluate point.1 = point.2) : p.Through points where
  length := length
  value := value
  unique q degree values := by
    refine eq_of_eval_points distinct degree ?_ fun point member => ?_
    · rw [← length]
      exact degree_ofCoefficients_lt _
    · rw [values point member, ← p.evaluate_eq_eval, value point member]

/-- Two constructors return the same polynomial through the same points. -/
theorem UnivariatePoly.Through.eq {p q : UnivariatePoly F} {points : List (F × F)} (through : p.Through points)
    (through' : q.Through points) : p = q := by
  have same : q.polynomial = p.polynomial := by
    refine through.unique _ ?_ fun point member => ?_
    · rw [← through'.length]
      exact degree_ofCoefficients_lt _
    · rw [← q.evaluate_eq_eval, through'.value point member]
  have coefficients := ofCoefficients_inj (through.length.trans through'.length.symm) same.symm
  cases p
  cases q
  exact congrArg _ coefficients

/-! ## The Lagrange constructor -/

namespace UnivariatePoly

/-- Coefficient lists add up to the sum of their polynomials. -/
theorem ofCoefficients_zipWith (c : F) {as bs : List F} (length : as.length = bs.length) :
    ofCoefficients (List.zipWith (fun a b => a + c * b) as bs) = ofCoefficients as + C c * ofCoefficients bs := by
  ext k
  rw [coeff_add, coeff_C_mul, coeff_ofCoefficients, coeff_ofCoefficients, coeff_ofCoefficients]
  rcases Nat.lt_or_ge k as.length with low | high
  · rw [List.getD_eq_getElem _ _ (by rw [List.length_zipWith, ← length, min_self]; exact low),
      List.getD_eq_getElem _ _ low, List.getD_eq_getElem _ _ (length ▸ low), List.getElem_zipWith]
  · rw [List.getD_eq_default _ _ (by rw [List.length_zipWith, ← length, min_self]; exact high),
      List.getD_eq_default _ _ high, List.getD_eq_default _ _ (length ▸ high), mul_zero, add_zero]

theorem ofCoefficients_map_mul (c : F) (cs : List F) :
    ofCoefficients (cs.map (· * c)) = ofCoefficients cs * C c := by
  ext k
  rw [coeff_mul_C, coeff_ofCoefficients, coeff_ofCoefficients]
  simp only [List.getD_eq_getElem?_getD, List.getElem?_map]
  cases cs[k]? <;> simp

theorem ofCoefficients_append_zero (cs : List F) : ofCoefficients (cs ++ [0]) = ofCoefficients cs := by
  induction cs with
  | nil => simp [ofCoefficients]
  | cons c cs ih => rw [List.cons_append, ofCoefficients, ih, ofCoefficients]

variable [DecidableEq F]

theorem basisStep_spec {xj xm : F} (distinct : xj ≠ xm) (basis : List F) :
    ∃ next, basisStep xj xm basis = some next ∧ next.length = basis.length + 1 ∧
      ofCoefficients next = ofCoefficients basis * (X - C xm) * C (xj - xm)⁻¹ := by
  refine ⟨_, by rw [basisStep, inverse_of_ne (sub_ne_zero.mpr distinct)]; rfl, by simp, ?_⟩
  have shifted : List.zipWith (· + ·) (0 :: basis) (basis.map (· * -xm) ++ [0]) =
      List.zipWith (fun a b => a + 1 * b) (0 :: basis) (basis.map (· * -xm) ++ [0]) := by simp only [one_mul]
  rw [ofCoefficients_map_mul, shifted, ofCoefficients_zipWith 1 (by simp), ofCoefficients_append_zero,
    ofCoefficients_map_mul, ofCoefficients]
  simp only [map_zero, map_one, map_neg]
  ring

/-- The factors of the nodes other than `j`, at a point. -/
def basisValue (xj : F) (j : ℕ) (nodes : List ((F × F) × ℕ)) (x : F) : F :=
  (nodes.map fun node => if node.2 = j then 1 else (x - node.1.1) * (xj - node.1.1)⁻¹).prod

theorem lagrangeBasis_foldlM {xj : F} {j : ℕ} {nodes : List ((F × F) × ℕ)}
    (distinct : ∀ node ∈ nodes, node.2 ≠ j → xj ≠ node.1.1) (basis : List F) :
    ∃ next, nodes.foldlM (basisUpdate xj j) basis = some next ∧
      next.length = basis.length + nodes.countP (·.2 ≠ j) ∧
      ∀ x, (ofCoefficients next).eval x = (ofCoefficients basis).eval x * basisValue xj j nodes x := by
  induction nodes generalizing basis with
  | nil => exact ⟨basis, rfl, rfl, fun x => (mul_one _).symm⟩
  | cons node nodes ih =>
      have rest := fun node member => distinct node (List.mem_cons_of_mem _ member)
      by_cases own : node.2 = j
      · obtain ⟨next, run, length, value⟩ := ih rest basis
        refine ⟨next, ?_, ?_, fun x => ?_⟩
        · rw [List.foldlM_cons, basisUpdate, if_pos own]
          exact run
        · rw [length, List.countP_cons_of_neg (by simpa using own)]
        · rw [value, basisValue, basisValue, List.map_cons, List.prod_cons, if_pos own, one_mul]
      · obtain ⟨step, stepped, stepLength, stepValue⟩ := basisStep_spec (distinct _ List.mem_cons_self own) basis
        obtain ⟨next, run, length, value⟩ := ih rest step
        refine ⟨next, ?_, ?_, fun x => ?_⟩
        · rw [List.foldlM_cons, basisUpdate, if_neg own, stepped]
          exact run
        · rw [length, stepLength, List.countP_cons_of_pos (by simpa using own)]
          omega
        · rw [value, stepValue, eval_mul, eval_mul, eval_sub, eval_X, eval_C, eval_C, basisValue, basisValue,
            List.map_cons, List.prod_cons, if_neg own]
          ring

variable {points : List (F × F)}

omit [DecidableEq F] in
theorem mem_zipIdx_points {node : (F × F) × ℕ} (member : node ∈ points.zipIdx) :
    node.2 < points.length ∧ points.getD node.2 (0, 0) = node.1 := by
  obtain ⟨point, m⟩ := node
  obtain ⟨-, inside, same⟩ := List.mem_zipIdx member
  simp only [Nat.zero_add, Nat.sub_zero] at inside same
  exact ⟨inside, (List.getD_eq_getElem _ _ inside).trans same.symm⟩

omit [DecidableEq F] in
/-- Distinct positions have distinct nodes. -/
theorem nodes_ne (distinct : (points.map Prod.fst).Nodup) {j m : ℕ} (insideJ : j < points.length)
    (insideM : m < points.length) (other : m ≠ j) : (points.getD j (0, 0)).1 ≠ (points.getD m (0, 0)).1 := by
  intro same
  rw [List.getD_eq_getElem _ _ insideJ, List.getD_eq_getElem _ _ insideM] at same
  refine other ((@List.Nodup.getElem_inj_iff F _ distinct m (by simpa using insideM) j
    (by simpa using insideJ)).mp ?_)
  rw [List.getElem_map, List.getElem_map, same]

/-- The basis polynomial of a node: one there, zero at the other nodes. -/
theorem lagrangeBasis_spec (distinct : (points.map Prod.fst).Nodup) {j : ℕ} (inside : j < points.length) :
    ∃ basis, lagrangeBasis points j = some basis ∧ basis.length = points.length ∧
      ∀ i < points.length, (ofCoefficients basis).eval (points.getD i (0, 0)).1 = if i = j then 1 else 0 := by
  have apart : ∀ node ∈ points.zipIdx, node.2 ≠ j → (points.getD j (0, 0)).1 ≠ node.1.1 := fun node member other => by
    obtain ⟨position, same⟩ := mem_zipIdx_points member
    rw [← same]
    exact nodes_ne distinct inside position other
  obtain ⟨basis, run, length, value⟩ := lagrangeBasis_foldlM apart [1]
  refine ⟨basis, run, ?_, fun i inside' => ?_⟩
  · have all := List.length_eq_countP_add_countP (l := points.zipIdx) (fun node => decide (node.2 ≠ j))
    have own : points.zipIdx.countP (fun node => decide ¬decide (node.2 ≠ j) = true) = 1 := by
      have mapped : points.zipIdx.countP (fun node => decide ¬decide (node.2 ≠ j) = true) =
          (points.zipIdx.map Prod.snd).count j := by
        rw [List.count, List.countP_map]
        exact List.countP_congr fun node _ => by simp
      rw [mapped, List.zipIdx_map_snd, List.count_range']
      simp [inside]
    rw [List.length_zipIdx, own] at all
    rw [length, List.length_singleton, all, Nat.add_comm]
  · rw [value, ofCoefficients, ofCoefficients, mul_zero, add_zero, eval_C, one_mul, basisValue]
    split_ifs with same
    · subst same
      refine List.prod_eq_one fun factor member => ?_
      obtain ⟨node, node_mem, rfl⟩ := List.mem_map.mp member
      by_cases own : node.2 = i
      · exact if_pos own
      · refine (if_neg own).trans (mul_inv_cancel₀ (sub_ne_zero.mpr (apart node node_mem own)))
    · refine List.prod_eq_zero (List.mem_map.mpr ⟨(points.getD i (0, 0), i), ?_, ?_⟩)
      · rw [List.getD_eq_getElem _ _ inside', List.mk_mem_zipIdx_iff_getElem?]
        exact List.getElem?_eq_getElem inside'
      · exact (if_neg same).trans (by rw [sub_self, zero_mul])

theorem addTerm_foldlM (distinct : (points.map Prod.fst).Nodup) {nodes : List ((F × F) × ℕ)}
    (inside : ∀ node ∈ nodes, node.2 < points.length) {result : List F} (length : result.length = points.length) :
    ∃ next, nodes.foldlM (addTerm points) result = some next ∧ next.length = points.length ∧
      ∀ i < points.length, (ofCoefficients next).eval (points.getD i (0, 0)).1 =
        (ofCoefficients result).eval (points.getD i (0, 0)).1 +
          (nodes.map fun node => node.1.2 * if i = node.2 then 1 else 0).sum := by
  induction nodes generalizing result with
  | nil => exact ⟨result, rfl, length, fun i _ => by simp⟩
  | cons node nodes ih =>
      obtain ⟨basis, found, basisLength, basisEval⟩ := lagrangeBasis_spec distinct (inside node List.mem_cons_self)
      have added : addTerm points result node =
          some (List.zipWith (fun r b => r + node.1.2 * b) result basis) := by rw [addTerm, found]; rfl
      obtain ⟨next, run, nextLength, value⟩ := ih (fun node member => inside node (List.mem_cons_of_mem _ member))
        (by rw [List.length_zipWith, length, basisLength, min_self] :
          (List.zipWith (fun r b => r + node.1.2 * b) result basis).length = points.length)
      refine ⟨next, ?_, nextLength, fun i small => ?_⟩
      · rw [List.foldlM_cons, added]
        exact run
      · rw [value i small, ofCoefficients_zipWith _ (length.trans basisLength.symm), eval_add, eval_mul, eval_C,
          basisEval i small, List.map_cons, List.sum_cons]
        ring

omit [DecidableEq F] in
/-- One term of the sum is the value at the node. -/
theorem sum_terms {i : ℕ} (inside : i < points.length) :
    (points.zipIdx.map fun node => node.1.2 * if i = node.2 then (1 : F) else 0).sum = (points.getD i (0, 0)).2 := by
  have each : (points.zipIdx.map fun node => node.1.2 * if i = node.2 then (1 : F) else 0) =
      (List.range points.length).map fun m => if i = m then (points.getD m (0, 0)).2 else 0 := by
    refine List.ext_getElem (by simp) fun m here _ => ?_
    have small : m < points.length := by simpa using here
    simp only [List.getElem_map, List.getElem_zipIdx, List.getElem_range, Nat.zero_add]
    rw [List.getD_eq_getElem _ _ small]
    split_ifs <;> simp
  rw [each]
  change ∑ m ∈ Finset.range points.length, (if i = m then (points.getD m (0, 0)).2 else 0) = _
  rw [Finset.sum_ite_eq, if_pos (Finset.mem_range.mpr inside)]

theorem interpolate_through (distinct : (points.map Prod.fst).Nodup) (nonempty : points ≠ []) :
    ∃ p, interpolate points = some p ∧ p.Through points := by
  have inside : ∀ node ∈ points.zipIdx, node.2 < points.length := fun node member => (mem_zipIdx_points member).1
  obtain ⟨result, run, length, value⟩ := addTerm_foldlM distinct inside (List.length_replicate (a := (0 : F)))
  refine ⟨⟨result⟩, by rw [interpolate, if_neg nonempty, run]; rfl, .of_values distinct length ?_⟩
  intro point member
  obtain ⟨i, inside, rfl⟩ := List.getElem_of_mem member
  have zero : ofCoefficients (List.replicate points.length (0 : F)) = 0 := by
    ext k
    rw [coeff_ofCoefficients, coeff_zero]
    rw [List.getD_eq_getElem?_getD, List.getElem?_replicate]
    split_ifs <;> rfl
  have here := value i inside
  rw [zero, eval_zero, zero_add, sum_terms inside, List.getD_eq_getElem _ _ inside] at here
  rwa [evaluate_eq_eval]

end UnivariatePoly

end

end JoltWasm
