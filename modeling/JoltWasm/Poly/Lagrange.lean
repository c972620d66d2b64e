import Mathlib.Algebra.Group.ForwardDiff
import Mathlib.Data.Nat.Factorial.BigOperators
import JoltWasm.Poly.Gaussian

/-!
# Interpolation over consecutive integers

Lagrange weights at a point, on a node or off the nodes; evaluation by the barycentric formula; and the
coefficients by divided differences.
-/

namespace JoltWasm

open Polynomial Lib Finset

variable {F : Type} [Field F]

/-! ## The constructors -/

section Constructors

variable [DecidableEq F]

/-- The inverses of the entries, by one inversion: products of the entries on the left, and on the right. -/
def batchInverseLoop (invTotal : F) : F → List F → List F × F
  | _, [] => ([], 1)
  | left, d :: rest =>
      let (inverses, right) := batchInverseLoop invTotal (left * d) rest
      (left * right * invTotal :: inverses, right * d)

def batchInverse (entries : List F) : Option (List F) := do
  let invTotal ← inverse (entries.foldl (· * ·) 1)
  return (batchInverseLoop invTotal 1 entries).1

/-- The products of the differences of `i` from the other positions. -/
def differenceProduct (domainSize i : ℕ) : F :=
  (List.range domainSize).foldl (fun w j => if i ≠ j then w * (((i : ℤ) - j : ℤ) : F) else w) 1

def lagrangeEvals (domainStart : ℤ) (domainSize : ℕ) (r : F) : Option (List F) :=
  if domainSize = 0 then none
  else do
    let nodes ← (List.range domainSize).mapM fun k : ℕ => (checkedI64 (domainStart + k)).map (Int.cast : ℤ → F)
    match nodes.findIdx? fun node => r = node with
    | some i => some ((List.replicate domainSize 0).set i 1)
    | none => do
        let diffs := nodes.map fun x => r - x
        let fullProduct := diffs.prod
        let weights ← (List.range domainSize).mapM fun i => inverse (differenceProduct domainSize i)
        (List.range domainSize).mapM fun i => do
          let diffInv ← inverse (diffs.getD i 0)
          return fullProduct * weights.getD i 0 * diffInv

namespace LagrangePolynomial

/-- A value cast to 64 bits. -/
def asI64 (v : ℤ) : ℤ := v.bmod (2 ^ 64)

/-- `LagrangeHelper::den_row_i64`. -/
def denRowI64 (n : ℕ) : List ℤ := (List.range n).map fun i =>
  let value : ℤ := (i.factorial : ℤ) * ((n - 1 - i).factorial : ℤ)
  asI64 (if (n - 1 - i) % 2 = 1 then -value else value)

def startI64 (n : ℕ) : ℤ := -((n - 1) / 2 : ℕ)

def distanceLoop : ℕ → ℕ → F → Option ℕ → List F × Option ℕ
  | 0, _, _, hit => ([], hit)
  | n + 1, i, base, hit =>
      let (dists, hit) := distanceLoop n (i + 1) (base - 1) (if base = 0 then some i else hit)
      (base :: dists, hit)

/-- The distances of `r` from the nodes, and the node that it is. -/
def distances (n : ℕ) (r : F) : List F × Option ℕ := distanceLoop n 0 (r - (startI64 n : F)) none

def invDenom (n : ℕ) : Option (List F) := batchInverse ((denRowI64 n).map Int.cast)

/-- The barycentric terms and their sum. -/
def baryTermsFromDists (dists invDenom : List F) : Option (List F × F) := do
  let inverses ← batchInverse dists
  let terms := List.zipWith (· * ·) invDenom inverses
  return (terms, terms.sum)

def evals (n : ℕ) (r : F) : Option (List F) :=
  match distances n r with
  | (_, some i) => some ((List.replicate n 0).set i 1)
  | (dists, none) => do
      let invDenom ← invDenom n
      let (terms, sum) ← baryTermsFromDists dists invDenom
      let invSum ← inverse sum
      return terms.map (· * invSum)

def evaluate (values : List F) (r : F) : Option F :=
  match distances values.length r with
  | (_, some i) => some (values.getD i 0)
  | (dists, none) => do
      let invDenom ← invDenom values.length
      let (terms, sum) ← baryTermsFromDists dists invDenom
      let invSum ← inverse sum
      return (List.zipWith (· * ·) values terms).sum * invSum

/-- The divided differences at the first node. -/
def newtonCoefficients : List F → List F → List F
  | [], dd => [dd.headD 0]
  | inv :: inverses, dd =>
      dd.headD 0 :: newtonCoefficients inverses (List.zipWith (fun low high => (high - low) * inv) dd dd.tail)

/-- Add the Newton basis polynomials, the basis growing by one node after each but the last. -/
def expandNewton (start : ℤ) : ℕ → List F → List F → List F → List F
  | _, _, [], coeffs => coeffs
  | k, basis, scale :: newton, coeffs =>
      let coeffs := coeffs.zipIdx.map fun (c, j) => c + scale * basis.getD j 0
      let node : F := ((start + k : ℤ) : F)
      expandNewton start (k + 1) (List.zipWith (· - ·) (0 :: basis) (basis.map (· * node) ++ [0])) newton coeffs

def interpolateCoeffs (values : List F) : Option (UnivariatePoly F) := do
  let degree := values.length - 1
  let inverses ← batchInverse ((List.range degree).map fun m => ((m + 1 : ℕ) : F))
  let newton := newtonCoefficients inverses values
  return ⟨expandNewton (startI64 values.length) 0 [1] newton (List.replicate values.length 0)⟩

end LagrangePolynomial

/-! ## One inversion for all -/

omit [DecidableEq F] in
theorem batchInverseLoop_eq {invTotal left : F} {entries : List F} (nonzero : ∀ d ∈ entries, d ≠ 0) (start : left ≠ 0)
    (total : invTotal = (left * entries.prod)⁻¹) :
    batchInverseLoop invTotal left entries = (entries.map (·⁻¹), entries.prod) := by
  induction entries generalizing left with
  | nil => rfl
  | cons d rest ih =>
      have here := nonzero d List.mem_cons_self
      have rest_ := List.prod_ne_zero fun zero => nonzero 0 (List.mem_cons_of_mem _ zero) rfl
      have next := ih (fun x member => nonzero x (List.mem_cons_of_mem _ member)) (mul_ne_zero start here)
        (by rw [total, List.prod_cons, mul_assoc])
      rw [batchInverseLoop, next, total, List.prod_cons, List.map_cons]
      refine Prod.ext (congrArg₂ List.cons ?_ rfl) (mul_comm _ _)
      field_simp

omit [DecidableEq F] in
theorem foldl_mul (entries : List F) (a : F) : entries.foldl (· * ·) a = a * entries.prod := by
  induction entries generalizing a with
  | nil => exact (mul_one a).symm
  | cons d rest ih => rw [List.foldl_cons, ih, List.prod_cons, mul_assoc]

theorem batchInverse_eq {entries : List F} (nonzero : ∀ d ∈ entries, d ≠ 0) :
    batchInverse entries = some (entries.map (·⁻¹)) := by
  have product : entries.prod ≠ 0 := List.prod_ne_zero fun zero => nonzero 0 zero rfl
  rw [batchInverse, foldl_mul, one_mul, inverse_of_ne product]
  change some (batchInverseLoop entries.prod⁻¹ 1 entries).1 = _
  rw [batchInverseLoop_eq nonzero one_ne_zero (by rw [one_mul])]

end Constructors

/-! ## Consecutive integers -/

/-- The `k`-th of the integers from `start` on. -/
def node (F : Type) [Field F] (start : ℤ) (k : ℕ) : F := ((start + k : ℤ) : F)

variable {start : ℤ} {n : ℕ}

theorem node_sub (i j : ℕ) : node F start i - node F start j = (i : F) - j := by
  simp only [node, Int.cast_add, Int.cast_natCast]
  ring

theorem UnivariatePoly.DistinctNodes.node_injOn (distinct : DistinctNodes F n) :
    Set.InjOn (node F start) (range n : Finset ℕ) := fun i inside j inside' same => by
  refine distinct i (mem_range.mp inside) j (mem_range.mp inside') ?_
  have zero := sub_eq_zero.mpr same
  rwa [node_sub, sub_eq_zero] at zero

theorem UnivariatePoly.DistinctNodes.cast_ne_zero (distinct : DistinctNodes F n) {k : ℕ} (positive : 0 < k)
    (small : k < n) : (k : F) ≠ 0 := fun zero => by
  have same := distinct k small 0 (by omega) (by rw [zero, Nat.cast_zero])
  omega

theorem UnivariatePoly.DistinctNodes.factorial_ne_zero (distinct : DistinctNodes F n) {k : ℕ} (small : k < n) :
    (k.factorial : F) ≠ 0 := by
  induction k with
  | zero => rw [Nat.factorial_zero, Nat.cast_one]; exact one_ne_zero
  | succ k ih =>
      rw [Nat.factorial_succ, Nat.cast_mul]
      exact mul_ne_zero (distinct.cast_ne_zero (Nat.succ_pos k) small) (ih (by omega))

open UnivariatePoly (DistinctNodes)

/-- The weight of node `i` at `r`. -/
noncomputable def lagrangeWeight (start : ℤ) (n : ℕ) (r : F) (i : ℕ) : F :=
  (Lagrange.basis (range n) (node F start) i).eval r

/-- The weights give the value of a polynomial. -/
theorem sum_lagrangeWeight (start : ℤ) (distinct : DistinctNodes F n) {p : F[X]} (degree : p.degree < n) (r : F) :
    ∑ i ∈ range n, p.eval (node F start i) * lagrangeWeight start n r i = p.eval r := by
  have interpolated := Lagrange.eq_interpolate distinct.node_injOn (f := p) (by rwa [card_range])
    (s := range n) (v := node F start)
  have value := congrArg (eval r) interpolated
  rw [Lagrange.interpolate_apply, eval_finsetSum] at value
  rw [value]
  exact sum_congr rfl fun i _ => by rw [eval_mul, eval_C, lagrangeWeight]

theorem lagrangeWeight_node (distinct : DistinctNodes F n) {i k : ℕ} (insideK : k < n) :
    lagrangeWeight start n (node F start k) i = if i = k then 1 else 0 := by
  rw [lagrangeWeight]
  split_ifs with same
  · rw [same, Lagrange.eval_basis_self distinct.node_injOn (mem_range.mpr insideK)]
  · exact Lagrange.eval_basis_of_ne same (mem_range.mpr insideK)

theorem lagrangeWeight_off {r : F} (off : ∀ i ∈ range n, r ≠ node F start i) {i : ℕ} (inside : i < n) :
    lagrangeWeight start n r i = (∏ k ∈ range n, (r - node F start k)) *
      (Lagrange.nodalWeight (range n) (node F start) i * (r - node F start i)⁻¹) := by
  rw [lagrangeWeight, Lagrange.eval_basis_not_at_node (mem_range.mpr inside) (off i (mem_range.mpr inside)),
    Lagrange.eval_nodal]

/-- A node's weights are an indicator. -/
theorem weights_node (distinct : DistinctNodes F n) {k : ℕ} (inside : k < n) :
    (List.replicate n (0 : F)).set k 1 = (List.range n).map (lagrangeWeight start n (node F start k)) := by
  refine List.ext_getElem (by simp) fun i _ _ => ?_
  rw [List.getElem_set, List.getElem_map, List.getElem_range, lagrangeWeight_node distinct inside,
    List.getElem_replicate]
  exact if_congr eq_comm rfl rfl

theorem differenceProduct_eq {i : ℕ} (n : ℕ) :
    differenceProduct n i = ∏ j ∈ (range n).erase i, ((i : F) - j) := by
  have loop (l : List ℕ) (a : F) : l.foldl (fun w j => if i ≠ j then w * (((i : ℤ) - j : ℤ) : F) else w) a =
      a * (l.map fun j => if i ≠ j then (i : F) - j else 1).prod := by
    induction l generalizing a with
    | nil => exact (mul_one a).symm
    | cons j l ih =>
        rw [List.foldl_cons, ih, List.map_cons, List.prod_cons]
        split_ifs
        · rw [Int.cast_sub, Int.cast_natCast, Int.cast_natCast, mul_assoc]
        · rw [one_mul]
  rw [differenceProduct, loop, one_mul]
  change ∏ j ∈ range n, (if i ≠ j then (i : F) - j else 1) = _
  rw [← prod_filter]
  refine prod_congr (ext fun j => ?_) fun _ _ => rfl
  rw [mem_filter, mem_erase, ne_comm, and_comm]

theorem nodalWeight_eq (i : ℕ) :
    Lagrange.nodalWeight (range n) (node F start) i = (differenceProduct n i : F)⁻¹ := by
  rw [Lagrange.nodalWeight, differenceProduct_eq, prod_inv_distrib]
  exact congrArg _ (prod_congr rfl fun j _ => node_sub i j)

theorem differenceProduct_ne_zero (distinct : DistinctNodes F n) {i : ℕ} (inside : i < n) :
    (differenceProduct n i : F) ≠ 0 := by
  rw [differenceProduct_eq, prod_ne_zero_iff]
  intro j member zero
  obtain ⟨other, small⟩ := mem_erase.mp member
  exact other (distinct i inside j (mem_range.mp small) (sub_eq_zero.mp zero)).symm

/-! ## Weights at a point -/

/-- The nodes are 64-bit integers. -/
def FitsI64 (start : ℤ) (n : ℕ) : Prop := -2 ^ 63 ≤ start ∧ start + n ≤ 2 ^ 63

theorem FitsI64.checkedI64 (fits : FitsI64 start n) {k : ℕ} (inside : k < n) :
    checkedI64 (start + k) = some (start + k) := by
  obtain ⟨low, high⟩ := fits
  rw [JoltWasm.checkedI64, if_pos (by omega)]

theorem mem_nodes {r : F} : r ∈ (List.range n).map (node F start) ↔ ∃ k < n, r = node F start k := by
  rw [List.mem_map]
  exact ⟨fun ⟨k, member, same⟩ => ⟨k, List.mem_range.mp member, same.symm⟩,
    fun ⟨k, inside, same⟩ => ⟨k, List.mem_range.mpr inside, same.symm⟩⟩

theorem lagrangeEvals_eq [DecidableEq F] (distinct : DistinctNodes F n) (positive : 0 < n) (fits : FitsI64 start n)
    (r : F) : lagrangeEvals start n r = some ((List.range n).map (lagrangeWeight start n r)) := by
  have nodes : (List.range n).mapM (fun k : ℕ => (checkedI64 (start + k)).map (Int.cast : ℤ → F)) =
      some ((List.range n).map (node F start)) := UnivariatePoly.mapM_some fun k member => by
    rw [fits.checkedI64 (List.mem_range.mp member)]
    rfl
  rw [lagrangeEvals, if_neg (by omega), nodes]
  change (match ((List.range n).map (node F start)).findIdx? fun x => decide (r = x) with
    | some i => _
    | none => _) = _
  cases found : ((List.range n).map (node F start)).findIdx? fun x => decide (r = x) with
  | some k =>
      obtain ⟨inside, here, -⟩ := List.findIdx?_eq_some_iff_getElem.mp found
      rw [List.length_map, List.length_range] at inside
      have own : r = node F start k := by simpa using here
      simp only
      rw [own, weights_node distinct inside]
  | none =>
      have off : ∀ i ∈ range n, r ≠ node F start i := fun i member same => by
        have none_ := List.findIdx?_eq_none_iff.mp found _ (mem_nodes.mpr ⟨i, mem_range.mp member, same⟩)
        simp [same] at none_
      have weights : (List.range n).mapM (fun i => inverse (differenceProduct n i : F)) =
          some ((List.range n).map fun i => (differenceProduct n i : F)⁻¹) := UnivariatePoly.mapM_some fun i member =>
        inverse_of_ne (differenceProduct_ne_zero distinct (List.mem_range.mp member))
      simp only [weights]
      refine UnivariatePoly.mapM_some fun i member => ?_
      have inside := List.mem_range.mp member
      have diff : (((List.range n).map (node F start)).map fun x => r - x).getD i 0 = r - node F start i := by
        rw [List.getD_eq_getElem _ _ (by simpa using inside), List.getElem_map, List.getElem_map, List.getElem_range]
      have weight : ((List.range n).map fun i => (differenceProduct n i : F)⁻¹).getD i 0 =
          (differenceProduct n i)⁻¹ := by
        rw [List.getD_eq_getElem _ _ (by simpa using inside), List.getElem_map, List.getElem_range]
      have product : (((List.range n).map (node F start)).map fun x => r - x).prod =
          ∏ k ∈ range n, (r - node F start k) := by rw [List.map_map]; rfl
      rw [diff, weight, product, inverse_of_ne (sub_ne_zero.mpr (off i (mem_range.mpr inside))),
        lagrangeWeight_off off inside, nodalWeight_eq]
      exact congrArg some (mul_assoc _ _ _)

/-! ## The barycentric formula -/

namespace LagrangePolynomial

variable [DecidableEq F]

theorem distanceLoop_fst (n i : ℕ) (base : F) (hit : Option ℕ) :
    (distanceLoop n i base hit).1 = (List.range n).map fun k : ℕ => base - k := by
  induction n generalizing i base hit with
  | zero => rfl
  | succ n ih =>
      change base :: (distanceLoop n _ _ _).1 = _
      rw [ih, List.range_succ_eq_map, List.map_cons, List.map_map, Nat.cast_zero, sub_zero]
      refine congrArg _ (List.map_congr_left fun k _ => ?_)
      rw [Function.comp_apply, Nat.cast_succ]
      ring

theorem distanceLoop_miss (n i : ℕ) (base : F) (hit : Option ℕ) (off : ∀ k < n, base - (k : F) ≠ 0) :
    (distanceLoop n i base hit).2 = hit := by
  induction n generalizing i base hit with
  | zero => rfl
  | succ n ih =>
      have first := off 0 (Nat.succ_pos n)
      rw [Nat.cast_zero, sub_zero] at first
      change (distanceLoop n (i + 1) (base - 1) (if base = 0 then some i else hit)).2 = hit
      rw [if_neg first, ih]
      intro k small
      have later := off (k + 1) (by omega)
      rwa [Nat.cast_succ, add_comm, ← sub_sub] at later

theorem distanceLoop_hit (n i : ℕ) (base : F) (hit : Option ℕ) {k : ℕ} (inside : k < n) (here : base - (k : F) = 0)
    (only : ∀ j < n, j ≠ k → base - (j : F) ≠ 0) : (distanceLoop n i base hit).2 = some (i + k) := by
  induction n generalizing i base hit k with
  | zero => cases inside
  | succ n ih =>
      change (distanceLoop n (i + 1) (base - 1) (if base = 0 then some i else hit)).2 = _
      have shift (j : ℕ) : base - 1 - (j : F) = base - ((j + 1 : ℕ) : F) := by
        rw [Nat.cast_succ, add_comm, sub_sub]
      cases k with
      | zero =>
          rw [Nat.cast_zero, sub_zero] at here
          rw [if_pos here, distanceLoop_miss, Nat.add_zero]
          intro j small
          rw [shift]
          exact only _ (by omega) (Nat.succ_ne_zero j)
      | succ k =>
          rw [ih (i + 1) (base - 1) _ (k := k) (by omega) (by rwa [shift]) fun j small other => by
            rw [shift]
            exact only _ (by omega) (by omega)]
          rw [Nat.add_assoc, Nat.add_comm 1 k]

omit [DecidableEq F] in
theorem sub_node (r : F) (k : ℕ) : r - (startI64 n : F) - k = r - node F (startI64 n) k := by
  rw [node, Int.cast_add, Int.cast_natCast, sub_sub]

theorem distances_fst (n : ℕ) (r : F) :
    (distances n r).1 = (List.range n).map fun k => r - node F (startI64 n) k := by
  rw [distances, distanceLoop_fst]
  exact List.map_congr_left fun k _ => sub_node r k

theorem distances_miss {r : F} (off : ∀ i ∈ range n, r ≠ node F (startI64 n) i) : (distances n r).2 = none :=
  distanceLoop_miss n 0 _ none fun k small => by
    rw [sub_node]
    exact sub_ne_zero.mpr (off k (mem_range.mpr small))

theorem distances_hit (distinct : DistinctNodes F n) {k : ℕ} (inside : k < n) :
    (distances n (node F (startI64 n) k)).2 = some k := by
  have hit := distanceLoop_hit n 0 (node F (startI64 n) k - (startI64 n : F)) none inside
    (by rw [sub_node, sub_self]) fun j small other => by
      rw [sub_node, node_sub, sub_ne_zero]
      exact fun same => other (distinct k inside j small same).symm
  rwa [Nat.zero_add] at hit

/-- The denominators fit 64 bits. -/
theorem denRowI64_eq {i : ℕ} (inside : i < n) (small : n ≤ 21) : (denRowI64 n).getD i 0 =
    if (n - 1 - i) % 2 = 1 then -((i.factorial : ℤ) * ((n - 1 - i).factorial : ℤ))
    else (i.factorial : ℤ) * ((n - 1 - i).factorial : ℤ) := by
  have product : i.factorial * (n - 1 - i).factorial ≤ (20).factorial := by
    refine (Nat.le_of_dvd (Nat.factorial_pos _) ?_).trans (Nat.factorial_le (by omega : n - 1 ≤ 20))
    exact Nat.factorial_mul_factorial_dvd_factorial (by omega)
  have bound : ((i.factorial : ℤ) * ((n - 1 - i).factorial : ℤ)) ≤ 2432902008176640000 := by
    exact_mod_cast product.trans (by decide)
  have low : (0 : ℤ) ≤ (i.factorial : ℤ) * ((n - 1 - i).factorial : ℤ) := by positivity
  rw [List.getD_eq_getElem _ _ (by simpa [denRowI64] using inside)]
  simp only [denRowI64, List.getElem_map, List.getElem_range, asI64]
  generalize (i.factorial : ℤ) * ((n - 1 - i).factorial : ℤ) = value at bound low ⊢
  split_ifs
  · exact Int.bmod_eq_of_le_mul_two (by omega) (by omega)
  · exact Int.bmod_eq_of_le_mul_two (by omega) (by omega)

omit [DecidableEq F] in
/-- The product of the differences, with factorials. -/
theorem prod_differences {i : ℕ} (inside : i < n) : ∏ j ∈ (range n).erase i, ((i : F) - j) =
    if (n - 1 - i) % 2 = 1 then -((i.factorial : F) * ((n - 1 - i).factorial : F))
    else (i.factorial : F) * ((n - 1 - i).factorial : F) := by
  obtain ⟨m, rfl⟩ : ∃ m, n = i + 1 + m := Nat.exists_eq_add_of_le inside
  have after : i + 1 + m - 1 - i = m := by omega
  have below : ∏ j ∈ range i, ((i : F) - j) = (i.factorial : F) := by
    rw [← prod_range_reflect, ← prod_range_add_one_eq_factorial, Nat.cast_prod]
    refine prod_congr rfl fun j member => ?_
    have small := mem_range.mp member
    rw [Nat.cast_sub (by omega), Nat.cast_sub (by omega)]
    push_cast
    ring
  have above : ∏ j ∈ range m, ((i : F) - (i + 1 + j : ℕ)) = (-1) ^ m * (m.factorial : F) := by
    rw [← prod_range_add_one_eq_factorial, Nat.cast_prod, ← card_range m, ← prod_const, card_range,
      ← prod_mul_distrib]
    refine prod_congr rfl fun j _ => ?_
    push_cast
    ring
  -- The positions below, the position itself, the positions above.
  have whole : ∏ j ∈ (range (i + 1 + m)).erase i, ((i : F) - j) =
      ∏ j ∈ range (i + 1 + m), if j = i then 1 else (i : F) - j := by
    rw [← prod_erase (range (i + 1 + m)) (f := fun j => if j = i then 1 else (i : F) - j) (a := i) (if_pos rfl)]
    exact prod_congr rfl fun j member => (if_neg (mem_erase.mp member).1).symm
  have lower : ∏ j ∈ range i, (if j = i then 1 else (i : F) - j) = (i.factorial : F) := by
    rw [← below]
    exact prod_congr rfl fun j member => if_neg (mem_range.mp member).ne
  have upper : ∏ j ∈ range m, (if i + 1 + j = i then 1 else (i : F) - (i + 1 + j : ℕ)) =
      (-1) ^ m * (m.factorial : F) := by
    rw [← above]
    exact prod_congr rfl fun j _ => if_neg (by omega)
  rw [whole, prod_range_add, prod_range_succ, if_pos rfl, mul_one, lower, upper, after]
  split_ifs with odd
  · rw [Odd.neg_one_pow (Nat.odd_iff.mpr odd)]
    ring
  · rw [Even.neg_one_pow (Nat.even_iff.mpr (by omega))]
    ring

omit [DecidableEq F] in
theorem denRowI64_cast (small : n ≤ 21) :
    (denRowI64 n).map (Int.cast : ℤ → F) = (List.range n).map fun i => differenceProduct n i := by
  refine List.ext_getElem (by simp [denRowI64]) fun i here _ => ?_
  have inside : i < n := by simpa [denRowI64] using here
  have entry := denRowI64_eq inside small
  rw [List.getD_eq_getElem _ _ (by simpa [denRowI64] using inside)] at entry
  rw [List.getElem_map, List.getElem_map, List.getElem_range, entry, differenceProduct_eq, prod_differences inside]
  split_ifs <;> push_cast <;> ring

theorem invDenom_eq (distinct : DistinctNodes F n) (small : n ≤ 21) :
    invDenom n = some ((List.range n).map fun i => (differenceProduct n i : F)⁻¹) := by
  rw [invDenom, denRowI64_cast small, batchInverse_eq fun d member => by
    obtain ⟨i, inside, rfl⟩ := List.mem_map.mp member
    exact differenceProduct_ne_zero distinct (List.mem_range.mp inside), List.map_map]
  rfl

/-- Off the nodes a term is the weight without the product of all distances. -/
def term (n : ℕ) (r : F) (i : ℕ) : F := (differenceProduct n i)⁻¹ * (r - node F (startI64 n) i)⁻¹

theorem baryTermsFromDists_eq {r : F} (off : ∀ i ∈ range n, r ≠ node F (startI64 n) i) :
    baryTermsFromDists (distances n r).1 ((List.range n).map fun i => (differenceProduct n i : F)⁻¹) =
      some ((List.range n).map (term n r), ∑ i ∈ range n, term n r i) := by
  have inverses : batchInverse (distances n r).1 = some ((distances n r).1.map (·⁻¹)) := batchInverse_eq fun d member => by
    rw [distances_fst] at member
    obtain ⟨i, inside, rfl⟩ := List.mem_map.mp member
    exact sub_ne_zero.mpr (off i (mem_range.mpr (List.mem_range.mp inside)))
  have terms : List.zipWith (· * ·) ((List.range n).map fun i => (differenceProduct n i : F)⁻¹)
      ((distances n r).1.map (·⁻¹)) = (List.range n).map (term n r) := by
    rw [distances_fst, List.map_map, List.zipWith_map, List.zipWith_self]
    rfl
  rw [baryTermsFromDists, inverses]
  change some (_, _) = _
  rw [terms]
  rfl

omit [DecidableEq F] in
theorem sum_term_mul (distinct : DistinctNodes F n) (positive : 0 < n) {r : F}
    (off : ∀ i ∈ range n, r ≠ node F (startI64 n) i) :
    (∏ k ∈ range n, (r - node F (startI64 n) k)) * ∑ i ∈ range n, term n r i = 1 := by
  have whole := sum_lagrangeWeight (startI64 n) distinct (p := 1) (by rw [degree_one]; exact_mod_cast positive) r
  simp only [eval_one, one_mul] at whole
  rw [mul_sum, ← whole]
  refine sum_congr rfl fun i member => ?_
  rw [lagrangeWeight_off off (mem_range.mp member), nodalWeight_eq, term]

omit [DecidableEq F] in
/-- Divided by the sum of the terms, a term is the weight. -/
theorem term_mul_inv (distinct : DistinctNodes F n) {r : F} (off : ∀ i ∈ range n, r ≠ node F (startI64 n) i)
    {i : ℕ} (inside : i < n) :
    term n r i * (∑ i ∈ range n, term n r i)⁻¹ = lagrangeWeight (startI64 n) n r i := by
  have one := sum_term_mul distinct (Nat.zero_lt_of_lt inside) off
  rw [← eq_inv_of_mul_eq_one_left one, lagrangeWeight_off off inside, nodalWeight_eq, term, mul_comm]

omit [DecidableEq F] in
theorem sum_term_ne_zero (distinct : DistinctNodes F n) (positive : 0 < n) {r : F}
    (off : ∀ i ∈ range n, r ≠ node F (startI64 n) i) : ∑ i ∈ range n, term n r i ≠ 0 :=
  right_ne_zero_of_mul_eq_one (sum_term_mul distinct positive off)

/-- A point is a node, or off all nodes. -/
theorem node_or_off (n : ℕ) (r : F) :
    (∃ k < n, r = node F (startI64 n) k) ∨ ∀ i ∈ range n, r ≠ node F (startI64 n) i := by
  by_cases hit : ∃ k < n, r = node F (startI64 n) k
  · exact .inl hit
  · exact .inr fun i member same => hit ⟨i, mem_range.mp member, same⟩

theorem evals_eq (distinct : DistinctNodes F n) (positive : 0 < n) (small : n ≤ 20) (r : F) :
    evals n r = some ((List.range n).map (lagrangeWeight (startI64 n) n r)) := by
  rw [evals]
  rcases node_or_off n r with ⟨k, inside, rfl⟩ | off
  · rw [← Prod.mk.eta (p := distances n _), distances_hit distinct inside]
    exact congrArg some (weights_node distinct inside)
  · rw [← Prod.mk.eta (p := distances n r), distances_miss off]
    simp only
    rw [invDenom_eq distinct (small.trans (by norm_num)), Option.bind_eq_bind, Option.bind_some,
      baryTermsFromDists_eq off, Option.bind_eq_bind, Option.bind_some, inverse_of_ne (sum_term_ne_zero distinct positive off)]
    refine congrArg some ((List.map_map).trans (List.map_congr_left fun i member => ?_))
    exact term_mul_inv distinct off (List.mem_range.mp member)

/-- Barycentric evaluation is evaluation of the polynomial with these values. -/
theorem evaluate_eq {values : List F} (distinct : DistinctNodes F values.length) (nonempty : values ≠ [])
    (small : values.length ≤ 20) {p : F[X]} (degree : p.degree < values.length)
    (holds : ∀ i < values.length, p.eval (node F (startI64 values.length) i) = values.getD i 0) (r : F) :
    evaluate values r = some (p.eval r) := by
  have positive : 0 < values.length := List.length_pos_iff.mpr nonempty
  rw [evaluate]
  rcases node_or_off values.length r with ⟨k, inside, rfl⟩ | off
  · rw [← Prod.mk.eta (p := distances _ _), distances_hit distinct inside]
    exact congrArg some (holds k inside).symm
  · rw [← Prod.mk.eta (p := distances _ r), distances_miss off]
    simp only
    rw [invDenom_eq distinct (small.trans (by norm_num)), Option.bind_eq_bind, Option.bind_some,
      baryTermsFromDists_eq off, Option.bind_eq_bind, Option.bind_some, inverse_of_ne (sum_term_ne_zero distinct positive off)]
    have weighted : (List.zipWith (· * ·) values ((List.range values.length).map (term values.length r))).sum =
        ∑ i ∈ range values.length, values.getD i 0 * term values.length r i := by
      have values_ : values = (List.range values.length).map fun i => values.getD i 0 := by
        refine List.ext_getElem (by simp) fun i here _ => ?_
        rw [List.getElem_map, List.getElem_range, List.getD_eq_getElem _ _ here]
      conv_lhs => rw [values_]
      rw [List.length_map, List.length_range, List.zipWith_map, List.zipWith_self]
      rfl
    refine congrArg some ?_
    rw [weighted, sum_mul, ← sum_lagrangeWeight (startI64 values.length) distinct degree r]
    refine sum_congr rfl fun i member => ?_
    rw [mul_assoc, term_mul_inv distinct off (mem_range.mp member), holds i (mem_range.mp member)]

end LagrangePolynomial

end JoltWasm
