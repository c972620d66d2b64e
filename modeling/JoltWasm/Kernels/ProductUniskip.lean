import JoltWasm.Kernels.SpartanProduct

/-!
# The first round of the product kernel

At an integer node both sides of a cycle are small integers, so their product is exact in 256 bits.  The
values at the nodes are those of a quadratic, and the coefficients are those of its product with the kernel.
-/

namespace JoltWasm

open Lib Mont Polynomial Finset

open UnivariatePoly (DistinctNodes)

namespace SpartanProduct

/-! ## The domain -/

@[simp] theorem domainStart_eq : domainStart = 0 := by decide

@[simp] theorem extendedStart_eq : extendedStart = -1 := by decide

@[simp] theorem extendedSize_eq : extendedSize = 3 := by decide

/-- The scalar field has more elements than any domain here. -/
theorem distinctNodes {n : ℕ} (small : n ≤ 64) : DistinctNodes Scalar n := fun i inside j inside' same => by
  have remainders := (ZMod.natCast_eq_natCast_iff' i j Mont.order).mp same
  have large : 64 < Mont.order := by norm_num [Mont.order]
  rwa [Nat.mod_eq_of_lt (by omega), Nat.mod_eq_of_lt (by omega)] at remainders

/-- The coefficients of both lanes at a node. -/
theorem extensionCoefficients_eq : extensionCoefficients =
    (List.range extendedSize).map fun slot : ℕ => [1 - (extendedStart + slot), extendedStart + slot] := by
  decide

/-! ## One cycle -/

/-- A side of a cycle at the node of a slot. -/
def sideAt (slot : ℕ) (a b : ℤ) : ℤ := (1 - (extendedStart + slot)) * a + (extendedStart + slot) * b

/-- The product of the two sides at the node of a slot, as an integer. -/
def exactProduct (row : SpartanProductRow) (slot : ℕ) : ℤ :=
  sideAt slot row.leftInstructionInput.val row.lookupOutput.val *
    sideAt slot row.rightInstructionInput.val row.branchFlag.toNat

/-- Two lanes of 64 bits, with coefficients of at most two, stay below `2^66`. -/
theorem sideAt_bounds {slot : ℕ} (inside : slot < extendedSize) {a b : ℕ} (smallA : a < 2 ^ 64) (smallB : b < 2 ^ 64) :
    |sideAt slot a b| < 2 ^ 66 := by
  rw [abs_lt, sideAt]
  rw [extendedSize_eq] at inside
  rw [extendedStart_eq]
  interval_cases slot <;> omega

theorem checkedI128_eq {v : ℤ} (small : |v| < 2 ^ 127) : checkedI128 v = some v := by
  obtain ⟨low, high⟩ := abs_lt.mp small
  exact if_pos ⟨low.le, high⟩

/-- The loop over the lanes does not overflow. -/
theorem lanes_eq {slot : ℕ} (inside : slot < extendedSize) {a b c d : ℕ} (smallA : a < 2 ^ 64) (smallB : b < 2 ^ 64)
    (smallC : c < 2 ^ 64) (smallD : d < 2 ^ 64) :
    ((([(a : ℤ), b].zip [(c : ℤ), d]).zip [1 - (extendedStart + slot), extendedStart + slot]).foldlM laneStep (0, 0)) =
      some (sideAt slot a b, sideAt slot c d) := by
  have node : |(extendedStart + slot : ℤ)| ≤ 1 ∧ |1 - (extendedStart + slot : ℤ)| ≤ 2 := by
    rw [extendedSize_eq] at inside
    rw [extendedStart_eq]
    interval_cases slot <;> decide
  have term {e : ℤ} {x : ℕ} (smallE : |e| ≤ 2) (smallX : x < 2 ^ 64) : |e * x| < 2 ^ 127 := by
    obtain ⟨low, high⟩ := abs_le.mp smallE
    rw [abs_mul, Nat.abs_cast]
    calc |e| * x ≤ 2 * x := by gcongr
      _ < 2 ^ 127 := by omega
  have all {x y : ℕ} (smallX : x < 2 ^ 64) (smallY : y < 2 ^ 64) :
      |(1 - (extendedStart + slot : ℤ)) * x + (extendedStart + slot) * y| < 2 ^ 127 :=
    (sideAt_bounds inside smallX smallY).trans (by norm_num)
  have weak : |(extendedStart + slot : ℤ)| ≤ 2 := node.1.trans (by norm_num)
  simp only [List.zip_cons_cons, List.zip_nil_right, List.foldlM_cons, List.foldlM_nil, laneStep, Option.bind_eq_bind,
    zero_add, checkedI128_eq (term node.2 smallA), checkedI128_eq (term node.2 smallC), checkedI128_eq (term weak smallB),
    checkedI128_eq (term weak smallD), checkedI128_eq (all smallA smallB), checkedI128_eq (all smallC smallD),
    Option.bind_some, Option.pure_def, sideAt]

/-- The product at the node of a slot, in limbs. -/
def nodeProduct (row : SpartanProductRow) (slot : ℕ) : S256 :=
  SignedBigInt.mulTrunc
    (SignedBigInt.fromI128 (sideAt slot row.leftInstructionInput.val row.lookupOutput.val) : S128)
    (SignedBigInt.fromI128 (sideAt slot row.rightInstructionInput.val row.branchFlag.toNat) : SignedBigInt 3)

theorem flag_lt (flag : Bool) : flag.toNat < 2 ^ 64 := by cases flag <;> norm_num

theorem extendedProducts_eq (row : SpartanProductRow) :
    extendedProducts row extensionCoefficients = some ((List.range extendedSize).map (nodeProduct row)) := by
  rw [extendedProducts, extensionCoefficients_eq]
  simp only
  rw [List.mapM_map]
  refine UnivariatePoly.mapM_some fun slot member => ?_
  rw [Function.comp_apply, lanes_eq (List.mem_range.mp member) row.leftInstructionInput.isLt row.lookupOutput.isLt
    row.rightInstructionInput.isLt (flag_lt row.branchFlag)]
  rfl

/-- No limb of a product of two 66-bit integers is cut off. -/
theorem toInt_product {l r : ℤ} (smallL : |l| < 2 ^ 66) (smallR : |r| < 2 ^ 66) :
    (SignedBigInt.mulTrunc (SignedBigInt.fromI128 l : S128) (SignedBigInt.fromI128 r : SignedBigInt 3) : S256).toInt
      Limbs.toNat = l * r := by
  obtain ⟨lowL, highL⟩ := abs_lt.mp smallL
  obtain ⟨lowR, highR⟩ := abs_lt.mp smallR
  have left : (SignedBigInt.fromI128 l : S128).toInt Limbs.toNat = l := SignedBigInt.toInt_fromI128 (by omega) (by omega)
  have right : (SignedBigInt.fromI128 r : SignedBigInt 3).toInt Limbs.toNat = r :=
    SignedBigInt.toInt_fromI128 (by omega) (by omega)
  have fits : (l * r).natAbs < limbBase ^ 4 := by
    rw [Int.natAbs_mul]
    calc _ < 2 ^ 66 * 2 ^ 66 := Nat.mul_lt_mul'' (by omega) (by omega)
      _ ≤ limbBase ^ 4 := by norm_num [limbBase]
  have product := computes_product (SignedBigInt.fromI128 l : S128) (SignedBigInt.fromI128 r : SignedBigInt 3)
    (Limbs.toNat_mulTrunc (P := 4) (SignedBigInt.fromI128 l : S128).magnitude
      (SignedBigInt.fromI128 r : SignedBigInt 3).magnitude)
  rw [left, right] at product
  exact product.toInt_eq fits

theorem toInt_nodeProduct (row : SpartanProductRow) {slot : ℕ} (inside : slot < extendedSize) :
    (nodeProduct row slot).toInt Limbs.toNat = exactProduct row slot :=
  toInt_product (sideAt_bounds inside row.leftInstructionInput.isLt row.lookupOutput.isLt)
    (sideAt_bounds inside row.rightInstructionInput.isLt (flag_lt row.branchFlag))

/-! ## The columns -/

/-- The row of a cycle. -/
def rowAt (rows : List SpartanProductRow) (j : ℕ) : SpartanProductRow := rows.getD j default

theorem getElem?_rowAt {rows : List SpartanProductRow} {j : ℕ} (inside : j < rows.length) :
    rows[j]? = some (rowAt rows j) := by
  rw [rowAt, List.getD_eq_getElem _ _ inside, List.getElem?_eq_getElem inside]

variable (rows : List SpartanProductRow)

def leftInput (j : ℕ) : Scalar := ((rowAt rows j).leftInstructionInput.val : ℕ)

def rightInput (j : ℕ) : Scalar := ((rowAt rows j).rightInstructionInput.val : ℕ)

def lookup (j : ℕ) : Scalar := ((rowAt rows j).lookupOutput.val : ℕ)

def branch (j : ℕ) : Scalar := ((rowAt rows j).branchFlag.toNat : ℕ)

/-! ## The summand -/

/-- The polynomial through the lanes, at the nodes of the domain. -/
noncomputable def lanePolynomial (a b : Scalar) : Scalar[X] :=
  Lagrange.interpolate (range domain) (node Scalar domainStart) fun i => [a, b].getD i 0

noncomputable def leftPolynomial (j : ℕ) : Scalar[X] := lanePolynomial (leftInput rows j) (lookup rows j)

noncomputable def rightPolynomial (j : ℕ) : Scalar[X] := lanePolynomial (rightInput rows j) (branch rows j)

/-- The sum over the cycles of the products of both sides. -/
noncomputable def t1Polynomial (tauLow : List Scalar) : Scalar[X] :=
  ∑ j ∈ range (2 ^ tauLow.length), C (eqWeight tauLow j) * (leftPolynomial rows j * rightPolynomial rows j)

/-- The Lagrange kernel at a point. -/
noncomputable def kernelPolynomial (tauHigh : Scalar) : Scalar[X] :=
  Lagrange.interpolate (range domain) (node Scalar domainStart) (lagrangeWeight domainStart domain tauHigh)

theorem lanePolynomial_eq (a b : Scalar) : lanePolynomial a b = C a * (1 - X) + C b * X := by
  refine (Lagrange.eq_interpolate_of_eval_eq _ (distinctNodes (by decide : domain ≤ 64)).node_injOn ?_ ?_).symm
  · rw [card_range]
    refine (degree_le_of_natDegree_le (n := 1) (by compute_degree)).trans_lt ?_
    exact WithBot.coe_lt_coe.mpr (by decide)
  · intro i member
    have inside : i < 2 := mem_range.mp member
    interval_cases i <;> simp [node]

theorem natDegree_lanePolynomial (a b : Scalar) : (lanePolynomial a b).natDegree ≤ 1 := by
  rw [lanePolynomial_eq]
  compute_degree

theorem natDegree_t1Polynomial (tauLow : List Scalar) : (t1Polynomial rows tauLow).natDegree ≤ 2 :=
  natDegree_sum_le_of_forall_le _ _ fun _ _ => (natDegree_C_mul_le _ _).trans
    (natDegree_mul_le_of_le (natDegree_lanePolynomial _ _) (natDegree_lanePolynomial _ _))

/-- At the node of a slot the summand is the exact product. -/
theorem eval_sides (j slot : ℕ) :
    (leftPolynomial rows j).eval (node Scalar extendedStart slot) *
        (rightPolynomial rows j).eval (node Scalar extendedStart slot) =
      (exactProduct (rowAt rows j) slot : Scalar) := by
  simp only [leftPolynomial, rightPolynomial, lanePolynomial_eq, exactProduct, sideAt, node, leftInput, rightInput,
    lookup, branch, eval_add, eval_mul, eval_sub, eval_C, eval_one, eval_X]
  push_cast
  ring

theorem eval_t1Polynomial (tauLow : List Scalar) (slot : ℕ) :
    (t1Polynomial rows tauLow).eval (node Scalar extendedStart slot) =
      extension (fun j => (exactProduct (rowAt rows j) slot : Scalar)) tauLow := by
  rw [t1Polynomial, eval_finsetSum, extension]
  refine sum_congr rfl fun j _ => ?_
  rw [eval_mul, eval_C, eval_mul, eval_sides, mul_comm]

/-! ## The loops -/

variable {rows} (ark : ArkFr)

/-- The calls of one cycle. -/
theorem fmaddProducts_calls (e : Scalar) (row : SpartanProductRow) (calls : ℕ → List Op) :
    fmaddProducts ark e ((List.range extendedSize).map fun slot =>
        (History.ofCalls (calls slot)).run (FrSignedProductAccumulator.accumulator ark))
        ((List.range extendedSize).map (nodeProduct row)) =
      (List.range extendedSize).map fun slot => (History.ofCalls (calls slot ++
        [.fmaddS256 (.ofValue e) (nodeProduct row slot)])).run (FrSignedProductAccumulator.accumulator ark) := by
  rw [fmaddProducts, List.zipWith_map, List.zipWith_self]
  refine List.map_congr_left fun slot _ => ?_
  rw [History.run_ofCalls_concat]
  rfl

/-- The sum of one block. -/
theorem sum_calls (base : ℕ) (table : List Scalar) {slot : ℕ} (inside : slot < extendedSize) :
    ((table.zipIdx.map fun entry => Op.fmaddS256 (.ofValue entry.1) (nodeProduct (rowAt rows (base + entry.2)) slot)).map
      Op.value).sum =
      ∑ xIn ∈ range table.length, table.getD xIn 0 * (exactProduct (rowAt rows (base + xIn)) slot : Scalar) := by
  rw [List.map_map, ← GruenSplitEqPolynomial.sum_zipIdx table fun e xIn =>
    e * (exactProduct (rowAt rows (base + xIn)) slot : Scalar)]
  refine congrArg List.sum (List.map_congr_left fun entry _ => ?_)
  rw [Function.comp_apply, Op.value, Fr.value_ofValue, toInt_nodeProduct _ inside]

theorem extendedT1Values_eq {tauLow : List Scalar} (all : rows.length = 2 ^ tauLow.length)
    (short : tauLow.length < 64) : extendedT1Values ark rows tauLow =
      some ((List.range extendedSize).map fun slot => (t1Polynomial rows tauLow).eval (node Scalar extendedStart slot)) := by
  obtain ⟨outer, inner, whole, split, half⟩ : ∃ outer inner, tauLow = outer ++ inner ∧
      tauLow.splitAt (tauLow.length / 2) = (outer, inner) ∧ inner.length = tauLow.length - tauLow.length / 2 :=
    ⟨_, _, (List.take_append_drop _ tauLow).symm, List.splitAt_eq, List.length_drop⟩
  have lengths := congrArg List.length whole
  rw [List.length_append] at lengths
  rw [extendedT1Values]
  simp only [split, EqPolynomial.evals_eq, Option.getD_none, EqPolynomial.length_table]
  have start : List.replicate extendedSize (FrSignedProductAccumulator.accumulator ark).default =
      (List.range extendedSize).map fun _ =>
        (History.ofCalls []).run (FrSignedProductAccumulator.accumulator ark) := by
    rw [List.map_const', List.length_range]
    rfl
  rw [tryParSumVecs_eq (List.length_range (n := extendedSize)) fun xOut slot =>
    eqWeight outer xOut * ∑ xIn ∈ range (2 ^ inner.length),
      eqWeight inner xIn * (exactProduct (rowAt rows (xOut * 2 ^ inner.length + xIn)) slot : Scalar)]
  · refine congrArg some (List.map_congr_left fun slot _ => ?_)
    rw [eval_t1Polynomial, whole, extension_append_eq_sum]
    refine sum_congr rfl fun xOut _ => ?_
    rw [mul_sum]
    exact sum_congr rfl fun xIn _ => by ring
  · intro xOut below
    rw [start, foldlM_calls (List.range extendedSize) (fun (entry : Scalar × ℕ) slot =>
      Op.fmaddS256 (.ofValue entry.1) (nodeProduct (rowAt rows (xOut * 2 ^ inner.length + entry.2)) slot))]
    · rw [Option.bind_eq_bind, Option.bind_some, List.mapM_map]
      refine UnivariatePoly.mapM_some fun slot member => ?_
      have few : ((EqPolynomial.table 1 inner).zipIdx.map fun entry => Op.fmaddS256 (.ofValue entry.1)
          (nodeProduct (rowAt rows (xOut * 2 ^ inner.length + entry.2)) slot)).length ≤ 2 ^ 61 := by
        rw [List.length_map, List.length_zipIdx, EqPolynomial.length_table]
        exact Nat.pow_le_pow_right two_pos (by omega)
      rw [Function.comp_apply, List.nil_append, FrSignedProductAccumulator.result_ofCalls ark few,
        sum_calls _ _ (List.mem_range.mp member), EqPolynomial.length_table, EqPolynomial.getD_table 1 outer below, one_mul]
      refine congrArg (fun x => some (_ * x)) (sum_congr rfl fun xIn inside => ?_)
      rw [EqPolynomial.getD_table 1 inner (mem_range.mp inside), one_mul]
    · rintro ⟨e, xIn⟩ member calls
      obtain ⟨-, inside, -⟩ := List.mem_zipIdx member
      rw [Nat.zero_add, EqPolynomial.length_table] at inside
      have here : xOut * 2 ^ inner.length + xIn < rows.length := by
        rw [all, lengths, pow_add]
        calc _ < (xOut + 1) * 2 ^ inner.length := by rw [Nat.succ_mul]; omega
          _ ≤ _ := Nat.mul_le_mul_right _ below
      simp only [getElem?_rowAt here, extendedProducts_eq, Option.bind_eq_bind, Option.bind_some, Option.pure_def,
        fmaddProducts_calls]

/-! ## The polynomial -/

theorem domain_le : domain ≤ 64 := by decide

theorem centeredStart_eq : centeredStart domain = domainStart := by decide

theorem weights_eq (r : Scalar) : centeredLagrangeEvals domain r =
    .ok (some ((List.range domain).map (lagrangeWeight domainStart domain r))) := by
  rw [← centeredStart_eq]
  exact centeredLagrangeEvals_eq (distinctNodes domain_le) (by decide) (by decide) r

/-- What the first round leaves for the others. -/
noncomputable def parked (rows : List SpartanProductRow) (tauLow : List Scalar) : SpartanProductCarry :=
  ⟨tauLow.length, tauLow, rows, (List.range extendedSize).map fun slot =>
    (t1Polynomial rows tauLow).eval (node Scalar extendedStart slot)⟩

/-- The first round polynomial is the kernel times the sum. -/
theorem firstRoundPoly_eq (rows : List SpartanProductRow) (tauLow : List Scalar) (tauHigh : Scalar) :
    ∃ uniskip, OptimizedProductUniskip.firstRoundPoly (some (parked rows tauLow)) [tauHigh] = .ok uniskip ∧
      uniskip.polynomial = kernelPolynomial tauHigh * t1Polynomial rows tauLow := by
  have kernelCount : ((List.range domain).map (lagrangeWeight domainStart domain tauHigh)).length = domain := by
    rw [List.length_map, List.length_range]
  have t1Count : (parked rows tauLow).t1Values.length = extendedSize := by rw [parked, List.length_map, List.length_range]
  obtain ⟨kernel, kernelRan, kernelIs⟩ := interpolateToCoeffs_eq domainStart
    (List.ne_nil_of_length_pos (kernelCount.symm ▸ (by decide : 0 < domain)))
    (distinctNodes (kernelCount.trans_le domain_le))
  obtain ⟨t1, t1Ran, t1Is⟩ := interpolateToCoeffs_eq extendedStart
    (List.ne_nil_of_length_pos (t1Count.symm ▸ (by decide : 0 < extendedSize)))
    (distinctNodes (t1Count.trans_le (by decide)))
  refine ⟨⟨polyMul kernel t1⟩, ?_, ?_⟩
  · rw [OptimizedProductUniskip.firstRoundPoly, weights_eq, KernelStop.liftDomain_ok, KernelStop.ok_bind, kernelRan,
      KernelStop.orPanic_some, KernelStop.ok_bind, t1Ran, KernelStop.orPanic_some, KernelStop.ok_bind]
    rfl
  · have kernelSame := kernelIs (kernelPolynomial tauHigh) (by
      rw [kernelCount, kernelPolynomial]
      exact (Lagrange.degree_interpolate_lt _ (distinctNodes domain_le).node_injOn).trans_eq (by rw [card_range]))
        fun i inside => by
          rw [kernelCount] at inside
          rw [List.getElem_map, List.getElem_range, kernelPolynomial,
            Lagrange.eval_interpolate_at_node _ (distinctNodes domain_le).node_injOn (mem_range.mpr inside)]
    have t1Same := t1Is (t1Polynomial rows tauLow) (by
      rw [t1Count]
      exact (degree_le_of_natDegree_le (natDegree_t1Polynomial rows tauLow)).trans_lt
        (WithBot.coe_lt_coe.mpr (by decide))) fun i inside => by
          simp only [parked, List.getElem_map, List.getElem_range]
    rw [UnivariatePoly.polynomial, polyMul_eq, kernelSame, t1Same]

theorem prepareFromStore_eq {tauLow : List Scalar} (short : tauLow.length < 64)
    (all : rows.length = 2 ^ tauLow.length) :
    OptimizedProductUniskip.prepareFromStore ark tauLow.length tauLow rows = .ok (parked rows tauLow) := by
  rw [OptimizedProductUniskip.prepareFromStore, if_neg (not_not.mpr rfl), extendedT1Values_eq ark all short]
  rfl

end SpartanProduct

end JoltWasm
