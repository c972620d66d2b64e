import JoltWasm.Poly.SplitEqBound

/-!
# Round polynomials from split equality tables

The outer table, the inner table and the linear factor give the entries of the dense table.  The sum of the
rounds' polynomials over the dense table is then the linear factor times a sum over the two tables, and it is
what the two constructors return.
-/

namespace JoltWasm

open Lib EqPolynomial UnivariatePoly Polynomial Finset

section

variable {F : Type} [Field F]

/-- The tensor table has the entries of the whole table. -/
theorem TensorEqTable.evaluateIndex_eq (point : List F) {index : ℕ} (inside : index < 2 ^ point.length) :
    (TensorEqTable.new point).evaluateIndex index = (evals point none).getD index 0 := by
  obtain ⟨outer, inner, whole, split⟩ : ∃ outer inner, point = outer ++ inner ∧
      (point.take (point.length / 2), point.drop (point.length / 2)) = (outer, inner) :=
    ⟨_, _, (List.take_append_drop _ point).symm, rfl⟩
  have size := Nat.two_pow_pos inner.length
  have high : index / 2 ^ inner.length < 2 ^ outer.length := by
    rw [Nat.div_lt_iff_lt_mul size, ← pow_add, ← List.length_append, ← whole]
    exact inside
  have shown : TensorEqTable.new point = ⟨evals outer none, evals inner none, inner.length⟩ := by
    rw [TensorEqTable.new, List.splitAt_eq, split]
  rw [shown, TensorEqTable.evaluateIndex, Nat.one_shiftLeft, Nat.and_two_pow_sub_one_eq_mod,
    Nat.shiftRight_eq_div_pow, evals_eq, evals_eq, evals_eq, Option.getD_none, getD_table 1 outer high,
    getD_table 1 inner (Nat.mod_lt _ size), getD_table 1 point inside, one_mul, one_mul, one_mul,
    ← eqWeight_append_add outer inner _ (Nat.mod_lt _ size), Nat.div_add_mod', whole]

namespace GruenSplitEqPolynomial

/-- The row of the dense table; the outer variables are the high ones when the last variable is bound first. -/
def denseRow (p : GruenSplitEqPolynomial F) (xOut xIn : ℕ) : ℕ :=
  match p.bindingOrder with
  | .lowToHigh => p.groupIndex xOut xIn
  | .highToLow => xIn <<< trailingZeros p.eOutCurrent.length ||| xOut

/-! ## The entries -/

/-- Where a row is, and what its two entries are. -/
structure Entries (p : GruenSplitEqPolynomial F) (dense : DensePolynomial F) (l : F × F) (a b : ℕ) : Prop where
  lengthOut : p.eOutCurrent.length = 2 ^ a
  lengthIn : p.eInCurrent.length = 2 ^ b
  length : dense.evals.length = 2 ^ (a + b + 1)
  row : ∀ xOut xIn, xOut < 2 ^ a → xIn < 2 ^ b → p.denseRow xOut xIn =
    match p.bindingOrder with
    | .lowToHigh => xOut * 2 ^ b + xIn
    | .highToLow => xIn * 2 ^ a + xOut
  pair : ∀ xOut xIn, xOut < 2 ^ a → xIn < 2 ^ b →
    dense.sumcheckEvalPair (p.denseRow xOut xIn) p.bindingOrder =
      (p.eOutCurrent.getD xOut 0 * p.eInCurrent.getD xIn 0 * l.1,
        p.eOutCurrent.getD xOut 0 * p.eInCurrent.getD xIn 0 * l.2)

theorem index_lt {a b x y : ℕ} (hx : x < 2 ^ a) (hy : y < 2 ^ b) : x * 2 ^ b + y < 2 ^ (a + b) :=
  calc x * 2 ^ b + y < (x + 1) * 2 ^ b := by rw [Nat.succ_mul]; omega
    _ ≤ 2 ^ a * 2 ^ b := Nat.mul_le_mul_right _ hx
    _ = 2 ^ (a + b) := (pow_add 2 a b).symm

theorem Holds.entries {p : GruenSplitEqPolynomial F} {order : BindingOrder} {unbound : List F} {scale : F}
    (holds : Holds p order unbound scale) (nonempty : unbound ≠ []) : ∃ l a b,
      p.currentLinearEvals = some l ∧ Entries p (tablePolynomial scale unbound) l a b := by
  obtain ⟨c, outer, inner, current, out, inn, arranged⟩ := holds.current nonempty
  have row : ∀ xOut xIn, xOut < 2 ^ outer.length → xIn < 2 ^ inner.length → p.denseRow xOut xIn =
      match p.bindingOrder with
      | .lowToHigh => xOut * 2 ^ inner.length + xIn
      | .highToLow => xIn * 2 ^ outer.length + xOut := by
    intro xOut xIn below below'
    unfold denseRow
    cases p.bindingOrder with
    | lowToHigh =>
        simp only [groupIndex]
        rw [inn, length_table, trailingZeros_pow, ← Nat.shiftLeft_add_eq_or_of_lt below', Nat.shiftLeft_eq]
    | highToLow =>
        simp only
        rw [out, length_table, trailingZeros_pow, ← Nat.shiftLeft_add_eq_or_of_lt below, Nat.shiftLeft_eq]
  refine ⟨(scale - scale * c, scale * c), outer.length, inner.length, ?_, ?_, ?_, ?_, row, ?_⟩
  · rw [currentLinearEvals, current, holds.scalar]
    rfl
  · rw [out, length_table]
  · rw [inn, length_table]
  · rw [tablePolynomial, length_table, arranged]
    congr 1
    cases order with
    | lowToHigh => simp [arrange, Nat.add_assoc]
    | highToLow =>
        simp only [arrange, List.length_cons, List.length_append]
        omega
  · intro xOut xIn below below'
    rw [row xOut xIn below below', out, inn, getD_table 1 outer below, getD_table 1 inner below', holds.ordered,
      tablePolynomial, one_mul, one_mul]
    subst arranged
    cases order with
    | lowToHigh =>
        have inside := index_lt below below'
        obtain ⟨even, odd⟩ := eqWeight_concat (outer ++ inner) c (xOut * 2 ^ inner.length + xIn)
        simp only [DensePolynomial.sumcheckEvalPair, arrange]
        rw [getD_table _ _ (by simp only [List.length_append, List.length_singleton, pow_succ]; omega),
          getD_table _ _ (by simp only [List.length_append, List.length_singleton, pow_succ]; omega), even, odd,
          eqWeight_append_add outer inner xOut below']
        refine Prod.ext ?_ ?_
        · ring
        · ring
    | highToLow =>
        have inside := index_lt below' below
        rw [← List.length_append] at inside
        simp only [DensePolynomial.sumcheckEvalPair, arrange]
        rw [length_table, List.length_cons, half_pow_succ,
          getD_table _ _ (by rw [List.length_cons, pow_succ]; omega),
          getD_table _ _ (by rw [List.length_cons, pow_succ]; omega), eqWeight_cons_low c _ inside,
          eqWeight_cons_high c _ inside, eqWeight_append_add inner outer xIn below]
        refine Prod.ext ?_ ?_
        · ring
        · ring

/-! ## The round's polynomial -/

/-- The linear polynomial with the given values at zero and one. -/
noncomputable def linear (l : F × F) : F[X] := C l.1 + C (l.2 - l.1) * X

theorem linear_mul (e : F) (l : F × F) : linear (e * l.1, e * l.2) = linear l * C e := by
  simp only [linear, map_mul, map_sub]
  ring

/-- The sum over the rows of the dense table, with the current variable left. -/
noncomputable def roundPolynomial (dense : DensePolynomial F) (order : BindingOrder) (g : ℕ → F[X]) : F[X] :=
  ∑ j ∈ range (dense.evals.length / 2), linear (dense.sumcheckEvalPair j order) * g j

/-- The sum over the outer and the inner table, without the linear factor. -/
noncomputable def innerPolynomial (p : GruenSplitEqPolynomial F) (g : ℕ → F[X]) : F[X] :=
  ∑ xOut ∈ range p.eOutCurrent.length, ∑ xIn ∈ range p.eInCurrent.length,
    C (p.eOutCurrent.getD xOut 0 * p.eInCurrent.getD xIn 0) * g (p.denseRow xOut xIn)

theorem Entries.roundPolynomial_eq {p : GruenSplitEqPolynomial F} {dense : DensePolynomial F} {l : F × F} {a b : ℕ}
    (entries : Entries p dense l a b) (g : ℕ → F[X]) :
    roundPolynomial dense p.bindingOrder g = linear l * innerPolynomial p g := by
  have terms : ∀ xOut ∈ range (2 ^ a), ∀ xIn ∈ range (2 ^ b),
      linear (dense.sumcheckEvalPair (p.denseRow xOut xIn) p.bindingOrder) * g (p.denseRow xOut xIn) =
        linear l * (C (p.eOutCurrent.getD xOut 0 * p.eInCurrent.getD xIn 0) * g (p.denseRow xOut xIn)) := by
    intro xOut member xIn member'
    rw [entries.pair xOut xIn (mem_range.mp member) (mem_range.mp member'), linear_mul, mul_assoc]
  rw [innerPolynomial, mul_sum, entries.lengthOut, entries.lengthIn]
  simp only [mul_sum]
  rw [← sum_congr rfl fun xOut member => sum_congr rfl (terms xOut member), roundPolynomial, entries.length, half_pow_succ]
  -- The rows are the pairs, in the order of the binding.
  have row := entries.row
  revert row
  cases p.bindingOrder with
  | lowToHigh =>
      intro row
      rw [pow_add, sum_range_mul]
      exact sum_congr rfl fun xOut member => sum_congr rfl fun xIn member' => by
        rw [row xOut xIn (mem_range.mp member) (mem_range.mp member')]
  | highToLow =>
      intro row
      rw [Nat.add_comm a, pow_add, sum_range_mul, sum_comm]
      exact sum_congr rfl fun xOut member => sum_congr rfl fun xIn member' => by
        rw [row xOut xIn (mem_range.mp member) (mem_range.mp member')]

theorem natDegree_innerPolynomial (p : GruenSplitEqPolynomial F) {g : ℕ → F[X]} {d : ℕ}
    (degree : ∀ j, (g j).natDegree ≤ d) : (innerPolynomial p g).natDegree ≤ d :=
  natDegree_sum_le_of_forall_le _ _ fun _ _ => natDegree_sum_le_of_forall_le _ _ fun _ _ =>
    (natDegree_C_mul_le _ _).trans (degree _)

theorem natDegree_linear_mul (l : F × F) {q : F[X]} {d : ℕ} (degree : q.natDegree ≤ d) :
    (linear l * q).natDegree ≤ d + 1 := by
  have one : (linear l).natDegree ≤ 1 := by
    rw [linear]
    compute_degree
  exact natDegree_mul_le.trans (by omega)

@[simp] theorem eval_linear (l : F × F) (x : F) : (linear l).eval x = l.1 + (l.2 - l.1) * x := by
  simp [linear]

/-! ## The constructors -/

/-- The current linear factor comes from the current coordinate. -/
theorem currentPoint_of_linear {p : GruenSplitEqPolynomial F} {l : F × F} (found : p.currentLinearEvals = some l) :
    ∃ c, p.currentPoint = some c ∧ l = (p.currentScalar - p.currentScalar * c, p.currentScalar * c) := by
  rw [currentLinearEvals, Option.bind_eq_bind, Option.bind_eq_some_iff] at found
  obtain ⟨c, current, shown⟩ := found
  exact ⟨c, current, (Option.some.inj shown).symm⟩

theorem eval_of_natDegree_le_two {q : F[X]} (degree : q.natDegree ≤ 2) (x : F) :
    q.eval x = q.coeff 0 + q.coeff 1 * x + q.coeff 2 * x ^ 2 := by
  rw [eval_eq_sum_range' (Nat.lt_succ_of_le degree)]
  simp [sum_range_succ]

section

variable [DecidableEq F]

theorem gruenPolyDeg3_eq (distinct : DistinctNodes F 4) {p : GruenSplitEqPolynomial F} {l : F × F}
    (found : p.currentLinearEvals = some l) (nonzero : l.2 ≠ 0) {q : F[X]} (degree : q.natDegree ≤ 2) :
    ∃ s, p.gruenPolyDeg3 (q.eval 0) (q.coeff 2) ((linear l * q).eval 0 + (linear l * q).eval 1) = some s ∧
      s.polynomial = linear l * q := by
  obtain ⟨c, current, rfl⟩ := currentPoint_of_linear found
  set s := linear (p.currentScalar - p.currentScalar * c, p.currentScalar * c) * q with product
  have value (x : F) : s.eval x = (p.currentScalar - p.currentScalar * c +
      (p.currentScalar * c - (p.currentScalar - p.currentScalar * c)) * x) * q.eval x := by
    rw [product, eval_mul, eval_linear]
  have zero : s.eval 0 = (p.currentScalar - p.currentScalar * c) * q.eval 0 := by
    rw [value, mul_zero, add_zero]
  -- What the sum leaves for the value at one gives the quadratic's.
  have one : s.eval 1 * (p.currentScalar * c)⁻¹ = q.eval 1 := by
    rw [mul_inv_eq_iff_eq_mul₀ nonzero, value]
    ring
  have nodes : p.gruenPolyDeg3 (q.eval 0) (q.coeff 2) (s.eval 0 + s.eval 1) =
      interpolateOverIntegers [s.eval 0, s.eval 1, s.eval 2, s.eval 3] := by
    rw [gruenPolyDeg3, current]
    simp only [Option.bind_eq_bind, Option.bind_some, inverse_of_ne nonzero, ← zero, add_sub_cancel_left, one]
    simp only [value 2, value 3, eval_of_natDegree_le_two degree]
    congr 4
    · ring
    · congr 1
      ring
  obtain ⟨found, returned, through⟩ := interpolateOverIntegers_through
    (List.cons_ne_nil (s.eval 0) [s.eval 1, s.eval 2, s.eval 3]) distinct
  refine ⟨found, nodes.trans returned, (through.unique s ?_ ?_).symm⟩
  · exact (degree_le_of_natDegree_le (natDegree_linear_mul _ degree)).trans_lt (by
      simp only [length_integerPoints, List.length_cons, List.length_nil]
      exact WithBot.coe_lt_coe.mpr (by norm_num))
  · simp [integerPoints]

theorem gruenPolyFromEvals_eq {d : ℕ} (several : 2 ≤ d) (distinct : DistinctNodes F d) {p : GruenSplitEqPolynomial F}
    {l : F × F} (found : p.currentLinearEvals = some l) (nonzero : l.1 ≠ 0) {q : F[X]} (degree : q.natDegree ≤ d) :
    ∃ s, p.gruenPolyFromEvals ((List.range (d - 1)).map (fun i => q.eval ((i + 1 : ℕ) : F)) ++ [q.coeff d])
        ((linear l * q).eval 0 + (linear l * q).eval 1) = some s ∧ s.polynomial = linear l * q := by
  obtain ⟨c, current, rfl⟩ := currentPoint_of_linear found
  set s := linear (p.currentScalar - p.currentScalar * c, p.currentScalar * c) * q with product
  set qEvals := (List.range (d - 1)).map (fun i => q.eval ((i + 1 : ℕ) : F)) ++ [q.coeff d] with listedEvals
  have length : qEvals.length = d := by
    rw [listedEvals, List.length_append, List.length_map, List.length_range, List.length_singleton]
    omega
  have first : qEvals[0]? = some (q.eval 1) := by
    rw [listedEvals, List.getElem?_append_left (by simp; omega), List.getElem?_map, List.getElem?_range (by omega)]
    simp
  have zero : p.currentScalar * (1 - c) = p.currentScalar - p.currentScalar * c := mul_one_sub _ _
  -- The value at zero comes from the sum.
  have atZero : (s.eval 0 + s.eval 1 - p.currentScalar * c * q.eval 1) *
      (p.currentScalar - p.currentScalar * c)⁻¹ = q.eval 0 := by
    rw [mul_inv_eq_iff_eq_mul₀ nonzero, product, eval_mul, eval_mul, eval_linear, eval_linear]
    ring
  obtain ⟨found, returned, through⟩ := fromEvalsToom_through (List.cons_ne_nil (q.eval 0) qEvals)
    (by rwa [List.length_cons, length])
  have same : q = found.polynomial := by
    refine through.unique q ?_ ?_ ?_
    · rw [List.length_cons, length]
      exact (degree_le_of_natDegree_le degree).trans_lt (WithBot.coe_lt_coe.mpr (Nat.lt_succ_self d))
    · intro i inside
      rw [List.length_cons, length] at inside
      cases i with
      | zero => simp
      | succ i =>
          rw [List.getD_cons_succ, listedEvals, List.getD_append _ _ _ _ (by simp; omega),
            List.getD_eq_getElem _ _ (by simp; omega), List.getElem_map, List.getElem_range]
    · rw [List.length_cons, length, Nat.add_sub_cancel]
      obtain ⟨e, rfl⟩ := Nat.exists_eq_succ_of_ne_zero (n := d) (by omega)
      rw [List.getD_cons_succ, listedEvals, List.getD_append_right _ _ _ _ (by simp)]
      simp
  refine ⟨_, by
    rw [gruenPolyFromEvals, current]
    simp only [Option.bind_eq_bind, Option.bind_some, first, zero, inverse_of_ne nonzero, atZero, returned]
    rfl, ?_⟩
  have sum : (fun a b : F => a + b) = fun a b => a + 1 * b := by simp only [one_mul]
  rw [UnivariatePoly.polynomial]
  simp only
  rw [sum, ofCoefficients_zipWith 1 (by simp), ofCoefficients_append_zero, ofCoefficients, ofCoefficients_map_mul,
    ofCoefficients_map_mul, product, same, UnivariatePoly.polynomial, linear]
  simp only [map_zero, map_one]
  ring

/-! ## Every run -/

/-- What the split tables of a point are after the challenges. -/
structure SplitEqAgrees (w : List F) (order : BindingOrder) (scalingFactor : Option F) (challenges : List F)
    (p : GruenSplitEqPolynomial F) (dense : DensePolynomial F) : Prop where
  run : challenges.foldlM GruenSplitEqPolynomial.bind (newWithScaling w order scalingFactor) = some p
  bound : ∃ start, DensePolynomial.new (evals w scalingFactor) = some start ∧
    challenges.foldlM (DensePolynomial.bindWithOrder order) start = some dense
  merged : p.merge = some dense
  factors : challenges.length < w.length → ∃ l a b, p.currentLinearEvals = some l ∧ p.eOutCurrent.length = 2 ^ a ∧
    p.eInCurrent.length = 2 ^ b ∧ dense.evals.length = 2 ^ (a + b + 1) ∧
    ∀ xOut xIn, xOut < 2 ^ a → xIn < 2 ^ b → dense.sumcheckEvalPair (p.denseRow xOut xIn) order =
      (p.eOutCurrent.getD xOut 0 * p.eInCurrent.getD xIn 0 * l.1,
        p.eOutCurrent.getD xOut 0 * p.eInCurrent.getD xIn 0 * l.2)
  cubic : DistinctNodes F 4 → ∀ {l}, p.currentLinearEvals = some l → l.2 ≠ 0 →
    ∀ g : ℕ → F[X], (∀ j, (g j).natDegree ≤ 2) → ∃ s,
      p.gruenPolyDeg3 ((innerPolynomial p g).eval 0) ((innerPolynomial p g).coeff 2)
        ((roundPolynomial dense order g).eval 0 + (roundPolynomial dense order g).eval 1) = some s ∧
      s.polynomial = roundPolynomial dense order g
  general : ∀ {d}, 2 ≤ d → DistinctNodes F d → ∀ {l}, p.currentLinearEvals = some l → l.1 ≠ 0 →
    ∀ g : ℕ → F[X], (∀ j, (g j).natDegree ≤ d) → ∃ s,
      p.gruenPolyFromEvals ((List.range (d - 1)).map (fun i => (innerPolynomial p g).eval ((i + 1 : ℕ) : F)) ++
          [(innerPolynomial p g).coeff d])
        ((roundPolynomial dense order g).eval 0 + (roundPolynomial dense order g).eval 1) = some s ∧
      s.polynomial = roundPolynomial dense order g

theorem splitEqAgrees (w : List F) (order : BindingOrder) (scalingFactor : Option F) :
    (∀ challenges : List F, challenges.length ≤ w.length →
      ∃ p dense, SplitEqAgrees w order scalingFactor challenges p dense) ∧
    (w = [] → ∀ challenges : List F,
      challenges.foldlM GruenSplitEqPolynomial.bind (newWithScaling w order scalingFactor) =
        some (newWithScaling w order scalingFactor)) ∧
    ∀ index < 2 ^ w.length, (TensorEqTable.new w).evaluateIndex index = (evals w none).getD index 0 := by
  refine ⟨fun challenges short => ?_, fun empty challenges => ?_, fun index => TensorEqTable.evaluateIndex_eq w⟩
  · obtain ⟨p, scale, unbound, ran, holds, length, dense⟩ := run_holds w order scalingFactor short
    have start : DensePolynomial.new (evals w scalingFactor) = some (tablePolynomial (scalingFactor.getD 1) w) := by
      rw [evals_eq, new_table]
    -- A current variable is an unbound coordinate.
    have rest {l : F × F} (found : p.currentLinearEvals = some l) : unbound ≠ [] := by
      intro none
      rw [currentLinearEvals, holds.done none] at found
      cases found
    have product {l : F × F} (found : p.currentLinearEvals = some l) (g : ℕ → F[X]) :
        roundPolynomial (tablePolynomial scale unbound) order g = linear l * innerPolynomial p g := by
      obtain ⟨l', a, b, found', entries⟩ := holds.entries (rest found)
      obtain rfl : l' = l := Option.some.inj (found'.symm.trans found)
      rw [← entries.roundPolynomial_eq g, holds.ordered]
    refine ⟨p, tablePolynomial scale unbound, ran, ⟨_, start, dense⟩, holds.merged.trans (new_table _ _), ?_, ?_, ?_⟩
    · intro left
      obtain ⟨l, a, b, found, entries⟩ := holds.entries fun none => by
        rw [none, List.length_nil] at length
        omega
      exact ⟨l, a, b, found, entries.lengthOut, entries.lengthIn, entries.length,
        fun xOut xIn below below' => by rw [← holds.ordered, entries.pair xOut xIn below below']⟩
    · intro distinct l found nonzero g degree
      rw [product found g]
      exact gruenPolyDeg3_eq distinct found nonzero (natDegree_innerPolynomial p degree)
    · intro d several distinct l found nonzero g degree
      rw [product found g]
      exact gruenPolyFromEvals_eq several distinct found nonzero (natDegree_innerPolynomial p degree)
  · subst empty
    induction challenges with
    | nil => rfl
    | cons challenge challenges ih =>
        rw [List.foldlM_cons]
        exact ih

end

end GruenSplitEqPolynomial

end

end JoltWasm
