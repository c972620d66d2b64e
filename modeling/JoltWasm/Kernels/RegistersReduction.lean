import JoltWasm.Kernels.Folds
import JoltWasm.Kernels.Rounds
import JoltWasm.Poly.Lt

/-!
# The registers claim-reduction kernel

The summand over the cycles is an equality weight times the three register values, combined by powers of a
challenge.  The first rounds go over a prefix table and a table of the values summed against the suffixes; at
the last prefix variable the kernel goes back to the raw values and folds each column by the challenges.
-/

namespace JoltWasm

open Lib Mont Finset

open SpartanProduct (Scalar)

/-- `EqPolynomial::mle`, which asserts that the lengths agree. -/
def EqPolynomial.mle {F : Type} [Field F] (x y : List F) : Option F :=
  if x.length = y.length then some (eqMle x y) else none

namespace RegistersClaimReduction

/-- The values of one cycle. -/
structure RegisterValuesRow where
  rdWrite : Mont.U64
  rs1 : Mont.U64
  rs2 : Mont.U64
  deriving Inhabited

inductive Phase where
  /-- The two tables over the prefix variables. -/
  | prefixSuffix (p q : List Scalar)
  /-- The equality table and the three columns. -/
  | dense (eq rdWriteValue rs1Value rs2Value : List Scalar)

structure ClaimReductionKernel where
  logT : ℕ
  gamma : Scalar
  gammaSq : Scalar
  tau : List Scalar
  values : RowVec 24 RegisterValuesRow
  phase : Phase
  challenges : RoundChallenges Scalar

/-- `BLOCK`. -/
def block : ℕ := 32

/-- One accumulator for each column. -/
structure ValueFolds where
  rdWrite : FrSmallScalarAccumulator
  rs1 : FrSmallScalarAccumulator
  rs2 : FrSmallScalarAccumulator

section

variable (ark : ArkFr)

/-- `[F::SmallScalarAccumulator::default(); 3]`. -/
def ValueFolds.default : ValueFolds :=
  let accumulator := (FrSmallScalarAccumulator.accumulator ark).default
  ⟨accumulator, accumulator, accumulator⟩

/-- One row, under its weight. -/
def ValueFolds.add (folds : ValueFolds) (eq eqShifted : Scalar) (row : RegisterValuesRow) : ValueFolds where
  rdWrite := fmaddU64Split ark folds.rdWrite eq eqShifted row.rdWrite
  rs1 := fmaddU64Split ark folds.rs1 eq eqShifted row.rs1
  rs2 := fmaddU64Split ark folds.rs2 eq eqShifted row.rs2

/-- `reduce` of each. -/
def ValueFolds.reduce (folds : ValueFolds) : Scalar × Scalar × Scalar :=
  (folds.rdWrite.result ark, folds.rs1.result ark, folds.rs2.result ark)

namespace ClaimReductionKernel

/-- The rows of one suffix, into the folds of a block. -/
def qStep (values : List RegisterValuesRow) (prefixVars start : ℕ) (folds : List ValueFolds) (suffix : Scalar × ℕ) :
    Option (List ValueFolds) :=
  let base := suffix.2 <<< prefixVars
  folds.zipIdx.mapM fun fold => do
    let row ← values[base + (start + fold.2)]?
    return fold.1.add ark suffix.1 (shifted suffix.1) row

/-- `build_q_block`, on a block of `len` entries. -/
def buildQBlock (gamma gammaSq : Scalar) (eqSuffix : List Scalar) (values : List RegisterValuesRow)
    (prefixVars blockIndex len : ℕ) : Option (List Scalar) := do
  let folds ← eqSuffix.zipIdx.foldlM (qStep ark values prefixVars (blockIndex * block))
    (List.replicate len (ValueFolds.default ark))
  return folds.map fun fold =>
    let (rdWrite, rs1, rs2) := fold.reduce ark
    rdWrite + gamma * rs1 + gammaSq * rs2

/-- `values` has one row for each cycle. -/
def prepare (logT : ℕ) (tau : List Scalar) (gamma : Scalar) (values : RowVec 24 RegisterValuesRow) :
    Except KernelStop ClaimReductionKernel :=
  if logT = 0 then
    .error (.unsupported "optimized registers claim reduction requires at least one cycle round")
  else if tau.length ≠ logT then
    .error (.invariantViolation "registers claim-reduction tau point has the wrong variable count")
  else do
    let gammaSq := gamma * gamma
    -- The prefix takes the extra variable of an odd number.
    let (tauHi, tauLo) := (tau.take (logT / 2), tau.drop (logT / 2))
    let prefixVars := tauLo.length
    let p := EqPolynomial.evals tauLo none
    let eqSuffix := EqPolynomial.evals tauHi none
    let q ← KernelStop.orPanic
      (fillChunks block (1 <<< prefixVars) (buildQBlock ark gamma gammaSq eqSuffix values.rows prefixVars))
    return {
      logT := logT
      gamma := gamma
      gammaSq := gammaSq
      tau := tau
      values := values
      phase := .prefixSuffix p q
      challenges := .new logT }

/-- `fold_chunk`. -/
def foldChunk (eqPrefix : List Scalar) (rows : List RegisterValuesRow) : Scalar × Scalar × Scalar :=
  ((rows.zip (eqPrefix.zip (eqPrefix.map shifted))).foldl
    (fun fold entry => fold.add ark entry.2.1 entry.2.2 entry.1) (ValueFolds.default ark)).reduce ark

/-- The three columns folded by the challenges, and the suffix table scaled by the bound prefix weight. -/
def transitionToDense (kernel : ClaimReductionKernel) : Option ClaimReductionKernel := do
  let rPrefix := kernel.challenges.challenges.reverse
  let eqPrefix := EqPolynomial.evals rPrefix none
  let chunk := eqPrefix.length
  let folds := (chunks chunk kernel.values.rows).map (foldChunk ark eqPrefix)
  let (tauHi, tauLo) := (kernel.tau.take (kernel.logT / 2), kernel.tau.drop (kernel.logT / 2))
  let eqPrefixEval ← EqPolynomial.mle rPrefix tauLo
  return { kernel with
    values := .new
    phase := .dense (EqPolynomial.evals tauHi (some eqPrefixEval)) (folds.map fun fold => fold.1)
      (folds.map fun fold => fold.2.1) (folds.map fun fold => fold.2.2) }

def bind (kernel : ClaimReductionKernel) (r : Scalar) : Except KernelStop ClaimReductionKernel :=
  let kernel := { kernel with challenges := kernel.challenges.push r }
  match kernel.phase with
  | .prefixSuffix p q =>
      if p.length = 2 then KernelStop.orPanic (transitionToDense ark kernel)
      else .ok { kernel with phase := .prefixSuffix (bindPairs p r) (bindPairs q r) }
  | .dense eq rdWriteValue rs1Value rs2Value => .ok { kernel with
      phase := .dense (bindPairs eq r) (bindPairs rdWriteValue r) (bindPairs rs1Value r) (bindPairs rs2Value r) }

/-- The values at zero and two of the dense tables. -/
def denseEvals (gamma gammaSq : Scalar) (eq rdWriteValue rs1Value rs2Value : List Scalar) : Option (Scalar × Scalar) :=
  let pair (table : List Scalar) (y : ℕ) := (table.getD (2 * y) 0, table.getD (2 * y + 1) 0)
  bothReduce ark ((List.range (eq.length / 2)).foldl (fun acc y =>
    let (eq0, eq1) := pair eq y
    let (rd0, rd1) := pair rdWriteValue y
    let (rs10, rs11) := pair rs1Value y
    let (rs20, rs21) := pair rs2Value y
    fmaddBoth ark acc (eq0, rd0 + gamma * rs10 + gammaSq * rs20)
      (eq1 + eq1 - eq0, (rd1 + rd1 - rd0) + gamma * (rs11 + rs11 - rs10) + gammaSq * (rs21 + rs21 - rs20)))
    (bothDefault ark))

/-- The values at zero and two. -/
def evals (kernel : ClaimReductionKernel) : Option (Scalar × Scalar) :=
  match kernel.phase with
  | .prefixSuffix p q => evalPairs ark [(p, q)]
  | .dense eq rdWriteValue rs1Value rs2Value =>
      denseEvals ark kernel.gamma kernel.gammaSq eq rdWriteValue rs1Value rs2Value

/-- The part of `prove_round` after the bind. -/
def message (kernel : ClaimReductionKernel) (_round : ℕ) (previousClaim : Scalar) :
    Except KernelStop (UnivariatePoly Scalar × ClaimReductionKernel) := do
  let evals ← KernelStop.orPanic (kernel.evals ark)
  let message ← KernelStop.orPanic (UnivariatePoly.fromEvalsAndHint previousClaim [evals.1, evals.2])
  return (message, kernel)

def rounds : RoundKernel Scalar ClaimReductionKernel KernelStop := ⟨bind ark, message ark⟩

end ClaimReductionKernel

end

/-- The claims of the rd write values, the rs1 values and the rs2 values. -/
def ClaimReductionKernel.outputClaims (kernel : ClaimReductionKernel) : Except KernelStop (Scalar × Scalar × Scalar) := do
  kernel.challenges.requireComplete
  match kernel.phase with
  | .dense _ rdWriteValue rs1Value rs2Value =>
      return (← KernelStop.orPanic rdWriteValue[0]?, ← KernelStop.orPanic rs1Value[0]?, ← KernelStop.orPanic rs2Value[0]?)
  | .prefixSuffix _ _ => .error (.invariantViolation "claim reduction must finish in the dense phase")

/-! ## The columns -/

/-- A column in the field. -/
def columnAt (value : RegisterValuesRow → Mont.U64) (rows : List RegisterValuesRow) (cycle : ℕ) : Scalar :=
  ((value (rows.getD cycle default)).val : Scalar)

/-- The three columns, combined. -/
def valueAt (gamma : Scalar) (rows : List RegisterValuesRow) (cycle : ℕ) : Scalar :=
  columnAt (·.rdWrite) rows cycle + gamma * columnAt (·.rs1) rows cycle + gamma * gamma * columnAt (·.rs2) rows cycle

/-- The equality weight times the values. -/
def summand (tau : List Scalar) (gamma : Scalar) (rows : List RegisterValuesRow) (x : List Scalar) : Scalar :=
  equal tau x * extension (valueAt gamma rows) x

theorem extension_valueAt (gamma : Scalar) (rows : List RegisterValuesRow) (x : List Scalar) :
    extension (valueAt gamma rows) x = extension (columnAt (·.rdWrite) rows) x +
      gamma * extension (columnAt (·.rs1) rows) x + gamma * gamma * extension (columnAt (·.rs2) rows) x := by
  rw [← extension_mul, ← extension_mul, ← extension_add, ← extension_add]
  rfl

/-- The equality weight splits into the weights of the first and of the last coordinates. -/
theorem splits (tau : List Scalar) : Splits Finset.univ (fun _ : Fin 1 => equal (tau.drop (tau.length / 2)))
    (fun _ => equal (tau.take (tau.length / 2))) (tau.length / 2) (tau.length - tau.length / 2) (equal tau) where
  split := fun high low size size' => by
    have whole : equal (tau.take (tau.length / 2) ++ tau.drop (tau.length / 2)) (high ++ low) =
        equal (tau.take (tau.length / 2)) high * equal (tau.drop (tau.length / 2)) low :=
      equal_append (by rw [List.length_take, size]; omega) (by rw [List.length_drop, size'])
    rw [List.take_append_drop] at whole
    rw [Fin.sum_univ_one, whole, mul_comm]

/-! ## Folds of the columns -/

section

variable (ark : ArkFr)

/-- The three accumulators do not meet. -/
theorem foldl_add {γ : Type} (terms : List γ) (eq eqShifted : γ → Scalar) (row : γ → RegisterValuesRow)
    (folds : ValueFolds) :
    terms.foldl (fun folds t => folds.add ark (eq t) (eqShifted t) (row t)) folds =
      ⟨terms.foldl (fun fold t => fmaddU64Split ark fold (eq t) (eqShifted t) (row t).rdWrite) folds.rdWrite,
        terms.foldl (fun fold t => fmaddU64Split ark fold (eq t) (eqShifted t) (row t).rs1) folds.rs1,
        terms.foldl (fun fold t => fmaddU64Split ark fold (eq t) (eqShifted t) (row t).rs2) folds.rs2⟩ := by
  induction terms generalizing folds with
  | nil => rfl
  | cons t terms ih => rw [List.foldl_cons, ih]; rfl

/-- A fold of fewer than `2 ^ 31` rows is exact. -/
theorem reduce_foldl {γ : Type} {terms : List γ} (few : terms.length < 2 ^ 31) (eq : γ → Scalar)
    (row : γ → RegisterValuesRow) :
    (terms.foldl (fun folds t => folds.add ark (eq t) (shifted (eq t)) (row t)) (ValueFolds.default ark)).reduce ark =
      ((terms.map fun t => eq t * ((row t).rdWrite.val : Scalar)).sum,
        (terms.map fun t => eq t * ((row t).rs1.val : Scalar)).sum,
        (terms.map fun t => eq t * ((row t).rs2.val : Scalar)).sum) := by
  have column (value : RegisterValuesRow → Mont.U64) :
      (terms.foldl (fun fold t => fmaddU64Split ark fold (eq t) (shifted (eq t)) (value (row t)))
        (FrSmallScalarAccumulator.accumulator ark).default).result ark =
        (terms.map fun t => eq t * ((value (row t)).val : Scalar)).sum := by
    have exact_ := @result_splitStep ark (terms.map fun t => (eq t, value (row t))) (by rwa [List.length_map])
    rw [List.foldl_map, List.map_map] at exact_
    exact exact_
  rw [foldl_add]
  exact Prod.ext (column (·.rdWrite)) (Prod.ext (column (·.rs1)) (column (·.rs2)))

/-! ## The tables of the first rounds -/

variable {rows : List RegisterValuesRow} {a b : ℕ}

theorem qStep_eq (all : rows.length = 2 ^ (a + b)) {start len : ℕ} (inside : start + len ≤ 2 ^ b) (s : Scalar)
    {xHi : ℕ} (below : xHi < 2 ^ a) (state : ℕ → ValueFolds) :
    ClaimReductionKernel.qStep ark rows b start ((List.range len).map state) (s, xHi) =
      some ((List.range len).map fun i =>
        (state i).add ark s (shifted s) (rows.getD (xHi * 2 ^ b + (start + i)) default)) := by
  rw [ClaimReductionKernel.qStep, zipIdx_map_range, List.mapM_map]
  refine UnivariatePoly.mapM_some fun i member => ?_
  have there : xHi * 2 ^ b + (start + i) < rows.length := by
    have room := Nat.mul_le_mul_right (2 ^ b) (Nat.succ_le_of_lt below)
    have offset := List.mem_range.mp member
    rw [Nat.succ_mul, ← pow_add] at room
    rw [all]
    omega
  rw [Function.comp_apply, Nat.shiftLeft_eq, List.getElem?_eq_getElem there, List.getD_eq_getElem _ _ there]
  rfl

/-- The sums of a block of the table. -/
theorem buildQBlock_eq (all : rows.length = 2 ^ (a + b)) (few : a < 31) (gamma : Scalar) (s : ℕ → Scalar)
    {blockIndex len : ℕ} (inside : blockIndex * block + len ≤ 2 ^ b) :
    ClaimReductionKernel.buildQBlock ark gamma (gamma * gamma) ((List.range (2 ^ a)).map s) rows b blockIndex len =
      some ((List.range len).map fun i =>
        ∑ xHi ∈ Finset.range (2 ^ a), s xHi * valueAt gamma rows (xHi * 2 ^ b + (blockIndex * block + i))) := by
  have start : List.replicate len (ValueFolds.default ark) = (List.range len).map fun _ => ValueFolds.default ark := by
    rw [List.map_const', List.length_range]
  have folded := @foldlM_slots _ _ _ (List.range len) (fun (suffix : Scalar × ℕ) i (fold : ValueFolds) =>
    fold.add ark suffix.1 (shifted suffix.1) (rows.getD (suffix.2 * 2 ^ b + (blockIndex * block + i)) default))
    (ClaimReductionKernel.qStep ark rows b (blockIndex * block)) ((List.range (2 ^ a)).map fun xHi => (s xHi, xHi))
    (fun suffix member state => by
      obtain ⟨xHi, below, rfl⟩ := List.mem_map.mp member
      exact qStep_eq ark all inside (s xHi) (List.mem_range.mp below) state) fun _ => ValueFolds.default ark
  rw [ClaimReductionKernel.buildQBlock, zipIdx_map_range, start, folded, Option.bind_eq_bind, Option.bind_some,
    List.map_map]
  refine congrArg some (List.map_congr_left fun i _ => ?_)
  have reduced := @reduce_foldl ark _ ((List.range (2 ^ a)).map fun xHi => (s xHi, xHi))
    (by rw [List.length_map, List.length_range]; exact Nat.pow_lt_pow_right one_lt_two few) (fun suffix => suffix.1)
    fun suffix => rows.getD (suffix.2 * 2 ^ b + (blockIndex * block + i)) default
  rw [List.map_map, List.map_map, List.map_map] at reduced
  rw [Function.comp_apply, reduced]
  let cycle (xHi : ℕ) : ℕ := xHi * 2 ^ b + (blockIndex * block + i)
  change (∑ xHi ∈ range (2 ^ a), s xHi * columnAt (·.rdWrite) rows (cycle xHi)) +
    gamma * (∑ xHi ∈ range (2 ^ a), s xHi * columnAt (·.rs1) rows (cycle xHi)) +
    gamma * gamma * (∑ xHi ∈ range (2 ^ a), s xHi * columnAt (·.rs2) rows (cycle xHi)) = _
  rw [mul_sum, mul_sum, ← sum_add_distrib, ← sum_add_distrib]
  refine sum_congr rfl fun xHi _ => ?_
  rw [valueAt]
  ring

/-- The table of the values, summed against the suffixes. -/
theorem q_eq {tau : List Scalar} (all : rows.length = 2 ^ tau.length) (few : tau.length < 60) (gamma : Scalar) :
    fillChunks block (1 <<< (tau.length - tau.length / 2)) (ClaimReductionKernel.buildQBlock ark gamma (gamma * gamma)
        (EqPolynomial.evals (tau.take (tau.length / 2)) none) rows (tau.length - tau.length / 2)) =
      some (tabulated (suffixSum (tau.length / 2) (equal (tau.take (tau.length / 2))) (extension (valueAt gamma rows)))
        [] (tau.length - tau.length / 2) []) := by
  have split : tau.length = tau.length / 2 + (tau.length - tau.length / 2) := by omega
  have size : (tau.take (tau.length / 2)).length = tau.length / 2 := by
    rw [List.length_take]
    omega
  rw [Nat.one_shiftLeft, tabulated_nil]
  refine fillChunks_eq (by decide) fun index n inside _ => ?_
  rw [EqPolynomial.evals_eq, Option.getD_none, EqPolynomial.table, size,
    buildQBlock_eq ark (all.trans (congrArg _ split)) (by omega) gamma _ inside]
  refine congrArg some (List.map_congr_left fun i member => ?_)
  have offset := List.mem_range.mp member
  rw [suffixSum_bits _ _ _ (by omega)]
  refine sum_congr rfl fun xHi member => ?_
  rw [one_mul, equal, extension_bitPoint _ (mem_range.mp member)]

/-! ## The state in step with the challenges -/

/-- The coordinates `low` are bound, and `m` are free. -/
structure Good (r : List Scalar) (γ : Scalar) (values : RowVec 24 RegisterValuesRow)
    (kernel : ClaimReductionKernel) (m : ℕ) (low : List Scalar) : Prop where
  free : m + low.length = r.length
  logT : kernel.logT = r.length
  tau : kernel.tau = r
  gamma : kernel.gamma = γ
  gammaSq : kernel.gammaSq = γ * γ
  challenges : kernel.challenges = ⟨low.reverse, r.length⟩
  phase : (∃ k, m = r.length / 2 + (k + 1) ∧ kernel.values = values ∧ kernel.phase = .prefixSuffix
      (tabulated (equal (r.drop (r.length / 2))) [] (k + 1) low)
      (tabulated (suffixSum (r.length / 2) (equal (r.take (r.length / 2))) (extension (valueAt γ values.rows)))
        [] (k + 1) low)) ∨
    m ≤ r.length / 2 ∧ kernel.phase = .dense (tabulated (equal r) [] m low)
      (tabulated (extension (columnAt (·.rdWrite) values.rows)) [] m low)
      (tabulated (extension (columnAt (·.rs1) values.rows)) [] m low)
      (tabulated (extension (columnAt (·.rs2) values.rows)) [] m low)

variable {tau : List Scalar} {values : RowVec 24 RegisterValuesRow}

theorem prepare_eq (all : values.rows.length = 2 ^ tau.length) (positive : 0 < tau.length) (gamma : Scalar) :
    ∃ kernel, ClaimReductionKernel.prepare ark tau.length tau gamma values = .ok kernel ∧
      Good tau gamma values kernel tau.length [] := by
  have size : (tau.drop (tau.length / 2)).length = tau.length - tau.length / 2 := List.length_drop
  have filled := q_eq ark all (values.few (by decide) all) gamma
  refine ⟨⟨tau.length, gamma, gamma * gamma, tau, values, .prefixSuffix
    (tabulated (equal (tau.drop (tau.length / 2))) [] (tau.length - tau.length / 2) [])
    (tabulated (suffixSum (tau.length / 2) (equal (tau.take (tau.length / 2))) (extension (valueAt gamma values.rows)))
      [] (tau.length - tau.length / 2) []), .new tau.length⟩,
    ?_, rfl, rfl, rfl, rfl, rfl, rfl, .inl ⟨tau.length - tau.length / 2 - 1, by omega, rfl, ?_⟩⟩
  · rw [ClaimReductionKernel.prepare, if_neg positive.ne', if_neg (not_not.mpr rfl)]
    simp only [size, filled, KernelStop.orPanic_some, KernelStop.ok_bind, EqPolynomial.evals_eq (tau.drop _),
      Option.getD_none, table_eq_tabulated]
    rfl
  · rw [Nat.sub_add_cancel (by omega)]

/-- The chunks of the columns, folded. -/
theorem folds_eq {low : List Scalar} {a : ℕ} (all : values.rows.length = 2 ^ (a + low.length)) (few : low.length < 31) :
    (chunks (EqPolynomial.evals low none).length values.rows).map
        (ClaimReductionKernel.foldChunk ark (EqPolynomial.evals low none)) =
      (List.range (2 ^ a)).map fun i => (extension (columnAt (·.rdWrite) values.rows) (bitPoint Scalar a i ++ low),
        extension (columnAt (·.rs1) values.rows) (bitPoint Scalar a i ++ low),
        extension (columnAt (·.rs2) values.rows) (bitPoint Scalar a i ++ low)) := by
  rw [EqPolynomial.evals_eq, Option.getD_none, EqPolynomial.length_table, chunks_eq all, List.map_map]
  refine List.map_congr_left fun i member => ?_
  have below := List.mem_range.mp member
  have room := Nat.mul_le_mul_right (2 ^ low.length) (Nat.succ_le_of_lt below)
  rw [Nat.succ_mul, ← pow_add] at room
  rw [Function.comp_apply, ClaimReductionKernel.foldChunk, foldl_add, extension_chunk _ below, extension_chunk _ below,
    extension_chunk _ below]
  have column (value : RegisterValuesRow → Mont.U64) := fold_chunk ark default value (room.trans_eq all.symm) few
  rw [ValueFolds.reduce]
  simp only [ValueFolds.default, column]
  rfl

/-- The suffix table, scaled by the weight of the bound prefix. -/
theorem eq_dense {low : List Scalar} (bound : low.length = tau.length - tau.length / 2) :
    EqPolynomial.evals (tau.take (tau.length / 2)) (some (eqMle low (tau.drop (tau.length / 2)))) =
      tabulated (equal tau) [] (tau.length / 2) low := by
  have size : (tau.take (tau.length / 2)).length = tau.length / 2 := by
    rw [List.length_take]
    omega
  rw [EqPolynomial.evals_eq, Option.getD_some, EqPolynomial.table, size, tabulated]
  refine listed_congr fun k inside => ?_
  have weight : extension (eqWeight (tau.take (tau.length / 2))) (bitPoint Scalar (tau.length / 2) k) = _ :=
    extension_bitPoint _ inside
  rw [List.nil_append, (splits tau).split _ _ (length_bitPoint _ _) bound, Fin.sum_univ_one, eqMle_comm,
    eqMle_eq (by rw [List.length_drop, bound])]
  exact congrArg _ weight.symm

theorem transitionToDense_eq {γ : Scalar} (all : values.rows.length = 2 ^ tau.length) {kernel : ClaimReductionKernel}
    {low : List Scalar} (bound : low.length = tau.length - tau.length / 2) (count : kernel.logT = tau.length)
    (point : kernel.tau = tau) (gamma : kernel.gamma = γ) (gammaSq : kernel.gammaSq = γ * γ)
    (raw : kernel.values = values) (drawn : kernel.challenges = ⟨low.reverse, tau.length⟩) :
    ∃ next, ClaimReductionKernel.transitionToDense ark kernel = some next ∧
      Good tau γ values next (tau.length / 2) low := by
  have few := values.few (by decide) all
  have whole : tau.length / 2 + low.length = tau.length := by omega
  have size : low.length = (tau.drop (tau.length / 2)).length := by rw [List.length_drop, bound]
  refine ⟨{ kernel with
    values := .new
    phase := .dense (tabulated (equal tau) [] (tau.length / 2) low)
      (tabulated (extension (columnAt (·.rdWrite) values.rows)) [] (tau.length / 2) low)
      (tabulated (extension (columnAt (·.rs1) values.rows)) [] (tau.length / 2) low)
      (tabulated (extension (columnAt (·.rs2) values.rows)) [] (tau.length / 2) low) },
    ?_, whole, count, point, gamma, gammaSq, drawn, .inr ⟨le_rfl, rfl⟩⟩
  rw [ClaimReductionKernel.transitionToDense, drawn, point, count, raw, List.reverse_reverse,
    folds_eq ark (by rw [all, whole]) (by omega)]
  simp only [EqPolynomial.mle, if_pos size, Option.bind_eq_bind, Option.bind_some, eq_dense bound, List.map_map]
  rfl

theorem bind_eq {γ : Scalar} (all : values.rows.length = 2 ^ tau.length) {kernel : ClaimReductionKernel} {m : ℕ}
    {low : List Scalar} (good : Good tau γ values kernel (m + 1) low) (challenge : Scalar) :
    ∃ next, ClaimReductionKernel.bind ark kernel challenge = .ok next ∧ Good tau γ values next m (challenge :: low) := by
  have free : m + (challenge :: low).length = tau.length := by rw [List.length_cons, ← good.free]; omega
  have drawn : kernel.challenges.push challenge = ⟨(challenge :: low).reverse, tau.length⟩ := by
    rw [good.challenges, RoundChallenges.push, List.reverse_cons]
  rcases good.phase with ⟨k, left, raw, phase⟩ | ⟨left, phase⟩
  · cases k with
    | zero =>
        -- the last prefix variable
        obtain rfl : m = tau.length / 2 := by omega
        obtain ⟨next, moved, kept⟩ := @transitionToDense_eq ark _ _ _ all
          { kernel with challenges := kernel.challenges.push challenge } (challenge :: low) (by omega) good.logT good.tau
          good.gamma good.gammaSq raw drawn
        refine ⟨next, ?_, kept⟩
        rw [phase] at moved
        rw [ClaimReductionKernel.bind]
        simp only [phase, length_tabulated]
        rw [if_pos (by decide), moved, KernelStop.orPanic_some]
    | succ k =>
        have some_ : 2 ^ (k + 1 + 1) ≠ 2 := by
          have := Nat.two_pow_pos k
          rw [pow_succ, pow_succ]
          omega
        refine ⟨{ kernel with
          challenges := kernel.challenges.push challenge
          phase := .prefixSuffix
            (tabulated (equal (tau.drop (tau.length / 2))) [] (k + 1) (challenge :: low))
            (tabulated (suffixSum (tau.length / 2) (equal (tau.take (tau.length / 2)))
              (extension (valueAt γ values.rows))) [] (k + 1) (challenge :: low)) },
          ?_, free, good.logT, good.tau, good.gamma, good.gammaSq, drawn, .inl ⟨k, by omega, raw, rfl⟩⟩
        rw [ClaimReductionKernel.bind]
        simp only [phase, length_tabulated, if_neg some_]
        rw [bindPairs_tabulated (multilinear_equal _),
          bindPairs_tabulated (multilinear_suffixSum _ _ (multilinear_extension _))]
  · refine ⟨{ kernel with
      challenges := kernel.challenges.push challenge
      phase := .dense (tabulated (equal tau) [] m (challenge :: low))
        (tabulated (extension (columnAt (·.rdWrite) values.rows)) [] m (challenge :: low))
        (tabulated (extension (columnAt (·.rs1) values.rows)) [] m (challenge :: low))
        (tabulated (extension (columnAt (·.rs2) values.rows)) [] m (challenge :: low)) },
      ?_, free, good.logT, good.tau, good.gamma, good.gammaSq, drawn, .inr ⟨by omega, rfl⟩⟩
    rw [ClaimReductionKernel.bind]
    simp only [phase]
    rw [bindPairs_tabulated (multilinear_equal tau), bindPairs_tabulated (multilinear_extension _),
      bindPairs_tabulated (multilinear_extension _), bindPairs_tabulated (multilinear_extension _)]

/-! ## The rounds -/

/-- A value at two, of the three columns combined. -/
theorem summand_point (tau : List Scalar) (γ : Scalar) (rows : List RegisterValuesRow) (x : List Scalar) :
    summand tau γ rows x = equal tau x * (extension (columnAt (·.rdWrite) rows) x +
      γ * extension (columnAt (·.rs1) rows) x + γ * γ * extension (columnAt (·.rs2) rows) x) := by
  rw [summand, extension_valueAt]

/-- The dense tables give the summand at zero and two. -/
theorem denseEvals_eq (tau : List Scalar) (γ : Scalar) (rows : List RegisterValuesRow) {m : ℕ} (few : m ≤ 61)
    (low : List Scalar) :
    ClaimReductionKernel.denseEvals ark γ (γ * γ) (tabulated (equal tau) [] (m + 1) low)
        (tabulated (extension (columnAt (·.rdWrite) rows)) [] (m + 1) low)
        (tabulated (extension (columnAt (·.rs1) rows)) [] (m + 1) low)
        (tabulated (extension (columnAt (·.rs2) rows)) [] (m + 1) low) =
      some (restSum (summand tau γ rows) m (0 :: low), restSum (summand tau γ rows) m (2 :: low)) := by
  let term (t : Scalar) (y : ℕ) : Scalar × Scalar := (equal tau (bitPoint Scalar m y ++ t :: low),
    extension (columnAt (·.rdWrite) rows) (bitPoint Scalar m y ++ t :: low) +
      γ * extension (columnAt (·.rs1) rows) (bitPoint Scalar m y ++ t :: low) +
      γ * γ * extension (columnAt (·.rs2) rows) (bitPoint Scalar m y ++ t :: low))
  have sum (t : Scalar) : ((List.range (2 ^ m)).map fun y => (term t y).1 * (term t y).2).sum =
      restSum (summand tau γ rows) m (t :: low) := by
    rw [restSum, cubeSum_eq_sum]
    exact congrArg List.sum (List.map_congr_left fun y _ => (summand_point tau γ rows _).symm)
  rw [ClaimReductionKernel.denseEvals, length_tabulated, half_pow_succ, ← sum, ← sum,
    ← bothReduce_foldl ark (by
      rw [List.length_range]
      exact Nat.pow_le_pow_right two_pos few) (term 0) (term 2)]
  refine congrArg (bothReduce ark) (List.foldl_ext _ _ _ fun acc y member => ?_)
  have inside := List.mem_range.mp member
  obtain ⟨eq0, eq2⟩ := pair_tabulated (multilinear_equal tau) inside low
  obtain ⟨rd0, rd2⟩ := pair_tabulated (multilinear_extension (columnAt (·.rdWrite) rows)) inside low
  obtain ⟨rs10, rs12⟩ := pair_tabulated (multilinear_extension (columnAt (·.rs1) rows)) inside low
  obtain ⟨rs20, rs22⟩ := pair_tabulated (multilinear_extension (columnAt (·.rs2) rows)) inside low
  simp only [term]
  rw [eq2, rd2, rs12, rs22, eq0, rd0, rs10, rs20]

/-- The values at zero and two of a round. -/
theorem evals_eq {γ : Scalar} (all : values.rows.length = 2 ^ tau.length) {kernel : ClaimReductionKernel} {m : ℕ}
    {low : List Scalar} (good : Good tau γ values kernel (m + 1) low) : kernel.evals ark =
      some (restSum (summand tau γ values.rows) m (0 :: low), restSum (summand tau γ values.rows) m (2 :: low)) := by
  have few := values.few (by decide) all
  have free := good.free
  rcases good.phase with ⟨k, left, -, phase⟩ | ⟨-, phase⟩
  · obtain rfl : m = tau.length / 2 + k := by omega
    have value (t : Scalar) := (splits tau).restSum_before (extension (valueAt γ values.rows))
      (m := k) (by rw [List.length_cons]; omega : k + (t :: low).length = _)
    have pairs := @evalPairs_eq ark 1 k _ _ (fun _ => multilinear_equal (tau.drop (tau.length / 2)))
      (fun _ => multilinear_suffixSum (tau.length / 2) (equal (tau.take (tau.length / 2)))
        (multilinear_extension (valueAt γ values.rows))) low
      (by rw [Nat.one_mul]; exact Nat.pow_le_pow_right two_pos (by omega))
    rw [ClaimReductionKernel.evals, phase]
    exact pairs.trans (congrArg some (Prod.ext (value 0).symm (value 2).symm))
  · rw [ClaimReductionKernel.evals, phase, good.gamma, good.gammaSq]
    exact denseEvals_eq ark tau γ values.rows (by omega) low

theorem message_eq {γ : Scalar} (all : values.rows.length = 2 ^ tau.length) {kernel : ClaimReductionKernel} {m : ℕ}
    {low : List Scalar} (good : Good tau γ values kernel (m + 1) low) (round : ℕ) (claim : Scalar)
    (message : UnivariatePoly Scalar) (found : UnivariatePoly.fromEvalsAndHint claim
      [restSum (summand tau γ values.rows) m (0 :: low), restSum (summand tau γ values.rows) m (2 :: low)] = some message) :
    ClaimReductionKernel.message ark kernel round claim = .ok (message, kernel) := by
  rw [ClaimReductionKernel.message, evals_eq ark all good]
  simp only [KernelStop.orPanic_some, KernelStop.ok_bind, found]
  rfl

theorem degreeIn_summand (tau : List Scalar) (γ : Scalar) (rows : List RegisterValuesRow) :
    DegreeIn 2 (summand tau γ rows) :=
  (multilinear_equal tau).degreeIn.mul (multilinear_extension (valueAt γ rows)).degreeIn

/-- The kernel serves the summand, from whatever claim. -/
theorem serves (γ : Scalar) (all : values.rows.length = 2 ^ tau.length) (excess : Scalar) :
    (ClaimReductionKernel.rounds ark).Serves 2 (drifted (summand tau γ values.rows) excess) (Good tau γ values)
      fun _ _ => True := by
  refine RoundKernel.Serves.ofHint (SpartanProduct.distinctNodes (by decide)) (degreeIn_summand tau γ values.rows)
    ?_ ?_ excess
  · intro state m low good challenge
    exact bind_eq ark all good challenge
  · intro state m low good _ round claim message found
    exact ⟨state, message_eq ark all good round claim message found, good⟩

theorem outputClaims_eq {γ : Scalar} {kernel : ClaimReductionKernel} {point : List Scalar}
    (good : Good tau γ values kernel 0 point) :
    kernel.outputClaims = .ok (extension (columnAt (·.rdWrite) values.rows) point,
      extension (columnAt (·.rs1) values.rows) point, extension (columnAt (·.rs2) values.rows) point) := by
  have complete : kernel.challenges.requireComplete = .ok () := by
    have count := good.free
    rw [Nat.zero_add] at count
    rw [good.challenges, RoundChallenges.requireComplete, if_pos (List.length_reverse.trans count)]
  rcases good.phase with ⟨k, left, -⟩ | ⟨-, phase⟩
  · omega
  · rw [ClaimReductionKernel.outputClaims, complete, KernelStop.ok_bind, phase]
    rfl

/-- The claim: the weights over the cycles. -/
theorem sum_summand (tau : List Scalar) (γ : Scalar) (rows : List RegisterValuesRow) :
    restSum (summand tau γ rows) tau.length [] = ∑ j ∈ range (2 ^ tau.length), eqWeight tau j * valueAt γ rows j := by
  rw [restSum, cubeSum_eq_sum]
  refine sum_congr rfl fun j member => ?_
  have inside := mem_range.mp member
  rw [List.append_nil, summand, equal, extension_bitPoint _ inside, extension_bitPoint _ inside]

/-- The whole run, from any claim. -/
theorem run_eq (γ : Scalar) (all : values.rows.length = 2 ^ tau.length) (positive : 0 < tau.length)
    {challenges : List Scalar} (count : challenges.length = tau.length) (claim : Scalar) :
    ∃ kernel messages final, ClaimReductionKernel.prepare ark tau.length tau γ values = .ok kernel ∧
      (ClaimReductionKernel.rounds ark).proveRounds kernel none 0 claim challenges = .ok (messages, final) ∧
      messages.length = tau.length ∧
      ((∀ i message, messages[i]? = some message → IsRound 2 (summand tau γ values.rows) (tau.length - 1 - i)
          (challenges.take i).reverse message.polynomial) ↔
        claim = ∑ j ∈ range (2 ^ tau.length), eqWeight tau j * valueAt γ values.rows j) ∧
      final.outputClaims = .ok (extension (columnAt (·.rdWrite) values.rows) challenges.reverse,
        extension (columnAt (·.rs1) values.rows) challenges.reverse,
        extension (columnAt (·.rs2) values.rows) challenges.reverse) := by
  obtain ⟨kernel, prepared, good⟩ := prepare_eq ark all positive γ
  obtain ⟨messages, final, ran, number, rounds, done⟩ := (serves ark γ all
    (claim - restSum (summand tau γ values.rows) tau.length [])).run good count.le fun _ _ => trivial
  rw [restSum_drifted_nil] at ran
  rw [count, Nat.sub_self] at done
  rw [count] at number
  rw [← sum_summand]
  exact ⟨kernel, messages, final, prepared, ran, number, isRound_drifted_iff positive number rounds, outputClaims_eq done⟩

end

end RegistersClaimReduction

end JoltWasm
