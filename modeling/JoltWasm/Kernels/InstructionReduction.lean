import JoltWasm.Kernels.InstructionInputRounds

/-!
# The instruction claim-reduction kernel

Five operands of a cycle, combined by powers of a challenge into one table, under an equality weight.  The
operands stay native, and the claim of each is summed from them at the bound point.
-/

namespace JoltWasm

open Lib Mont Finset

open SpartanProduct (Scalar)

open GruenSplitEqPolynomial (LowBound lowBound_new)

open RamRaClaimReduction (RoundProgress)

namespace InstructionClaimReduction

/-- The five reduced operands of one cycle. -/
structure InstructionOperandRow where
  lookupOutput : Mont.U64
  leftLookupOperand : Mont.U64
  rightLookupOperand : Mont.U128
  leftInstructionInput : Mont.U64
  rightInstructionInput : Mont.U64
  deriving Inhabited

/-- `NUM_TABLES`. -/
def numTables : ℕ := 5

/-- `POINTS`. -/
def points : ℕ := 3

structure OptimizedInstructionClaimReductionKernel where
  progress : RoundProgress
  combined : DensePolynomial Scalar
  rows : RowVec 48 InstructionOperandRow
  gruen : GruenSplitEqPolynomial Scalar
  boundChallenges : List Scalar

/-- `value as u64`. -/
def lowWord (value : Mont.U128) : Mont.U64 := ⟨value.val % 2 ^ 64, Nat.mod_lt _ (Nat.two_pow_pos 64)⟩

/-- `(value >> 64) as u64`. -/
def highWord (value : Mont.U128) : Mont.U64 := ⟨value.val / 2 ^ 64, Nat.div_lt_of_lt_mul value.isLt⟩

section

variable (ark : ArkFr)

def fieldValues (row : InstructionOperandRow) : List Scalar :=
  [fieldOfU64 ark row.lookupOutput, fieldOfU64 ark row.leftLookupOperand, fieldOfU128 ark row.rightLookupOperand,
    fieldOfU64 ark row.leftInstructionInput, fieldOfU64 ark row.rightInstructionInput]

/-- The products of a row's words; the wide operand has one for each of its words. -/
def wordProducts (gammaPowers : List Scalar) (rightLookupHi : Scalar) (row : InstructionOperandRow) :
    List (Scalar × Mont.U64) :=
  [(gammaPowers.getD 0 0, row.lookupOutput), (gammaPowers.getD 1 0, row.leftLookupOperand),
    (gammaPowers.getD 2 0, lowWord row.rightLookupOperand), (rightLookupHi, highWord row.rightLookupOperand),
    (gammaPowers.getD 3 0, row.leftInstructionInput), (gammaPowers.getD 4 0, row.rightInstructionInput)]

/-- One entry of the combined table. -/
def combine (gammaPowers : List Scalar) (rightLookupHi : Scalar) (row : InstructionOperandRow) : Option Scalar :=
  let accumulator := WideAccumulator.accumulator ark
  WideAccumulator.result ark ((wordProducts gammaPowers rightLookupHi row).foldl
    (fun acc product => accumulator.fmaddU64 acc (.ofValue product.1) product.2) accumulator.default)

namespace OptimizedInstructionClaimReductionKernel

def new (tauLow : List Scalar) (rows : RowVec 48 InstructionOperandRow) (gamma : Scalar) :
    Except KernelStop OptimizedInstructionClaimReductionKernel := do
  let logT := tauLow.length
  let cycles ← KernelStop.orPanic (if logT < 64 then some (2 ^ logT) else none)
  if rows.rows.length ≠ cycles then
    .error (.tableSizeMismatch "instruction claim-reduction operand rows" cycles rows.rows.length)
  else do
    let gammaSqr := gamma * gamma
    let gammaPowers := [1, gamma, gammaSqr, gammaSqr * gamma, gammaSqr * gammaSqr]
    let shift64 := fieldOfU128 ark ⟨2 ^ 64, Nat.pow_lt_pow_right one_lt_two (by decide)⟩
    let rightLookupHi := gammaSqr * shift64
    let combined ← KernelStop.orPanic (rows.rows.mapM (combine ark gammaPowers rightLookupHi))
    let combined ← KernelStop.orPanic (DensePolynomial.new combined)
    return {
      progress := .new logT
      combined := combined
      rows := rows
      gruen := .new tauLow .lowToHigh
      boundChallenges := [] }

/-- The weighted sums of the rows of one block. -/
def claimBlock (rows : List InstructionOperandRow) (eHi eLo : List Scalar) (idxHi : ℕ) : Option (List Scalar) := do
  let start := idxHi * eLo.length
  let slice ← if start + eLo.length ≤ rows.length then some ((rows.drop start).take eLo.length) else none
  let sums := (slice.zip eLo).foldl (fun sums (row, weight) => mergeVecs sums ((fieldValues ark row).map (weight * ·)))
    (List.replicate numTables 0)
  let eHiEval ← eHi[idxHi]?
  return sums.map (eHiEval * ·)

def operandClaims (kernel : OptimizedInstructionClaimReductionKernel) : Option (List Scalar) :=
  let reversed := kernel.boundChallenges.reverse
  let split := reversed.length / 2
  let (rHi, rLo) := reversed.splitAt split
  let eHi := EqPolynomial.evals rHi none
  let eLo := EqPolynomial.evals rLo none
  tryParSumVecs eHi.length numTables (claimBlock ark kernel.rows.rows eHi eLo)

end OptimizedInstructionClaimReductionKernel

end

namespace OptimizedInstructionClaimReductionKernel

/-- The part of `prove_round` after the bind. -/
def message (kernel : OptimizedInstructionClaimReductionKernel) (round : ℕ) (previousClaim : Scalar) :
    Except (RoundStop Scalar) (UnivariatePoly Scalar × OptimizedInstructionClaimReductionKernel) := do
  let qEvals := kernel.gruen.sampledQEvals points (fun evals => evals.headD 0) [kernel.combined]
  let message ← kernel.gruen.checkedRoundPoly qEvals previousClaim round
  return (message, kernel)

def bind (kernel : OptimizedInstructionClaimReductionKernel) (challenge : Scalar) :
    Except (RoundStop Scalar) OptimizedInstructionClaimReductionKernel := do
  let gruen ← RoundStop.orPanic (kernel.gruen.bind challenge)
  let combined ← RoundStop.orPanic (kernel.combined.bindWithOrder .lowToHigh challenge)
  return { kernel with
    gruen := gruen
    combined := combined
    boundChallenges := kernel.boundChallenges ++ [challenge]
    progress := kernel.progress.advance }

def rounds : RoundKernel Scalar OptimizedInstructionClaimReductionKernel (RoundStop Scalar) := ⟨bind, message⟩

end OptimizedInstructionClaimReductionKernel

/-- The opening values of the relation. -/
structure InstructionClaimReductionOutputClaims where
  lookupOutput : Scalar
  leftLookupOperand : Scalar
  rightLookupOperand : Scalar
  leftInstructionInput : Scalar
  rightInstructionInput : Scalar

def OptimizedInstructionClaimReductionKernel.outputClaims (ark : ArkFr) (kernel : OptimizedInstructionClaimReductionKernel) :
    Except KernelStop InstructionClaimReductionOutputClaims := do
  kernel.progress.requireComplete
  match ← KernelStop.orPanic (kernel.operandClaims ark) with
  | [lookupOutput, leftLookupOperand, rightLookupOperand, leftInstructionInput, rightInstructionInput] =>
      return ⟨lookupOutput, leftLookupOperand, rightLookupOperand, leftInstructionInput, rightInstructionInput⟩
  | _ => .error .panicked

/-! ## The columns -/

/-- The row of a cycle. -/
def rowAt (rows : List InstructionOperandRow) (j : ℕ) : InstructionOperandRow := rows.getD j default

section

variable (rows : List InstructionOperandRow)

def lookupOutput (j : ℕ) : Scalar := ((rowAt rows j).lookupOutput.val : ℕ)

def leftLookupOperand (j : ℕ) : Scalar := ((rowAt rows j).leftLookupOperand.val : ℕ)

def rightLookupOperand (j : ℕ) : Scalar := ((rowAt rows j).rightLookupOperand.val : ℕ)

def leftInstructionInput (j : ℕ) : Scalar := ((rowAt rows j).leftInstructionInput.val : ℕ)

def rightInstructionInput (j : ℕ) : Scalar := ((rowAt rows j).rightInstructionInput.val : ℕ)

/-- The columns, in the order of the output claims. -/
def columns : List (ℕ → Scalar) :=
  [lookupOutput rows, leftLookupOperand rows, rightLookupOperand rows, leftInstructionInput rows, rightInstructionInput rows]

/-- The five operands of a cycle, combined. -/
def combinedAt (gamma : Scalar) (j : ℕ) : Scalar :=
  lookupOutput rows j + gamma * leftLookupOperand rows j + gamma ^ 2 * rightLookupOperand rows j +
    gamma ^ 3 * leftInstructionInput rows j + gamma ^ 4 * rightInstructionInput rows j

/-- The summand of the rounds. -/
def summand (tau : List Scalar) (gamma : Scalar) : List Scalar → Scalar := weighted 1 tau (extension (combinedAt rows gamma))

variable {rows} (ark : ArkFr)

theorem fieldValues_eq (j : ℕ) : fieldValues ark (rowAt rows j) = (columns rows).map fun f => f j := by
  simp only [fieldValues, fieldOfU64_eq, fieldOfU128_eq]
  rfl

/-! ## The combined table -/

/-- Both words of the wide operand. -/
theorem words_eq (value : Mont.U128) : ((value.val : ℕ) : Scalar) = (lowWord value).val + 2 ^ 64 * (highWord value).val := by
  have split : value.val = value.val % 2 ^ 64 + 2 ^ 64 * (value.val / 2 ^ 64) := (Nat.mod_add_div _ _).symm
  rw [lowWord, highWord]
  exact_mod_cast congrArg (Nat.cast (R := Scalar)) split

/-- Sums of products by words are exact. -/
theorem foldl_fmaddU64 {products : List (Scalar × Mont.U64)} (few : products.length ≤ 2 ^ 61) :
    WideAccumulator.result ark (products.foldl (fun acc product => (WideAccumulator.accumulator ark).fmaddU64 acc
        (.ofValue product.1) product.2) (WideAccumulator.accumulator ark).default) =
      some (products.map fun product => product.1 * (product.2.val : Scalar)).sum := by
  have run : products.foldl (fun acc product => (WideAccumulator.accumulator ark).fmaddU64 acc
      (.ofValue product.1) product.2) (WideAccumulator.accumulator ark).default =
      (History.ofCalls (productCalls products)).run (WideAccumulator.accumulator ark) := by
    clear few
    induction products using List.reverseRecOn with
    | nil => rfl
    | append_singleton products p ih =>
        have calls : productCalls (products ++ [p]) = productCalls products ++ [.fmaddU64 (.ofValue p.1) p.2] := List.map_append
        rw [List.foldl_append, ih, List.foldl_cons, List.foldl_nil, calls, History.run_ofCalls_concat]
        rfl
  rw [run, WideAccumulator.result_ofCalls ark (by rwa [productCalls, List.length_map]), productCalls, List.map_map]
  refine congrArg (fun l : List Scalar => some l.sum) (List.map_congr_left fun p _ => ?_)
  rw [Function.comp_apply, Op.value, Fr.value_ofValue]

theorem combine_eq (gamma : Scalar) (j : ℕ) :
    combine ark [1, gamma, gamma * gamma, gamma * gamma * gamma, gamma * gamma * (gamma * gamma)]
      (gamma * gamma * 2 ^ 64) (rowAt rows j) = some (combinedAt rows gamma j) := by
  rw [combine, foldl_fmaddU64 ark (by simp [wordProducts])]
  refine congrArg some ?_
  simp only [wordProducts, List.map_cons, List.map_nil, List.sum_cons, List.sum_nil, List.getD_cons_zero,
    List.getD_cons_succ, combinedAt, lookupOutput, leftLookupOperand, rightLookupOperand, leftInstructionInput,
    rightInstructionInput, words_eq]
  ring

/-- The kernel in step with the coordinates. -/
structure Good (tau : List Scalar) (γ : Scalar) (rows : RowVec 48 InstructionOperandRow)
    (kernel : OptimizedInstructionClaimReductionKernel) (m : ℕ) (low : List Scalar) : Prop where
  free : m + low.length = tau.length
  gruen : LowBound kernel.gruen tau m (1 * equal (tau.drop m) low)
  combined : kernel.combined = tabulatedPolynomial (extension (combinedAt rows.rows γ)) m low
  rows : kernel.rows = rows
  progress : kernel.progress = ⟨low.length, tau.length⟩
  challenges : kernel.boundChallenges = low.reverse

variable {tau : List Scalar} {γ : Scalar} {vec : RowVec 48 InstructionOperandRow}
  {kernel : OptimizedInstructionClaimReductionKernel} {m : ℕ} {low : List Scalar}

theorem new_eq (positive : 0 < tau.length) (all : vec.rows.length = 2 ^ tau.length) (γ : Scalar) :
    ∃ kernel, OptimizedInstructionClaimReductionKernel.new ark tau vec γ = .ok kernel ∧ Good tau γ vec kernel tau.length [] := by
  have few := vec.few (by decide) all
  have bound := lowBound_new (List.length_pos_iff.mp positive) (none : Option Scalar)
  have shift : fieldOfU128 ark ⟨2 ^ 64, Nat.pow_lt_pow_right one_lt_two (by decide)⟩ = 2 ^ 64 := by
    rw [fieldOfU128_eq]
    exact Nat.cast_pow 2 64
  have table : vec.rows.mapM (combine ark [1, γ, γ * γ, γ * γ * γ, γ * γ * (γ * γ)] (γ * γ * 2 ^ 64)) =
      some (listed tau.length (combinedAt vec.rows γ)) := by
    have whole : vec.rows = (List.range (2 ^ tau.length)).map (rowAt vec.rows) :=
      List.ext_getElem (by simp [all]) fun j here _ => by
        rw [List.getElem_map, List.getElem_range, rowAt, List.getD_eq_getElem _ _ here]
    conv_lhs => rw [whole]
    rw [List.mapM_map]
    exact UnivariatePoly.mapM_some fun j _ => combine_eq ark γ j
  refine ⟨⟨.new tau.length, tabulatedPolynomial (extension (combinedAt vec.rows γ)) tau.length [], vec,
    .new tau .lowToHigh, []⟩, ?_, rfl, ?_, rfl, rfl, rfl, rfl⟩
  · rw [OptimizedInstructionClaimReductionKernel.new]
    simp only [if_pos (few.trans (by decide) : tau.length < 64), KernelStop.orPanic_some, KernelStop.ok_bind, all, ne_eq,
      not_true_eq_false, if_false, shift, table, new_listed]
    rfl
  · rw [List.drop_length, equal_nil, mul_one]
    exact bound

/-! ## The rounds -/

theorem bind_eq (good : Good tau γ vec kernel (m + 1) low) (challenge : Scalar) :
    ∃ next, kernel.bind challenge = .ok next ∧ Good tau γ vec next m (challenge :: low) := by
  have free := good.free
  have here : tau[m]? = some tau[m] := List.getElem?_eq_getElem (by omega)
  obtain ⟨gruen, moved, bound⟩ := good.gruen.bind here challenge
  rw [scale_bind 1 challenge here free] at bound
  have table : kernel.combined.bindWithOrder .lowToHigh challenge =
      some (tabulatedPolynomial (extension (combinedAt vec.rows γ)) m (challenge :: low)) := by
    rw [good.combined]
    exact bindLowToHigh_tabulated (multilinear_extension _) m low challenge
  refine ⟨{ kernel with
    gruen := gruen
    combined := tabulatedPolynomial (extension (combinedAt vec.rows γ)) m (challenge :: low)
    boundChallenges := kernel.boundChallenges ++ [challenge]
    progress := kernel.progress.advance }, ?_, by rw [List.length_cons]; omega, bound, rfl, good.rows, ?_, ?_⟩
  · rw [OptimizedInstructionClaimReductionKernel.bind, moved, RoundStop.orPanic_some, RoundStop.ok_bind, table]
    rfl
  · rw [good.progress]
    rfl
  · rw [good.challenges, List.reverse_cons]

/-- The message of a round, exactly from the sum that is left. -/
theorem message_eq (good : Good tau γ vec kernel (m + 1) low) :
    ∃ message, IsRound 2 (summand vec.rows tau γ) m low message.polynomial ∧ ∀ claim round,
      kernel.message round claim =
        if restSum (summand vec.rows tau γ) (m + 1) low = claim then .ok (message, kernel)
        else .error (.roundCheckFailed round claim (restSum (summand vec.rows tau γ) (m + 1) low)) := by
  have multilinear := multilinear_extension (combinedAt vec.rows γ)
  obtain ⟨message, isRound, returned⟩ := checkedRoundPoly_eq (SpartanProduct.distinctNodes (by decide)) good.free good.gruen
    multilinear.degreeIn rfl
  have samples := good.gruen.sampledQEvals_eq points (fun evals => evals.headD 0) [extension (combinedAt vec.rows γ)]
    (f := id) (fun f member => List.mem_singleton.mp member ▸ multilinear) low
  simp only [List.map_cons, List.map_nil, List.headD_cons, id_eq, points] at samples
  refine ⟨message, isRound, fun claim round => ?_⟩
  rw [OptimizedInstructionClaimReductionKernel.message, good.combined, points, samples, returned, ← summand]
  split_ifs <;> rfl

theorem serves (tau : List Scalar) (γ : Scalar) (vec : RowVec 48 InstructionOperandRow) :
    OptimizedInstructionClaimReductionKernel.rounds.Serves 2 (summand vec.rows tau γ) (Good tau γ vec) fun _ _ => True where
  bind := fun good challenge => bind_eq good challenge
  message := fun {state _ _} good _ round => by
    obtain ⟨message, isRound, returned⟩ := message_eq good
    exact ⟨message, state, (returned _ round).trans (if_pos rfl), isRound, good⟩

/-! ## The output claims -/

/-- A block's sums, one for each column. -/
theorem claimBlock_eq {rHi rLo : List Scalar} (all : rows.length = 2 ^ (rHi.length + rLo.length)) {idxHi : ℕ}
    (inside : idxHi < 2 ^ rHi.length) :
    OptimizedInstructionClaimReductionKernel.claimBlock ark rows (EqPolynomial.table 1 rHi) (EqPolynomial.table 1 rLo) idxHi =
      some ((columns rows).map fun f =>
        eqWeight rHi idxHi * ∑ k ∈ range (2 ^ rLo.length), eqWeight rLo k * f (idxHi * 2 ^ rLo.length + k)) := by
  have fits : idxHi * 2 ^ rLo.length + 2 ^ rLo.length ≤ rows.length := by
    rw [all, pow_add, ← Nat.succ_mul]
    exact Nat.mul_le_mul_right _ inside
  have entries : ((rows.drop (idxHi * 2 ^ rLo.length)).take (2 ^ rLo.length)).zip (EqPolynomial.table 1 rLo) =
      (List.range (2 ^ rLo.length)).map fun k => (rowAt rows (idxHi * 2 ^ rLo.length + k), eqWeight rLo k) := by
    rw [take_drop_eq_map default fits, EqPolynomial.table, List.zip_map']
    simp only [one_mul]
    rfl
  have start : List.replicate numTables (0 : Scalar) = (columns rows).map fun _ => 0 := rfl
  have weight : (EqPolynomial.table 1 rHi)[idxHi]? = some (eqWeight rHi idxHi) := by
    have here : idxHi < (EqPolynomial.table 1 rHi).length := by rwa [EqPolynomial.length_table]
    rw [List.getElem?_eq_getElem here, ← List.getD_eq_getElem _ 0, EqPolynomial.getD_table 1 rHi inside, one_mul]
  rw [OptimizedInstructionClaimReductionKernel.claimBlock]
  simp only [EqPolynomial.length_table, if_pos fits, Option.bind_eq_bind, Option.bind_some, entries, weight, start,
    List.foldl_map, Option.pure_def]
  rw [foldl_slots_add (columns rows) (List.range (2 ^ rLo.length))
    fun k f => eqWeight rLo k * f (idxHi * 2 ^ rLo.length + k)]
  · rw [List.map_map]
    refine congrArg some (List.map_congr_left fun f _ => ?_)
    rw [Function.comp_apply, zero_add]
    rfl
  · intro k _ acc
    rw [fieldValues_eq, List.map_map]
    exact mergeVecs_map (columns rows) acc _

theorem operandClaims_eq {point : List Scalar} (all : vec.rows.length = 2 ^ point.length) (holds : kernel.rows = vec)
    (bound : kernel.boundChallenges = point.reverse) :
    kernel.operandClaims ark = some ((columns vec.rows).map fun f => extension f point) := by
  obtain ⟨rHi, rLo, whole, split⟩ : ∃ rHi rLo, point = rHi ++ rLo ∧ point.splitAt (point.length / 2) = (rHi, rLo) :=
    ⟨_, _, (List.take_append_drop _ point).symm, List.splitAt_eq⟩
  rw [whole, List.length_append] at all
  rw [OptimizedInstructionClaimReductionKernel.operandClaims, bound, List.reverse_reverse, holds]
  simp only [split, EqPolynomial.evals_eq, Option.getD_none, EqPolynomial.length_table]
  have width : (columns vec.rows).length = numTables := rfl
  rw [tryParSumVecs_eq width _ fun index inside => claimBlock_eq ark all inside]
  refine congrArg some (List.map_congr_left fun f _ => ?_)
  rw [whole, extension_append_eq_sum]
  refine sum_congr rfl fun a _ => ?_
  rw [mul_sum]
  exact sum_congr rfl fun b _ => by ring

theorem outputClaims_eq {point : List Scalar} (all : vec.rows.length = 2 ^ tau.length) (good : Good tau γ vec kernel 0 point) :
    kernel.outputClaims ark = .ok ⟨extension (lookupOutput vec.rows) point, extension (leftLookupOperand vec.rows) point,
      extension (rightLookupOperand vec.rows) point, extension (leftInstructionInput vec.rows) point,
      extension (rightInstructionInput vec.rows) point⟩ := by
  have count := good.free
  rw [Nat.zero_add] at count
  have complete : kernel.progress.requireComplete = .ok () := by
    rw [good.progress, RoundProgress.requireComplete, if_pos count]
  rw [← count] at all
  rw [OptimizedInstructionClaimReductionKernel.outputClaims, complete, KernelStop.ok_bind,
    operandClaims_eq ark all good.rows good.challenges]
  rfl

/-! ## Runs -/

/-- The messages and the claims of a whole run. -/
structure KernelCorrect (tau : List Scalar) (γ : Scalar) (rows : RowVec 48 InstructionOperandRow) (challenges : List Scalar)
    (kernel : OptimizedInstructionClaimReductionKernel) (messages : List (UnivariatePoly Scalar))
    (final : OptimizedInstructionClaimReductionKernel) : Prop where
  prepared : OptimizedInstructionClaimReductionKernel.new ark tau rows γ = .ok kernel
  table : kernel.combined.evals = listed tau.length (combinedAt rows.rows γ)
  ran : OptimizedInstructionClaimReductionKernel.rounds.proveRounds kernel none 0
    (∑ j ∈ range (2 ^ tau.length), eqWeight tau j * combinedAt rows.rows γ j) challenges = .ok (messages, final)
  count : messages.length = tau.length
  rounds : ∀ i message, messages[i]? = some message →
    IsRound 2 (summand rows.rows tau γ) (tau.length - 1 - i) (challenges.take i).reverse message.polynomial
  outputs : final.outputClaims ark = .ok ⟨extension (lookupOutput rows.rows) challenges.reverse,
    extension (leftLookupOperand rows.rows) challenges.reverse, extension (rightLookupOperand rows.rows) challenges.reverse,
    extension (leftInstructionInput rows.rows) challenges.reverse, extension (rightInstructionInput rows.rows) challenges.reverse⟩
  scalar : final.gruen.currentScalar = equal tau challenges.reverse

/-- The claim: the weights over the cycles. -/
theorem sum_summand (tau : List Scalar) (γ : Scalar) (rows : List InstructionOperandRow) :
    restSum (summand rows tau γ) tau.length [] = ∑ j ∈ range (2 ^ tau.length), eqWeight tau j * combinedAt rows γ j := by
  rw [restSum, cubeSum_eq_sum]
  refine sum_congr rfl fun j member => ?_
  have inside := mem_range.mp member
  rw [List.append_nil, summand, weighted, one_mul, equal, extension_bitPoint _ inside, extension_bitPoint _ inside]

theorem kernel_correct (positive : 0 < tau.length) (all : vec.rows.length = 2 ^ tau.length) (γ : Scalar)
    {challenges : List Scalar} (drawn : challenges.length = tau.length) :
    ∃ kernel messages final, KernelCorrect ark tau γ vec challenges kernel messages final := by
  obtain ⟨kernel, prepared, good⟩ := new_eq ark positive all γ
  obtain ⟨messages, final, ran, count, rounds, done⟩ := (serves tau γ vec).run good drawn.le fun _ _ => trivial
  rw [drawn, Nat.sub_self] at done
  rw [sum_summand] at ran
  refine ⟨kernel, messages, final, prepared, ?_, ran, count.trans drawn, rounds, outputClaims_eq ark all done, ?_⟩
  · rw [good.combined, evals_tabulatedPolynomial]
  · rw [done.gruen.scalar, List.drop_zero, one_mul]

end

end InstructionClaimReduction

/-! ## Both kernels -/

open InstructionInput in
/-- The integers of a pair of rows are exact at every sample, and both kernels run correctly on any rows. -/
theorem instructionKernels_correct (ark : ArkFr) {r challenges : List Scalar} (positive : 0 < r.length)
    (drawn : challenges.length = r.length) (γ : Scalar) :
    (∀ (even odd : InstructionInputRow) (t : ℕ), t < points → ∃ right left,
      nativeSides even odd t = some (right, left) ∧
      right.toInt Limbs.toNat = line even.isRs2.toNat odd.isRs2.toNat t * line even.rs2Value.val odd.rs2Value.val t +
        line even.isImm.toNat odd.isImm.toNat t * line even.imm.1 odd.imm.1 t ∧
      left.toInt Limbs.toNat = line even.isRs1.toNat odd.isRs1.toNat t * line even.rs1Value.val odd.rs1Value.val t) ∧
    (∀ rows : RowVec 48 InstructionInputRow, rows.rows.length = 2 ^ r.length →
      ∃ kernel messages final, InstructionInput.KernelCorrect ark r γ rows challenges kernel messages final) ∧
    ∀ rows : RowVec 48 InstructionClaimReduction.InstructionOperandRow, rows.rows.length = 2 ^ r.length →
      ∃ kernel messages final, InstructionClaimReduction.KernelCorrect ark r γ rows challenges kernel messages final := by
  refine ⟨fun even odd t below => ?_, fun _ all => InstructionInput.kernel_correct ark positive all γ drawn,
    fun _ all => InstructionClaimReduction.kernel_correct ark positive all γ drawn⟩
  rw [points] at below
  have sample : Sample t := ⟨by omega, by omega⟩
  exact ⟨_, _, sample.nativeSides_eq even odd, sample.toInt_right even odd, sample.toInt_left even odd⟩

theorem I128.least_fits : (-2 ^ 127 : ℤ) ≤ -2 ^ 127 ∧ (-2 ^ 127 : ℤ) < 2 ^ 127 := by norm_num

theorem I128.greatest_fits : (-2 ^ 127 : ℤ) ≤ 2 ^ 127 - 1 ∧ (2 ^ 127 - 1 : ℤ) < 2 ^ 127 := by norm_num

/-- The ends of the ranges. -/
def extremeRows : RowVec 48 InstructionInput.InstructionInputRow :=
  ⟨[⟨true, 2 ^ 64 - 1, false, 0, true, ⟨-2 ^ 127, I128.least_fits⟩⟩,
    ⟨false, 0, true, 2 ^ 64 - 1, true, ⟨2 ^ 127 - 1, I128.greatest_fits⟩⟩], by norm_num⟩

def extremeOperands : RowVec 48 InstructionClaimReduction.InstructionOperandRow :=
  ⟨[⟨2 ^ 64 - 1, 0, 2 ^ 128 - 1, 1, 2 ^ 64 - 1⟩, ⟨0, 2 ^ 64 - 1, 2 ^ 64, 2 ^ 64 - 1, 0⟩], by norm_num⟩

theorem instructionKernels_correct_extreme :
    (∃ kernel messages final, InstructionInput.KernelCorrect .reference [2] 3 extremeRows [5] kernel messages final) ∧
    ∃ kernel messages final, InstructionClaimReduction.KernelCorrect .reference [2] 3 extremeOperands [5] kernel messages final :=
  have correct := instructionKernels_correct .reference (by decide : 0 < [(2 : Scalar)].length)
    (rfl : [(5 : Scalar)].length = [(2 : Scalar)].length) 3
  ⟨correct.2.1 extremeRows rfl, correct.2.2 extremeOperands rfl⟩

end JoltWasm
