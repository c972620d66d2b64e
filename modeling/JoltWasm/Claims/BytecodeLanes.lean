import Mathlib.Data.Fin.VecNotation
import JoltWasm.Claims.Precommitted
import JoltWasm.Ir.Bytecode
import JoltWasm.Lib.Scatter
import JoltWasm.Poly.Mle
import JoltWasm.Tables.Catalog

/-!
# The committed bytecode and its claim reduction

In full mode the verifier folds the public bytecode rows into the stage values of the read-RAF check.  In
committed mode the rows are lanes of committed chunk grids, the stage values are claims, and the
reduction batches them into openings of the chunks with one weight for each lane.
-/

namespace JoltWasm

open Lib

def registerAddressBits : ℕ := 7

/-! ## Lanes -/

/-- Lane offsets of the row encoding. -/
structure BytecodeLaneLayout where
  rs1Start : ℕ
  rs2Start : ℕ
  rdStart : ℕ
  pcIdx : ℕ
  immIdx : ℕ
  flagStart : ℕ
  lookupStart : ℕ
  rafFlagIdx : ℕ

/-- `REGISTER_COUNT`. -/
def laneRegisterCount : ℕ := 2 ^ registerAddressBits

def totalLanes : ℕ := 3 * laneRegisterCount + 2 + RowFlag.count + WasmTable.count + 1

def committedLaneVars : ℕ := Nat.clog 2 totalLanes

/-- `total_lanes().next_power_of_two()`. -/
def committedBytecodeLaneCapacity : ℕ := 2 ^ committedLaneVars

def bytecodeLaneLayout : BytecodeLaneLayout :=
  let rs1Start := 0
  let rs2Start := rs1Start + laneRegisterCount
  let rdStart := rs2Start + laneRegisterCount
  let pcIdx := rdStart + laneRegisterCount
  let immIdx := pcIdx + 1
  let flagStart := immIdx + 1
  let lookupStart := flagStart + RowFlag.count
  let rafFlagIdx := lookupStart + WasmTable.count
  ⟨rs1Start, rs2Start, rdStart, pcIdx, immIdx, flagStart, lookupStart, rafFlagIdx⟩

def numBytecodeValStages : ℕ := 5

def maxCommittedBytecodeChunkCount : ℕ := 256

def isValidChunkCount (chunkCount : ℕ) : Bool :=
  decide (0 < chunkCount) && decide (chunkCount ≤ maxCommittedBytecodeChunkCount) &&
    decide (2 ^ chunkCount.log2 = chunkCount)

def isValidCommittedBytecodeChunkingForLen (bytecodeLen chunkCount : ℕ) : Bool :=
  isValidChunkCount chunkCount && decide (2 ^ bytecodeLen.log2 = bytecodeLen) &&
    decide (bytecodeLen % chunkCount = 0)

/-- Lengths of the gamma powers of the five stages. -/
def bytecodeStageGammaCounts : List ℕ := [1 + RowFlag.count, 1, 4, 3, 2 + WasmTable.count]

/-- The gamma powers of the five stages. -/
structure StageGammas (F : Type) where
  stage1 : List F
  stage2 : List F
  stage3 : List F
  stage4 : List F
  stage5 : List F

section

variable {F : Type} [Field F]

/-- `[1, γ, γ², …]`. -/
def gammaPowers (count : ℕ) (gamma : F) : List F := List.iterate (· * gamma) 1 count

/-- The powers of the five drawn scalars. -/
def stageGammaPowers (gamma1 gamma2 gamma3 gamma4 gamma5 : F) : StageGammas F where
  stage1 := gammaPowers (bytecodeStageGammaCounts.getD 0 0) gamma1
  stage2 := gammaPowers (bytecodeStageGammaCounts.getD 1 0) gamma2
  stage3 := gammaPowers (bytecodeStageGammaCounts.getD 2 0) gamma3
  stage4 := gammaPowers (bytecodeStageGammaCounts.getD 3 0) gamma4
  stage5 := gammaPowers (bytecodeStageGammaCounts.getD 4 0) gamma5

def requireStageGammas (gammas : StageGammas F) : Except JoltFormulaPointError Unit := do
  requireLen gammas.stage1 (bytecodeStageGammaCounts.getD 0 0)
  requireLen gammas.stage2 (bytecodeStageGammaCounts.getD 1 0)
  requireLen gammas.stage3 (bytecodeStageGammaCounts.getD 2 0)
  requireLen gammas.stage4 (bytecodeStageGammaCounts.getD 3 0)
  requireLen gammas.stage5 (bytecodeStageGammaCounts.getD 4 0)

structure BytecodeLaneWeightInputs (F : Type) where
  eta : F
  gammas : StageGammas F
  registerReadWritePoint : List F
  registerValEvaluationPoint : List F

/-- One weight for each lane: the five stages, batched by powers of `eta`. -/
def laneWeights (inputs : BytecodeLaneWeightInputs F) : Except JoltFormulaPointError (List F) := do
  requireStageGammas inputs.gammas
  requireOpeningPointLen inputs.registerReadWritePoint registerAddressBits
  requireOpeningPointLen inputs.registerValEvaluationPoint registerAddressBits
  let etaPowers := gammaPowers numBytecodeValStages inputs.eta
  let layout := bytecodeLaneLayout
  let registerReadWriteEq := eqEvals (inputs.registerReadWritePoint.take registerAddressBits)
  let registerValEvaluationEq := eqEvals (inputs.registerValEvaluationPoint.take registerAddressBits)
  let weights := List.replicate committedBytecodeLaneCapacity 0
  let coeff := etaPowers.getD 0 0
  let g := inputs.gammas.stage1
  let weights := scatter weights ((layout.immIdx, coeff * g.getD 0 0) ::
    (List.range RowFlag.count).map fun i => (layout.flagStart + i, coeff * g.getD (1 + i) 0))
  let coeff := etaPowers.getD 1 0
  let g := inputs.gammas.stage2
  let weights := scatter weights [(layout.flagStart + RowFlag.branch.bit, coeff * g.getD 0 0)]
  let coeff := etaPowers.getD 2 0
  let g := inputs.gammas.stage3
  let weights := scatter weights [(layout.immIdx, coeff * g.getD 0 0),
    (layout.flagStart + RowFlag.leftIsRs1.bit, coeff * g.getD 1 0),
    (layout.flagStart + RowFlag.rightIsRs2.bit, coeff * g.getD 2 0),
    (layout.flagStart + RowFlag.rightIsImm.bit, coeff * g.getD 3 0)]
  let coeff := etaPowers.getD 3 0
  let g := inputs.gammas.stage4
  let weights := scatter weights ((List.range laneRegisterCount).flatMap fun r =>
    [(layout.rdStart + r, coeff * g.getD 0 0 * registerReadWriteEq.getD r 0),
      (layout.rs1Start + r, coeff * g.getD 1 0 * registerReadWriteEq.getD r 0),
      (layout.rs2Start + r, coeff * g.getD 2 0 * registerReadWriteEq.getD r 0)])
  let coeff := etaPowers.getD 4 0
  let g := inputs.gammas.stage5
  let weights := scatter weights ((List.range laneRegisterCount).map fun r =>
    (layout.rdStart + r, coeff * g.getD 0 0 * registerValEvaluationEq.getD r 0))
  let weights := scatter weights [(layout.rafFlagIdx, coeff * g.getD 1 0)]
  let weights := scatter weights ((List.range WasmTable.count).map fun i =>
    (layout.lookupStart + i, coeff * g.getD (2 + i) 0))
  return weights

/-- The catalog table id that a row commits to. -/
def bytecodeTableId (row : BytecodeRow) : Option ℕ := row.tableOp.map fun op => (WasmTable.of op).index

/-- The nonzero lanes of a row, with their values. -/
def activeLaneValues [DecidableEq F] (pc : ℕ) (row : BytecodeRow) : List (ℕ × F) :=
  let layout := bytecodeLaneLayout
  let register (start id : ℕ) : List (ℕ × F) := if id ≠ registerNone then [(start + id, 1)] else []
  let nonzero (lane : ℕ) (v : F) : List (ℕ × F) := if v = 0 then [] else [(lane, v)]
  register layout.rs1Start row.rs1 ++ register layout.rs2Start row.rs2 ++
    register layout.rdStart row.rd ++ nonzero layout.pcIdx (pc : F) ++
    nonzero layout.immIdx (row.immSigned : F) ++
    (RowFlag.all.zipIdx.filterMap fun (flag, index) =>
      if row.flags.has flag then some (layout.flagStart + index, (1 : F)) else none) ++
    ((bytecodeTableId row).toList.map fun table => (layout.lookupStart + table, (1 : F))) ++
    (if row.rafFlag then [(layout.rafFlagIdx, (1 : F))] else [])

/-- One chunk's coefficient grid; the first row stands at `firstPc`. -/
def buildCommittedBytecodeChunk [DecidableEq F] (rows : List BytecodeRow) (firstPc : ℕ)
    (order : TracePolynomialOrder) : List F :=
  let chunkCycleLen := rows.length
  let laneCapacity := committedBytecodeLaneCapacity
  rows.zipIdx.foldl (fun coeffs (row, chunkCycle) =>
    scatter coeffs ((activeLaneValues (firstPc + chunkCycle) row).map fun (lane, value) =>
      (order.addressCycleToIndex lane chunkCycle laneCapacity chunkCycleLen, value)))
    (List.replicate (laneCapacity * chunkCycleLen) 0)

/-- `instructions.chunks(n)`: the first `n`, the next `n`, and so on. -/
def chunksOf {α : Type} (n : ℕ) (items : List α) : List (List α) :=
  (List.range ((items.length + n - 1) / n)).map fun chunk => (items.drop (chunk * n)).take n

/-- The grids of all chunks, or the error of an invalid chunking. -/
def buildCommittedBytecodeChunkCoeffs [DecidableEq F] (instructions : List BytecodeRow)
    (chunkCount : ℕ) (order : TracePolynomialOrder) : Except JoltFormulaPointError (List (List F)) :=
  let bytecodeLen := instructions.length
  if isValidCommittedBytecodeChunkingForLen bytecodeLen chunkCount = false then
    .error (.invalidBytecodeChunking bytecodeLen chunkCount)
  else
    let chunkCycleLen := bytecodeLen / chunkCount
    .ok ((chunksOf chunkCycleLen instructions).zipIdx.map fun (rows, chunk) =>
      buildCommittedBytecodeChunk rows (chunk * chunkCycleLen) order)

/-! ## The layout of the reduction -/

structure BytecodeClaimReductionLayout where
  chunkShape : CommitmentMatrixShape
  precommitted : PrecommittedClaimReduction
  traceOrder : TracePolynomialOrder
  chunkCount : ℕ
  logBytecodeChunkSize : ℕ
  droppedAddressBits : ℕ

/-- The weights that the reduction folds the chunks with. -/
structure BytecodeReductionWeights (F : Type) where
  rBc : List F
  chunkRbcWeights : List F
  laneWeights : List F

namespace BytecodeClaimReductionLayout

def balanced (traceOrder : TracePolynomialOrder) (logT : ℕ)
    (schedulingReference : PrecommittedSchedulingReference) (bytecodeLen chunkCount : ℕ) :
    Except JoltFormulaPointError BytecodeClaimReductionLayout :=
  if isValidCommittedBytecodeChunkingForLen bytecodeLen chunkCount = false then
    .error (.invalidBytecodeChunking bytecodeLen chunkCount)
  else do
    let logBytecodeChunkSize := (bytecodeLen / chunkCount).log2
    let droppedAddressBits := bytecodeLen.log2 - logBytecodeChunkSize
    let chunkShape := CommitmentMatrixShape.balanced (committedLaneVars + logBytecodeChunkSize)
    let precommitted ← PrecommittedClaimReduction.new chunkShape.rowVars chunkShape.columnVars
      schedulingReference traceOrder logT
    return ⟨chunkShape, precommitted, traceOrder, chunkCount, logBytecodeChunkSize,
      droppedAddressBits⟩

variable (layout : BytecodeClaimReductionLayout)

/-- The weights of the chunks over the dropped address bits, and the point inside a chunk. -/
def splitAddressPoint (rBcFull : List F) : Except JoltFormulaPointError (List F × List F) :=
  let expected := layout.droppedAddressBits + layout.logBytecodeChunkSize
  if rBcFull.length ≠ expected then .error (.openingPointLengthMismatch expected rBcFull.length)
  else
    let chunkRbcWeights :=
      if layout.droppedAddressBits = 0 then [1] else eqEvals (rBcFull.take layout.droppedAddressBits)
    .ok (chunkRbcWeights, rBcFull.drop layout.droppedAddressBits)

/-- `bytecode_reduction_weights`. -/
def reductionWeights (laneInputs : BytecodeLaneWeightInputs F) (bytecodeRAddress : List F) :
    Except JoltFormulaPointError (BytecodeReductionWeights F) := do
  let (chunkRbcWeights, rBc) ← layout.splitAddressPoint bytecodeRAddress
  let laneWeights ← laneWeights laneInputs
  return ⟨rBc, chunkRbcWeights, laneWeights⟩

/-- The lane weights and the cycle equality at a point of the chunk grid. -/
def eqCombined (inputs : BytecodeReductionWeights F) (openingPoint : List F) :
    Except JoltFormulaPointError F :=
  let expected := committedLaneVars + layout.logBytecodeChunkSize
  if openingPoint.length ≠ expected then
    .error (.openingPointLengthMismatch expected openingPoint.length)
  else if inputs.rBc.length ≠ layout.logBytecodeChunkSize then
    .error (.openingPointLengthMismatch layout.logBytecodeChunkSize inputs.rBc.length)
  else if inputs.laneWeights.length ≠ committedBytecodeLaneCapacity then
    .error (.evaluationDomainLengthMismatch committedBytecodeLaneCapacity inputs.laneWeights.length)
  else
    let (laneChallenges, cycleChallenges) :=
      match layout.traceOrder with
      | .cycleMajor => (openingPoint.take committedLaneVars, openingPoint.drop committedLaneVars)
      | .addressMajor => (openingPoint.drop layout.logBytecodeChunkSize,
          openingPoint.take layout.logBytecodeChunkSize)
    let eqCycle := eqMle cycleChallenges inputs.rBc
    let laneWeightEval := (List.zipWith (· * ·) inputs.laneWeights (eqEvals laneChallenges)).sum
    .ok (laneWeightEval * eqCycle)

def chunkOutputWeights (chunkRbcWeights : List F) (scale : F) :
    Except JoltFormulaPointError (List F) :=
  if chunkRbcWeights.length ≠ layout.chunkCount then
    .error (.evaluationDomainLengthMismatch layout.chunkCount chunkRbcWeights.length)
  else .ok (chunkRbcWeights.map (· * scale))

/-- The output weights of a reduction that ends with the cycle phase. -/
def cyclePhaseFinalOutputWeightsAtOpeningPoint (inputs : BytecodeReductionWeights F)
    (openingPoint : List F) : Except JoltFormulaPointError (List F) := do
  let permuted ← layout.precommitted.cyclePhasePermutedFromOpeningPoint openingPoint
  let combined ← layout.eqCombined inputs permuted
  layout.chunkOutputWeights inputs.chunkRbcWeights
    (combined * layout.precommitted.cyclePhaseSkipScale)

/-- The output weights of a reduction that ends with the address phase. -/
def addressPhaseFinalOutputWeightsAtOpeningPoint (inputs : BytecodeReductionWeights F)
    (openingPoint : List F) : Except JoltFormulaPointError (List F) := do
  let combined ← layout.eqCombined inputs openingPoint
  layout.chunkOutputWeights inputs.chunkRbcWeights
    (combined * layout.precommitted.precommittedSkipRoundScale)

/-- The kernel's lane and equality template. -/
def eqTemplate (weights : BytecodeReductionWeights F) : List F :=
  let chunkCycleLen := 2 ^ layout.logBytecodeChunkSize
  let eqCycle := eqEvals weights.rBc
  (List.range (committedBytecodeLaneCapacity * chunkCycleLen)).map fun index =>
    let (lane, cycle) := layout.traceOrder.indexToAddressCycle index committedBytecodeLaneCapacity
      chunkCycleLen
    weights.laneWeights.getD lane 0 * eqCycle.getD cycle 0

/-- The kernel's chunk-weighted values. -/
def valueTable (weights : BytecodeReductionWeights F) (chunkCoeffs : List (List F)) : List F :=
  (List.range (committedBytecodeLaneCapacity * 2 ^ layout.logBytecodeChunkSize)).map fun index =>
    (List.zipWith (fun coeffs weight => coeffs.getD index 0 * weight) chunkCoeffs
      weights.chunkRbcWeights).sum

end BytecodeClaimReductionLayout

/-! ## The read-RAF values of the rows -/

/-- The equality of a register with a point, zero where there is no register. -/
def registerEq (id : ℕ) (eq : List F) : F :=
  ((if id ≠ registerNone then some id else none).bind (eq[·]?)).getD 0

/-- The five stage values of a row. -/
def readRafRowValues (row : BytecodeRow) (registerReadWriteEq registerValEvaluationEq : List F)
    (gammas : StageGammas F) : Fin 5 → F :=
  let flags := row.flags
  let imm : F := row.immSigned
  let stage1 := RowFlag.all.zipIdx.foldl (fun stage1 (flag, index) =>
    if flags.has flag then stage1 + gammas.stage1.getD (index + 1) 0 else stage1) imm
  let stage2 := if flags.has .branch then 0 + gammas.stage2.getD 0 0 else 0
  let stage3 := imm
  let stage3 := if flags.has .leftIsRs1 then stage3 + gammas.stage3.getD 1 0 else stage3
  let stage3 := if flags.has .rightIsRs2 then stage3 + gammas.stage3.getD 2 0 else stage3
  let stage3 := if flags.has .rightIsImm then stage3 + gammas.stage3.getD 3 0 else stage3
  let stage4 := registerEq row.rd registerReadWriteEq * gammas.stage4.getD 0 0 +
    registerEq row.rs1 registerReadWriteEq * gammas.stage4.getD 1 0 +
    registerEq row.rs2 registerReadWriteEq * gammas.stage4.getD 2 0
  let stage5 := registerEq row.rd registerValEvaluationEq
  let stage5 := if row.rafFlag then stage5 + gammas.stage5.getD 1 0 else stage5
  let stage5 :=
    match row.tableOp with
    | some op => stage5 + gammas.stage5.getD (2 + (WasmTable.of op).index) 0
    | none => stage5
  ![stage1, stage2, stage3, stage4, stage5]

/-- The stage values of every row. -/
def readRafStageValues (bytecode : List BytecodeRow)
    (registerReadWritePoint registerValEvaluationPoint : List F) (gammas : StageGammas F) :
    List (Fin 5 → F) :=
  bytecode.map fun row => readRafRowValues row (eqEvals registerReadWritePoint)
    (eqEvals registerValEvaluationPoint) gammas

/-- The rows' stage values folded against the address. -/
def foldStageValues (rAddress : List F) (rowValues : List (Fin 5 → F)) : Fin 5 → F :=
  (rowValues.zip (eqEvals rAddress)).foldl
    (fun stageValues (rowValues, eqAddress) stage => stageValues stage + rowValues stage * eqAddress)
    fun _ => 0

/-- `IdentityPolynomial::evaluate`. -/
def identityEvaluate (point : List F) : F :=
  point.zipIdx.foldl (fun acc (r, i) => acc + r * 2 ^ (point.length - 1 - i)) 0

/-- The public factors that need no bytecode: the two of the pc and the one of the entry. -/
def readRafRafEntryPublics (rAddress rCycle : List F) (outerStageCycleEq shiftStageCycleEq : F)
    (entryBytecodeIndex : ℕ) : F × F × F :=
  let identity := identityEvaluate rAddress
  let entryBits := (List.range rAddress.length).map fun i =>
    (((entryBytecodeIndex >>> (rAddress.length - 1 - i)) &&& 1 : ℕ) : F)
  let zeroCycle := List.replicate rCycle.length (0 : F)
  (identity * outerStageCycleEq, identity * shiftStageCycleEq,
    eqMle entryBits rAddress * eqMle zeroCycle rCycle)

structure BytecodeReadRafPublicValues (F : Type) where
  stageValues : Fin 5 → F
  spartanOuterRaf : F
  spartanShiftRaf : F
  entry : F

/-- The public values of full mode: each stage's fold times its cycle equality. -/
def readRafPublicValues (bytecode : List BytecodeRow) (rAddress rCycle : List F)
    (stageCyclePoints : Fin 5 → List F) (registerReadWritePoint registerValEvaluationPoint : List F)
    (gammas : StageGammas F) (entryBytecodeIndex : ℕ) :
    Except JoltFormulaPointError (BytecodeReadRafPublicValues F) := do
  requireStageGammas gammas
  let expectedDomain := 2 ^ rAddress.length
  if bytecode.length ≠ expectedDomain then
    .error (.evaluationDomainLengthMismatch expectedDomain bytecode.length)
  let stageValues := foldStageValues rAddress
    (readRafStageValues bytecode registerReadWritePoint registerValEvaluationPoint gammas)
  let stageCycleEqs (stage : Fin 5) := eqMle (stageCyclePoints stage) rCycle
  let (outer, shift, entry) := readRafRafEntryPublics rAddress rCycle (stageCycleEqs 0)
    (stageCycleEqs 2) entryBytecodeIndex
  return ⟨fun stage => stageValues stage * stageCycleEqs stage, outer, shift, entry⟩

structure BytecodeReadRafCommittedPublicValues (F : Type) where
  stageCycleEqs : Fin 5 → F
  spartanOuterRaf : F
  spartanShiftRaf : F
  entry : F

/-- The public values of committed mode. -/
def readRafCommittedPublicValues (rAddress rCycle : List F) (stageCyclePoints : Fin 5 → List F)
    (entryBytecodeIndex : ℕ) : BytecodeReadRafCommittedPublicValues F :=
  let stageCycleEqs (stage : Fin 5) := eqMle (stageCyclePoints stage) rCycle
  let (outer, shift, entry) := readRafRafEntryPublics rAddress rCycle (stageCycleEqs 0)
    (stageCycleEqs 2) entryBytecodeIndex
  ⟨stageCycleEqs, outer, shift, entry⟩

/-- The expected output of full mode: the public values times the product of the RA openings. -/
def readRafCycleOutput (gamma : F) (publics : BytecodeReadRafPublicValues F) (bytecodeRa : List F) :
    F :=
  let outputCoeff := (List.finRange 5).foldl
    (fun coeff stage => coeff + gamma ^ stage.val * publics.stageValues stage) 0
  let outputCoeff := outputCoeff + gamma ^ 5 * publics.spartanOuterRaf +
    gamma ^ (5 + 1) * publics.spartanShiftRaf + gamma ^ (5 + 2) * publics.entry
  outputCoeff * bytecodeRa.foldl (· * ·) 1

/-- The expected output of committed mode, with the claimed stage values. -/
def readRafCycleOutputCommitted (gamma : F) (publics : BytecodeReadRafCommittedPublicValues F)
    (bytecodeValClaims : Fin 5 → F) (bytecodeRa : List F) : F :=
  let output := (List.finRange 5).foldl (fun output stage =>
    output + gamma ^ stage.val * publics.stageCycleEqs stage * bytecodeRa.foldl (· * ·) 1 *
      bytecodeValClaims stage) 0
  let rafCoeff := gamma ^ 5 * publics.spartanOuterRaf + gamma ^ (5 + 1) * publics.spartanShiftRaf +
    gamma ^ (5 + 2) * publics.entry
  output + rafCoeff * bytecodeRa.foldl (· * ·) 1

/-- The reduction's input claim: the claimed stage values, batched by `eta`. -/
def reductionInputClaim (eta : F) (bytecodeValClaims : Fin 5 → F) : F :=
  (List.finRange 5).foldl (fun input stage => input + eta ^ stage.val * bytecodeValClaims stage) 0

end

end JoltWasm
