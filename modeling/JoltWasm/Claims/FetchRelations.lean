import JoltWasm.Claims.BytecodeLanes
import JoltWasm.Claims.CycleRelations
import JoltWasm.Poly.EqPlusOne

/-!
# The relations of the fetch

The bytecode read-RAF check binds what the earlier relations opened of the executed rows to the rows at the places
of the bytecode accesses, in an address and a cycle phase; the shift binds each next pc to the pc of the next cycle.
-/

namespace JoltWasm.Stages

open Lib VerifierStop

variable {F : Type} [Field F]

structure BytecodeReadRafDimensions where
  logT : ℕ
  logK : ℕ
  committedRaPolys : ℕ

/-! ## The address phase -/

/-- The drawn scalars: the batch's and one for each stage. -/
structure BytecodeReadRafAddressPhaseChallenges (F : Type) where
  gamma : F
  stage1Gamma : F
  stage2Gamma : F
  stage3Gamma : F
  stage4Gamma : F
  stage5Gamma : F

def BytecodeReadRafAddressPhaseChallenges.stageGammas (challenges : BytecodeReadRafAddressPhaseChallenges F) : StageGammas F :=
  stageGammaPowers challenges.stage1Gamma challenges.stage2Gamma challenges.stage3Gamma challenges.stage4Gamma
    challenges.stage5Gamma

/-- The openings of the first five stages that the input binds. -/
structure BytecodeReadRafAddressPhaseInputClaims (C : Type) where
  outerImm : C
  outerFlag : RowFlag → C
  outerPc : C
  productBranch : C
  instructionInputImm : C
  leftOperandIsRs1 : C
  rightOperandIsRs2 : C
  rightOperandIsImm : C
  shiftPc : C
  rdWaReadWrite : C
  rs1Ra : C
  rs2Ra : C
  rdWaValEvaluation : C
  instructionRafFlag : C
  /-- By the index of the table. -/
  lookupTableFlags : ℕ → C

namespace BytecodeReadRafAddressPhase

variable (challenges : BytecodeReadRafAddressPhaseChallenges F) (inputs : BytecodeReadRafAddressPhaseInputClaims F)

def stage1Claim : F :=
  RowFlag.all.zipIdx.foldl (fun claim (flag, i) => claim + challenges.stage1Gamma ^ (i + 1) * inputs.outerFlag flag)
    inputs.outerImm

def stage2Claim : F := inputs.productBranch

def stage3Claim : F :=
  inputs.instructionInputImm + challenges.stage3Gamma * inputs.leftOperandIsRs1 +
    challenges.stage3Gamma ^ 2 * inputs.rightOperandIsRs2 + challenges.stage3Gamma ^ 3 * inputs.rightOperandIsImm

def stage4Claim : F :=
  inputs.rdWaReadWrite + challenges.stage4Gamma * inputs.rs1Ra + challenges.stage4Gamma ^ 2 * inputs.rs2Ra

def stage5Claim : F :=
  (List.range WasmTable.count).foldl (fun claim i => claim + challenges.stage5Gamma ^ (i + 2) * inputs.lookupTableFlags i)
    (inputs.rdWaValEvaluation + challenges.stage5Gamma * inputs.instructionRafFlag)

/-- `read_raf_address_input_fold` without extra stages. -/
def inputExpression : F :=
  let gamma := challenges.gamma
  gamma ^ (5 + 2) + stage1Claim challenges inputs + gamma * stage2Claim inputs + gamma ^ 2 * stage3Claim challenges inputs +
    gamma ^ 3 * stage4Claim challenges inputs + gamma ^ 4 * stage5Claim challenges inputs + gamma ^ 5 * inputs.outerPc +
    gamma ^ (5 + 1) * inputs.shiftPc

def outputExpression (intermediate : F) : F := intermediate

def deriveOpeningPoints (sumcheckPoint : List F) : List F := sumcheckPoint.reverse

/-- The claim that the phase leaves, as a function of its point. -/
def summand (intermediate : List F → F) (sumcheckPoint : List F) : RelationM F :=
  return outputExpression (intermediate (deriveOpeningPoints sumcheckPoint))

end BytecodeReadRafAddressPhase

/-! ## The cycle phase -/

/-- What the fold of the bytecode table reads; the register points are the address parts of the openings. -/
structure BytecodeReadRafTableFoldInputs (F : Type) where
  bytecode : List BytecodeRow
  registerReadWritePoint : List F
  registerValEvaluationPoint : List F
  stageGammas : StageGammas F

/-- The check of full mode, with the values of the stages at the address. -/
structure BytecodeReadRaf (F : Type) where
  dimensions : BytecodeReadRafDimensions
  rAddress : List F
  stageCyclePoints : Fin 5 → List F
  entryBytecodeIndex : ℕ
  committedChunkBits : ℕ
  stageValuesAtRAddress : Option (Fin 5 → F)

namespace BytecodeReadRaf

/-- `fold_stage_values`: the table must have one row for each address. -/
def foldStageValues (rAddress : List F) (fold : BytecodeReadRafTableFoldInputs F) : RelationM (Fin 5 → F) :=
  if 64 ≤ rAddress.length then inputFailed .bytecodeReadRaf "bytecode address domain overflows"
  else
    let expectedDomain := 2 ^ rAddress.length
    if fold.bytecode.length ≠ expectedDomain then
      inputFailed .bytecodeReadRaf
        s!"bytecode table has {fold.bytecode.length} rows, expected the address domain {expectedDomain}"
    else .ok (JoltWasm.foldStageValues rAddress
      (readRafStageValues fold.bytecode fold.registerReadWritePoint fold.registerValEvaluationPoint fold.stageGammas))

/-- The fold is there only in clear mode. -/
def new (dimensions : BytecodeReadRafDimensions) (rAddress : List F) (stageCyclePoints : Fin 5 → List F)
    (entryBytecodeIndex committedChunkBits : ℕ) (tableFold : Option (BytecodeReadRafTableFoldInputs F)) :
    RelationM (BytecodeReadRaf F) := do
  let stageValuesAtRAddress ← tableFold.mapM (foldStageValues rAddress)
  return ⟨dimensions, rAddress, stageCyclePoints, entryBytecodeIndex, committedChunkBits, stageValuesAtRAddress⟩

variable (this : BytecodeReadRaf F)

def inputExpression (intermediate : F) : F := intermediate

def deriveOpeningPoints (sumcheckPoint : List F) : List (List F) :=
  chunkOpeningPoints this.rAddress this.committedChunkBits sumcheckPoint.reverse

/-- `r_cycle_suffix`. -/
def rCycleSuffix (logT : ℕ) (openingPoint : List F) : RelationM (List F) :=
  if openingPoint.length < logT then inputFailed .bytecodeReadRaf "bytecode cycle opening point shorter than log_t"
  else .ok (openingPoint.drop (openingPoint.length - logT))

/-- `expected_output_from_publics`. -/
def expectedOutputFromPublics (publicValues : BytecodeReadRafPublicValues F) (bytecodeRa : List F) (gamma : F) : RelationM F :=
  if bytecodeRa.length ≠ this.dimensions.committedRaPolys then
    inputFailed .bytecodeReadRaf (s!"bytecode RA claim count mismatch: expected {this.dimensions.committedRaPolys}, " ++
      s!"got {bytecodeRa.length}")
  else .ok (readRafCycleOutput gamma publicValues bytecodeRa)

def expectedOutput (gamma : F) (points : List (List F)) (bytecodeRa : List F) : RelationM F :=
  match points.head? with
  | none => inputFailed .bytecodeReadRaf "bytecode cycle produced no openings"
  | some openingPoint => do
      let rCycle ← rCycleSuffix this.dimensions.logT openingPoint
      match this.stageValuesAtRAddress with
      | none => inputFailed .bytecodeReadRaf "bytecode table fold is unavailable"
      | some stageValues =>
          let committed := readRafCommittedPublicValues this.rAddress rCycle this.stageCyclePoints this.entryBytecodeIndex
          this.expectedOutputFromPublics ⟨fun stage => stageValues stage * committed.stageCycleEqs stage,
            committed.spartanOuterRaf, committed.spartanShiftRaf, committed.entry⟩ bytecodeRa gamma

def summand (gamma : F) (bytecodeRa : ℕ → List F → F) (sumcheckPoint : List F) : RelationM F :=
  let points := this.deriveOpeningPoints sumcheckPoint
  this.expectedOutput gamma points (points.zipIdx.map fun (point, i) => bytecodeRa i point)

theorem summand_openings (gamma : F) (bytecodeRa : ℕ → List F → F) (sumcheckPoint : List F) :
    this.summand gamma bytecodeRa sumcheckPoint = this.expectedOutput gamma (this.deriveOpeningPoints sumcheckPoint)
      ((this.deriveOpeningPoints sumcheckPoint).zipIdx.map fun entry => bytecodeRa entry.2 entry.1) := rfl

end BytecodeReadRaf

/-! ## The shift -/

structure SpartanShift (F : Type) where
  traceDimensions : TraceDimensions
  productUniskipTauLow : List F

namespace SpartanShift

variable (this : SpartanShift F)

def inputExpression (nextPc : F) : F := nextPc

def outputExpression (eqPlusOneOuter pc : F) : F := eqPlusOneOuter * pc

def deriveOpeningPoints (sumcheckPoint : List F) : List F := sumcheckPoint.reverse

/-- `EqPlusOnePolynomial::evaluate` of another dimension panics. -/
def eqPlusOneOuter (openingPoint : List F) : RelationM F :=
  match EqPlusOnePolynomial.evaluate ⟨this.productUniskipTauLow⟩ openingPoint with
  | some value => .ok value
  | none => .error (.panicked "point length mismatch")

def summand (pc : List F → F) (sumcheckPoint : List F) : RelationM F := do
  let point := deriveOpeningPoints sumcheckPoint
  let eqPlusOneOuter ← this.eqPlusOneOuter point
  return outputExpression eqPlusOneOuter (pc point)

end SpartanShift

end JoltWasm.Stages
