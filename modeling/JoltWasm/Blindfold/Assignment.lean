import JoltWasm.Blindfold.Relaxed
import JoltWasm.Blindfold.StageChecks

/-!
# Witness assembly

A protocol is a validated statement with its constraints, its layout and its dimensions.  The prover assigns the
variables of the layout from the witnesses of the stages, solves the products in the order of their constraints, and
slices the result into rows with their blindings.
-/

namespace JoltWasm.Blindfold

open R1cs Lib

structure RowDimensions where
  rowLen : ℕ
  rowCount : ℕ
  deriving DecidableEq

structure RowRange where
  start : ℕ
  stop : ℕ
  deriving DecidableEq

structure WitnessRowLayout where
  coefficients : RowRange
  outputClaims : RowRange
  auxiliary : RowRange
  padding : RowRange
  deriving DecidableEq

structure BlindFoldDimensions where
  witness : RowDimensions
  error : RowDimensions
  witnessRows : WitnessRowLayout
  coefficientRows : ℕ
  outputClaimRows : ℕ
  auxiliaryRows : ℕ
  coefficientValues : ℕ
  auxiliaryValues : ℕ
  deriving DecidableEq

structure BlindFoldProtocol (F Com : Type) where
  /-- The rounds of the stages. -/
  sumcheckConsistency : List (List (VerifiedCommittedRound F Com))
  committedOutputClaims : List (List Com)
  r1cs : ConstraintMatrices F
  layout : Layout
  dimensions : BlindFoldDimensions
  evalCommitments : List Com

structure CommittedSumcheckWitness (F : Type) where
  roundCoefficients : List (List F)
  roundBlindings : List F
  outputClaimRows : List (List F)
  outputClaimBlindings : List F

structure AssignedBlindFoldWitness (F : Type) where
  rows : List (List F)
  blindings : List F
  deriving DecidableEq

inductive AssignmentError (F : Type) where
  | lengthMismatch (name : String) (expected actual : ℕ)
  | stageWitnessShape (stageIndex : ℕ) (name : String) (expected actual : ℕ)
  | degenerateSumcheck (name : String)
  | sumcheck (source : SumcheckError F)
  | witnessVariableOutOfBounds (index : ℕ)
  | witnessVariableReassigned (index : ℕ)
  | unsolvableProduct (constraint : ℕ)
  deriving DecidableEq

/-! ## Dimensions -/

def checkedMul (name : String) (lhs rhs : ℕ) : Except BlindFoldError ℕ :=
  if usizeMax < lhs * rhs then .error (.dimensionOverflow name lhs) else .ok (lhs * rhs)

def checkedSum (name : String) (values : List ℕ) : Except BlindFoldError ℕ :=
  values.foldlM (fun sum value =>
    if usizeMax < sum + value then .error (.dimensionOverflow name sum) else .ok (sum + value)) 0

def checkedPowerOfTwo (name : String) (value : ℕ) : Except BlindFoldError ℕ :=
  match checkedNextPowerOfTwo value with
  | some power => .ok power
  | none => .error (.dimensionOverflow name value)

def WitnessRowLayout.fromCounts (coefficientRows outputClaimRows auxiliaryRows witnessRowCount : ℕ) :
    Except BlindFoldError WitnessRowLayout := do
  let auxiliaryStart ← checkedSum "witness row layout" [coefficientRows, outputClaimRows]
  let paddingStart ← checkedSum "witness row layout" [coefficientRows, auxiliaryRows, outputClaimRows]
  if witnessRowCount < paddingStart then
    .error (.inconsistentDimensions "witness row layout" witnessRowCount paddingStart)
  else
    .ok ⟨⟨0, coefficientRows⟩, ⟨coefficientRows, auxiliaryStart⟩, ⟨auxiliaryStart, paddingStart⟩,
      ⟨paddingStart, witnessRowCount⟩⟩

section

variable {F O Com P Ch : Type}

def Layout.dimensions (layout : Layout) (r1cs : ConstraintMatrices F)
    (sumcheckConsistency : List (List (VerifiedCommittedRound F Com))) (outputClaims : List (List Com)) :
    Except BlindFoldError BlindFoldDimensions := do
  let totalRounds ← checkedSum "total rounds" (sumcheckConsistency.map List.length)
  let coefficientValues ← checkedMul "coefficient values" totalRounds layout.witnessRowLen
  let outputClaimRows ← checkedSum "output claim rows" (outputClaims.map List.length)
  let outputClaimValues ← checkedMul "output claim values" outputClaimRows layout.witnessRowLen
  let r1csWitnessValues := r1cs.numVars - 1
  let usedValues ← checkedSum "committed witness values" [coefficientValues, outputClaimValues]
  if r1csWitnessValues < usedValues then
    .error (.inconsistentDimensions "auxiliary values" r1csWitnessValues usedValues)
  else do
    let auxiliaryValues := r1csWitnessValues - usedValues
    let auxiliaryRows := auxiliaryValues ⌈/⌉ layout.witnessRowLen
    let occupied ← checkedSum "occupied witness rows" [totalRounds, outputClaimRows, auxiliaryRows]
    let witnessRowCount ← checkedPowerOfTwo "witness rows" (max occupied 1)
    let witnessRows ← WitnessRowLayout.fromCounts totalRounds outputClaimRows auxiliaryRows witnessRowCount
    let paddedConstraints ← checkedPowerOfTwo "error values" (max r1cs.numConstraints 1)
    let errorRowLen := min layout.witnessRowLen paddedConstraints
    return ⟨⟨layout.witnessRowLen, witnessRowCount⟩, ⟨errorRowLen, paddedConstraints / errorRowLen⟩, witnessRows,
      totalRounds, outputClaimRows, auxiliaryRows, coefficientValues, auxiliaryValues⟩

section

variable [Field F] [DecidableEq F] [DecidableEq O] [DecidableEq P] [DecidableEq Ch]

def BlindFoldProtocol.fromParts (statement : BlindFoldStatement F O Com P Ch) (publics : List (P × F))
    (challenges : List (Ch × F)) : Except BlindFoldError (BlindFoldProtocol F Com) := do
  statement.validate
  let sumcheckConsistency := statement.stages.map fun stage => stage.rounds
  let committedOutputClaims := statement.stages.map fun stage => stage.outputClaimRows.commitments
  let (layout, builder) ← statement.buildWithSources .new publics challenges
  let r1cs := builder.intoMatrices
  let dimensions ← layout.dimensions r1cs sumcheckConsistency committedOutputClaims
  return ⟨sumcheckConsistency, committedOutputClaims, r1cs, layout, dimensions,
    statement.finalOpenings.map fun binding => binding.evaluationCommitment⟩

end

/-! ## Assignments -/

/-- Some variables have values. -/
abbrev Partial (F : Type) := List (Option F)

def assign (witness : Partial F) (index : ℕ) (value : F) : Except (AssignmentError F) (Partial F) :=
  match witness[index]? with
  | none => .error (.witnessVariableOutOfBounds index)
  | some (some _) => .error (.witnessVariableReassigned index)
  | some none => .ok (witness.set index (some value))

def assignAll (witness : Partial F) : List (ℕ × F) → Except (AssignmentError F) (Partial F)
  | [] => .ok witness
  | (index, value) :: rest => do
      let witness ← assign witness index value
      assignAll witness rest

/-- The values of variables, as far as there are any. -/
def pairs (vars : List Variable) (values : List F) : List (ℕ × F) := (vars.map Variable.index).zip values

variable [Field F]

def evaluateAt (coefficients : List F) (point : F) : F :=
  coefficients.reverse.foldl (fun acc coefficient => acc * point + coefficient) 0

/-- The coefficients and the next claims of the rounds. -/
def assignRounds (stageIndex : ℕ) (witness : Partial F) : List (List F) → List (VerifiedCommittedRound F Com) →
    List SumcheckR1csRoundLayout → Except (AssignmentError F) (Partial F)
  | coefficients :: rest, verified :: rounds, roundLayout :: layouts =>
      if coefficients.length ≠ roundLayout.coefficients.length ∨ coefficients.length ≠ verified.degree + 1 then
        .error (.stageWitnessShape stageIndex "round coefficient count" roundLayout.coefficients.length
          coefficients.length)
      else do
        let witness ← assignAll witness (pairs roundLayout.coefficients coefficients)
        let witness ← assign witness roundLayout.claimOut.index (evaluateAt coefficients verified.challenge)
        assignRounds stageIndex witness rest rounds layouts
  | _, _, _ => .ok witness

def assignRows (stageIndex : ℕ) (witness : Partial F) :
    List OutputClaimRowLayout → List (List F) → Except (AssignmentError F) (Partial F)
  | row :: rows, values :: rest =>
      if row.vars.length < values.length then
        .error (.stageWitnessShape stageIndex "output claim row length" row.vars.length values.length)
      else do
        let witness ← assignAll witness (pairs row.vars values)
        assignRows stageIndex witness rows rest
  | _, _ => .ok witness

def assignStage (consistency : List (List (VerifiedCommittedRound F Com))) (witness : Partial F) (stageIndex : ℕ)
    (layout : StageLayout) (domain : SumcheckDomain) (stageWitness : CommittedSumcheckWitness F) :
    Except (AssignmentError F) (Partial F) :=
  let rounds := layout.sumcheck.rounds
  match consistency[stageIndex]? with
  | none => .error (.lengthMismatch "stage consistency" (stageIndex + 1) consistency.length)
  | some verified =>
      if stageWitness.roundCoefficients.length ≠ rounds.length ∨ verified.length ≠ rounds.length then
        .error (.stageWitnessShape stageIndex "round count" rounds.length stageWitness.roundCoefficients.length)
      else if stageWitness.roundBlindings.length ≠ rounds.length then
        .error (.stageWitnessShape stageIndex "round blinding count" rounds.length stageWitness.roundBlindings.length)
      else
        match stageWitness.roundCoefficients with
        | [] => .error (.degenerateSumcheck "committed stage witness")
        | first :: _ => do
            let weights ← (domain.roundSumCoefficients (first.length - 1)).mapError .sumcheck
            if weights.length ≠ first.length then
              .error (.stageWitnessShape stageIndex "round sum coefficient count" weights.length first.length)
            else do
              let claim := (List.zipWith (· * ·) first weights).sum
              let witness ← assign witness layout.sumcheck.inputClaim.index claim
              let witness ← assignRounds stageIndex witness stageWitness.roundCoefficients verified rounds
              if layout.outputClaimRows.length ≠ stageWitness.outputClaimRows.length then
                .error (.stageWitnessShape stageIndex "output claim row count" layout.outputClaimRows.length
                  stageWitness.outputClaimRows.length)
              else if stageWitness.outputClaimBlindings.length ≠ layout.outputClaimRows.length then
                .error (.stageWitnessShape stageIndex "output claim blinding count" layout.outputClaimRows.length
                  stageWitness.outputClaimBlindings.length)
              else assignRows stageIndex witness layout.outputClaimRows stageWitness.outputClaimRows

/-- The stages from `stageIndex` on. -/
def assignStages (consistency : List (List (VerifiedCommittedRound F Com))) : Partial F → ℕ → List StageLayout →
    List SumcheckDomain → List (CommittedSumcheckWitness F) → Except (AssignmentError F) (Partial F)
  | witness, stageIndex, layout :: layouts, domain :: domains, stageWitness :: stageWitnesses => do
      let witness ← assignStage consistency witness stageIndex layout domain stageWitness
      assignStages consistency witness (stageIndex + 1) layouts domains stageWitnesses
  | witness, _, _, _, _ => .ok witness

def assignFinalOpenings (witness : Partial F) :
    List FinalOpeningLayout → List F → List F → Except (AssignmentError F) (Partial F)
  | layout :: layouts, evaluation :: evaluations, blinding :: blindings => do
      let witness ← assignAll witness (pairs layout.evaluation.toList [evaluation])
      let witness ← assignAll witness (pairs layout.blinding.toList [blinding])
      assignFinalOpenings witness layouts evaluations blindings
  | _, _, _ => .ok witness

/-! ## Products -/

def evaluateSparse (row : SparseRow F) (witness : Partial F) : Option F :=
  (row.mapM fun (index, coefficient) => (witness.getD index none).map (· * coefficient)).map List.sum

/-- A constraint: its rows of the three matrices. -/
abbrev Constraint (F : Type) := (SparseRow F × SparseRow F) × SparseRow F

/-- Solve the products from the constraint `constraint` on, in the order of the constraints. -/
def solveProducts [DecidableEq F] : ℕ → Partial F → List (Constraint F) → Except (AssignmentError F) (Partial F)
  | _, witness, [] => .ok witness
  | constraint, witness, ((a, b), c) :: rest =>
      match c with
      | [(target, coefficient)] =>
          if coefficient ≠ 1 ∨ witness[target]? ≠ some none then solveProducts (constraint + 1) witness rest
          else
            match evaluateSparse a witness, evaluateSparse b witness with
            | some lhs, some rhs => solveProducts (constraint + 1) (witness.set target (some (lhs * rhs))) rest
            | _, _ => .error (.unsolvableProduct constraint)
      | _ => solveProducts (constraint + 1) witness rest

def ConstraintMatrices.constraints (r1cs : ConstraintMatrices F) : List (Constraint F) :=
  (r1cs.a.zip r1cs.b).zip r1cs.c

/-! ## Rows -/

/-- `slice::chunks`; the last row may be short. -/
def rowsOf (rowLen : ℕ) (values : List F) : List (List F) := chunks rowLen (values.length ⌈/⌉ rowLen) values

/-- `Vec::resize`. -/
def resize {α : Type} (values : List α) (length : ℕ) (fill : α) : List α :=
  values.take length ++ List.replicate (length - values.length) fill

/-- The blindings of the auxiliary rows are random. -/
def sliceRows (dimensions : BlindFoldDimensions) (witness : List F) (stageWitnesses : List (CommittedSumcheckWitness F))
    (random : ℕ → F) : AssignedBlindFoldWitness F :=
  let rowLen := dimensions.witness.rowLen
  let coefficients := rowsOf rowLen ((witness.drop 1).take dimensions.coefficientValues)
  let outputs := (stageWitnesses.flatMap fun stage => stage.outputClaimRows).map fun row => resize row rowLen 0
  let outputClaimValues := dimensions.outputClaimRows * rowLen
  let auxiliary := (rowsOf rowLen (witness.drop (1 + dimensions.coefficientValues + outputClaimValues))).map
    fun row => resize row rowLen 0
  let zeros := List.replicate rowLen (0 : F)
  let rows := resize (coefficients ++ outputs ++ auxiliary) dimensions.witnessRows.auxiliary.stop zeros
  let blindings := (stageWitnesses.flatMap fun stage => stage.roundBlindings) ++
    (stageWitnesses.flatMap fun stage => stage.outputClaimBlindings) ++
    (List.range dimensions.auxiliaryRows).map random
  ⟨resize rows dimensions.witness.rowCount zeros, resize blindings dimensions.witness.rowCount 0⟩

/-! ## The assembly -/

def ensureCount (name : String) (expected actual : ℕ) : Except (AssignmentError F) Unit :=
  if actual ≠ expected then .error (.lengthMismatch name expected actual) else .ok ()

/-- The flat assignment: the variables of the layout, then the products. -/
def BlindFoldProtocol.flatWitness [DecidableEq F] (protocol : BlindFoldProtocol F Com)
    (stageDomains : List SumcheckDomain) (stageWitnesses : List (CommittedSumcheckWitness F))
    (evalOutputs evalBlindings : List F) : Except (AssignmentError F) (List F) := do
  ensureCount "stage witnesses" protocol.layout.stages.length stageWitnesses.length
  ensureCount "stage domains" protocol.layout.stages.length stageDomains.length
  ensureCount "final opening evaluations" protocol.layout.finalOpenings.length evalOutputs.length
  ensureCount "final opening blindings" protocol.layout.finalOpenings.length evalBlindings.length
  match List.replicate protocol.r1cs.numVars (none : Option F) with
  | [] => .error (.degenerateSumcheck "empty R1CS")
  | _ :: rest => do
      let witness := some 1 :: rest
      let witness ← assignStages protocol.sumcheckConsistency witness 0 protocol.layout.stages stageDomains stageWitnesses
      let witness ← assignFinalOpenings witness protocol.layout.finalOpenings evalOutputs evalBlindings
      let witness ← solveProducts 0 witness protocol.r1cs.constraints
      return witness.map fun value => value.getD 0

def BlindFoldProtocol.assignWitness [DecidableEq F] (protocol : BlindFoldProtocol F Com)
    (stageDomains : List SumcheckDomain) (stageWitnesses : List (CommittedSumcheckWitness F))
    (evalOutputs evalBlindings : List F) (random : ℕ → F) : Except (AssignmentError F) (AssignedBlindFoldWitness F) := do
  let witness ← protocol.flatWitness stageDomains stageWitnesses evalOutputs evalBlindings
  return sliceRows protocol.dimensions witness stageWitnesses random

end

/-! ## Commitments -/

section

variable {F G : Type} [Field F] [AddCommGroup G] [Module F G]

/-- The default commitment is the identity. -/
def padRows (rows : List G) (targetLen : ℕ) (name : String) : Except BlindFoldError (List G) :=
  if targetLen < rows.length then .error (.inconsistentDimensions name targetLen rows.length)
  else .ok (resize rows targetLen 0)

def rangeSlice {α : Type} (name : String) (values : List α) (range : RowRange) : Except ProverError (List α) :=
  if range.start ≤ range.stop ∧ range.stop ≤ values.length then .ok ((values.take range.stop).drop range.start)
  else .error (.lengthMismatch name range.stop values.length)

/-- The auxiliary rows that `prove` commits to. -/
def BlindFoldProtocol.auxiliaryRowCommitments (protocol : BlindFoldProtocol F G) (setup : PedersenSetup G)
    (witness : AssignedBlindFoldWitness F) : Except ProverError (List G) := do
  let range := protocol.dimensions.witnessRows.auxiliary
  let rows ← rangeSlice "auxiliary witness rows" witness.rows range
  let blindings ← rangeSlice "auxiliary witness blindings" witness.blindings range
  setup.commitRows rows blindings "auxiliary witness rows"

def BlindFoldProtocol.committedRelaxedInstance (protocol : BlindFoldProtocol F G) (auxiliaryRowCommitments : List G) :
    Except BlindFoldError (RelaxedInstance F G) :=
  let dimensions := protocol.dimensions
  if auxiliaryRowCommitments.length ≠ dimensions.auxiliaryRows then
    .error (.lengthMismatch "auxiliary row commitments" dimensions.auxiliaryRows auxiliaryRowCommitments.length)
  else do
    let rounds := protocol.sumcheckConsistency.flatten.map fun round => round.commitment
    let rows ← padRows rounds dimensions.witnessRows.coefficients.stop "coefficient row commitments"
    let rows ← padRows (rows ++ protocol.committedOutputClaims.flatten) dimensions.witnessRows.outputClaims.stop
      "output claim row commitments"
    let rows ← padRows (rows ++ auxiliaryRowCommitments) dimensions.witnessRows.auxiliary.stop
      "auxiliary row commitments"
    let rows ← padRows rows dimensions.witness.rowCount "witness row commitments"
    return ⟨1, rows, List.replicate dimensions.error.rowCount 0, protocol.evalCommitments⟩

end

end JoltWasm.Blindfold
