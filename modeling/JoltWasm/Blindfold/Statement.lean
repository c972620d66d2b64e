import Mathlib.Algebra.Order.Floor.Div
import Mathlib.Data.Nat.Log
import JoltWasm.R1cs.Lowering
import JoltWasm.Sumcheck.R1cs

/-!
# Statements of committed stages and their layout

A stage is a committed sum-check with an input and an output expression.  The layout gives its variables: the
coefficients of each round and the committed openings fill whole rows, the claims come after them, and the
evaluation and the blinding of each final opening have rows of their own.
-/

namespace JoltWasm.Blindfold

open R1cs Lib

/-! ## Statements -/

structure OpeningAlias (O : Type) where
  aliasId : O
  source : O

structure CommittedClaimRows (O Com : Type) where
  openingIds : List O
  openingAliases : List (OpeningAlias O)
  rowLen : ℕ
  commitments : List Com

structure BlindFoldStage (F O Com P Ch : Type) where
  statement : SumcheckStatement
  domain : SumcheckDomain
  /-- The rounds of `consistency`. -/
  rounds : List (VerifiedCommittedRound F Com)
  outputClaimRows : CommittedClaimRows O Com
  inputClaim : Expr F O P Ch
  outputClaim : Expr F O P Ch

structure FinalOpeningBinding (F O Com : Type) where
  openingIds : List O
  coefficients : List F
  evaluationCommitment : Com

structure BlindFoldStatement (F O Com P Ch : Type) where
  stages : List (BlindFoldStage F O Com P Ch)
  finalOpenings : List (FinalOpeningBinding F O Com)

inductive BlindFoldError where
  | layoutSumcheck (stageIndex : ℕ) (source : SumcheckR1csError)
  | layoutDimensionOverflow (name : String) (value : ℕ)
  | claim (source : ClaimLoweringError)
  | missingRowLength (name : String)
  | openingRowCapacityExceeded (name : String) (ids slots : ℕ)
  | emptyFinalOpeningBinding
  | committedRowCountMismatch (name : String) (expected actual : ℕ)
  | duplicateOpeningSource
  | missingOpeningAliasSource
  | sumcheck (stageIndex : ℕ) (source : SumcheckR1csError)
  | layoutStageCountMismatch (statementStages layoutStages : ℕ)
  | lengthMismatch (name : String) (expected actual : ℕ)
  | dimensionOverflow (name : String) (value : ℕ)
  | inconsistentDimensions (name : String) (total used : ℕ)
  | panicked
  deriving DecidableEq

section

variable {F O Com P Ch : Type}

/-! ## Validation -/

/-- The openings of a stage, after the ones before it. -/
def uniqueOpenings [DecidableEq O] (openings : List O) : List O → Except BlindFoldError (List O)
  | [] => .ok openings
  | id :: ids => if id ∈ openings then .error .duplicateOpeningSource else uniqueOpenings (openings ++ [id]) ids

def uniqueAliases [DecidableEq O] (openings : List O) : List (OpeningAlias O) → Except BlindFoldError (List O)
  | [] => .ok openings
  | entry :: aliases =>
      if entry.aliasId ∈ openings then .error .duplicateOpeningSource
      else if entry.source ∉ openings then .error .missingOpeningAliasSource
      else uniqueAliases (openings ++ [entry.aliasId]) aliases

def validateUniqueOpenings [DecidableEq O] (openings : List O) :
    List (BlindFoldStage F O Com P Ch) → Except BlindFoldError Unit
  | [] => .ok ()
  | stage :: stages => do
      let openings ← uniqueOpenings openings stage.outputClaimRows.openingIds
      let openings ← uniqueAliases openings stage.outputClaimRows.openingAliases
      validateUniqueOpenings openings stages

def usizeMax : ℕ := 2 ^ 64 - 1

/-- The rows of a stage have room for its openings, and no row is left over. -/
def validateRows (rows : CommittedClaimRows O Com) : Except BlindFoldError Unit :=
  let rowCount := rows.commitments.length
  if rowCount = 0 then
    if rows.openingIds ≠ [] then
      .error (.openingRowCapacityExceeded "output claim rows" rows.openingIds.length 0)
    else .ok ()
  else if rows.openingIds = [] then .error (.committedRowCountMismatch "output claim rows" 0 rowCount)
  else if rows.rowLen = 0 then .error (.missingRowLength "output claim rows")
  else if usizeMax < rowCount * rows.rowLen then .error (.dimensionOverflow "output claim row slots" rowCount)
  else if rowCount * rows.rowLen < rows.openingIds.length then
    .error (.openingRowCapacityExceeded "output claim rows" rows.openingIds.length (rowCount * rows.rowLen))
  else if rowCount ≠ rows.openingIds.length ⌈/⌉ rows.rowLen then
    .error (.committedRowCountMismatch "output claim rows" (rows.openingIds.length ⌈/⌉ rows.rowLen) rowCount)
  else .ok ()

def validateFinalOpening (binding : FinalOpeningBinding F O Com) : Except BlindFoldError Unit :=
  if binding.openingIds = [] then .error .emptyFinalOpeningBinding
  else if binding.openingIds.length ≠ binding.coefficients.length then
    .error (.lengthMismatch "final opening coefficients" binding.openingIds.length binding.coefficients.length)
  else .ok ()

def BlindFoldStatement.validate [DecidableEq O] (statement : BlindFoldStatement F O Com P Ch) :
    Except BlindFoldError Unit := do
  validateUniqueOpenings [] statement.stages
  statement.stages.forM fun stage => validateRows stage.outputClaimRows
  statement.finalOpenings.forM validateFinalOpening

/-! ## Layouts -/

structure OutputClaimRowLayout where
  vars : List Variable
  deriving DecidableEq

structure StageLayout where
  sumcheck : SumcheckR1csLayout
  outputClaimRows : List OutputClaimRowLayout
  deriving DecidableEq

structure FinalOpeningLayout where
  evaluation : Option Variable
  blinding : Option Variable
  deriving DecidableEq

structure Layout where
  witnessRowLen : ℕ
  stages : List StageLayout
  finalOpenings : List FinalOpeningLayout
  deriving DecidableEq

/-- `usize::checked_next_power_of_two`. -/
def checkedNextPowerOfTwo (value : ℕ) : Option ℕ := if value ≤ 2 ^ 63 then some (2 ^ Nat.clog 2 value) else none

def witnessRowLen (statement : BlindFoldStatement F O Com P Ch) : Except BlindFoldError ℕ :=
  let roundCoefficients := ((statement.stages.flatMap fun stage => stage.rounds).map fun round =>
    min (round.degree + 1) usizeMax).max?.getD 1
  let outputClaimRowLen := (statement.stages.map fun stage => stage.outputClaimRows.rowLen).max?.getD 0
  let rowLen := max (max roundCoefficients outputClaimRowLen) 1
  match checkedNextPowerOfTwo rowLen with
  | some rowLen => .ok rowLen
  | none => .error (.layoutDimensionOverflow "witness row length" rowLen)

variable [Field F]

/-- The row of a round: its coefficients, then zeros. -/
def allocateCoefficientRow (builder : R1csBuilder F) (rowLen : ℕ) (round : VerifiedCommittedRound F Com) :
    List Variable × R1csBuilder F :=
  let (coefficients, builder) := allocUnknowns builder (round.degree + 1)
  let (_, builder) := builder.allocAll (List.replicate (rowLen - coefficients.length) (some 0))
  (coefficients, builder)

def allocateCoefficientRows (builder : R1csBuilder F) (rowLen : ℕ) :
    List (VerifiedCommittedRound F Com) → List (List Variable) × R1csBuilder F
  | [] => ([], builder)
  | round :: rounds =>
      let (row, builder) := allocateCoefficientRow builder rowLen round
      let (rows, builder) := allocateCoefficientRows builder rowLen rounds
      (row :: rows, builder)

/-- The coefficients of the stages from `stageIndex` on. -/
def allocateStageCoefficients (builder : R1csBuilder F) (rowLen : ℕ) :
    ℕ → List (BlindFoldStage F O Com P Ch) → Except BlindFoldError (List (List (List Variable)) × R1csBuilder F)
  | _, [] => .ok ([], builder)
  | stageIndex, stage :: stages =>
      match validateRoundsStatement stage.statement stage.rounds with
      | .error source => .error (.layoutSumcheck stageIndex source)
      | .ok _ => do
          let (rows, builder) := allocateCoefficientRows builder rowLen stage.rounds
          let (rest, builder) ← allocateStageCoefficients builder rowLen (stageIndex + 1) stages
          return (rows :: rest, builder)

/-- The rows for the remaining openings. -/
def allocateOutputClaimRows (builder : R1csBuilder F) (rowLen witnessRowLen : ℕ) :
    ℕ → ℕ → List OutputClaimRowLayout × R1csBuilder F
  | 0, _ => ([], builder)
  | rowCount + 1, remainingOpenings =>
      let openingSlots := min remainingOpenings rowLen
      let (vars, builder) := builder.allocAll
        ((List.range witnessRowLen).map fun slot => if slot < openingSlots then none else some 0)
      let (rows, builder) := allocateOutputClaimRows builder rowLen witnessRowLen rowCount
        (remainingOpenings - openingSlots)
      (⟨vars⟩ :: rows, builder)

def allocateStageRows (builder : R1csBuilder F) (witnessRowLen : ℕ) :
    List (BlindFoldStage F O Com P Ch) → List (List OutputClaimRowLayout) × R1csBuilder F
  | [] => ([], builder)
  | stage :: stages =>
      let (rows, builder) := allocateOutputClaimRows builder stage.outputClaimRows.rowLen witnessRowLen
        stage.outputClaimRows.commitments.length stage.outputClaimRows.openingIds.length
      let (rest, builder) := allocateStageRows builder witnessRowLen stages
      (rows :: rest, builder)

/-- The rounds from the claim `claimIn` on; the claim that comes out of the last one. -/
def allocateClaims (builder : R1csBuilder F) (claimIn : Variable) :
    List (List Variable) → List SumcheckR1csRoundLayout × Variable × R1csBuilder F
  | [] => ([], claimIn, builder)
  | coefficients :: rows =>
      let (claimOut, builder) := builder.allocUnknown
      let (rounds, last, builder) := allocateClaims builder claimOut rows
      (⟨claimIn, coefficients, claimOut⟩ :: rounds, last, builder)

/-- The claims of a stage. -/
def allocateStage (builder : R1csBuilder F) (coefficients : List (List Variable))
    (outputClaimRows : List OutputClaimRowLayout) : StageLayout × R1csBuilder F :=
  let (inputClaim, builder) := builder.allocUnknown
  let (rounds, outputClaim, builder) := allocateClaims builder inputClaim coefficients
  (⟨⟨inputClaim, rounds, outputClaim⟩, outputClaimRows⟩, builder)

def allocateStages (builder : R1csBuilder F) :
    List (List (List Variable)) → List (List OutputClaimRowLayout) → List StageLayout × R1csBuilder F
  | coefficients :: stages, rows :: rest =>
      let (stage, builder) := allocateStage builder coefficients rows
      let (stages, builder) := allocateStages builder stages rest
      (stage :: stages, builder)
  | _, _ => ([], builder)

/-- At most `fuel` zeros, up to the end of a row. -/
def padRow (witnessRowLen : ℕ) : ℕ → R1csBuilder F → R1csBuilder F
  | 0, builder => builder
  | fuel + 1, builder =>
      if (builder.numVars - 1) % witnessRowLen = 0 then builder
      else padRow witnessRowLen fuel (builder.alloc 0).2

/-- A row takes fewer than `witnessRowLen` zeros to its end. -/
def padToWitnessRowBoundary (builder : R1csBuilder F) (witnessRowLen : ℕ) : R1csBuilder F :=
  padRow witnessRowLen witnessRowLen builder

def allocatePrivateRowScalar (builder : R1csBuilder F) (witnessRowLen : ℕ) : Variable × R1csBuilder F :=
  let builder := padToWitnessRowBoundary builder witnessRowLen
  let (v, builder) := builder.allocUnknown
  (v, padToWitnessRowBoundary builder witnessRowLen)

def allocateFinalOpenings (builder : R1csBuilder F) (witnessRowLen : ℕ) :
    List (FinalOpeningBinding F O Com) → List FinalOpeningLayout × R1csBuilder F
  | [] => ([], builder)
  | binding :: bindings =>
      if binding.openingIds = [] then
        let (layouts, builder) := allocateFinalOpenings builder witnessRowLen bindings
        (⟨none, none⟩ :: layouts, builder)
      else
        let (evaluation, builder) := allocatePrivateRowScalar builder witnessRowLen
        let (blinding, builder) := allocatePrivateRowScalar builder witnessRowLen
        let (layouts, builder) := allocateFinalOpenings builder witnessRowLen bindings
        (⟨some evaluation, some blinding⟩ :: layouts, builder)

def BlindFoldStatement.allocateLayout (statement : BlindFoldStatement F O Com P Ch) (builder : R1csBuilder F) :
    Except BlindFoldError (Layout × R1csBuilder F) := do
  let witnessRowLen ← witnessRowLen statement
  let (coefficients, builder) ← allocateStageCoefficients builder witnessRowLen 0 statement.stages
  let (outputClaimRows, builder) := allocateStageRows builder witnessRowLen statement.stages
  let (stages, builder) := allocateStages builder coefficients outputClaimRows
  let (finalOpenings, builder) := allocateFinalOpenings builder witnessRowLen statement.finalOpenings
  return (⟨witnessRowLen, stages, finalOpenings⟩, builder)

end

end JoltWasm.Blindfold
