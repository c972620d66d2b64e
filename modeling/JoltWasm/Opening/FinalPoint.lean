import JoltWasm.Claims.Precommitted
import JoltWasm.Opening.Grid

/-!
# The batch of the joint opening

The verifier glues one opening point from the challenges of two stages, and scales the claim of each
polynomial to the polynomial that embeds it in the grid.
-/

namespace JoltWasm

structure JoltRaPolynomialLayout where
  instruction : ℕ
  bytecode : ℕ
  ram : ℕ
  deriving DecidableEq

/-- The trace polynomials of the final opening, in batch order. -/
def finalTraceOrder (layout : JoltRaPolynomialLayout) : List JoltCommittedPolynomial :=
  [.ramInc, .rdInc] ++ (List.range layout.instruction).map .instructionRa ++
    (List.range layout.bytecode).map .bytecodeRa ++ (List.range layout.ram).map .ramRa

def finalOpeningPolynomialOrder (layout : JoltRaPolynomialLayout)
    (committedProgramChunks : Option ℕ) : List JoltCommittedPolynomial :=
  match committedProgramChunks with
  | some chunkCount => finalTraceOrder layout ++
      ((List.range chunkCount).map .bytecodeChunk ++ [.programImageInit])
  | none => finalTraceOrder layout

/-- The precommitted polynomials that one claim reduction opens: the bytecode chunks, or the image. -/
structure PrecommittedFamily where
  totalVars : ℕ
  polynomials : List JoltCommittedPolynomial
  nonempty : polynomials ≠ []

/-- A family with the schedule of its reduction. -/
structure ScheduledFamily where
  family : PrecommittedFamily
  dimensions : PrecommittedClaimReduction

/-- `PrecommittedSchedule::new`: all reductions share one reference. -/
def precommittedSchedule (traceOrder : TracePolynomialOrder) (logT logKChunk : ℕ)
    (families : List PrecommittedFamily) : Except JoltFormulaPointError (List ScheduledFamily) :=
  let reference := PrecommittedClaimReduction.schedulingReferenceOf (logT + logKChunk)
    (families.map (·.totalVars)) logKChunk
  families.mapM fun family => do
    let shape := CommitmentMatrixShape.balanced family.totalVars
    return ⟨family, ← PrecommittedClaimReduction.new shape.rowVars shape.columnVars reference traceOrder logT⟩

/-- Scalings: `1` on the challenges of the embedded point, `1 - r` on the rest. -/
def commitmentEmbeddingScale {F : Type} [Field F] [DecidableEq F]
    (openingPoint embeddedOpeningPoint : List F) : F :=
  (openingPoint.map fun challenge =>
    if challenge ∈ embeddedOpeningPoint then 1 else 1 - challenge).prod

structure FinalOpeningPointInputs (F : Type) where
  logT : ℕ
  logKChunk : ℕ
  traceOrder : TracePolynomialOrder
  hammingWeightOpeningPoint : List F
  incClaimReductionOpeningPoint : List F
  precommittedAnchorPoints : List (List F)

section

variable {F : Type}

/-- The first of the longest anchors, with its position. -/
def dominantAnchor (anchors : List (List F)) : Option (ℕ × List F) :=
  anchors.zipIdx.foldl (fun dominant (point, index) =>
    match dominant with
    | none => some (index, point)
    | some (first, dominantPoint) =>
        if dominantPoint.length < point.length then some (index, point) else some (first, dominantPoint))
    none

variable [DecidableEq F]

/-- The point of the native trace domain. -/
def nativeOpeningPoint (inputs : FinalOpeningPointInputs F) : Except JoltFormulaPointError (List F) :=
  if inputs.hammingWeightOpeningPoint.length < inputs.logKChunk then
    .error (.openingPointLengthMismatch inputs.logKChunk inputs.hammingWeightOpeningPoint.length)
  else
    let rAddressStage7 := inputs.hammingWeightOpeningPoint.take inputs.logKChunk
    let rCycleStage6 := inputs.incClaimReductionOpeningPoint
    match inputs.traceOrder with
    | .addressMajor => .ok (rCycleStage6 ++ rAddressStage7)
    | .cycleMajor =>
        let nativeCycle := inputs.hammingWeightOpeningPoint.drop inputs.logKChunk
        if rCycleStage6.length < nativeCycle.length then
          .error (.cycleChallengesShorterThanNativeCycle nativeCycle.length rCycleStage6.length)
        else if rCycleStage6.take nativeCycle.length ≠ nativeCycle then
          .error .cycleMajorCyclePrefixMismatch
        else .ok (rCycleStage6.drop nativeCycle.length ++ rAddressStage7 ++ nativeCycle)

def finalOpeningPoint (inputs : FinalOpeningPointInputs F) : Except JoltFormulaPointError (List F) :=
  let nativeMainVars := inputs.logT + inputs.logKChunk
  match dominantAnchor inputs.precommittedAnchorPoints with
  | none => nativeOpeningPoint inputs
  | some (first, dominantPoint) =>
      if nativeMainVars < dominantPoint.length then
        match inputs.precommittedAnchorPoints.findIdx? fun point =>
            decide (point.length = dominantPoint.length ∧ point ≠ dominantPoint) with
        | some second => .error (.incompatibleDominantAnchors first second)
        | none => .ok dominantPoint
      else nativeOpeningPoint inputs

end

/-! ## The points of the stages -/

/-- The final opening of a precommitted polynomial. -/
structure PrecommittedFinalOpening (F : Type) where
  polynomial : JoltCommittedPolynomial
  point : List F
  deriving DecidableEq

/-- The challenges of both batches: the cycle rounds of stage 6b, the address rounds of stage 7. -/
structure StageChallenges (F : Type) where
  stage6 : List F
  stage7 : List F

namespace StageChallenges

variable {F : Type} (challenges : StageChallenges F)

/-- The increments are bound on the last rounds of their batch, last round first. -/
def incOpeningPoint (logT : ℕ) : List F :=
  (challenges.stage6.drop (challenges.stage6.length - logT)).reverse

/-- The cycle part of the one-hot openings is that of the booleanity instance, on the same rounds. -/
def hammingWeightOpeningPoint (logT : ℕ) : List F :=
  challenges.stage7.reverse ++ challenges.incOpeningPoint logT

variable [Field F]

/-- The point that stage 8 reads: the address phase's, or the cycle phase's if it was the last. -/
def recordedPoint (dimensions : PrecommittedClaimReduction) : Except JoltFormulaPointError (List F) := do
  let openingPoint ← dimensions.cyclePhaseOpeningPoint challenges.stage6
  if dimensions.hasAddressPhase then
    dimensions.addressPhaseOpeningPoint openingPoint.reverse challenges.stage7
  else return openingPoint

/-- The point at which the reduction opens the polynomial.  Where the cycle phase is the last, the
recorded point lists its challenges by round, and the reduction permutes them to opening order. -/
def reductionPoint (dimensions : PrecommittedClaimReduction) : Except JoltFormulaPointError (List F) := do
  let recorded ← challenges.recordedPoint dimensions
  if dimensions.hasAddressPhase then return recorded
  else dimensions.cyclePhasePermutedFromOpeningPoint recorded

def precommittedFinalOpenings (schedule : List ScheduledFamily) :
    Except JoltFormulaPointError (List (PrecommittedFinalOpening F)) := do
  let openings ← schedule.mapM fun scheduled => do
    let point ← challenges.recordedPoint scheduled.dimensions
    return scheduled.family.polynomials.map fun polynomial => ⟨polynomial, point⟩
  return openings.flatten

end StageChallenges

/-! ## The batch -/

section

variable {F : Type} [Field F] [DecidableEq F]

structure Stage8BatchEntry (F : Type) where
  openingClaim : F
  scale : F

/-- The point of a polynomial of the batch that its scale is computed from. -/
def ownPoint (hammingOpeningPoint incOpeningPoint : List F)
    (precommittedFinals : List (PrecommittedFinalOpening F)) : JoltCommittedPolynomial → Option (List F)
  | .ramInc | .rdInc => some incOpeningPoint
  | .instructionRa _ | .bytecodeRa _ | .ramRa _ => some hammingOpeningPoint
  | polynomial => (precommittedFinals.find? fun opening => opening.polynomial = polynomial).map (·.point)

/-- The entries of the batch, with the claims of the stages; none where a precommitted polynomial has no
final opening. -/
def batchEntries (order : List JoltCommittedPolynomial) (openingPoint hammingOpeningPoint
    incOpeningPoint : List F) (precommittedFinals : List (PrecommittedFinalOpening F))
    (claims : JoltCommittedPolynomial → F) : Option (List (Stage8BatchEntry F)) :=
  order.mapM fun polynomial =>
    (ownPoint hammingOpeningPoint incOpeningPoint precommittedFinals polynomial).map fun own =>
      ⟨claims polynomial, commitmentEmbeddingScale openingPoint own⟩

/-- The claim of the batch that the commitment scheme verifies. -/
def jointClaim (gammaPowers : List F) (entries : List (Stage8BatchEntry F)) : F :=
  (gammaPowers.zip entries).foldl (fun claim (gamma, entry) =>
    claim + gamma * (entry.openingClaim * entry.scale)) 0

/-- The combination of the embedded polynomials that the prover opens, at a point. -/
def jointEvaluation (gammaPowers : List F) (polynomials : List (OpeningPoly F)) (point : List F) : F :=
  (gammaPowers.zip polynomials).foldl (fun sum (gamma, poly) => sum + gamma * poly.evaluate point) 0

end

end JoltWasm
