import Mathlib.Data.List.Sort
import Mathlib.Data.List.Dedup
import Mathlib.Algebra.Field.Basic
import JoltWasm.Claims.Dimensions
import JoltWasm.Lib.Numerals

/-!
# The schedule of a precommitted claim reduction

A precommitted polynomial is reduced over a reference domain that all of them share: the cycle rounds
first, then the address rounds.  The schedule projects the opening rounds of the reference onto the rows
and columns of one polynomial; the other rounds halve its claim.
-/

namespace JoltWasm

/-- Scheduling dimensions that the main trace domain and all precommitted candidates share. -/
structure PrecommittedSchedulingReference where
  mainTotalVars : ℕ
  referenceTotalVars : ℕ
  cycleAlignmentRounds : ℕ
  addressRounds : ℕ
  jointColVars : ℕ
  deriving DecidableEq

/-- The two-phase round schedule of one polynomial. -/
structure PrecommittedClaimReduction where
  schedulingReference : PrecommittedSchedulingReference
  polyOpeningRoundPermutationBe : List ℕ
  cyclePhaseRounds : List ℕ
  cyclePhaseTotalRounds : ℕ
  addressPhaseRounds : List ℕ
  addressPhaseTotalRounds : ℕ
  deriving DecidableEq

/-- `(start..end_).rev()`. -/
def rangeRev (start end_ : ℕ) : List ℕ := (List.range' start (end_ - start)).reverse

/-- Sorted, without repetitions. -/
def sortDedup (rounds : List ℕ) : List ℕ := (rounds.insertionSort (· ≤ ·)).dedup

namespace PrecommittedClaimReduction

def schedulingReferenceOf (mainTotalVars : ℕ) (candidates : List ℕ) (logKChunk : ℕ) :
    PrecommittedSchedulingReference :=
  let maxPrecommitted := candidates.max?.getD 0
  let referenceTotalVars := max mainTotalVars maxPrecommitted
  { mainTotalVars := mainTotalVars
    referenceTotalVars := referenceTotalVars
    cycleAlignmentRounds := referenceTotalVars - logKChunk
    addressRounds := logKChunk
    jointColVars := (CommitmentMatrixShape.balanced referenceTotalVars).columnVars }

def referenceDoryOpeningRoundPermutationBe (reference : PrecommittedSchedulingReference)
    (traceOrder : TracePolynomialOrder) (hasPrecommittedDominance : Bool)
    (denseCyclePrefixRounds : ℕ) : List ℕ :=
  let cycleRounds := reference.cycleAlignmentRounds
  let totalRounds := cycleRounds + reference.addressRounds
  let addressRev := rangeRev cycleRounds totalRounds
  if hasPrecommittedDominance then
    let t := min denseCyclePrefixRounds cycleRounds
    let prefixRev := rangeRev 0 (cycleRounds - t)
    let denseRev := rangeRev (cycleRounds - t) cycleRounds
    match traceOrder with
    | .cycleMajor => prefixRev ++ addressRev ++ denseRev
    | .addressMajor => denseRev ++ addressRev ++ prefixRev
  else
    match traceOrder with
    | .cycleMajor => rangeRev 0 totalRounds
    | .addressMajor => rangeRev 0 cycleRounds ++ addressRev

def projectDoryRoundPermutationForPoly (doryOpeningRoundPermutationBe : List ℕ)
    (reference : PrecommittedSchedulingReference) (polyRowVars polyColVars : ℕ) :
    Except JoltFormulaPointError (List ℕ) :=
  let totalFull := reference.referenceTotalVars
  let sigmaFull := reference.jointColVars
  let nuFull := totalFull - sigmaFull
  if doryOpeningRoundPermutationBe.length ≠ totalFull then
    .error (.openingPointLengthMismatch totalFull doryOpeningRoundPermutationBe.length)
  else if nuFull < polyRowVars ∨ sigmaFull < polyColVars then
    .error (.polyDimsExceedReference polyRowVars polyColVars nuFull sigmaFull)
  else
    let rowBe := doryOpeningRoundPermutationBe.take nuFull
    let colBe := (doryOpeningRoundPermutationBe.drop nuFull).take sigmaFull
    .ok (rowBe.drop (nuFull - polyRowVars) ++ colBe.drop (sigmaFull - polyColVars))

/-- The cycle rounds and the address rounds that a polynomial takes part in. -/
def activeRoundsFromPolyPermutation (permutation : List ℕ) (cycleAlignmentRounds : ℕ) :
    List ℕ × List ℕ :=
  (sortDedup (permutation.filter fun round => decide (round < cycleAlignmentRounds)),
    sortDedup ((permutation.filter fun round => !decide (round < cycleAlignmentRounds)).map
      fun round => round - cycleAlignmentRounds))

def new (polyRowVars polyColVars : ℕ) (reference : PrecommittedSchedulingReference)
    (traceOrder : TracePolynomialOrder) (logT : ℕ) :
    Except JoltFormulaPointError PrecommittedClaimReduction := do
  let hasPrecommittedDominance := decide (reference.mainTotalVars < reference.referenceTotalVars)
  let denseCyclePrefixRounds := if hasPrecommittedDominance then logT else 0
  let permutation ← projectDoryRoundPermutationForPoly
    (referenceDoryOpeningRoundPermutationBe reference traceOrder hasPrecommittedDominance
      denseCyclePrefixRounds) reference polyRowVars polyColVars
  let (cyclePhaseRounds, addressPhaseRounds) :=
    activeRoundsFromPolyPermutation permutation reference.cycleAlignmentRounds
  return {
    schedulingReference := reference
    polyOpeningRoundPermutationBe := permutation
    cyclePhaseRounds := cyclePhaseRounds
    cyclePhaseTotalRounds := reference.cycleAlignmentRounds
    addressPhaseRounds := addressPhaseRounds
    addressPhaseTotalRounds := reference.addressRounds }

variable (reduction : PrecommittedClaimReduction)

def numAddressPhaseRounds : ℕ := reduction.addressPhaseRounds.length

/-- The address phase runs when the polynomial takes part in one of its rounds. -/
def hasAddressPhase : Bool := decide (0 < reduction.numAddressPhaseRounds)

def cycleAlignmentRounds : ℕ := reduction.schedulingReference.cycleAlignmentRounds

variable {F : Type}

/-- The challenge of a round among those of the active cycle rounds, in ascending round order. -/
def cycleChallengeForRound (cycleVarChallenges : List F) (round : ℕ) :
    Except JoltFormulaPointError F :=
  -- The rounds are sorted, so that the binary search of the source finds the round if it is there.
  match reduction.cyclePhaseRounds.idxOf? round with
  | none => .error (.inactiveCycleRound round)
  | some idx =>
      match cycleVarChallenges[idx]? with
      | some challenge => .ok challenge
      | none => .error
          (.challengeLengthMismatch reduction.cyclePhaseRounds.length cycleVarChallenges.length)

variable [Field F]

/-- The factor of the cycle rounds and of all rounds that the polynomial skips. -/
def skipRoundScale (gap : ℕ) : F := (List.replicate gap (2⁻¹ : F)).foldl (· * ·) 1

def cyclePhaseSkipScale : F :=
  skipRoundScale (reduction.cyclePhaseTotalRounds - reduction.cyclePhaseRounds.length)

def precommittedSkipRoundScale : F :=
  skipRoundScale ((reduction.cyclePhaseTotalRounds - reduction.cyclePhaseRounds.length) +
    (reduction.addressPhaseTotalRounds - reduction.addressPhaseRounds.length))

/-- The challenges of the active cycle rounds, in ascending round order. -/
def cyclePhaseVariableChallenges (challenges : List F) : Except JoltFormulaPointError (List F) :=
  if challenges.length ≠ reduction.cyclePhaseTotalRounds then
    .error (.challengeLengthMismatch reduction.cyclePhaseTotalRounds challenges.length)
  else .ok (reduction.cyclePhaseRounds.map fun round => challenges.getD round 0)

/-- The point at the end of the cycle phase, last round first. -/
def cyclePhaseOpeningPoint (challenges : List F) : Except JoltFormulaPointError (List F) := do
  let point ← reduction.cyclePhaseVariableChallenges challenges
  return point.reverse

/-- The final point of a reduction that ends with the cycle phase, in opening-round order. -/
def cyclePhasePermutedOpeningPoint (challenges : List F) : Except JoltFormulaPointError (List F) :=
  if challenges.length ≠ reduction.cyclePhaseTotalRounds then
    .error (.challengeLengthMismatch reduction.cyclePhaseTotalRounds challenges.length)
  else
    reduction.polyOpeningRoundPermutationBe.mapM fun globalRound =>
      if globalRound < reduction.cycleAlignmentRounds then .ok (challenges.getD globalRound 0)
      else .error (.cyclePhaseNotFinal reduction.numAddressPhaseRounds)

/-- The same point, from the point at the end of the cycle phase. -/
def cyclePhasePermutedFromOpeningPoint (openingPoint : List F) :
    Except JoltFormulaPointError (List F) :=
  if openingPoint.length ≠ reduction.cyclePhaseRounds.length then
    .error (.challengeLengthMismatch reduction.cyclePhaseRounds.length openingPoint.length)
  else
    reduction.polyOpeningRoundPermutationBe.mapM fun globalRound =>
      if globalRound < reduction.cycleAlignmentRounds then
        reduction.cycleChallengeForRound openingPoint.reverse globalRound
      else .error (.cyclePhaseNotFinal reduction.numAddressPhaseRounds)

/-- The final point of a reduction, in opening-round order, from the challenges of both phases. -/
def addressPhaseOpeningPoint (cycleVarChallenges challenges : List F) :
    Except JoltFormulaPointError (List F) :=
  if cycleVarChallenges.length ≠ reduction.cyclePhaseRounds.length then
    .error (.challengeLengthMismatch reduction.cyclePhaseRounds.length cycleVarChallenges.length)
  else if challenges.length ≠ reduction.addressPhaseTotalRounds then
    .error (.challengeLengthMismatch reduction.addressPhaseTotalRounds challenges.length)
  else
    reduction.polyOpeningRoundPermutationBe.mapM fun globalRound =>
      if globalRound < reduction.cycleAlignmentRounds then
        reduction.cycleChallengeForRound cycleVarChallenges globalRound
      else .ok (challenges.getD (globalRound - reduction.cycleAlignmentRounds) 0)

end PrecommittedClaimReduction

end JoltWasm
