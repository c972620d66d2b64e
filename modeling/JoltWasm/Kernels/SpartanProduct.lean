import JoltWasm.Field.Element
import JoltWasm.Kernels.Support

/-!
# The Spartan product kernel

The first round of the product sum-check skips a window of two nodes: the lanes of a cycle are extended to
three nodes as integers, and their products summed under the equality table.  The remaining rounds go over
the cycles, with each lane table folded at the challenge of the first round.
-/

namespace JoltWasm

open Mont

namespace SpartanProduct

/-- The scalar field. -/
abbrev Scalar := ZMod Mont.order

/-- `PRODUCT_UNISKIP_DOMAIN_SIZE`. -/
def domain : ℕ := 2

def extendedSize : ℕ := 2 * domain - 1

def domainStart : ℤ := -(((domain : ℤ) - 1).tdiv 2)

def extendedStart : ℤ := -(((extendedSize : ℤ) - 1).tdiv 2)

/-- The witness of one cycle: the two left and the two right lanes. -/
structure SpartanProductRow where
  leftInstructionInput : Mont.U64
  rightInstructionInput : Mont.U64
  lookupOutput : Mont.U64
  branchFlag : Bool
  deriving Inhabited

/-! ## The univariate skip -/

/-- The coefficient of lane `i` at a node, an exact quotient of integers. -/
def extensionCoefficient (node : ℤ) (i : ℕ) : ℤ :=
  let (numerator, denominator) := (List.range domain).foldl (fun (numerator, denominator) (j : ℕ) =>
    if j = i then (numerator, denominator)
    else (numerator * (node - (domainStart + j)), denominator * ((i : ℤ) - j))) (1, 1)
  numerator.tdiv denominator

/-- One list for each extended node. -/
def extensionCoefficients : List (List ℤ) := (List.range extendedSize).map fun position =>
  (List.range domain).map (extensionCoefficient (extendedStart + position))

/-- `i128` arithmetic stops where it overflows. -/
def laneStep (sums : ℤ × ℤ) (lane : (ℤ × ℤ) × ℤ) : Option (ℤ × ℤ) := do
  let left ← checkedI128 (sums.1 + (← checkedI128 (lane.2 * lane.1.1)))
  let right ← checkedI128 (sums.2 + (← checkedI128 (lane.2 * lane.1.2)))
  return (left, right)

/-- The product of the two sides of a cycle at every extended node. -/
def extendedProducts (row : SpartanProductRow) (coefficients : List (List ℤ)) : Option (List S256) :=
  let leftLanes : List ℤ := [row.leftInstructionInput.val, row.lookupOutput.val]
  let rightLanes : List ℤ := [row.rightInstructionInput.val, row.branchFlag.toNat]
  coefficients.mapM fun coefficients => do
    let (left, right) ← ((leftLanes.zip rightLanes).zip coefficients).foldlM laneStep (0, 0)
    return SignedBigInt.mulTrunc (SignedBigInt.fromI128 left : S128) (SignedBigInt.fromI128 right : SignedBigInt 3)

/-- What the first round leaves for the others. -/
structure SpartanProductCarry where
  logT : ℕ
  tauLow : List Scalar
  rows : List SpartanProductRow
  t1Values : List Scalar

section

variable (ark : ArkFr)

/-- `fmadd_s256` on each accumulator. -/
def fmaddProducts (e : Scalar) (accumulators : List FrSignedProductAccumulator) (products : List S256) :
    List FrSignedProductAccumulator :=
  List.zipWith (fun accumulator product =>
    (FrSignedProductAccumulator.accumulator ark).fmaddS256 accumulator (.ofValue e) product) accumulators products

/-- The values at the extended nodes, summed over the cycles under the equality table. -/
def extendedT1Values (rows : List SpartanProductRow) (tauLow : List Scalar) : Option (List Scalar) :=
  let split := tauLow.length / 2
  let (outPoint, inPoint) := tauLow.splitAt split
  let eOut := EqPolynomial.evals outPoint none
  let eIn := EqPolynomial.evals inPoint none
  let inLen := eIn.length
  let coefficients := extensionCoefficients
  let block (xOut : ℕ) : Option (List Scalar) := do
    let accumulators ← eIn.zipIdx.foldlM (fun accumulators (e, xIn) => do
        let row ← rows[xOut * inLen + xIn]?
        let products ← extendedProducts row coefficients
        return fmaddProducts ark e accumulators products)
      (List.replicate extendedSize (FrSignedProductAccumulator.accumulator ark).default)
    accumulators.mapM fun accumulator => do return eOut.getD xOut 0 * (← accumulator.result ark)
  tryParSumVecs eOut.length extendedSize block

namespace OptimizedProductUniskip

def prepareFromStore (logT : ℕ) (tauLow : List Scalar) (rows : List SpartanProductRow) :
    Except KernelStop SpartanProductCarry := do
  if tauLow.length ≠ logT then .error (.invariantViolation "Spartan product tau_low must carry log_t challenges")
  else do
    let t1Values ← KernelStop.orPanic (extendedT1Values ark rows tauLow)
    return ⟨logT, tauLow, rows, t1Values⟩

/-- `session` holds the carry, if one is parked. -/
def firstRoundPoly (session : Option SpartanProductCarry) (lateTau : List Scalar) :
    Except KernelStop (UnivariatePoly Scalar) :=
  match lateTau, session with
  | [tauHigh], some carry => do
      let kernelValues ← KernelStop.liftDomain (centeredLagrangeEvals domain tauHigh)
      let kernelCoefficients ← KernelStop.orPanic (interpolateToCoeffs domainStart kernelValues)
      let t1Coefficients ← KernelStop.orPanic (interpolateToCoeffs extendedStart carry.t1Values)
      return ⟨polyMul kernelCoefficients t1Coefficients⟩
  | [_], none => .error (.invariantViolation
      "the product uni-skip slot parked no carry for the first-round polynomial")
  | _, _ => .error (.invariantViolation
      "the product uni-skip first-round polynomial expects exactly one late challenge")

end OptimizedProductUniskip

/-! ## The remainder -/

/-- What the kernel reads of the relation. -/
structure ProductRemainder where
  rounds : ℕ
  uniskipChallenge : Scalar
  tauHigh : Scalar

structure ProductRemainderKernel where
  left : DensePolynomial Scalar
  right : DensePolynomial Scalar
  splitEq : GruenSplitEqPolynomial Scalar
  pendingEndpoints : Option (Scalar × Scalar)
  challenges : RoundChallenges Scalar
  rows : List SpartanProductRow
  lagrangeWeights : List Scalar

/-- `fmadd_u64` on a small-scalar accumulator. -/
def fmaddU64 (accumulator : FrSmallScalarAccumulator) (e : Scalar) (scalar : Mont.U64) : FrSmallScalarAccumulator :=
  (FrSmallScalarAccumulator.accumulator ark).fmaddU64 accumulator (.ofValue e) scalar

/-- A flag as a scalar. -/
def flagU64 (flag : Bool) : Mont.U64 := if flag then 1 else 0

/-- The two entries of a cycle. -/
def cell (weights : List Scalar) (row : SpartanProductRow) : Scalar × Scalar :=
  let default := (FrSmallScalarAccumulator.accumulator ark).default
  let leftAcc := fmaddU64 ark default (weights.getD 0 0) row.leftInstructionInput
  let leftAcc := fmaddU64 ark leftAcc (weights.getD 1 0) row.lookupOutput
  let rightAcc := fmaddU64 ark default (weights.getD 0 0) row.rightInstructionInput
  let rightAcc := fmaddU64 ark rightAcc (weights.getD 1 0) (flagU64 row.branchFlag)
  (leftAcc.result ark, rightAcc.result ark)

/-- What a block has written, in order, and its sums. -/
structure BlockState where
  left : List Scalar
  right : List Scalar
  innerZero : Scalar
  innerInfinity : Scalar

/-- One pair of cycles; the two chunks end after `chunkLen` entries. -/
def blockStep (weights : List Scalar) (rows : List SpartanProductRow) (inLen chunkLen xOut : ℕ) (state : BlockState)
    (entry : Scalar × ℕ) : Option BlockState := do
  let (e, xIn) := entry
  let pair := xOut * inLen + xIn
  let (leftLow, rightLow) := cell ark weights (← rows[2 * pair]?)
  let (leftHigh, rightHigh) := cell ark weights (← rows[2 * pair + 1]?)
  if 2 * xIn + 1 < chunkLen then
    return {
      left := state.left ++ [leftLow, leftHigh]
      right := state.right ++ [rightLow, rightHigh]
      innerZero := state.innerZero + e * (leftLow * rightLow)
      innerInfinity := state.innerInfinity + e * ((leftHigh - leftLow) * (rightHigh - rightLow)) }
  else none

/-- The two tables and the first endpoints, chunk by chunk. -/
def materialize (weights : List Scalar) (rows : List SpartanProductRow) (eOut eIn : List Scalar) (cycles : ℕ) :
    Option (List Scalar × List Scalar × Scalar × Scalar) :=
  let inLen := eIn.length
  let width := 2 * inLen
  let block (xOut : ℕ) : Option (List Scalar × List Scalar × Scalar × Scalar) := do
    let chunkLen := min width (cycles - xOut * width)
    let state ← eIn.zipIdx.foldlM (blockStep ark weights rows inLen chunkLen xOut) ⟨[], [], 0, 0⟩
    let e ← eOut[xOut]?
    return (state.left, state.right, e * state.innerZero, e * state.innerInfinity)
  (List.range ((cycles + width - 1) / width)).foldlM (fun (left, right, zero, infinity) xOut => do
    let (leftChunk, rightChunk, blockZero, blockInfinity) ← block xOut
    return (left ++ leftChunk, right ++ rightChunk, zero + blockZero, infinity + blockInfinity)) ([], [], 0, 0)

namespace ProductRemainderKernel

def prepare (carry : SpartanProductCarry) (relation : ProductRemainder) : Except KernelStop ProductRemainderKernel := do
  let rounds := relation.rounds
  if rounds ≠ carry.logT then
    .error (.invariantViolation "product remainder rounds disagree with the uni-skip carry's log_t")
  else do
    let weights ← KernelStop.liftDomain (centeredLagrangeEvals domain relation.uniskipChallenge)
    let scale ← KernelStop.liftDomain (centeredLagrangeKernel domain relation.tauHigh relation.uniskipChallenge)
    let splitEq := GruenSplitEqPolynomial.newWithScaling carry.tauLow .lowToHigh (some scale)
    let cycles ← KernelStop.orPanic (if carry.logT < 64 then some (2 ^ carry.logT) else none)
    let (left, right, endpoints) ← KernelStop.orPanic
      (materialize ark weights carry.rows splitEq.eOutCurrent splitEq.eInCurrent cycles)
    let left ← KernelStop.orPanic (DensePolynomial.new left)
    let right ← KernelStop.orPanic (DensePolynomial.new right)
    return ⟨left, right, splitEq, some endpoints, .new rounds, carry.rows, weights⟩

def bind (kernel : ProductRemainderKernel) (challenge : Scalar) : Option ProductRemainderKernel := do
  let left ← kernel.left.bindLowToHigh challenge
  let right ← kernel.right.bindLowToHigh challenge
  let splitEq ← kernel.splitEq.bind challenge
  return { kernel with
    left := left
    right := right
    splitEq := splitEq
    challenges := kernel.challenges.push challenge
    pendingEndpoints := none }

/-- Bind the last challenge, if there is one, then the round's message. -/
def proveRound (kernel : ProductRemainderKernel) (challenge : Option Scalar) (previousClaim : Scalar) :
    Option (UnivariatePoly Scalar × ProductRemainderKernel) := do
  let kernel ← match challenge with
    | some challenge => kernel.bind challenge
    | none => some kernel
  let (qZero, qInfinity) := match kernel.pendingEndpoints with
    | some endpoints => endpoints
    | none => kernel.splitEq.productEndpoints kernel.left kernel.right
  let message ← kernel.splitEq.gruenPolyDeg3 qZero qInfinity previousClaim
  return (message, { kernel with pendingEndpoints := none })

def finishRounds (kernel : ProductRemainderKernel) (challenge : Scalar) : Option ProductRemainderKernel :=
  kernel.bind challenge

/-- `num_rounds`. -/
def numRounds (kernel : ProductRemainderKernel) : ℕ := kernel.challenges.total

/-- The calls on the accumulators of one block of cycles. -/
def claimStep (rows : List SpartanProductRow) (state : List FrSignedProductAccumulator × FrSmallScalarAccumulator)
    (entry : ℕ × Scalar) : Option (List FrSignedProductAccumulator × FrSmallScalarAccumulator) := do
  let (t, weight) := entry
  let row ← rows[t]?
  return (fmaddProducts ark weight state.1
      [.fromU64 row.leftInstructionInput, .fromU64 row.rightInstructionInput, .fromU64 row.lookupOutput],
    fmaddU64 ark state.2 weight (flagU64 row.branchFlag))

/-- The columns at the bound point, in the order of the output claims. -/
def claimedInputs (kernel : ProductRemainderKernel) : Option (List Scalar) :=
  let reversed := kernel.challenges.challenges.reverse
  let weights := EqPolynomial.evals reversed none
  let cycles := weights.length
  let blockSize := 1 <<< 12
  let blocks := (cycles + blockSize - 1) / blockSize
  let block (index : ℕ) : Option (List Scalar) := do
    let start := index * blockSize
    let finish := min (start + blockSize) cycles
    let (words, branch) ← (List.range' start (finish - start)).zip ((weights.drop start).take (finish - start))
      |>.foldlM (claimStep ark kernel.rows)
        (List.replicate 3 (FrSignedProductAccumulator.accumulator ark).default,
          (FrSmallScalarAccumulator.accumulator ark).default)
    let words ← words.mapM (FrSignedProductAccumulator.result ark)
    return words ++ [branch.result ark]
  tryParSumVecs blocks 4 block

/-- The openings of the relation. -/
inductive ProductOpening where
  | leftInstructionInput
  | rightInstructionInput
  | lookupOutput
  | branchFlag
  deriving DecidableEq

/-- The opening values that the rounds leave. -/
structure ProductRemainderOutputClaims where
  leftInstructionInput : Scalar
  rightInstructionInput : Scalar
  lookupOutput : Scalar
  branchFlag : Scalar

/-- `from_opening_values`. -/
def fromOpeningValues (value : ProductOpening → Option Scalar) : Except KernelStop ProductRemainderOutputClaims :=
  match value .leftInstructionInput, value .rightInstructionInput, value .lookupOutput, value .branchFlag with
  | some left, some right, some lookup, some branch => .ok ⟨left, right, lookup, branch⟩
  | _, _, _, _ => .error .missingOpeningValue

def outputClaims (kernel : ProductRemainderKernel) : Except KernelStop ProductRemainderOutputClaims := do
  kernel.challenges.requireComplete
  let ids : List ProductOpening := [.leftInstructionInput, .rightInstructionInput, .lookupOutput, .branchFlag]
  let claims := ids.zip (← KernelStop.orPanic (kernel.claimedInputs ark))
  fromOpeningValues fun id => claims.lookup id

end ProductRemainderKernel

/-! ## The caller -/

/-- The rounds with their challenges: each message is evaluated at its challenge for the next claim, and the
last challenge is bound at the end. -/
def proveRounds : ProductRemainderKernel → Option Scalar → Scalar → List Scalar →
    Option (List (UnivariatePoly Scalar) × ProductRemainderKernel)
  | kernel, none, _, [] => some ([], kernel)
  | kernel, some last, _, [] => do return ([], ← kernel.finishRounds last)
  | kernel, last, claim, challenge :: challenges => do
      let (message, kernel) ← kernel.proveRound last claim
      let (messages, kernel) ← proveRounds kernel (some challenge) (message.evaluate challenge) challenges
      return (message :: messages, kernel)

/-- The univariate skip, the remainder's kernel at its challenge and the rounds, from the value that the
skip's polynomial leaves there. -/
def run (logT : ℕ) (rows : List SpartanProductRow) (tauLow : List Scalar) (tauHigh uniskipChallenge : Scalar)
    (challenges : List Scalar) :
    Except KernelStop (UnivariatePoly Scalar × ProductRemainderKernel × List (UnivariatePoly Scalar) × ProductRemainderKernel) := do
  let carry ← OptimizedProductUniskip.prepareFromStore ark logT tauLow rows
  let uniskip ← OptimizedProductUniskip.firstRoundPoly (some carry) [tauHigh]
  let prepared ← ProductRemainderKernel.prepare ark carry ⟨logT, uniskipChallenge, tauHigh⟩
  let (messages, kernel) ← KernelStop.orPanic (proveRounds prepared none (uniskip.evaluate uniskipChallenge) challenges)
  return (uniskip, prepared, messages, kernel)

end

end SpartanProduct

end JoltWasm
