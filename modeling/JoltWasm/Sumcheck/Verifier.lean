import Mathlib.Algebra.Field.Basic
import Mathlib.Algebra.BigOperators.Group.List.Basic
import JoltWasm.Lib.Numerals

/-!
# The sum-check verifier

For each round the verifier enforces the degree bound, checks the round sum over the domain against
the running sum, absorbs the message, and draws a challenge.  A compressed message omits its linear
coefficient, which the running sum determines.
-/

namespace JoltWasm

/-- What the verifier uses of a transcript. -/
class Transcript (T : Type) (F : outParam Type) where
  appendScalar : T → F → T
  /-- Absorb a label with a count. -/
  appendLabel : T → List UInt8 → ℕ → T
  challenge : T → F × T

/-- Univariate polynomial: `coefficients[i]` is the coefficient of `x ^ i`. -/
structure UnivariatePoly (F : Type) where
  coefficients : List F
  deriving DecidableEq

/-- A polynomial without its linear coefficient: `[c0, c2, c3, ...]`. -/
structure CompressedPoly (F : Type) where
  coeffsExceptLinearTerm : List F
  deriving DecidableEq

/-- How a round polynomial is absorbed. -/
inductive RoundEncoding where
  | plain
  | labeled (label : List UInt8)
  | compressedLabeled (label : List UInt8)
  deriving DecidableEq

/-- A round message whose polynomial is available to the verifier. -/
structure ClearRound (F : Type) where
  encoding : RoundEncoding
  poly : UnivariatePoly F
  deriving DecidableEq

structure SumcheckClaim (F : Type) where
  numVars : ℕ
  degree : ℕ
  claimedSum : F
  deriving DecidableEq

structure EvaluationClaim (F : Type) where
  point : List F
  value : F
  deriving DecidableEq

inductive SumcheckError (F : Type) where
  | roundCheckFailed (round : ℕ) (expected actual : F)
  | degreeBoundExceeded (got max : ℕ)
  | compressedPolynomialTooShort (round got : ℕ)
  | roundSumCoefficientCountMismatch (round expected got : ℕ)
  | invalidIntegerDomain (domainSize : ℕ)
  | wrongNumberOfRounds (expected got : ℕ)
  | panicked (message : String)
  deriving DecidableEq

inductive CenteredIntegerDomainError where
  | emptyDomain
  | domainTooLarge (domainSize : ℕ)
  | powerSumOverflow (domainSize power : ℕ)
  deriving DecidableEq

inductive SumcheckDomain where
  | booleanHypercube
  | centeredInteger (domainSize : ℕ)
  deriving DecidableEq

/-! ## The centered integer domain -/

def checkedI64 (v : ℤ) : Option ℤ := if -2 ^ 63 ≤ v ∧ v < 2 ^ 63 then some v else none

def checkedI128 (v : ℤ) : Option ℤ := if -2 ^ 127 ≤ v ∧ v < 2 ^ 127 then some v else none

/-- The first of the `domainSize` consecutive integers. -/
def centeredDomainStart (domainSize : ℕ) : Except CenteredIntegerDomainError ℤ :=
  if domainSize = 0 then .error .emptyDomain
  else if 2 ^ 63 - 1 < domainSize then .error (.domainTooLarge domainSize)
  else .ok (-((domainSize - 1) / 2 : ℕ))

/-- Add the powers of `t` to the sums, from `pow`, the power of exponent `power`, on. -/
def addPowers (domainSize : ℕ) (t : ℤ) :
    ℕ → ℤ → List ℤ → Except CenteredIntegerDomainError (List ℤ)
  | _, _, [] => .ok []
  | power, pow, sum :: sums =>
      match checkedI128 (sum + pow) with
      | none => .error (.powerSumOverflow domainSize power)
      | some sum =>
          if sums = [] then .ok [sum]
          else
            match checkedI128 (pow * t) with
            | none => .error (.powerSumOverflow domainSize (power + 1))
            | some pow => do
                let sums ← addPowers domainSize t (power + 1) pow sums
                return sum :: sums

/-- Add the powers of the points at the offsets to the sums. -/
def addPoints (domainSize : ℕ) (start : ℤ) :
    List ℕ → List ℤ → Except CenteredIntegerDomainError (List ℤ)
  | [], sums => .ok sums
  | offset :: offsets, sums =>
      match checkedI64 (start + offset) with
      | none => .error (.domainTooLarge domainSize)
      | some t => do
          let sums ← addPowers domainSize t 0 1 sums
          addPoints domainSize start offsets sums

/-- The power sums `∑ t, t ^ k` of the centered domain, for `k < numPowers`. -/
def centeredPowerSums (domainSize numPowers : ℕ) : Except CenteredIntegerDomainError (List ℤ) := do
  let start ← centeredDomainStart domainSize
  if numPowers = 0 then return List.replicate numPowers 0
  addPoints domainSize start (List.range domainSize) (List.replicate numPowers 0)

section

variable {F : Type} [Field F]

/-! ## Polynomials -/

def UnivariatePoly.degree (p : UnivariatePoly F) : ℕ :=
  if p.coefficients.isEmpty then 0 else p.coefficients.length - 1

/-- Horner evaluation. -/
def UnivariatePoly.evaluate (p : UnivariatePoly F) (point : F) : F :=
  match p.coefficients.reverse with
  | [] => 0
  | c :: cs => cs.foldl (fun acc c => acc * point + c) c

namespace CompressedPoly

def degree (p : CompressedPoly F) : ℕ := p.coeffsExceptLinearTerm.length

/-- The omitted coefficient, given the sum of the values at zero and one; the source asserts that the
polynomial is not empty. -/
def recoverLinearTerm (p : CompressedPoly F) (hint : F) : Option F :=
  match p.coeffsExceptLinearTerm with
  | [] => none
  | c0 :: cs => some (cs.foldl (fun linear c => linear - c) (hint - c0 - c0))

def evaluateWithHint (p : CompressedPoly F) (hint point : F) : Option F := do
  let linear ← p.recoverLinearTerm hint
  match p.coeffsExceptLinearTerm with
  | [] => none
  | c0 :: cs =>
      return (cs.foldl (fun (power, sum) c => (power * point, sum + c * (power * point)))
        (point, c0 + point * linear)).2

def decompress (p : CompressedPoly F) (hint : F) : Option (UnivariatePoly F) := do
  let linear ← p.recoverLinearTerm hint
  match p.coeffsExceptLinearTerm with
  | [] => none
  | c0 :: cs => return ⟨c0 :: linear :: cs⟩

end CompressedPoly

/-! ## Round messages -/

namespace ClearRound

def degree (round : ClearRound F) : ℕ := round.poly.degree

def evaluate (round : ClearRound F) (challenge : F) : F := round.poly.evaluate challenge

def coefficientLinearCombination (round : ClearRound F) (coefficients : List F) : F :=
  (List.zipWith (· * ·) round.poly.coefficients coefficients).sum

def checkRoundWellFormed (round : ClearRound F) (index : ℕ) : Except (SumcheckError F) Unit :=
  match round.encoding with
  | .compressedLabeled _ =>
      if round.poly.coefficients.length < 2 then
        .error (.compressedPolynomialTooShort index round.poly.coefficients.length)
      else .ok ()
  | _ => .ok ()

def appendToTranscript {T : Type} [Transcript T F] (round : ClearRound F) (t : T) : T :=
  let coefficients := round.poly.coefficients
  match round.encoding with
  | .plain => coefficients.foldl Transcript.appendScalar t
  | .labeled label =>
      coefficients.foldl Transcript.appendScalar
        (Transcript.appendLabel t label coefficients.length)
  | .compressedLabeled label =>
      match coefficients with
      | [] => t
      | constant :: rest =>
          (rest.drop 1).foldl Transcript.appendScalar
            (Transcript.appendScalar
              (Transcript.appendLabel t label (coefficients.length - 1)) constant)

end ClearRound

/-! ## Round sums -/

namespace SumcheckDomain

/-- The sums over the domain of the powers up to `degree`. -/
def roundSumCoefficients (domain : SumcheckDomain) (degree : ℕ) :
    Except (SumcheckError F) (List F) :=
  match domain with
  | booleanHypercube => .ok (2 :: List.replicate degree 1)
  | centeredInteger domainSize =>
      match centeredPowerSums domainSize (degree + 1) with
      | .error _ => .error (.invalidIntegerDomain domainSize)
      | .ok sums => .ok (sums.map Int.cast)

def checkRoundSum [DecidableEq F] (domain : SumcheckDomain) (index : ℕ) (runningSum : F)
    (round : ClearRound F) : Except (SumcheckError F) Unit := do
  round.checkRoundWellFormed index
  let coefficients ← domain.roundSumCoefficients round.degree
  let expected := round.degree + 1
  let actual := round.coefficientLinearCombination coefficients
  if coefficients.length ≠ expected then
    .error (.roundSumCoefficientCountMismatch index expected coefficients.length)
  else if actual ≠ runningSum then .error (.roundCheckFailed index runningSum actual)
  else .ok ()

end SumcheckDomain

/-! ## The verifier -/

variable {T : Type} [Transcript T F]

/-- The rounds from `index` on: the challenges, the final running sum and the transcript. -/
def verifyRounds [DecidableEq F] (claim : SumcheckClaim F) (domain : SumcheckDomain) :
    ℕ → F → List (ClearRound F) → T → Except (SumcheckError F) (List F × F × T)
  | _, runningSum, [], t => .ok ([], runningSum, t)
  | index, runningSum, round :: rounds, t =>
      if claim.degree < round.degree then
        .error (.degreeBoundExceeded round.degree claim.degree)
      else do
        domain.checkRoundSum index runningSum round
        let (r, t) := Transcript.challenge (round.appendToTranscript t)
        let (challenges, value, t) ← verifyRounds claim domain (index + 1) (round.evaluate r) rounds t
        return (r :: challenges, value, t)

def verify [DecidableEq F] (claim : SumcheckClaim F) (rounds : List (ClearRound F))
    (domain : SumcheckDomain) (t : T) : Except (SumcheckError F) (EvaluationClaim F × T) :=
  if rounds.length ≠ claim.numVars then
    .error (.wrongNumberOfRounds claim.numVars rounds.length)
  else do
    let (challenges, value, t) ← verifyRounds claim domain 0 claim.claimedSum rounds t
    return (⟨challenges, value⟩, t)

/-- The compressed rounds from `index` on. -/
def verifyCompressedRounds [DecidableEq F] (claim : SumcheckClaim F) (label : List UInt8) :
    ℕ → F → List (CompressedPoly F) → T → Except (SumcheckError F) (List F × F × T)
  | _, runningSum, [], t => .ok ([], runningSum, t)
  | index, runningSum, round :: rounds, t =>
      let coeffs := round.coeffsExceptLinearTerm
      if claim.degree < round.degree then
        .error (.degreeBoundExceeded round.degree claim.degree)
      else if coeffs = [] then .error (.compressedPolynomialTooShort index 0)
      else do
        let (r, t) := Transcript.challenge
          (coeffs.foldl Transcript.appendScalar (Transcript.appendLabel t label coeffs.length))
        let some value := round.evaluateWithHint runningSum r
          | .error (.panicked "cannot evaluate an empty compressed polynomial")
        let (challenges, value, t) ← verifyCompressedRounds claim label (index + 1) value rounds t
        return (r :: challenges, value, t)

/-- The verifier of compressed rounds; its domain is the Boolean hypercube. -/
def verifyCompressed [DecidableEq F] (claim : SumcheckClaim F) (rounds : List (CompressedPoly F))
    (label : List UInt8) (t : T) : Except (SumcheckError F) (EvaluationClaim F × T) :=
  if rounds.length ≠ claim.numVars then
    .error (.wrongNumberOfRounds claim.numVars rounds.length)
  else do
    let (challenges, value, t) ← verifyCompressedRounds claim label 0 claim.claimedSum rounds t
    return (⟨challenges, value⟩, t)

/-- The polynomials of the compressed rounds: each one's linear coefficient is recovered from the
running sum. -/
def decompressRounds : F → List (CompressedPoly F) → List F → List (UnivariatePoly F)
  | runningSum, round :: rounds, r :: challenges =>
      match round.decompress runningSum with
      | none => []
      | some poly => poly :: decompressRounds (poly.evaluate r) rounds challenges
  | _, _, _ => []

end

end JoltWasm
