import JoltWasm.Poly.Dense
import JoltWasm.Poly.Interpolation

/-!
# Split equality tables

The weights of the unbound variables, as the product of an outer table, an inner table and the linear factor
of the current variable.  Binding folds the linear factor into the scalar and pops one of the two stacks.
-/

namespace JoltWasm

open Lib EqPolynomial UnivariatePoly

section

variable {F : Type} [Field F]

/-- `usize::trailing_zeros` of the length of a table. -/
def trailingZeros (n : ℕ) : ℕ := padicValNat 2 n

theorem trailingZeros_pow (n : ℕ) : trailingZeros (2 ^ n) = n := padicValNat.prime_pow n

/-! ## The tensor table -/

structure TensorEqTable (F : Type) where
  eOut : List F
  eIn : List F
  inBits : ℕ

namespace TensorEqTable

def new (point : List F) : TensorEqTable F :=
  let split := point.length / 2
  let (outPoint, inPoint) := point.splitAt split
  ⟨evals outPoint none, evals inPoint none, inPoint.length⟩

def len (t : TensorEqTable F) : ℕ := t.eOut.length * t.eIn.length

def evaluateIndex (t : TensorEqTable F) (index : ℕ) : F :=
  t.eOut.getD (index >>> t.inBits) 0 * t.eIn.getD (index &&& (1 <<< t.inBits - 1)) 0

def groupIndex (t : TensorEqTable F) (xOut xIn : ℕ) : ℕ := xOut <<< t.inBits ||| xIn

end TensorEqTable

/-! ## The stacks -/

structure GruenSplitEqPolynomial (F : Type) where
  currentIndex : ℕ
  currentScalar : F
  point : List F
  eInVec : List (List F)
  eOutVec : List (List F)
  bindingOrder : BindingOrder

namespace GruenSplitEqPolynomial

def newWithScaling (point : List F) (bindingOrder : BindingOrder) (scalingFactor : Option F) :
    GruenSplitEqPolynomial F :=
  if point.isEmpty then ⟨0, scalingFactor.getD 1, [], [[1]], [[1]], bindingOrder⟩
  else
    match bindingOrder with
    | .lowToHigh =>
        let split := point.length / 2
        let head := point.take (point.length - 1)
        let (outPoint, inPoint) := head.splitAt (min split head.length)
        ⟨point.length, scalingFactor.getD 1, point, evalsCached inPoint none, evalsCached outPoint none, .lowToHigh⟩
    | .highToLow =>
        let split := point.length / 2
        let tail := point.drop 1
        let (inPoint, outPoint) := tail.splitAt (min split tail.length)
        ⟨0, scalingFactor.getD 1, point, evalsCachedRev inPoint none, evalsCachedRev outPoint none, .highToLow⟩

def new (point : List F) (bindingOrder : BindingOrder) : GruenSplitEqPolynomial F :=
  newWithScaling point bindingOrder none

/-- The coordinate of the variable that is bound next. -/
def currentPoint (p : GruenSplitEqPolynomial F) : Option F :=
  match p.bindingOrder with
  | .lowToHigh => if p.currentIndex = 0 then none else p.point[p.currentIndex - 1]?
  | .highToLow => p.point[p.currentIndex]?

def currentLinearEvals (p : GruenSplitEqPolynomial F) : Option (F × F) := do
  let point ← p.currentPoint
  let atOne := p.currentScalar * point
  return (p.currentScalar - atOne, atOne)

def eInCurrent (p : GruenSplitEqPolynomial F) : List F := p.eInVec.getLastD []

def eOutCurrent (p : GruenSplitEqPolynomial F) : List F := p.eOutVec.getLastD []

def groupIndex (p : GruenSplitEqPolynomial F) (xOut xIn : ℕ) : ℕ :=
  xOut <<< trailingZeros p.eInCurrent.length ||| xIn

def bind (p : GruenSplitEqPolynomial F) (challenge : F) : Option (GruenSplitEqPolynomial F) :=
  if p.point.isEmpty then some p
  else do
    let point ← p.currentPoint
    let product := point * challenge
    let scalar := p.currentScalar * (1 - point - challenge + product + product)
    match p.bindingOrder with
    | .lowToHigh =>
        let index := p.currentIndex - 1
        let next := { p with currentIndex := index, currentScalar := scalar }
        if p.point.length / 2 < index ∧ 1 < p.eInVec.length then some { next with eInVec := p.eInVec.dropLast }
        else if 0 < index ∧ 1 < p.eOutVec.length then some { next with eOutVec := p.eOutVec.dropLast }
        else some next
    | .highToLow =>
        let index := p.currentIndex + 1
        let next := { p with currentIndex := index, currentScalar := scalar }
        if index ≤ p.point.length / 2 ∧ 1 < p.eInVec.length then some { next with eInVec := p.eInVec.dropLast }
        else if index ≤ p.point.length ∧ 1 < p.eOutVec.length then
          some { next with eOutVec := p.eOutVec.dropLast }
        else some next

def merge (p : GruenSplitEqPolynomial F) : Option (DensePolynomial F) :=
  DensePolynomial.new (match p.bindingOrder with
    | .lowToHigh => evals (p.point.take p.currentIndex) (some p.currentScalar)
    | .highToLow => evals (p.point.drop p.currentIndex) (some p.currentScalar))

section Rounds

variable [DecidableEq F]

/-- The cubic `l * q` from the constant and the quadratic coefficient of `q` and the sum at zero and one. -/
def gruenPolyDeg3 (p : GruenSplitEqPolynomial F) (qConstant qQuadraticCoeff s0PlusS1 : F) :
    Option (UnivariatePoly F) := do
  let point ← p.currentPoint
  let eqEval1 := p.currentScalar * point
  let eqEval0 := p.currentScalar - eqEval1
  let eqM := eqEval1 - eqEval0
  let eqEval2 := eqEval1 + eqM
  let eqEval3 := eqEval2 + eqM
  let quadraticEval0 := qConstant
  let cubicEval0 := eqEval0 * quadraticEval0
  let cubicEval1 := s0PlusS1 - cubicEval0
  let inverse1 ← inverse eqEval1
  let quadraticEval1 := cubicEval1 * inverse1
  let eTimes2 := qQuadraticCoeff + qQuadraticCoeff
  let quadraticEval2 := quadraticEval1 + quadraticEval1 - quadraticEval0 + eTimes2
  let quadraticEval3 := quadraticEval2 + quadraticEval1 - quadraticEval0 + eTimes2 + eTimes2
  interpolateOverIntegers [cubicEval0, cubicEval1, eqEval2 * quadraticEval2, eqEval3 * quadraticEval3]

/-- `l * q` from the values of `q` at `1, 2, ...`, its leading coefficient and the sum at zero and one. -/
def gruenPolyFromEvals (p : GruenSplitEqPolynomial F) (qEvals : List F) (s0PlusS1 : F) :
    Option (UnivariatePoly F) := do
  let rRound ← p.currentPoint
  let lAt0 := p.currentScalar * (1 - rRound)
  let lAt1 := p.currentScalar * rRound
  let qAt1 ← qEvals[0]?
  let inverse0 ← inverse lAt0
  let qAt0 := (s0PlusS1 - lAt1 * qAt1) * inverse0
  let q ← fromEvalsToom (qAt0 :: qEvals)
  let lC0 := lAt0
  let lC1 := lAt1 - lAt0
  return ⟨List.zipWith (· + ·) (q.coefficients.map (· * lC0) ++ [0]) (0 :: q.coefficients.map (· * lC1))⟩

end Rounds

end GruenSplitEqPolynomial

end

end JoltWasm
