import Mathlib.Data.Nat.Log
import JoltWasm.Lib.Keeps

/-!
# Dimensions of the committed polynomials

The order that interleaves addresses and cycles, the shapes of the commitment matrices, and the errors
of the point formulas.
-/

namespace JoltWasm

inductive TracePolynomialOrder where
  | cycleMajor
  | addressMajor
  deriving DecidableEq

namespace TracePolynomialOrder

def addressCycleToIndex (order : TracePolynomialOrder)
    (address cycle numAddresses numCycles : ℕ) : ℕ :=
  match order with
  | cycleMajor => address * numCycles + cycle
  | addressMajor => cycle * numAddresses + address

def indexToAddressCycle (order : TracePolynomialOrder) (index numAddresses numCycles : ℕ) : ℕ × ℕ :=
  match order with
  | cycleMajor => (index / numCycles, index % numCycles)
  | addressMajor => (index % numAddresses, index / numAddresses)

variable {order : TracePolynomialOrder} {address cycle numAddresses numCycles : ℕ}

theorem addressCycleToIndex_lt (inAddresses : address < numAddresses) (inCycles : cycle < numCycles) :
    order.addressCycleToIndex address cycle numAddresses numCycles < numAddresses * numCycles := by
  cases order with
  | cycleMajor =>
      rw [addressCycleToIndex, Nat.mul_comm address]
      exact Nat.mul_add_lt_mul_of_lt_of_lt inAddresses inCycles
  | addressMajor =>
      rw [addressCycleToIndex, Nat.mul_comm cycle, Nat.mul_comm numAddresses numCycles]
      exact Nat.mul_add_lt_mul_of_lt_of_lt inCycles inAddresses

/-- An index stands for one pair of coordinates. -/
theorem indexToAddressCycle_index (inAddresses : address < numAddresses)
    (inCycles : cycle < numCycles) :
    order.indexToAddressCycle (order.addressCycleToIndex address cycle numAddresses numCycles)
      numAddresses numCycles = (address, cycle) := by
  cases order with
  | cycleMajor =>
      rw [addressCycleToIndex, indexToAddressCycle, Nat.mul_comm, Nat.mul_add_div (by omega),
        Nat.div_eq_of_lt inCycles, Nat.mul_add_mod, Nat.mod_eq_of_lt inCycles, Nat.add_zero]
  | addressMajor =>
      rw [addressCycleToIndex, indexToAddressCycle, Nat.mul_comm, Nat.mul_add_div (by omega),
        Nat.div_eq_of_lt inAddresses, Nat.mul_add_mod, Nat.mod_eq_of_lt inAddresses, Nat.add_zero]

end TracePolynomialOrder

structure CommitmentMatrixShape where
  columnVars : ℕ
  rowVars : ℕ
  deriving DecidableEq

namespace CommitmentMatrixShape

/-- The balanced shape: at least as many columns as rows. -/
def balanced (totalVars : ℕ) : CommitmentMatrixShape :=
  let columnVars := (totalVars + 1) / 2
  ⟨columnVars, totalVars - columnVars⟩

def totalVars (shape : CommitmentMatrixShape) : ℕ := shape.columnVars + shape.rowVars

@[simp] theorem totalVars_balanced (n : ℕ) : (balanced n).totalVars = n := by
  simp only [totalVars, balanced]
  omega

end CommitmentMatrixShape

inductive JoltFormulaPointError where
  | invalidReadWritePhaseSplit (phase1NumRounds logT phase2NumRounds logK : ℕ)
  | challengeLengthMismatch (expected got : ℕ)
  | openingPointLengthMismatch (expected got : ℕ)
  | evaluationDomainLengthMismatch (expected got : ℕ)
  | incompatibleDominantAnchors (first second : ℕ)
  | cycleChallengesShorterThanNativeCycle (expected got : ℕ)
  | cycleMajorCyclePrefixMismatch
  | cyclePhaseNotFinal (activeAddressRounds : ℕ)
  | inactiveCycleRound (round : ℕ)
  | polyDimsExceedReference (polyRowVars polyColVars referenceRowVars referenceColVars : ℕ)
  | invalidBytecodeChunking (bytecodeLen chunkCount : ℕ)
  deriving DecidableEq

section

variable {F : Type}

/-- At least `expected` leading entries. -/
def requireLen (values : List F) (expected : ℕ) : Except JoltFormulaPointError Unit :=
  if values.length < expected then .error (.challengeLengthMismatch expected values.length) else .ok ()

def requireOpeningPointLen (values : List F) (expected : ℕ) : Except JoltFormulaPointError Unit :=
  if values.length < expected then .error (.openingPointLengthMismatch expected values.length)
  else .ok ()

theorem requireLen_ok {values : List F} {expected : ℕ} (enough : expected ≤ values.length) :
    requireLen values expected = .ok () := if_neg (Nat.not_lt.mpr enough)

theorem requireOpeningPointLen_ok {values : List F} {expected : ℕ}
    (enough : expected ≤ values.length) : requireOpeningPointLen values expected = .ok () :=
  if_neg (Nat.not_lt.mpr enough)

end

end JoltWasm
