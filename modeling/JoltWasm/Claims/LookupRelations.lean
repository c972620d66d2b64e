import JoltWasm.Claims.BytecodeRows
import JoltWasm.Claims.CycleRelations
import JoltWasm.Tables.Mle

/-!
# The relation of the lookups

The instruction read-RAF check binds the lookup output and the two lookup operands of each cycle to the entry of
the cycle's table and to the operands of the index, at the place of the instruction access.
-/

namespace JoltWasm

namespace WasmTable

/-- `WasmTable::iter`. -/
def iter : List WasmTable :=
  [rangeCheck, lowerHalfWord, and, andn, or, xor, equal, notEqual, unsignedLessThan, signedLessThan,
    unsignedGreaterThanEqual, signedGreaterThanEqual, unsignedLessThanEqual, srl, sra, rotr, negateIf,
    mulUNoOverflow, pow2, shiftRightBitmask, signExtendWord, clz, ctz, popcnt]

def fromIndex (index : ℕ) : Option WasmTable := iter[index]?

theorem fromIndex_index (t : WasmTable) : fromIndex t.index = some t := by
  cases t <;> rfl

theorem map_index_iter : iter.map index = List.range count := rfl

end WasmTable

/-- The width of the production tables. -/
def xlen : ℕ := 64

inductive OperandSide where
  | left
  | right
  deriving DecidableEq

def OperandSide.offset : OperandSide → ℕ
  | left => 0
  | right => 1

structure OperandPolynomial where
  numVars : ℕ
  side : OperandSide

namespace Stages

open Lib VerifierStop

variable {F : Type} [Field F]

/-- `OperandPolynomial::evaluate`. -/
def operandTerm (poly : OperandPolynomial) (point : List F) : RelationM F :=
  if point.length ≠ poly.numVars then .error (.panicked "point dimension must match num_vars")
  else if poly.numVars % 2 ≠ 0 then .error (.panicked "operand polynomial requires an even number of variables")
  else
    let bits := poly.numVars / 2
    .ok ((List.range bits).foldl
      (fun acc bitIndex => acc + point.getD (2 * bitIndex + poly.side.offset) 0 * 2 ^ (bits - 1 - bitIndex)) 0)

/-- `CANONICAL_INSTRUCTION_ADDRESS`. -/
def canonicalInstructionAddress : Bool := false

def upperHalfAllOnes (rAddress : List F) : F := (rAddress.take (rAddress.length / 2)).foldl (· * ·) 1

structure InstructionReadRafDimensions where
  logT : ℕ
  instructionAddressBits : ℕ
  numVirtualRaPolys : ℕ

structure InstructionReadRafOpeningPoint (F : Type) where
  rAddress : List F
  rCycle : List F
  openingPoint : List F

namespace InstructionReadRafDimensions

variable (d : InstructionReadRafDimensions)

def sumcheckRounds : ℕ := d.instructionAddressBits + d.logT

def openingPoint (challenges : List F) : Except JoltFormulaPointError (InstructionReadRafOpeningPoint F) :=
  let expected := d.instructionAddressBits + d.logT
  if challenges.length ≠ expected then .error (.challengeLengthMismatch expected challenges.length)
  else
    let rAddress := challenges.take d.instructionAddressBits
    let rCycle := (challenges.drop d.instructionAddressBits).reverse
    .ok ⟨rAddress, rCycle, rAddress ++ rCycle⟩

end InstructionReadRafDimensions

/-- The reduced openings of the lookup columns. -/
structure InstructionReadRafInputClaims (C : Type) where
  lookupOutput : C
  leftLookupOperand : C
  rightLookupOperand : C

structure InstructionReadRafOutputClaims (C : Type) where
  /-- By the index of the table. -/
  lookupTableFlags : List C
  instructionRa : List C
  instructionRafFlag : C

/-- The publics: those of the tables by their index. -/
structure InstructionReadRafPublics (F : Type) where
  eqTableValue : List F
  eqRafConstant : F
  eqRafFlag : F

structure InstructionReadRaf where
  dimensions : InstructionReadRafDimensions

namespace InstructionReadRaf

variable (this : InstructionReadRaf)

def rounds : ℕ := this.dimensions.sumcheckRounds

def inputExpression (gamma : F) (inputs : InstructionReadRafInputClaims F) : F :=
  inputs.lookupOutput + gamma * inputs.leftLookupOperand + gamma ^ 2 * inputs.rightLookupOperand

/-- `instruction_ra_product`. -/
def raProduct (openings : InstructionReadRafOutputClaims F) : F :=
  (List.range this.dimensions.numVirtualRaPolys).foldl (fun product i => product * openings.instructionRa.getD i 0) 1

def outputExpression (publics : InstructionReadRafPublics F) (openings : InstructionReadRafOutputClaims F) : F :=
  let raProduct := this.raProduct openings
  let output := WasmTable.iter.foldl (fun output table => output +
    publics.eqTableValue.getD table.index 0 * raProduct * openings.lookupTableFlags.getD table.index 0) 0
  output + publics.eqRafConstant * raProduct + publics.eqRafFlag * raProduct * openings.instructionRafFlag

/-- Every chunk of the address is the place of a virtual column. -/
def deriveOpeningPoints (sumcheckPoint : List F) : RelationM (InstructionReadRafOutputClaims (List F)) := do
  let openingPoint ← ofResult (fun error => ⟨.instructionReadRaf, error.message⟩)
    (this.dimensions.openingPoint sumcheckPoint)
  let raCount := this.dimensions.numVirtualRaPolys
  let chunkSize := openingPoint.rAddress.length / raCount
  if raCount = 0 ∨ chunkSize * raCount ≠ openingPoint.rAddress.length then
    inputFailed .instructionReadRaf
      s!"instruction address point length {openingPoint.rAddress.length} is not divisible by virtual RA count {raCount}"
  else if chunkSize = 0 then .error (.panicked "chunk size must be non-zero")
  else
    return ⟨List.replicate WasmTable.count openingPoint.rCycle,
      (chunksOf chunkSize openingPoint.rAddress).map (· ++ openingPoint.rCycle), openingPoint.rCycle⟩

/-- The address that the chunks tile. -/
def reconstructRAddress (outputPoints : InstructionReadRafOutputClaims (List F)) (cycleLen : ℕ) : List F :=
  outputPoints.instructionRa.flatMap fun point => point.take (point.length - cycleLen)

/-- `derive_output_term` of all publics. -/
def derivePublics (gamma : F) (reduction : List F) (outputPoints : InstructionReadRafOutputClaims (List F)) :
    RelationM (InstructionReadRafPublics F) := do
  let rCycle := outputPoints.instructionRafFlag
  let rAddress := reconstructRAddress outputPoints rCycle.length
  let eqReduction ← eqTerm .instructionReadRaf reduction rCycle
  let addressBits := this.dimensions.instructionAddressBits
  if rAddress.length ≠ addressBits then
    inputFailed .instructionReadRaf s!"instruction address point has {rAddress.length} coordinates, expected {addressBits}"
  let left ← operandTerm ⟨addressBits, .left⟩ rAddress
  let right ← operandTerm ⟨addressBits, .right⟩ rAddress
  let gamma2 := gamma * gamma
  let identity := identityEvaluate rAddress
  let raf := gamma2 * identity - gamma * left - gamma2 * right
  let raf := if canonicalInstructionAddress then raf + gamma2 * gamma * upperHalfAllOnes rAddress else raf
  return ⟨WasmTable.iter.map fun table => eqReduction * table.evaluateMle xlen rAddress,
    eqReduction * (gamma * left + gamma2 * right), eqReduction * raf⟩

/-- What the verifier expects at a point, with the openings of the given polynomials. -/
def summand (gamma : F) (reduction : List F) (polys : InstructionReadRafOutputClaims (List F → F)) (sumcheckPoint : List F) :
    RelationM F := do
  let points ← this.deriveOpeningPoints sumcheckPoint
  let publics ← this.derivePublics gamma reduction points
  return this.outputExpression publics
    ⟨List.zipWith (· ·) polys.lookupTableFlags points.lookupTableFlags,
      List.zipWith (· ·) polys.instructionRa points.instructionRa, polys.instructionRafFlag points.instructionRafFlag⟩

end InstructionReadRaf

end Stages

end JoltWasm
