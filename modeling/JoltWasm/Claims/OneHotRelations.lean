import JoltWasm.Claims.CycleRelations
import JoltWasm.Opening.FinalPoint

/-!
# The relations behind one-hot columns

The committed columns of all accesses are checked together: the booleanity check, in an address and a cycle
phase, and the reduction of the Hamming weights, which also moves the other claims to one point.
-/

namespace JoltWasm

inductive JoltRaPolynomial where
  | instruction (index : ℕ)
  | bytecode (index : ℕ)
  | ram (index : ℕ)
  deriving DecidableEq

/-- The canonical order of the columns. -/
def JoltRaPolynomialLayout.polynomials (layout : JoltRaPolynomialLayout) : List JoltRaPolynomial :=
  (List.range layout.instruction).map .instruction ++ (List.range layout.bytecode).map .bytecode ++
    (List.range layout.ram).map .ram

def JoltRaPolynomialLayout.total (layout : JoltRaPolynomialLayout) : ℕ :=
  layout.instruction + layout.bytecode + layout.ram

theorem JoltRaPolynomialLayout.length_polynomials (layout : JoltRaPolynomialLayout) :
    layout.polynomials.length = layout.total := by
  simp [polynomials, total, Nat.add_assoc]

theorem JoltRaPolynomialLayout.nodup_polynomials (layout : JoltRaPolynomialLayout) : layout.polynomials.Nodup := by
  refine ((List.nodup_range.map fun _ _ => JoltRaPolynomial.instruction.inj).append
    (List.nodup_range.map fun _ _ => JoltRaPolynomial.bytecode.inj) ?_).append
      (List.nodup_range.map fun _ _ => JoltRaPolynomial.ram.inj) ?_
  · simp [List.disjoint_left]
  · simp only [List.disjoint_left, List.mem_append, List.mem_map, List.mem_range]
    rintro _ (⟨_, -, rfl⟩ | ⟨_, -, rfl⟩) ⟨_, -, ⟨⟩⟩

theorem JoltRaPolynomialLayout.ram_mem (layout : JoltRaPolynomialLayout) {i : ℕ} (listed : i < layout.ram) :
    .ram i ∈ layout.polynomials :=
  List.mem_append_right _ (List.mem_map.mpr ⟨i, List.mem_range.mpr listed, rfl⟩)

theorem JoltRaPolynomialLayout.bytecode_mem (layout : JoltRaPolynomialLayout) {i : ℕ} (listed : i < layout.bytecode) :
    .bytecode i ∈ layout.polynomials :=
  List.mem_append_left _ (List.mem_append_right _ (List.mem_map.mpr ⟨i, List.mem_range.mpr listed, rfl⟩))

theorem JoltRaPolynomialLayout.instruction_mem (layout : JoltRaPolynomialLayout) {i : ℕ} (listed : i < layout.instruction) :
    .instruction i ∈ layout.polynomials :=
  List.mem_append_left _ (List.mem_append_left _ (List.mem_map.mpr ⟨i, List.mem_range.mpr listed, rfl⟩))

namespace Stages

open VerifierStop

variable {F : Type} [Field F]

/-! ## Booleanity -/

structure BooleanityDimensions where
  layout : JoltRaPolynomialLayout
  logT : ℕ
  logKChunk : ℕ

/-- The reference address: the instruction address in reverse, cut to the last entries of a chunk or filled up
with drawn challenges. -/
def referenceAddress (instructionRAddress : List F) (chunkBits : ℕ) (drawn : List F) : List F :=
  let reversed := instructionRAddress.reverse
  if reversed.length < chunkBits then reversed ++ drawn else reversed.drop (reversed.length - chunkBits)

/-- The reference cycle of the address phase. -/
def referenceCycle (instructionRCycle : List F) : List F := instructionRCycle.reverse

namespace BooleanityAddressPhase

def inputExpression : F := 0

def outputExpression (intermediate : F) : F := intermediate

def deriveOpeningPoints (sumcheckPoint : List F) : List F := sumcheckPoint.reverse

/-- The claim that the phase leaves, as a function of its point. -/
def summand (intermediate : List F → F) (sumcheckPoint : List F) : RelationM F :=
  return outputExpression (intermediate (deriveOpeningPoints sumcheckPoint))

end BooleanityAddressPhase

structure Booleanity (F : Type) where
  dimensions : BooleanityDimensions
  rAddress : List F
  referenceAddress : List F
  referenceCycle : List F

namespace Booleanity

variable (this : Booleanity F)

def inputExpression (intermediate : F) : F := intermediate

/-- `booleanity_output`. -/
def outputExpression (eqAddressCycle gamma : F) (openings : List F) : F :=
  eqAddressCycle * (openings.zipIdx.map fun (x, i) => gamma ^ (2 * i) * (x * x - x)).sum

/-- All columns are opened at one point. -/
def deriveOpeningPoints (sumcheckPoint : List F) : List (List F) :=
  this.dimensions.layout.polynomials.map fun _ => this.rAddress ++ sumcheckPoint.reverse

/-- `EqAddressCycle`, over the challenges of both phases in the order in which they were drawn. -/
def eqAddressCycle (points : List (List F)) : RelationM F :=
  match points.head? with
  | none => inputFailed .booleanity "booleanity produced no openings"
  | some openingPoint => do
      let (rAddress, rCycle) ← splitAt openingPoint this.dimensions.logKChunk
      eqTerm .booleanity (rAddress.reverse ++ rCycle.reverse) (this.referenceAddress.reverse ++ this.referenceCycle.reverse)

def summand (gamma : F) (ra : JoltRaPolynomial → List F → F) (sumcheckPoint : List F) : RelationM F := do
  let points := this.deriveOpeningPoints sumcheckPoint
  let eqAddressCycle ← this.eqAddressCycle points
  return outputExpression eqAddressCycle gamma (List.zipWith ra this.dimensions.layout.polynomials points)

end Booleanity

/-! ## The Hamming weights -/

structure HammingWeightClaimReductionDimensions where
  layout : JoltRaPolynomialLayout
  logKChunk : ℕ

/-- The claims that are reduced: the weight of the RAM columns, and two openings of each column. -/
structure HammingWeightClaimReductionInputClaims (F : Type) where
  ramHammingWeight : F
  booleanity : JoltRaPolynomial → F
  virtualization : JoltRaPolynomial → F

structure HammingWeightClaimReduction (F : Type) where
  dimensions : HammingWeightClaimReductionDimensions
  rCycle : List F
  rAddress : List F
  virtualizationPoints : List (List F)

namespace HammingWeightClaimReduction

variable (this : HammingWeightClaimReduction F)

/-- Instruction and bytecode columns have weight one. -/
def hammingWeightClaim (ramHammingWeight : F) : JoltRaPolynomial → F
  | .instruction _ | .bytecode _ => 1
  | .ram _ => ramHammingWeight

def inputExpression (gamma : F) (inputs : HammingWeightClaimReductionInputClaims F) : F :=
  (this.dimensions.layout.polynomials.zipIdx.map fun (polynomial, i) =>
    gamma ^ (3 * i) * hammingWeightClaim inputs.ramHammingWeight polynomial +
      gamma ^ (3 * i + 1) * inputs.booleanity polynomial + gamma ^ (3 * i + 2) * inputs.virtualization polynomial).sum

def outputExpression (gamma eqBooleanity : F) (eqVirtualization openings : List F) : F :=
  (openings.zipIdx.map fun (opening, i) =>
    (gamma ^ (3 * i) + gamma ^ (3 * i + 1) * eqBooleanity + gamma ^ (3 * i + 2) * eqVirtualization.getD i 0) * opening).sum

def deriveOpeningPoints (sumcheckPoint : List F) : RelationM (List (List F)) := do
  if sumcheckPoint.length ≠ this.dimensions.logKChunk then
    inputFailed .hammingWeightClaimReduction
      (s!"HammingWeight challenge length mismatch: expected {this.dimensions.logKChunk}, " ++
        s!"got {sumcheckPoint.length}")
  return this.dimensions.layout.polynomials.map fun _ => sumcheckPoint.reverse ++ this.rCycle

/-- The address part of the shared point. -/
def rhoReversed (points : List (List F)) : RelationM (List F) :=
  match points.head? with
  | none => inputFailed .hammingWeightClaimReduction "HammingWeight reduction produced no openings"
  | some openingPoint => getTo .hammingWeightClaimReduction
      (s!"HammingWeight opening point has {openingPoint.length} variables, " ++
        s!"fewer than log_k_chunk {this.dimensions.logKChunk}") openingPoint this.dimensions.logKChunk

def eqBooleanity (points : List (List F)) : RelationM F := do
  eqTerm .hammingWeightClaimReduction (← this.rhoReversed points) this.rAddress

def eqVirtualization (points : List (List F)) (index : ℕ) : RelationM F := do
  let rhoRev ← this.rhoReversed points
  match this.virtualizationPoints[index]? with
  | none => inputFailed .hammingWeightClaimReduction s!"missing HammingWeight virtualization point for index {index}"
  | some point => eqTerm .hammingWeightClaimReduction rhoRev point

def summand (gamma : F) (ra : JoltRaPolynomial → List F → F) (sumcheckPoint : List F) : RelationM F := do
  let points ← this.deriveOpeningPoints sumcheckPoint
  let eqBooleanity ← this.eqBooleanity points
  let eqVirtualization ← (List.range this.dimensions.layout.total).mapM (this.eqVirtualization points)
  return outputExpression gamma eqBooleanity eqVirtualization
    (List.zipWith ra this.dimensions.layout.polynomials points)

end HammingWeightClaimReduction

end Stages

end JoltWasm
