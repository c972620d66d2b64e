import JoltWasm.Claims.PhaseSplitSums
import JoltWasm.Kernels.RaChunks
import JoltWasm.Poly.Lt

/-!
# Relations bound over the cycles

From the fourth stage on most members are bound over the cycle variables alone; their addresses come from
earlier openings.  Each has its points, the values that it derives from them, and an input and an output
expression over its openings.
-/

namespace JoltWasm.Stages

open Lib VerifierStop Layout

inductive JoltRelationId where
  | spartanOuter
  | spartanProductVirtualization
  | spartanShift
  | instructionClaimReduction
  | instructionInputVirtualization
  | instructionReadRaf
  | instructionRaVirtualization
  | ramReadWriteChecking
  | ramRafEvaluation
  | ramOutputCheck
  | ramValCheck
  | ramRaClaimReduction
  | ramHammingBooleanity
  | ramRaVirtualization
  | registersClaimReduction
  | registersReadWriteChecking
  | registersValEvaluation
  | bytecodeReadRaf
  | booleanity
  | bytecodeClaimReductionCyclePhase
  | bytecodeClaimReduction
  | programImageClaimReductionCyclePhase
  | programImageClaimReduction
  | incClaimReduction
  | hammingWeightClaimReduction
  | programImageReconstruction
  | bytecodeChunkReconstruction
  deriving DecidableEq

/-- `VerifierError::StageClaimPublicInputFailed`. -/
structure PublicInputFailed where
  stage : JoltRelationId
  reason : String
  deriving DecidableEq

/-- The result of a derivation of a relation. -/
abbrev RelationM := Except (VerifierStop PublicInputFailed)

def inputFailed {α : Type} (stage : JoltRelationId) (reason : String) : RelationM α :=
  .error (.refused ⟨stage, reason⟩)

section

variable {F : Type}

/-- `point.get(..n)`. -/
def getTo (stage : JoltRelationId) (reason : String) (point : List F) (n : ℕ) : RelationM (List F) :=
  if point.length < n then inputFailed stage reason else .ok (point.take n)

/-- `point.get(n..)`. -/
def getFrom (stage : JoltRelationId) (reason : String) (point : List F) (n : ℕ) : RelationM (List F) :=
  if point.length < n then inputFailed stage reason else .ok (point.drop n)

theorem getTo_append (stage : JoltRelationId) (reason : String) (address cycle : List F) {n : ℕ}
    (length : address.length = n) : getTo stage reason (address ++ cycle) n = .ok address := by
  subst length
  rw [getTo, if_neg (by rw [List.length_append]; omega), List.take_left]

theorem getFrom_append (stage : JoltRelationId) (reason : String) (address cycle : List F) {n : ℕ}
    (length : address.length = n) : getFrom stage reason (address ++ cycle) n = .ok cycle := by
  subst length
  rw [getFrom, if_neg (by rw [List.length_append]; omega), List.drop_left]

structure TraceDimensions where
  logT : ℕ

namespace TraceDimensions

def cycleOpeningPoint (d : TraceDimensions) (challenges : List F) : Except JoltFormulaPointError (List F) :=
  if challenges.length ≠ d.logT then .error (.challengeLengthMismatch d.logT challenges.length)
  else .ok challenges.reverse

/-- `cycle_opening_point(..).map_err(public_input_failed)`. -/
def cyclePoint (d : TraceDimensions) (stage : JoltRelationId) (challenges : List F) : RelationM (List F) :=
  ofResult (fun error => ⟨stage, error.message⟩) (d.cycleOpeningPoint challenges)

theorem cyclePoint_eq {d : TraceDimensions} (stage : JoltRelationId) {challenges : List F}
    (length : challenges.length = d.logT) : d.cyclePoint stage challenges = .ok challenges.reverse := by
  rw [cyclePoint, cycleOpeningPoint, if_neg (not_not.mpr length)]
  rfl

end TraceDimensions

variable [Field F]

/-- `try_eq_mle(..).map_err(public_input_failed)`. -/
def eqTerm (stage : JoltRelationId) (left right : List F) : RelationM F :=
  ofResult (fun error => ⟨stage, error.message⟩) (tryEqMle left right)

theorem eqTerm_eq (stage : JoltRelationId) {left right : List F} (arity : left.length = right.length) :
    eqTerm stage left right = .ok (eqMle left right) := by
  rw [eqTerm, tryEqMle, if_neg (not_not.mpr arity)]
  rfl

/-- `LtPolynomial::evaluate`. -/
def ltTerm (x r : List F) : RelationM F :=
  match LtPolynomial.evaluate x r with
  | some value => .ok value
  | none => .error (.panicked "LT point dimension mismatch")

theorem ltTerm_eq {x r : List F} (same : x.length = r.length) : ltTerm x r = .ok (lessThan x r) := by
  rw [ltTerm, LtPolynomial.evaluate_eq same]

theorem identityEvaluate_eq (point : List F) : identityEvaluate point = extension (fun k => (k : F)) point := by
  have loop (start : ℕ) (acc : F) : (point.zipIdx start).foldl
      (fun acc entry => acc + entry.1 * 2 ^ (start + point.length - 1 - entry.2)) acc =
        acc + extension (fun k => (k : F)) point := by
    induction point generalizing start acc with
    | nil => simp [extension]
    | cons c point ih =>
        have shift : extension (fun k => ((k + 2 ^ point.length : ℕ) : F)) point =
            extension (fun k => (k : F)) point + 2 ^ point.length := by
          simp only [Nat.cast_add, Nat.cast_pow, Nat.cast_ofNat]
          rw [extension_add, ← mul_one (2 ^ point.length : F), extension_mul, extension_one]
        have total : start + (c :: point).length = start + 1 + point.length := by
          rw [List.length_cons]
          omega
        have place : start + 1 + point.length - 1 - start = point.length := by omega
        rw [List.zipIdx_cons, List.foldl_cons, total, ih, extension_cons, shift]
        simp only [place]
        ring
  have whole := loop 0 0
  simp only [zero_add] at whole
  exact whole

/-- A relation over the cycles reads its challenges from the last one on. -/
theorem sumsTo_reversed {ε : Type} {n : ℕ} {summand : List F → Except ε F} {g : List F → F}
    (values : ∀ x, x.length = n → summand x = .ok (g x.reverse)) : SumsTo n summand (cubeSum n g) :=
  ⟨fun x => g x.reverse, values, cubeSum_reverse n g⟩

/-! ## The RAM value check -/

/-- `RamValCheckInitStructure`. -/
structure RamValCheckInitStructure (F : Type) where
  publicEval : F
  programImagePoint : Option (List F)

/-- `RamValCheckInit`: the negated selector of the program image, where it contributes. -/
structure RamValCheckInit (F : Type) where
  publicEval : F
  programImage : Option F

def RamValCheckInitStructure.decomposition (this : RamValCheckInitStructure F) : RamValCheckInit F :=
  ⟨this.publicEval, if this.programImagePoint.isSome then some (-1) else none⟩

/-- How a staged claim of the program image can miss its contribution. -/
inductive ProgramImageClaimError where
  | unexpectedOpeningClaim
  | missingOpeningClaim
  deriving DecidableEq

/-- `ram_val_check_initial_evaluation`: the claim is there exactly when the contribution is. -/
def ramValCheckInitialEvaluation (structure_ : RamValCheckInitStructure F) (programImage : Option F) :
    Except ProgramImageClaimError (Option (List F × F)) :=
  match structure_.programImagePoint, programImage with
  | none, some _ => .error .unexpectedOpeningClaim
  | none, none => .ok none
  | some _, none => .error .missingOpeningClaim
  | some point, some value => .ok (some (point, value))

structure RamValCheckInputClaims (C : Type) where
  ramVal : C
  ramValFinal : C
  programImage : Option C

structure RamValCheckOutputClaims (C : Type) where
  ramRa : C
  ramInc : C

structure RamValCheck (F : Type) where
  traceDimensions : TraceDimensions
  ramLogK : ℕ
  init : RamValCheckInit F

namespace RamValCheck

variable (this : RamValCheck F)

/-- The `Val_init` that the input folds in: the public part less the selected contribution. -/
def initEval (programImage : Option F) : F :=
  match this.init.programImage, programImage with
  | some negSelector, some opening => this.init.publicEval - negSelector * opening
  | _, _ => this.init.publicEval

def inputExpression (gamma : F) (inputs : RamValCheckInputClaims F) : F :=
  inputs.ramVal + gamma * inputs.ramValFinal - (1 + gamma) * this.initEval inputs.programImage

def outputExpression (ltCyclePlusGamma : F) (openings : RamValCheckOutputClaims F) : F :=
  ltCyclePlusGamma * openings.ramInc * openings.ramRa

/-- The point of `ram_ra` and of `ram_inc`; `ramVal` is the point of the read-write opening. -/
def deriveOpeningPoints (sumcheckPoint ramVal : List F) : RelationM (RamValCheckOutputClaims (List F)) := do
  let expectedLen := this.ramLogK + this.traceDimensions.logT
  if ramVal.length ≠ expectedLen then
    inputFailed .ramValCheck
      s!"RAM read-write opening point has {ramVal.length} variables, expected {expectedLen}"
  let rAddress ← getTo .ramValCheck "RAM read-write opening point address prefix is out of range" ramVal this.ramLogK
  let cycle ← this.traceDimensions.cyclePoint .ramValCheck sumcheckPoint
  return ⟨rAddress ++ cycle, rAddress ++ cycle⟩

def ltCyclePlusGamma (gamma : F) (ramVal : List F) (outputPoints : RamValCheckOutputClaims (List F)) : RelationM F := do
  let outputCycle ← getFrom .ramValCheck
    "RAM value-check output opening point is shorter than the address width" outputPoints.ramRa this.ramLogK
  let fixedCycle ← getFrom .ramValCheck
    "RAM read-write opening point is shorter than the address width" ramVal this.ramLogK
  return (← ltTerm outputCycle fixedCycle) + gamma

def summand (gamma : F) (ramVal : List F) (polys : RamValCheckOutputClaims (List F → F)) (sumcheckPoint : List F) :
    RelationM F := do
  let points ← this.deriveOpeningPoints sumcheckPoint ramVal
  let ltCyclePlusGamma ← this.ltCyclePlusGamma gamma ramVal points
  return outputExpression ltCyclePlusGamma ⟨polys.ramRa points.ramRa, polys.ramInc points.ramInc⟩

variable {this}

theorem summand_eq (gamma : F) {address cycle x : List F} (width : address.length = this.ramLogK)
    (length : cycle.length = this.traceDimensions.logT) (drawn : x.length = this.traceDimensions.logT)
    (polys : RamValCheckOutputClaims (List F → F)) : this.summand gamma (address ++ cycle) polys x =
      .ok (outputExpression (lessThan x.reverse cycle + gamma)
        ⟨polys.ramRa (address ++ x.reverse), polys.ramInc (address ++ x.reverse)⟩) := by
  have points : this.deriveOpeningPoints x (address ++ cycle) = .ok ⟨address ++ x.reverse, address ++ x.reverse⟩ := by
    unfold deriveOpeningPoints
    rw [List.length_append, width, length, getTo_append _ _ _ _ width, TraceDimensions.cyclePoint_eq _ drawn,
      if_neg (not_not.mpr rfl)]
    rfl
  have lt : this.ltCyclePlusGamma gamma (address ++ cycle) ⟨address ++ x.reverse, address ++ x.reverse⟩ =
      .ok (lessThan x.reverse cycle + gamma) :=
    except_bind_eq_ok.mpr ⟨_, getFrom_append _ _ _ _ width, except_bind_eq_ok.mpr ⟨_, getFrom_append _ _ _ _ width,
      except_bind_eq_ok.mpr ⟨_, ltTerm_eq (by rw [List.length_reverse, drawn, length]), rfl⟩⟩⟩
  exact except_bind_eq_ok.mpr ⟨_, points, except_bind_eq_ok.mpr ⟨_, lt, rfl⟩⟩

end RamValCheck

/-! ## The registers' value evaluation -/

structure RegistersValEvaluationOutputClaims (C : Type) where
  rdInc : C
  rdWa : C

structure RegistersValEvaluation where
  traceDimensions : TraceDimensions

namespace RegistersValEvaluation

variable (this : RegistersValEvaluation)

def inputExpression (registersVal : F) : F := registersVal

def outputExpression (ltCycle : F) (openings : RegistersValEvaluationOutputClaims F) : F :=
  ltCycle * openings.rdInc * openings.rdWa

def deriveOpeningPoints (sumcheckPoint registersVal : List F) :
    RelationM (RegistersValEvaluationOutputClaims (List F)) := do
  let expectedLen := registerAddressBits + this.traceDimensions.logT
  if registersVal.length ≠ expectedLen then
    inputFailed .registersValEvaluation
      s!"register read-write opening point has {registersVal.length} variables, expected {expectedLen}"
  let address ← getTo .registersValEvaluation
    "register read-write opening point address prefix is out of range" registersVal registerAddressBits
  let cycle ← this.traceDimensions.cyclePoint .registersValEvaluation sumcheckPoint
  return ⟨address ++ cycle, address ++ cycle⟩

def ltCycle (registersVal : List F) (outputPoints : RegistersValEvaluationOutputClaims (List F)) : RelationM F := do
  let registersCycle ← getFrom .registersValEvaluation
    "rd_inc opening point is shorter than the register address width" outputPoints.rdInc registerAddressBits
  let fixedCycle ← getFrom .registersValEvaluation
    ("register read-write opening point is shorter than the register " ++ "address width")
    registersVal registerAddressBits
  ltTerm registersCycle fixedCycle

def summand (registersVal : List F) (polys : RegistersValEvaluationOutputClaims (List F → F))
    (sumcheckPoint : List F) : RelationM F := do
  let points ← this.deriveOpeningPoints sumcheckPoint registersVal
  let ltCycle ← ltCycle registersVal points
  return outputExpression ltCycle ⟨polys.rdInc points.rdInc, polys.rdWa points.rdWa⟩

variable {this}

theorem summand_eq {address cycle x : List F} (width : address.length = registerAddressBits)
    (length : cycle.length = this.traceDimensions.logT) (drawn : x.length = this.traceDimensions.logT)
    (polys : RegistersValEvaluationOutputClaims (List F → F)) : this.summand (address ++ cycle) polys x =
      .ok (outputExpression (lessThan x.reverse cycle)
        ⟨polys.rdInc (address ++ x.reverse), polys.rdWa (address ++ x.reverse)⟩) := by
  have points : this.deriveOpeningPoints x (address ++ cycle) = .ok ⟨address ++ x.reverse, address ++ x.reverse⟩ := by
    unfold deriveOpeningPoints
    rw [List.length_append, width, length, getTo_append _ _ _ _ width, TraceDimensions.cyclePoint_eq _ drawn,
      if_neg (not_not.mpr rfl)]
    rfl
  have lt : ltCycle (address ++ cycle) ⟨address ++ x.reverse, address ++ x.reverse⟩ =
      .ok (lessThan x.reverse cycle) := by
    unfold ltCycle
    rw [getFrom_append _ _ _ _ width, getFrom_append _ _ _ _ width]
    exact ltTerm_eq (by rw [List.length_reverse, drawn, length])
  exact except_bind_eq_ok.mpr ⟨_, points, except_bind_eq_ok.mpr ⟨_, lt, rfl⟩⟩

end RegistersValEvaluation

/-! ## The claim reduction of the RAM accesses -/

/-- The three openings of `ram_ra` that are reduced to one. -/
structure RamRaClaimReductionInputClaims (C : Type) where
  raf : C
  readWrite : C
  valCheck : C

structure RamRaClaimReduction where
  traceDimensions : TraceDimensions
  ramLogK : ℕ

namespace RamRaClaimReduction

variable (this : RamRaClaimReduction)

def inputExpression (gamma : F) (inputs : RamRaClaimReductionInputClaims F) : F :=
  inputs.raf + gamma * inputs.readWrite + gamma ^ 2 * inputs.valCheck

def outputExpression (gamma : F) (eqCycles : RamRaClaimReductionInputClaims F) (ramRa : F) : F :=
  (eqCycles.raf + gamma * eqCycles.readWrite + gamma ^ 2 * eqCycles.valCheck) * ramRa

def checkPointLength (label : String) (point : List F) : RelationM Unit :=
  let expectedLen := this.ramLogK + this.traceDimensions.logT
  if point.length ≠ expectedLen then
    inputFailed .ramRaClaimReduction
      s!"RAM {label} opening point has {point.length} variables, expected {expectedLen}"
  else .ok ()

def deriveOpeningPoints [DecidableEq F] (sumcheckPoint : List F)
    (inputPoints : RamRaClaimReductionInputClaims (List F)) : RelationM (List F) := do
  this.checkPointLength "RAF" inputPoints.raf
  this.checkPointLength "read-write" inputPoints.readWrite
  this.checkPointLength "val-check" inputPoints.valCheck
  let address ← getTo .ramRaClaimReduction
    "RAM read-write opening point address prefix is out of range" inputPoints.readWrite this.ramLogK
  if inputPoints.raf.take this.ramLogK ≠ address ∨ inputPoints.valCheck.take this.ramLogK ≠ address then
    inputFailed .ramRaClaimReduction "RAM input openings disagree on the address prefix"
  let cycle ← this.traceDimensions.cyclePoint .ramRaClaimReduction sumcheckPoint
  return address ++ cycle

/-- `EqCycleRaf`, `EqCycleReadWrite` and `EqCycleValCheck`, each with its own fixed cycle. -/
def eqCycle (fixedPoint ramRa : List F) : RelationM F := do
  let outputCycle ← getFrom .ramRaClaimReduction
    "RAM RA opening point is shorter than the address width" ramRa this.ramLogK
  let fixedCycle ← getFrom .ramRaClaimReduction
    "RAM input opening point is shorter than the address width" fixedPoint this.ramLogK
  eqTerm .ramRaClaimReduction fixedCycle outputCycle

def summand [DecidableEq F] (gamma : F) (inputPoints : RamRaClaimReductionInputClaims (List F)) (ramRa : List F → F)
    (sumcheckPoint : List F) : RelationM F := do
  let point ← this.deriveOpeningPoints sumcheckPoint inputPoints
  let raf ← this.eqCycle inputPoints.raf point
  let readWrite ← this.eqCycle inputPoints.readWrite point
  let valCheck ← this.eqCycle inputPoints.valCheck point
  return outputExpression gamma ⟨raf, readWrite, valCheck⟩ (ramRa point)

end RamRaClaimReduction

/-! ## The RAM Hamming weight is a bit -/

structure RamHammingBooleanity (F : Type) where
  traceDimensions : TraceDimensions
  stage1CycleBinding : List F

namespace RamHammingBooleanity

variable (this : RamHammingBooleanity F)

def inputExpression : F := 0

def outputExpression (eqCycle ramHammingWeight : F) : F :=
  eqCycle * (ramHammingWeight * ramHammingWeight - ramHammingWeight)

def deriveOpeningPoints (sumcheckPoint : List F) : RelationM (List F) :=
  this.traceDimensions.cyclePoint .ramHammingBooleanity sumcheckPoint

/-- `EqCycle` compares the challenges in the order in which they were drawn. -/
def eqCycle (ramHammingWeight : List F) : RelationM F :=
  eqTerm .ramHammingBooleanity ramHammingWeight.reverse this.stage1CycleBinding

def summand (ramHammingWeight : List F → F) (sumcheckPoint : List F) : RelationM F := do
  let point ← this.deriveOpeningPoints sumcheckPoint
  let eqCycle ← this.eqCycle point
  return outputExpression eqCycle (ramHammingWeight point)

end RamHammingBooleanity

/-! ## Virtual accesses as products of committed chunks -/

/-- The equality of a fixed cycle with the cycle of the first opening. -/
def firstOpeningEqCycle (stage : JoltRelationId) (empty short : String) (logT : ℕ) (fixedCycle : List F)
    (points : List (List F)) : RelationM F :=
  match points.head? with
  | none => inputFailed stage empty
  | some point =>
      if point.length < logT then inputFailed stage short
      else eqTerm stage fixedCycle (point.drop (point.length - logT))

/-- The openings of the chunks of an address at one cycle. -/
def chunkOpeningPoints (address : List F) (committedChunkBits : ℕ) (rCycle : List F) : List (List F) :=
  (committedAddressChunks address committedChunkBits).map fun chunk => chunk ++ rCycle

structure RamRaVirtualizationDimensions where
  logT : ℕ
  committedRaPolys : ℕ

structure RamRaVirtualization (F : Type) where
  dimensions : RamRaVirtualizationDimensions
  ramReducedAddress : List F
  ramReducedCycle : List F
  committedChunkBits : ℕ

namespace RamRaVirtualization

variable (this : RamRaVirtualization F)

def inputExpression (ramRaReduced : F) : F := ramRaReduced

/-- `committed_ram_ra_product`; an opening that is missing has no value. -/
def outputExpression (eqCycle : F) (ramRa : ℕ → F) : F :=
  eqCycle * ((List.range this.dimensions.committedRaPolys).map ramRa).prod

def deriveOpeningPoints (sumcheckPoint : List F) : List (List F) :=
  chunkOpeningPoints this.ramReducedAddress this.committedChunkBits sumcheckPoint.reverse

def eqCycle (points : List (List F)) : RelationM F :=
  firstOpeningEqCycle .ramRaVirtualization "RAM RA virtualization produced no openings"
    "RAM RA opening point shorter than log_t" this.dimensions.logT this.ramReducedCycle points

def summand (ramRa : ℕ → List F → F) (sumcheckPoint : List F) : RelationM F := do
  let points := this.deriveOpeningPoints sumcheckPoint
  let eqCycle ← this.eqCycle points
  return this.outputExpression eqCycle fun i => ramRa i (points.getD i [])

end RamRaVirtualization

structure InstructionRaVirtualizationDimensions where
  logT : ℕ
  virtualRaPolys : ℕ
  committedPerVirtual : ℕ

structure InstructionRaVirtualization (F : Type) where
  dimensions : InstructionRaVirtualizationDimensions
  instructionAddress : List F
  instructionReadRafCycle : List F
  committedChunkBits : ℕ

namespace InstructionRaVirtualization

variable (this : InstructionRaVirtualization F)

/-- `weighted_instruction_ra_sum`. -/
def inputExpression (gamma : F) (instructionRa : ℕ → F) : F :=
  ((List.range this.dimensions.virtualRaPolys).map fun v => gamma ^ v * instructionRa v).sum

/-- `committed_instruction_ra_product`. -/
def committedProduct (committedInstructionRa : ℕ → F) (virtualIndex : ℕ) : F :=
  let start := virtualIndex * this.dimensions.committedPerVirtual
  ((List.range' start this.dimensions.committedPerVirtual).map committedInstructionRa).prod

def outputExpression (eqCycle gamma : F) (committedInstructionRa : ℕ → F) : F :=
  ((List.range this.dimensions.virtualRaPolys).map fun v =>
    eqCycle * gamma ^ v * this.committedProduct committedInstructionRa v).sum

def deriveOpeningPoints (sumcheckPoint : List F) : List (List F) :=
  chunkOpeningPoints this.instructionAddress this.committedChunkBits sumcheckPoint.reverse

def eqCycle (points : List (List F)) : RelationM F :=
  firstOpeningEqCycle .instructionRaVirtualization "instruction RA virtualization produced no openings"
    "instruction RA opening point shorter than log_t" this.dimensions.logT this.instructionReadRafCycle points

def summand (gamma : F) (committedInstructionRa : ℕ → List F → F) (sumcheckPoint : List F) : RelationM F := do
  let points := this.deriveOpeningPoints sumcheckPoint
  let eqCycle ← this.eqCycle points
  return this.outputExpression eqCycle gamma fun i => committedInstructionRa i (points.getD i [])

end InstructionRaVirtualization

end

end JoltWasm.Stages
