import JoltWasm.Claims.BytecodeLanes
import JoltWasm.Lib.CubeBlocks
import JoltWasm.Program.Public
import JoltWasm.Sumcheck.Batch

/-!
# The phase split of the read-write checks

The prover chooses how many cycle variables and then how many address variables the read-write checks bind
first; the other cycle variables and the other address variables follow.  The members of the verifier's
second stage that share the address slice their points out of the batch challenges each with an offset of
its own; the register check of the fourth stage has a split of its own.
-/

namespace JoltWasm

open Layout

/-- A computation of the verifier that does not end: a failed assertion, or an error. -/
inductive VerifierStop (ε : Type) where
  | panicked (message : String)
  | refused (error : ε)
  deriving DecidableEq

namespace VerifierStop

variable {α ε δ : Type}

def checkedSub (a b : ℕ) : Except (VerifierStop ε) ℕ :=
  if a < b then .error (.panicked "attempt to subtract with overflow") else .ok (a - b)

/-- `slice::split_at`. -/
def splitAt (values : List α) (mid : ℕ) : Except (VerifierStop ε) (List α × List α) :=
  if values.length < mid then .error (.panicked "mid > len") else .ok (values.take mid, values.drop mid)

/-- `&values[..end]`. -/
def sliceTo (values : List α) (end_ : ℕ) : Except (VerifierStop ε) (List α) :=
  let len := values.length
  if len < end_ then .error (.panicked s!"range end index {end_} out of range for slice of length {len}")
  else .ok (values.take end_)

/-- `&values[start..]`. -/
def sliceFrom (values : List α) (start : ℕ) : Except (VerifierStop ε) (List α) :=
  let len := values.length
  if len < start then
    .error (.panicked s!"range start index {start} out of range for slice of length {len}")
  else .ok (values.drop start)

/-- `map_err`: a panic stays one. -/
def mapRefusal (f : ε → δ) : Except (VerifierStop ε) α → Except (VerifierStop δ) α
  | .ok value => .ok value
  | .error (.refused error) => .error (.refused (f error))
  | .error (.panicked message) => .error (.panicked message)

def ofResult (f : ε → δ) : Except ε α → Except (VerifierStop δ) α
  | .ok value => .ok value
  | .error error => .error (.refused (f error))

@[simp] theorem checkedSub_of_le {a b : ℕ} (fits : b ≤ a) :
    (checkedSub a b : Except (VerifierStop ε) ℕ) = .ok (a - b) := if_neg (Nat.not_lt.mpr fits)

theorem splitAt_append (first second : List α) {mid : ℕ} (length : first.length = mid) :
    (splitAt (first ++ second) mid : Except (VerifierStop ε) _) = .ok (first, second) := by
  subst length
  rw [splitAt, if_neg (by rw [List.length_append]; omega), List.take_left, List.drop_left]

theorem sliceTo_append (first second : List α) {end_ : ℕ} (length : first.length = end_) :
    (sliceTo (first ++ second) end_ : Except (VerifierStop ε) _) = .ok first := by
  subst length
  rw [sliceTo, if_neg (by rw [List.length_append]; omega), List.take_left]

theorem sliceFrom_append (first second : List α) {start : ℕ} (length : first.length = start) :
    (sliceFrom (first ++ second) start : Except (VerifierStop ε) _) = .ok second := by
  subst length
  rw [sliceFrom, if_neg (by rw [List.length_append]; omega), List.drop_left]

@[simp] theorem mapRefusal_ok (f : ε → δ) (value : α) : mapRefusal f (.ok value) = .ok value := rfl

@[simp] theorem ofResult_ok (f : ε → δ) (value : α) : ofResult f (.ok value) = .ok value := rfl

end VerifierStop

open VerifierStop

def JoltFormulaPointError.message : JoltFormulaPointError → String
  | invalidReadWritePhaseSplit phase1NumRounds logT phase2NumRounds logK =>
      s!"invalid read-write phase split: phase1 {phase1NumRounds}/{logT}, phase2 {phase2NumRounds}/{logK}"
  | challengeLengthMismatch expected got => s!"challenge length mismatch: expected {expected}, got {got}"
  | openingPointLengthMismatch expected got =>
      s!"opening point length mismatch: expected {expected}, got {got}"
  | evaluationDomainLengthMismatch expected got =>
      s!"evaluation domain length mismatch: expected {expected}, got {got}"
  | incompatibleDominantAnchors first second =>
      s!"incompatible dominant precommitted anchors: {first} and {second} disagree"
  | cycleChallengesShorterThanNativeCycle expected got =>
      s!"stage 6 cycle challenges ({got}) shorter than native cycle vars ({expected})"
  | cycleMajorCyclePrefixMismatch =>
      "cycle-major final opening expects the stage 6 cycle prefix to equal the native cycle vars"
  | cyclePhaseNotFinal activeAddressRounds => s!"cycle-phase final opening requested with " ++
      s!"{activeAddressRounds} active address-phase rounds remaining"
  | inactiveCycleRound round => s!"cycle round {round} is not active for this polynomial"
  | polyDimsExceedReference polyRowVars polyColVars referenceRowVars referenceColVars =>
      s!"polynomial dims ({polyRowVars}x{polyColVars}) exceed reference dims " ++
      s!"({referenceRowVars}x{referenceColVars})"
  | invalidBytecodeChunking bytecodeLen chunkCount => s!"bytecode chunk count ({chunkCount}) must be a " ++
      s!"nonzero power of two at most 256 dividing the power-of-two bytecode length ({bytecodeLen})"

/-- `JoltFormulaDimensionsError`, as far as a phase split raises it. -/
inductive JoltFormulaDimensionsError where
  | invalidPhaseRounds (phase1NumRounds logT : ℕ)
  deriving DecidableEq

def JoltFormulaDimensionsError.message : JoltFormulaDimensionsError → String
  | invalidPhaseRounds phase1NumRounds logT =>
      s!"phase1_num_rounds ({phase1NumRounds}) must be <= log_t ({logT})"

structure ReadWriteDimensions where
  logT : ℕ
  logK : ℕ
  phase1NumRounds : ℕ
  phase2NumRounds : ℕ
  deriving DecidableEq

structure ReadWriteOpeningPoint (F : Type) where
  rAddress : List F
  rCycle : List F
  openingPoint : List F
  deriving DecidableEq

namespace ReadWriteDimensions

variable {F ε : Type}

def phase3CycleRounds (d : ReadWriteDimensions) : Except (VerifierStop ε) ℕ :=
  checkedSub d.logT d.phase1NumRounds

def readWriteRounds (d : ReadWriteDimensions) : ℕ := d.logT + d.logK

def rafEvaluationRounds (d : ReadWriteDimensions) : Except (VerifierStop ε) ℕ :=
  checkedSub (d.logT + d.logK) d.phase1NumRounds

def outputCheckRounds (d : ReadWriteDimensions) : Except (VerifierStop ε) ℕ :=
  checkedSub (d.logT + d.logK) d.phase1NumRounds

def validatePhaseSplit (d : ReadWriteDimensions) : Except JoltFormulaPointError Unit :=
  if d.logT < d.phase1NumRounds ∨ d.logK < d.phase2NumRounds then
    .error (.invalidReadWritePhaseSplit d.phase1NumRounds d.logT d.phase2NumRounds d.logK)
  else .ok ()

def readWriteOpeningPoint (d : ReadWriteDimensions) (challenges : List F) :
    Except (VerifierStop JoltFormulaPointError) (ReadWriteOpeningPoint F) := do
  ofResult id d.validatePhaseSplit
  let expected := d.logT + d.logK
  if challenges.length ≠ expected then
    .error (.refused (.challengeLengthMismatch expected challenges.length))
  let (phase1, rest) ← splitAt challenges d.phase1NumRounds
  let (phase2, rest) ← splitAt rest d.phase2NumRounds
  let gap ← checkedSub d.logT d.phase1NumRounds
  let (phase3Cycle, phase3Address) ← splitAt rest gap
  let rCycle := phase3Cycle.reverse ++ phase1.reverse
  let rAddress := phase3Address.reverse ++ phase2.reverse
  return ⟨rAddress, rCycle, rAddress ++ rCycle⟩

def addressOpeningPoint (d : ReadWriteDimensions) (challenges : List F) :
    Except (VerifierStop JoltFormulaPointError) (List F) := do
  ofResult id d.validatePhaseSplit
  let cycleGapRounds ← d.phase3CycleRounds
  let expected := d.logK + cycleGapRounds
  if challenges.length ≠ expected then
    .error (.refused (.challengeLengthMismatch expected challenges.length))
  let phase3AddressStart := d.phase2NumRounds + cycleGapRounds
  let phase2 ← sliceTo challenges d.phase2NumRounds
  let phase3Address ← sliceFrom challenges phase3AddressStart
  return (phase2 ++ phase3Address).reverse

end ReadWriteDimensions

structure JoltReadWriteConfig where
  ramRwPhase1NumRounds : UInt8
  ramRwPhase2NumRounds : UInt8
  registersRwPhase1NumRounds : UInt8
  registersRwPhase2NumRounds : UInt8
  deriving DecidableEq

namespace JoltReadWriteConfig

def ramDimensions (config : JoltReadWriteConfig) (logT ramLogK : ℕ) : ReadWriteDimensions :=
  ⟨logT, ramLogK, config.ramRwPhase1NumRounds.toNat, config.ramRwPhase2NumRounds.toNat⟩

def registerDimensions (config : JoltReadWriteConfig) (logT registerLogK : ℕ) : ReadWriteDimensions :=
  ⟨logT, registerLogK, config.registersRwPhase1NumRounds.toNat, config.registersRwPhase2NumRounds.toNat⟩

end JoltReadWriteConfig

/-- Dimensions whose first phase fits in the trace. -/
structure RamRafEvaluationDimensions where
  readWrite : ReadWriteDimensions
  fits : readWrite.phase1NumRounds ≤ readWrite.logT

namespace RamRafEvaluationDimensions

def tryFrom (dimensions : ReadWriteDimensions) :
    Except JoltFormulaDimensionsError RamRafEvaluationDimensions :=
  if fits : dimensions.phase1NumRounds ≤ dimensions.logT then .ok ⟨dimensions, fits⟩
  else .error (.invalidPhaseRounds dimensions.phase1NumRounds dimensions.logT)

def phase3CycleRounds {ε : Type} (d : RamRafEvaluationDimensions) : Except (VerifierStop ε) ℕ :=
  d.readWrite.phase3CycleRounds

end RamRafEvaluationDimensions

/-! ## The members -/

def RelationId.name : RelationId → String
  | ramValCheck => "RamValCheck"
  | ramReadWriteChecking => "RamReadWriteChecking"
  | ramRafEvaluation => "RamRafEvaluation"
  | ramOutputCheck => "RamOutputCheck"
  | registersReadWriteChecking => "RegistersReadWriteChecking"

/-- The result of a stage. -/
abbrev StageM := Except (VerifierStop VerifierError)

/-- `public_input_failed` of a relation. -/
def publicPointFailed {α : Type} (stage : RelationId) :
    Except (VerifierStop JoltFormulaPointError) α → StageM α :=
  mapRefusal fun error => .stageClaimPublicInputFailed stage error.message

def publicEqFailed {α : Type} (stage : RelationId) : Except MleError α → StageM α :=
  ofResult fun error => .stageClaimPublicInputFailed stage error.message

/-- The offset of a member: by default its rounds are the last ones of the batch. -/
def instancePointOffset (stage : RelationId) (rounds batchNumVars : ℕ) : StageM ℕ :=
  if batchNumVars < rounds then .error (.refused (.stageClaimSumcheckFailed stage.name
    (s!"batch challenge vector has {batchNumVars} entries, fewer than the " ++
      s!"instance's {rounds} rounds")))
  else .ok (batchNumVars - rounds)

/-- The offset of the members that are bound from the second phase of the read-write check on. -/
def phase1InstancePointOffset (dimensions : ReadWriteDimensions) (stage : RelationId)
    (batchNumVars : ℕ) : StageM ℕ :=
  let rounds := dimensions.readWriteRounds
  if batchNumVars < rounds then .error (.refused (.stageClaimSumcheckFailed stage.name
    (s!"batch challenge vector has {batchNumVars} entries, fewer than the " ++
      s!"active stage-2 window's {rounds} rounds")))
  else
    let windowOffset := batchNumVars - rounds
    let phase1 := dimensions.phase1NumRounds
    if windowOffset + phase1 < 2 ^ 64 then .ok (windowOffset + phase1)
    else .error (.refused (.stageClaimSumcheckFailed stage.name
      s!"stage-2 window offset {windowOffset} plus {phase1} phase-1 rounds overflows usize"))

section

variable {F : Type}

/-- `ConcreteSumcheck::instance_point`: the slice of the batch challenges that a member is bound on. -/
def instancePoint (stage : RelationId) (offset : ℕ → StageM ℕ) (rounds : StageM ℕ) (batchPoint : List F) :
    StageM (List F) := do
  let offset ← offset batchPoint.length
  let rounds ← rounds
  if offset + rounds < 2 ^ 64 ∧ offset + rounds ≤ batchPoint.length then
    return (batchPoint.drop offset).take rounds
  else
    let len := batchPoint.length
    .error (.refused (.stageClaimSumcheckFailed stage.name
      (s!"instance point [{offset}, {offset} + {rounds}) exceeds the batch " ++
        s!"challenge vector ({len} entries)")))

/-! ### The RAM read-write check -/

structure RamReadWriteClaims (C : Type) where
  val : C
  ra : C
  inc : C

structure RamReadWriteChecking (F : Type) where
  dimensions : ReadWriteDimensions
  ramLogK : ℕ
  productTauLow : List F

namespace RamReadWriteChecking

variable (this : RamReadWriteChecking F)

def rounds : ℕ := this.dimensions.readWriteRounds

def deriveOpeningPoints (sumcheckPoint : List F) : StageM (RamReadWriteClaims (List F)) := do
  let openingPoint := (← publicPointFailed .ramReadWriteChecking
    (this.dimensions.readWriteOpeningPoint sumcheckPoint)).openingPoint
  return ⟨openingPoint, openingPoint, openingPoint⟩

section

variable [Field F]

/-- `EqCycle`: the cycle part of the opening point is past the address bits. -/
def eqCycle (outputPoints : RamReadWriteClaims (List F)) : StageM F :=
  let len := outputPoints.val.length
  let ramLogK := this.ramLogK
  if len < ramLogK then .error (.refused (.stageClaimPublicInputFailed .ramReadWriteChecking
    s!"RAM read-write opening point is too short: expected at least {ramLogK}, got {len}"))
  else publicEqFailed .ramReadWriteChecking
    (tryEqMle this.productTauLow (outputPoints.val.drop ramLogK))

def inputExpression (gamma ramReadValue ramWriteValue : F) : F := ramReadValue + gamma * ramWriteValue

def outputExpression (eqCycle gamma : F) (openings : RamReadWriteClaims F) : F :=
  eqCycle * openings.ra * openings.val + eqCycle * gamma * openings.ra * openings.val +
    eqCycle * gamma * openings.ra * openings.inc

/-- The output expression at the points, for claims that are evaluations there. -/
def expectedOutput (gamma : F) (polys : RamReadWriteClaims (List F → F)) (points : RamReadWriteClaims (List F)) :
    StageM F := do
  let eqCycle ← this.eqCycle points
  return outputExpression eqCycle gamma
    ⟨polys.val points.val, polys.ra points.ra, polys.inc points.inc⟩

/-- The summand of the member at a point of its window. -/
def summand (gamma : F) (polys : RamReadWriteClaims (List F → F)) (sumcheckPoint : List F) : StageM F := do
  this.expectedOutput gamma polys (← this.deriveOpeningPoints sumcheckPoint)

end

end RamReadWriteChecking

/-! ### The RAM RAF evaluation -/

structure RamRafEvaluation (F : Type) where
  shape : RamRafEvaluationDimensions
  readWriteDimensions : ReadWriteDimensions
  ramLogK : ℕ
  lowestAddress : ℕ
  tauLow : List F

namespace RamRafEvaluation

variable (this : RamRafEvaluation F)

def rounds : StageM ℕ := this.shape.readWrite.rafEvaluationRounds

/-- The point of `ram_ra`. -/
def deriveOpeningPoints (sumcheckPoint : List F) : StageM (List F) := do
  let address ← publicPointFailed .ramRafEvaluation
    (this.readWriteDimensions.addressOpeningPoint sumcheckPoint)
  let got := address.length
  let expected := this.ramLogK
  if got ≠ expected then .error (.refused (.stageClaimPublicInputFailed .ramRafEvaluation
    s!"RAM RAF address point length mismatch: expected {expected}, got {got}"))
  return address ++ this.tauLow

section

variable [Field F]

/-- `UnmapAddress`: the address part of the opening point, as a byte address. -/
def unmapAddress (point : List F) : StageM F :=
  let len := point.length
  let ramLogK := this.ramLogK
  if len < ramLogK then .error (.refused (.stageClaimPublicInputFailed .ramRafEvaluation
    s!"RAM RAF opening point is too short: expected at least {ramLogK}, got {len}"))
  else return identityEvaluate (point.take ramLogK) * 8 + (this.lowestAddress : F)

/-- `Ring::pow2`: square and multiply. -/
def pow2Loop (result base : F) (remaining : ℕ) : F :=
  if remaining = 0 then result
  else pow2Loop (if remaining % 2 = 1 then result * base else result) (base * base) (remaining / 2)
termination_by remaining

def pow2 (exponent : ℕ) : F := pow2Loop 1 (1 + 1) exponent

def inputExpression (ramAddress : F) : StageM F := do
  let phase3CycleRounds ← this.shape.phase3CycleRounds
  return pow2 phase3CycleRounds * ramAddress

def outputExpression (unmapAddress ramRa : F) : F := unmapAddress * ramRa

def expectedOutput (ramRa : List F → F) (point : List F) : StageM F := do
  let unmapAddress ← this.unmapAddress point
  return outputExpression unmapAddress (ramRa point)

def summand (ramRa : List F → F) (sumcheckPoint : List F) : StageM F := do
  this.expectedOutput ramRa (← this.deriveOpeningPoints sumcheckPoint)

end

end RamRafEvaluation

/-! ### The RAM output check -/

structure RamOutputCheck where
  readWriteDimensions : ReadWriteDimensions
  publicMemory : PublicIoMemory

namespace RamOutputCheck

variable (this : RamOutputCheck)

def rounds : StageM ℕ := this.readWriteDimensions.outputCheckRounds

/-- The point of `val_final`. -/
def deriveOpeningPoints (sumcheckPoint : List F) : StageM (List F) :=
  publicPointFailed .ramOutputCheck (this.readWriteDimensions.addressOpeningPoint sumcheckPoint)

/-- The claimed sum. -/
def inputExpression [Field F] : F := 0

def expectedOutput [Field F] (outputAddress : List F) (valFinal : List F → F) (point : List F) :
    StageM F := do
  let publics ← ofResult id (ramOutputCheckPublics this.publicMemory outputAddress point)
  return outputCheckExpression publics (valFinal point)

def summand [Field F] (outputAddress : List F) (valFinal : List F → F) (sumcheckPoint : List F) :
    StageM F := do
  this.expectedOutput outputAddress valFinal (← this.deriveOpeningPoints sumcheckPoint)

end RamOutputCheck

/-! ### The register read-write check -/

structure RegistersReadWriteClaims (C : Type) where
  registersVal : C
  rs1Ra : C
  rs2Ra : C
  rdWa : C
  rdInc : C

structure RegistersReadWriteChecking where
  registerDimensions : ReadWriteDimensions

namespace RegistersReadWriteChecking

variable (this : RegistersReadWriteChecking)

def rounds : ℕ := this.registerDimensions.readWriteRounds

def deriveOpeningPoints (sumcheckPoint : List F) : StageM (RegistersReadWriteClaims (List F)) := do
  let openingPoint := (← publicPointFailed .registersReadWriteChecking
    (this.registerDimensions.readWriteOpeningPoint sumcheckPoint)).openingPoint
  return ⟨openingPoint, openingPoint, openingPoint, openingPoint, openingPoint⟩

section

variable [Field F]

/-- `EqCycle` against the cycle of the reduced register claims. -/
def eqCycle (fixedCycle : List F) (outputPoints : RegistersReadWriteClaims (List F)) : StageM F :=
  if outputPoints.registersVal.length < registerAddressBits then
    .error (.refused (.stageClaimPublicInputFailed .registersReadWriteChecking
      ("register read-write opening point is shorter than the register " ++ "address width")))
  else publicEqFailed .registersReadWriteChecking
    (tryEqMle fixedCycle (outputPoints.registersVal.drop registerAddressBits))

def inputExpression (gamma rdWriteValue rs1Value rs2Value : F) : F :=
  rdWriteValue + gamma * rs1Value + gamma ^ 2 * rs2Value

def outputExpression (eqCycle gamma : F) (openings : RegistersReadWriteClaims F) : F :=
  eqCycle * openings.rdWa * openings.rdInc + eqCycle * openings.rdWa * openings.registersVal +
    eqCycle * gamma * openings.rs1Ra * openings.registersVal +
    eqCycle * gamma ^ 2 * openings.rs2Ra * openings.registersVal

def summand (fixedCycle : List F) (gamma : F) (polys : RegistersReadWriteClaims (List F → F))
    (sumcheckPoint : List F) : StageM F := do
  let points ← this.deriveOpeningPoints sumcheckPoint
  let eqCycle ← eqCycle fixedCycle points
  return outputExpression eqCycle gamma
    ⟨polys.registersVal points.registersVal, polys.rs1Ra points.rs1Ra, polys.rs2Ra points.rs2Ra,
      polys.rdWa points.rdWa, polys.rdInc points.rdInc⟩

end

end RegistersReadWriteChecking

/-! ## The stages -/

/-- What the RAM members of the second stage are about.  The phase split is not part of it, and the two
logarithms have a sum that fits in a word. -/
structure Stage2RamStatement (F : Type) where
  logT : ℕ
  logK : ℕ
  publicMemory : PublicIoMemory
  tauLow : List F
  outputAddress : List F
  gamma : F
  ramReadValue : F
  ramWriteValue : F
  ramAddress : F
  length_tauLow : tauLow.length = logT
  length_outputAddress : outputAddress.length = logK
  rounds_lt : logT + logK < 2 ^ 64

/-- One cell for each of the members that share the address. -/
structure Stage2RamCells (C R O : Type) where
  ramReadWrite : C
  ramRafEvaluation : R
  ramOutputCheck : O

abbrev Stage2RamMembers (F : Type) := Stage2RamCells (RamReadWriteChecking F) (RamRafEvaluation F) RamOutputCheck

abbrev Stage2RamPoints (F : Type) := Stage2RamCells (RamReadWriteClaims (List F)) (List F) (List F)

/-- The polynomials that the openings are evaluations of. -/
abbrev Stage2RamPolys (F : Type) := Stage2RamCells (RamReadWriteClaims (List F → F)) (List F → F) (List F → F)

namespace Stage2RamCells

def new (config : JoltReadWriteConfig) (statement : Stage2RamStatement F) : StageM (Stage2RamMembers F) := do
  let logK := statement.logK
  let tauLow := statement.tauLow
  let readWriteDimensions := config.ramDimensions statement.logT logK
  let rafDimensions ← ofResult
    (fun error : JoltFormulaDimensionsError => .stageClaimPublicInputFailed .ramRafEvaluation error.message)
    (RamRafEvaluationDimensions.tryFrom readWriteDimensions)
  return { ramReadWrite := ⟨readWriteDimensions, logK, tauLow⟩
           ramRafEvaluation := ⟨rafDimensions, readWriteDimensions, logK, ramBase, tauLow⟩
           ramOutputCheck := ⟨readWriteDimensions, statement.publicMemory⟩ }

variable (this : Stage2RamMembers F)

def readWriteOffset (batchNumVars : ℕ) : StageM ℕ :=
  instancePointOffset .ramReadWriteChecking this.ramReadWrite.rounds batchNumVars

def rafOffset (batchNumVars : ℕ) : StageM ℕ :=
  phase1InstancePointOffset this.ramRafEvaluation.readWriteDimensions .ramRafEvaluation batchNumVars

def outputOffset (batchNumVars : ℕ) : StageM ℕ :=
  phase1InstancePointOffset this.ramOutputCheck.readWriteDimensions .ramOutputCheck batchNumVars

/-- `begin_batch`: the input claims, the rounds and the offsets of the members, and the most rounds. -/
def batchMembers [Field F] (statement : Stage2RamStatement F) (coefficients : Stage2RamCells F F F) :
    StageM (List (BatchMember F) × ℕ) := do
  let readWriteClaim := RamReadWriteChecking.inputExpression statement.gamma statement.ramReadValue
    statement.ramWriteValue
  let rafClaim ← this.ramRafEvaluation.inputExpression statement.ramAddress
  let outputClaim := RamOutputCheck.inputExpression
  let rafRounds ← this.ramRafEvaluation.rounds
  let outputRounds ← this.ramOutputCheck.rounds
  let maxNumVars := max this.ramReadWrite.rounds (max rafRounds outputRounds)
  let readWriteOffset ← this.readWriteOffset maxNumVars
  let rafOffset ← this.rafOffset maxNumVars
  let outputOffset ← this.outputOffset maxNumVars
  return ([⟨readWriteClaim, coefficients.ramReadWrite, this.ramReadWrite.rounds, readWriteOffset⟩,
    ⟨rafClaim, coefficients.ramRafEvaluation, rafRounds, rafOffset⟩,
    ⟨outputClaim, coefficients.ramOutputCheck, outputRounds, outputOffset⟩], maxNumVars)

def deriveOpeningPoints (batchPoint : List F) : StageM (Stage2RamPoints F) := do
  let ramReadWrite ← this.ramReadWrite.deriveOpeningPoints (← instancePoint .ramReadWriteChecking
    this.readWriteOffset (.ok this.ramReadWrite.rounds) batchPoint)
  let ramRafEvaluation ← this.ramRafEvaluation.deriveOpeningPoints (← instancePoint .ramRafEvaluation
    this.rafOffset this.ramRafEvaluation.rounds batchPoint)
  let ramOutputCheck ← this.ramOutputCheck.deriveOpeningPoints (← instancePoint .ramOutputCheck
    this.outputOffset this.ramOutputCheck.rounds batchPoint)
  return ⟨ramReadWrite, ramRafEvaluation, ramOutputCheck⟩

/-- The members' output claims at their points, combined. -/
def expectedFinalClaim [Field F] (statement : Stage2RamStatement F) (coefficients : Stage2RamCells F F F)
    (polys : Stage2RamPolys F) (points : Stage2RamPoints F) : StageM F := do
  let readWrite ← this.ramReadWrite.expectedOutput statement.gamma polys.ramReadWrite points.ramReadWrite
  let raf ← this.ramRafEvaluation.expectedOutput polys.ramRafEvaluation points.ramRafEvaluation
  let output ← this.ramOutputCheck.expectedOutput statement.outputAddress polys.ramOutputCheck
    points.ramOutputCheck
  return coefficients.ramReadWrite * readWrite + coefficients.ramRafEvaluation * raf +
    coefficients.ramOutputCheck * output

end Stage2RamCells

/-- The second stage, as far as the phase split goes: the batch is built before its challenges are there, and
the points are derived after. -/
def stage2RamPoints [Field F] (config : JoltReadWriteConfig) (statement : Stage2RamStatement F)
    (coefficients : Stage2RamCells F F F) (batchPoint : List F) : StageM (Stage2RamPoints F) := do
  let members ← Stage2RamCells.new config statement
  let _ ← members.batchMembers statement coefficients
  members.deriveOpeningPoints batchPoint

/-- The fourth stage, as far as the phase split goes. -/
def stage4RegisterPoints (config : JoltReadWriteConfig) (logT : ℕ) (batchPoint : List F) :
    StageM (RegistersReadWriteClaims (List F)) := do
  let registerDimensions := config.registerDimensions logT registerAddressBits
  publicPointFailed .registersReadWriteChecking (ofResult id registerDimensions.validatePhaseSplit)
  let member : RegistersReadWriteChecking := ⟨registerDimensions⟩
  member.deriveOpeningPoints (← instancePoint .registersReadWriteChecking
    (instancePointOffset .registersReadWriteChecking member.rounds) (.ok member.rounds) batchPoint)

end

end JoltWasm
