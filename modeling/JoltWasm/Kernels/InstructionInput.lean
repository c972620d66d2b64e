import JoltWasm.Field.MontCorrect
import JoltWasm.Kernels.ProductUniskip
import JoltWasm.Kernels.RamRaReduction
import JoltWasm.Kernels.SplitRounds

/-!
# The instruction-input kernel

The summand is an equality weight times the two instruction operands, each a flag times a value.  The columns stay
native until the first challenge: the first round extends the values as integers and sums them in limbs.  The
first challenge writes six tables, which the later rounds bind.
-/

namespace JoltWasm

open Lib Mont Finset

open SpartanProduct (Scalar fmaddProducts checkedI128_eq)

open GruenSplitEqPolynomial (LowBound lowBound_new)

open RamRaClaimReduction (RoundProgress)

/-- `i128`. -/
abbrev I128 := {b : ℤ // -2 ^ 127 ≤ b ∧ b < 2 ^ 127}

theorem I128.zero_fits : (-2 ^ 127 : ℤ) ≤ 0 ∧ (0 : ℤ) < 2 ^ 127 := by norm_num

instance : Inhabited I128 := ⟨⟨0, I128.zero_fits⟩⟩

abbrev S192 := SignedBigInt 3

/-! ## Native values in the field -/

/-- `F::from_bool`. -/
def fieldOfBool (b : Bool) : Scalar := if b then 1 else 0

section

variable (ark : ArkFr)

/-- `F::from_u64`. -/
def fieldOfU64 (n : Mont.U64) : Scalar := element (Mont.fromU64 ark n.val)

/-- `F::from_u128`. -/
def fieldOfU128 (n : Mont.U128) : Scalar := element (Mont.fromU128 ark n.val)

/-- `F::from_i128`. -/
def fieldOfI128 (v : I128) : Scalar :=
  if v.1 < 0 then -element (Mont.fromU128 ark v.1.natAbs) else element (Mont.fromU128 ark v.1.natAbs)

theorem fieldOfBool_eq (b : Bool) : fieldOfBool b = (b.toNat : Scalar) := by cases b <;> simp [fieldOfBool]

theorem fieldOfU64_eq (n : Mont.U64) : fieldOfU64 ark n = (n.val : Scalar) := (fromU64_isMontgomery ark n.isLt).element_eq

theorem fieldOfU128_eq (n : Mont.U128) : fieldOfU128 ark n = (n.val : Scalar) :=
  (fromU128_isMontgomery ark n.isLt).element_eq

theorem fieldOfI128_eq (v : I128) : fieldOfI128 ark v = (v.1 : Scalar) := by
  obtain ⟨v, low, high⟩ := v
  have small : v.natAbs < 2 ^ 128 := by omega
  rw [fieldOfI128, (fromU128_isMontgomery ark small).element_eq, ← Int.cast_natCast]
  rcases lt_or_ge v 0 with negative | nonneg
  · rw [if_pos negative, Int.ofNat_natAbs_of_nonpos negative.le, Int.cast_neg, neg_neg]
  · rw [if_neg (not_lt.mpr nonneg), Int.natAbs_of_nonneg nonneg]

end

namespace InstructionInput

/-- The six operand and flag values of one cycle. -/
structure InstructionInputRow where
  isRs1 : Bool
  rs1Value : Mont.U64
  isRs2 : Bool
  rs2Value : Mont.U64
  isImm : Bool
  imm : I128
  deriving Inhabited

def fieldValues (ark : ArkFr) (row : InstructionInputRow) : List Scalar :=
  [fieldOfBool row.isRs1, fieldOfU64 ark row.rs1Value, fieldOfBool row.isRs2, fieldOfU64 ark row.rs2Value,
    fieldOfBool row.isImm, fieldOfI128 ark row.imm]

/-- `NUM_TABLES`. -/
def numTables : ℕ := 6

/-- `POINTS`. -/
def points : ℕ := 4

inductive InputState where
  | native (rows : RowVec 48 InstructionInputRow)
  | dense (tables : List (DensePolynomial Scalar))

structure OptimizedInstructionInputKernel where
  progress : RoundProgress
  gamma : Scalar
  state : InputState
  gruen : GruenSplitEqPolynomial Scalar

/-! ## The first round -/

/-- `ext_u64`: the value at zero and the step. -/
def extU64 (even odd : Mont.U64) : Option (ℤ × ℤ) := do return (even.val, ← checkedI128 ((odd.val : ℤ) - even.val))

/-- `ext_flag`. -/
def extFlag (even odd : Bool) : Option (ℤ × ℤ) := do return (even.toNat, ← checkedI64 ((odd.toNat : ℤ) - even.toNat))

/-- A lane at a sample. -/
def laneAt (checked : ℤ → Option ℤ) (lane : ℤ × ℤ) (t : ℤ) : Option ℤ := do checked (lane.1 + (← checked (t * lane.2)))

/-- The right and the left side of a pair of rows at a sample. -/
def nativeSides (even odd : InstructionInputRow) (t : ℤ) : Option (S256 × S256) := do
  let fRs1 ← laneAt checkedI64 (← extFlag even.isRs1 odd.isRs1) t
  let fRs2 ← laneAt checkedI64 (← extFlag even.isRs2 odd.isRs2) t
  let fImm ← laneAt checkedI64 (← extFlag even.isImm odd.isImm) t
  let left ← checkedI128 (fRs1 * (← laneAt checkedI128 (← extU64 even.rs1Value odd.rs1Value) t))
  let right : S256 := .fromI128 (← checkedI128 (fRs2 * (← laneAt checkedI128 (← extU64 even.rs2Value odd.rs2Value) t)))
  let right := SignedBigInt.fmaddTrunc (.fromI64 (← checkedI64 (fImm * (← checkedI64 (1 - t)))) : S64)
    (.fromI128 even.imm.1 : S192) right
  let right := SignedBigInt.fmaddTrunc (.fromI64 (← checkedI64 (fImm * t)) : S64) (.fromI128 odd.imm.1 : S192) right
  return (right, .fromI128 left)

section

variable (ark : ArkFr)

/-- The accumulators of the right and of the left side, one for each sample. -/
abbrev Accumulators := List FrSignedProductAccumulator × List FrSignedProductAccumulator

/-- One pair of rows. -/
def nativeStep (rows : List InstructionInputRow) (accumulators : Accumulators) (entry : ℕ × Scalar) :
    Option Accumulators := do
  let (y, eIn) := entry
  let even ← rows[2 * y]?
  let odd ← rows[2 * y + 1]?
  let sides ← (List.range points).mapM fun t : ℕ => nativeSides even odd t
  return (fmaddProducts ark eIn accumulators.1 (sides.map Prod.fst), fmaddProducts ark eIn accumulators.2 (sides.map Prod.snd))

def nativeQEvals (gruen : GruenSplitEqPolynomial Scalar) (gamma : Scalar) (rows : List InstructionInputRow) :
    Option (List Scalar) :=
  let default := List.replicate points (FrSignedProductAccumulator.accumulator ark).default
  gruen.parFoldOutIn (some (default, default))
    (fun accumulators y _ eIn => accumulators.bind fun accumulators => nativeStep ark rows accumulators (y, eIn))
    (fun _ eOut accumulators => do
      let (rightAcc, leftAcc) ← accumulators
      (rightAcc.zip leftAcc).mapM fun (right, left) => do
        return eOut * ((← right.result ark) + gamma * (← left.result ark)))
    (fun a b => do return mergeVecs (← a) (← b))

/-! ## The kernel -/

namespace OptimizedInstructionInputKernel

/-- `((is_rs2·rs2 + is_imm·imm) + γ·is_rs1·rs1)`, of the six columns. -/
def combine (gamma : Scalar) (evals : List Scalar) : Scalar :=
  let right := evals.getD 2 0 * evals.getD 3 0 + evals.getD 4 0 * evals.getD 5 0
  let left := evals.getD 0 0 * evals.getD 1 0
  right + gamma * left

def denseQEvals (kernel : OptimizedInstructionInputKernel) (tables : List (DensePolynomial Scalar)) : List Scalar :=
  kernel.gruen.sampledQEvals points (combine kernel.gamma) tables

def new (rProduct : List Scalar) (rows : RowVec 48 InstructionInputRow) (gamma : Scalar) :
    Except KernelStop OptimizedInstructionInputKernel := do
  let logT := rProduct.length
  let cycles ← KernelStop.orPanic (if logT < 64 then some (2 ^ logT) else none)
  if rows.rows.length ≠ cycles then
    .error (.tableSizeMismatch "instruction input operand rows" cycles rows.rows.length)
  else return {
    progress := .new logT
    gamma := gamma
    state := .native rows
    gruen := .new rProduct .lowToHigh }

/-- The samples of a round. -/
def qEvals (kernel : OptimizedInstructionInputKernel) : Option (List Scalar) :=
  match kernel.state with
  | .native rows => nativeQEvals ark kernel.gruen kernel.gamma rows.rows
  | .dense tables => some (kernel.denseQEvals tables)

/-- The part of `prove_round` after the bind. -/
def message (kernel : OptimizedInstructionInputKernel) (round : ℕ) (previousClaim : Scalar) :
    Except (RoundStop Scalar) (UnivariatePoly Scalar × OptimizedInstructionInputKernel) := do
  let qEvals ← RoundStop.orPanic (kernel.qEvals ark)
  let message ← kernel.gruen.checkedRoundPoly qEvals previousClaim round
  return (message, kernel)

/-- One table of the pairs of rows, bound. -/
def materialize (rows : List InstructionInputRow) (challenge : Scalar) (table : ℕ) : Option (DensePolynomial Scalar) := do
  let values ← (List.range (rows.length / 2)).mapM fun y => do
    let even ← (fieldValues ark (← rows[2 * y]?))[table]?
    let odd ← (fieldValues ark (← rows[2 * y + 1]?))[table]?
    return even + challenge * (odd - even)
  DensePolynomial.new values

/-- The tables after a challenge. -/
def bindTables (kernel : OptimizedInstructionInputKernel) (challenge : Scalar) : Option (List (DensePolynomial Scalar)) :=
  match kernel.state with
  | .native rows => (List.range numTables).mapM (materialize ark rows.rows challenge)
  | .dense tables => tables.mapM fun table => table.bindLowToHigh challenge

def bind (kernel : OptimizedInstructionInputKernel) (challenge : Scalar) :
    Except (RoundStop Scalar) OptimizedInstructionInputKernel := do
  let gruen ← RoundStop.orPanic (kernel.gruen.bind challenge)
  let tables ← RoundStop.orPanic (kernel.bindTables ark challenge)
  return { kernel with gruen := gruen, state := .dense tables, progress := kernel.progress.advance }

def rounds : RoundKernel Scalar OptimizedInstructionInputKernel (RoundStop Scalar) := ⟨bind ark, message ark⟩

/-- The six fully bound table values. -/
def finalValues (kernel : OptimizedInstructionInputKernel) : Option (List Scalar) :=
  match kernel.state with
  | .native rows => do return fieldValues ark (← rows.rows[0]?)
  | .dense tables => (List.range numTables).mapM fun i => do (← tables[i]?).evals[0]?

end OptimizedInstructionInputKernel

/-- The opening values of the relation. -/
structure InstructionInputOutputClaims where
  leftOperandIsRs1 : Scalar
  rs1Value : Scalar
  rightOperandIsRs2 : Scalar
  rs2Value : Scalar
  rightOperandIsImm : Scalar
  imm : Scalar

def OptimizedInstructionInputKernel.outputClaims (kernel : OptimizedInstructionInputKernel) :
    Except KernelStop InstructionInputOutputClaims := do
  kernel.progress.requireComplete
  match ← KernelStop.orPanic (kernel.finalValues ark) with
  | [leftOperandIsRs1, rs1Value, rightOperandIsRs2, rs2Value, rightOperandIsImm, imm] =>
      return ⟨leftOperandIsRs1, rs1Value, rightOperandIsRs2, rs2Value, rightOperandIsImm, imm⟩
  | _ => .error .panicked

end

/-! ## The sides as integers -/

/-- The line through two values. -/
def line (even odd t : ℤ) : ℤ := even + t * (odd - even)

theorem checkedI64_eq {v : ℤ} (small : |v| < 2 ^ 63) : checkedI64 v = some v := by
  obtain ⟨low, high⟩ := abs_lt.mp small
  exact if_pos ⟨low.le, high⟩

/-- A sample of the first round. -/
structure Sample (t : ℤ) : Prop where
  low : 0 ≤ t
  high : t ≤ 3

variable {t : ℤ}

theorem Sample.line_flag (sample : Sample t) (even odd : Bool) : |line even.toNat odd.toNat t| ≤ 3 := by
  obtain ⟨low, high⟩ := sample
  interval_cases t <;> cases even <;> cases odd <;> decide

theorem Sample.line_word (sample : Sample t) (even odd : Mont.U64) : |line even.val odd.val t| < 2 ^ 66 := by
  obtain ⟨low, high⟩ := sample
  have smallE := even.isLt
  have smallO := odd.isLt
  rw [abs_lt, line]
  interval_cases t <;> omega

theorem Sample.flagLane {β : Type} (sample : Sample t) (even odd : Bool) (next : ℤ → Option β) :
    ((extFlag even odd).bind fun lane => (laneAt checkedI64 lane t).bind next) = next (line even.toNat odd.toNat t) := by
  have value := sample.line_flag even odd
  obtain ⟨low, high⟩ := sample
  have step : |(odd.toNat : ℤ) - even.toNat| < 2 ^ 63 := by cases even <;> cases odd <;> decide
  have product : |t * ((odd.toNat : ℤ) - even.toNat)| < 2 ^ 63 := by
    interval_cases t <;> cases even <;> cases odd <;> decide
  rw [extFlag, checkedI64_eq step]
  simp only [Option.bind_eq_bind, Option.bind_some, Option.pure_def, laneAt, checkedI64_eq product]
  rw [← line, checkedI64_eq (value.trans_lt (by norm_num)), Option.bind_some]

theorem Sample.wordLane {β : Type} (sample : Sample t) (even odd : Mont.U64) (next : ℤ → Option β) :
    ((extU64 even odd).bind fun lane => (laneAt checkedI128 lane t).bind next) = next (line even.val odd.val t) := by
  have value := sample.line_word even odd
  obtain ⟨low, high⟩ := sample
  have smallE := even.isLt
  have smallO := odd.isLt
  have step : |(odd.val : ℤ) - even.val| < 2 ^ 127 := by
    rw [abs_lt]
    omega
  have product : |t * ((odd.val : ℤ) - even.val)| < 2 ^ 127 := by
    rw [abs_lt]
    interval_cases t <;> omega
  rw [extU64, checkedI128_eq step]
  simp only [Option.bind_eq_bind, Option.bind_some, Option.pure_def, laneAt, checkedI128_eq product]
  rw [← line, checkedI128_eq (value.trans (by norm_num)), Option.bind_some]

/-- A flag times a value. -/
theorem Sample.flagWord (sample : Sample t) (flagE flagO : Bool) (even odd : Mont.U64) :
    |line flagE.toNat flagO.toNat t * line even.val odd.val t| < 2 ^ 68 := by
  rw [abs_mul]
  calc _ ≤ 3 * |line even.val odd.val t| := Int.mul_le_mul_of_nonneg_right (sample.line_flag flagE flagO) (abs_nonneg _)
    _ < 2 ^ 68 := by
      have := sample.line_word even odd
      omega

/-- A small coefficient times an immediate, added without a limb cut off. -/
theorem toInt_fmadd {c x : ℤ} {acc : S256} (v : I128) (value : acc.toInt Limbs.toNat = x) (small : |c| ≤ 9)
    (smallX : |x| < 2 ^ 140) :
    (SignedBigInt.fmaddTrunc (.fromI64 c : S64) (.fromI128 v.1 : S192) acc).toInt Limbs.toNat = x + c * v.1 ∧
      |x + c * v.1| < |x| + 2 ^ 131 := by
  obtain ⟨v, low, high⟩ := v
  have smallV : |v| ≤ 2 ^ 127 := abs_le.mpr ⟨low, high.le⟩
  have product : |c * v| < 2 ^ 131 := by
    rw [abs_mul]
    calc |c| * |v| ≤ 9 * 2 ^ 127 := Int.mul_le_mul small smallV (abs_nonneg _) (by norm_num)
      _ < 2 ^ 131 := by norm_num
  have total : |x + c * v| < |x| + 2 ^ 131 := (abs_add_le x (c * v)).trans_lt (Int.add_lt_add_left product _)
  obtain ⟨lowC, highC⟩ := abs_le.mp small
  have coefficient : (SignedBigInt.fromI64 c : S64).toInt Limbs.toNat = c :=
    SignedBigInt.toInt_fromI64 (by decide) (by omega) (by omega)
  have immediate : (SignedBigInt.fromI128 v : S192).toInt Limbs.toNat = v := SignedBigInt.toInt_fromI128 low high
  have width : limbBase ^ 4 = 2 ^ 256 := by norm_num [limbBase]
  have computed := widthsCompute.fmaddTrunc_exact (.fromI64 c : S64) (.fromI128 v : S192) acc (by
    rw [coefficient, immediate, width]
    have := abs_lt.mp product
    omega)
  rw [coefficient, immediate, value] at computed
  refine ⟨computed.toInt_eq ?_, total⟩
  rw [width]
  have := abs_lt.mp (total.trans (Int.add_lt_add_right smallX _))
  omega

/-- The right side, in limbs. -/
def nativeRight (even odd : InstructionInputRow) (t : ℤ) : S256 :=
  let coefficient := line even.isImm.toNat odd.isImm.toNat t
  SignedBigInt.fmaddTrunc (.fromI64 (coefficient * t) : S64) (.fromI128 odd.imm.1 : S192)
    (SignedBigInt.fmaddTrunc (.fromI64 (coefficient * (1 - t)) : S64) (.fromI128 even.imm.1 : S192)
      (.fromI128 (line even.isRs2.toNat odd.isRs2.toNat t * line even.rs2Value.val odd.rs2Value.val t)))

/-- The left side, in limbs. -/
def nativeLeft (even odd : InstructionInputRow) (t : ℤ) : S256 :=
  .fromI128 (line even.isRs1.toNat odd.isRs1.toNat t * line even.rs1Value.val odd.rs1Value.val t)

theorem Sample.coefficients (sample : Sample t) (flagE flagO : Bool) :
    |1 - t| < 2 ^ 63 ∧ |line flagE.toNat flagO.toNat t * (1 - t)| ≤ 9 ∧ |line flagE.toNat flagO.toNat t * t| ≤ 9 := by
  obtain ⟨low, high⟩ := sample
  interval_cases t <;> cases flagE <;> cases flagO <;> decide

/-- No operation of a pair of rows overflows. -/
theorem Sample.nativeSides_eq (sample : Sample t) (even odd : InstructionInputRow) :
    nativeSides even odd t = some (nativeRight even odd t, nativeLeft even odd t) := by
  obtain ⟨one, first, second⟩ := sample.coefficients even.isImm odd.isImm
  have left := (sample.flagWord even.isRs1 odd.isRs1 even.rs1Value odd.rs1Value).trans (by norm_num : (2 : ℤ) ^ 68 < 2 ^ 127)
  have right := (sample.flagWord even.isRs2 odd.isRs2 even.rs2Value odd.rs2Value).trans (by norm_num : (2 : ℤ) ^ 68 < 2 ^ 127)
  simp only [nativeSides, Option.bind_eq_bind, sample.flagLane, sample.wordLane, checkedI128_eq left, checkedI128_eq right,
    checkedI64_eq one, checkedI64_eq (first.trans_lt (by norm_num)), checkedI64_eq (second.trans_lt (by norm_num)),
    Option.bind_some, Option.pure_def]
  rfl

theorem Sample.toInt_right (sample : Sample t) (even odd : InstructionInputRow) : (nativeRight even odd t).toInt Limbs.toNat =
    line even.isRs2.toNat odd.isRs2.toNat t * line even.rs2Value.val odd.rs2Value.val t +
      line even.isImm.toNat odd.isImm.toNat t * line even.imm.1 odd.imm.1 t := by
  obtain ⟨-, first, second⟩ := sample.coefficients even.isImm odd.isImm
  have product := sample.flagWord even.isRs2 odd.isRs2 even.rs2Value odd.rs2Value
  obtain ⟨low, high⟩ := abs_lt.mp product
  have start : (SignedBigInt.fromI128 (line even.isRs2.toNat odd.isRs2.toNat t *
      line even.rs2Value.val odd.rs2Value.val t) : S256).toInt Limbs.toNat = _ :=
    SignedBigInt.toInt_fromI128 (by omega) (by omega)
  obtain ⟨once, small⟩ := toInt_fmadd even.imm start first (product.trans (by norm_num))
  obtain ⟨twice, -⟩ := toInt_fmadd odd.imm once second (by omega)
  rw [nativeRight, twice]
  simp only [line]
  ring

theorem Sample.toInt_left (sample : Sample t) (even odd : InstructionInputRow) : (nativeLeft even odd t).toInt Limbs.toNat =
    line even.isRs1.toNat odd.isRs1.toNat t * line even.rs1Value.val odd.rs1Value.val t := by
  obtain ⟨low, high⟩ := abs_lt.mp (sample.flagWord even.isRs1 odd.isRs1 even.rs1Value odd.rs1Value)
  rw [nativeLeft]
  exact SignedBigInt.toInt_fromI128 (by omega) (by omega)

end InstructionInput

end JoltWasm
