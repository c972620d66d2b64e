import JoltWasm.Poly.SplitEq
import JoltWasm.R1cs.Builder

/-!
# The uniform key

The matrices of one cycle and a number of cycles stand for block-diagonal matrices, padded to powers of two.
Their extensions are evaluated from the local matrices only.
-/

namespace JoltWasm.R1cs

open Lib Finset

open Blindfold (ConstraintMatrices)

/-! ## The key -/

/-- `usize::checked_next_power_of_two`. -/
def checkedNextPowerOfTwo (n : ℕ) : Option ℕ := if 2 ^ Nat.clog 2 n < 2 ^ 64 then some (2 ^ Nat.clog 2 n) else none

/-- `usize::checked_mul`. -/
def checkedMul (m n : ℕ) : Option ℕ := if m * n < 2 ^ 64 then some (m * n) else none

/-- An error unless a condition holds. -/
def ensure (holds : Prop) [Decidable holds] (message : String) : Except String Unit :=
  if holds then .ok () else .error message

def okOr {α : Type} (value : Option α) (message : String) : Except String α :=
  match value with
  | some a => .ok a
  | none => .error message

@[simp] theorem ensure_eq_ok {holds : Prop} [Decidable holds] {message : String} {u : Unit} :
    ensure holds message = .ok u ↔ holds := by
  rw [ensure]
  split_ifs with h <;> simp [h]

@[simp] theorem okOr_eq_ok {α : Type} {value : Option α} {message : String} {a : α} :
    okOr value message = .ok a ↔ value = some a := by
  cases value <;> simp [okOr]

section

variable {F : Type}

def checkKeyInvariants (matrices : ConstraintMatrices F) (numCycles numConstraintsPadded numVarsPadded : ℕ) :
    Except String Unit := do
  ensure (EqPolynomial.isPowerOfTwo numCycles) s!"num_cycles must be a power of two, got {numCycles}"
  let expected ← okOr (checkedNextPowerOfTwo matrices.numConstraints)
    s!"next power of two overflows usize for {matrices.numConstraints} constraints"
  ensure (numConstraintsPadded = expected) (s!"num_constraints_padded = {numConstraintsPadded}, expected {expected} " ++
    s!"(next power of two of {matrices.numConstraints} constraints)")
  let expected ← okOr (checkedNextPowerOfTwo matrices.numVars)
    s!"next power of two overflows usize for {matrices.numVars} variables"
  ensure (numVarsPadded = expected) (s!"num_vars_padded = {numVarsPadded}, expected {expected} " ++
    s!"(next power of two of {matrices.numVars} variables)")
  let _ ← okOr (checkedMul numCycles numConstraintsPadded)
    s!"total row count overflows usize: {numCycles} cycles * {numConstraintsPadded} padded constraints"
  let _ ← okOr (checkedMul numCycles numVarsPadded)
    s!"total column count overflows usize: {numCycles} cycles * {numVarsPadded} padded variables"

/-- What the check establishes. -/
structure KeyInvariants (matrices : ConstraintMatrices F) (numCycles numConstraintsPadded numVarsPadded : ℕ) : Prop where
  cycles : EqPolynomial.isPowerOfTwo numCycles
  constraints : checkedNextPowerOfTwo matrices.numConstraints = some numConstraintsPadded
  vars : checkedNextPowerOfTwo matrices.numVars = some numVarsPadded
  rows : numCycles * numConstraintsPadded < 2 ^ 64
  cols : numCycles * numVarsPadded < 2 ^ 64

theorem checkedMul_isSome {m n : ℕ} : (∃ product, checkedMul m n = some product) ↔ m * n < 2 ^ 64 := by
  rw [checkedMul]
  split_ifs with small
  · exact ⟨fun _ => small, fun _ => ⟨_, rfl⟩⟩
  · simp only [exists_const, false_iff]
    exact small

theorem checkKeyInvariants_iff {matrices : ConstraintMatrices F} {numCycles numConstraintsPadded numVarsPadded : ℕ} :
    checkKeyInvariants matrices numCycles numConstraintsPadded numVarsPadded = .ok () ↔
      KeyInvariants matrices numCycles numConstraintsPadded numVarsPadded := by
  simp only [checkKeyInvariants, except_bind_eq_ok, ensure_eq_ok, okOr_eq_ok]
  constructor
  · rintro ⟨_, cycles, _, constraints, _, rfl, _, vars, _, rfl, _, rows, _, cols, -⟩
    exact ⟨cycles, constraints, vars, checkedMul_isSome.mp ⟨_, rows⟩, checkedMul_isSome.mp ⟨_, cols⟩⟩
  · rintro ⟨cycles, constraints, vars, rows, cols⟩
    obtain ⟨_, rows⟩ := checkedMul_isSome.mpr rows
    obtain ⟨_, cols⟩ := checkedMul_isSome.mpr cols
    exact ⟨(), cycles, _, constraints, (), rfl, _, vars, (), rfl, _, rows, _, cols, rfl⟩

structure R1csKey (F : Type) where
  matrices : ConstraintMatrices F
  numCycles : ℕ
  numConstraintsPadded : ℕ
  numVarsPadded : ℕ
  invariants : KeyInvariants matrices numCycles numConstraintsPadded numVarsPadded

namespace R1csKey

/-- `TryFrom<RawR1csKey>`. -/
def tryFrom (matrices : ConstraintMatrices F) (numCycles numConstraintsPadded numVarsPadded : ℕ) : Except String (R1csKey F) :=
  match checked : checkKeyInvariants matrices numCycles numConstraintsPadded numVarsPadded with
  | .ok () => .ok ⟨matrices, numCycles, numConstraintsPadded, numVarsPadded, checkKeyInvariants_iff.mp checked⟩
  | .error reason => .error reason

/-- An error is a panic here. -/
def new (matrices : ConstraintMatrices F) (numCycles : ℕ) : Option (R1csKey F) := do
  let numConstraintsPadded ← checkedNextPowerOfTwo matrices.numConstraints
  let numVarsPadded ← checkedNextPowerOfTwo matrices.numVars
  (tryFrom matrices numCycles numConstraintsPadded numVarsPadded).toOption

variable (key : R1csKey F)

def numCycleVars : ℕ := trailingZeros key.numCycles

def numConstraintVars : ℕ := trailingZeros key.numConstraintsPadded

def numVarVars : ℕ := trailingZeros key.numVarsPadded

def totalRows : ℕ := key.numCycles * key.numConstraintsPadded

def totalCols : ℕ := key.numCycles * key.numVarsPadded

def numRowVars : ℕ := key.numCycleVars + key.numConstraintVars

def numColVars : ℕ := key.numCycleVars + key.numVarVars

theorem numCycles_eq : key.numCycles = 2 ^ key.numCycleVars := by
  have power := key.invariants.cycles
  rw [EqPolynomial.isPowerOfTwo, beq_iff_eq] at power
  rw [numCycleVars, power, trailingZeros_pow]

/-- What a checked padding is. -/
theorem padded_eq {n padded : ℕ} (made : checkedNextPowerOfTwo n = some padded) :
    padded = 2 ^ trailingZeros padded ∧ n ≤ padded := by
  rw [checkedNextPowerOfTwo] at made
  split_ifs at made
  obtain rfl := Option.some.inj made
  exact ⟨by rw [trailingZeros_pow], Nat.le_pow_clog one_lt_two n⟩

theorem numConstraintsPadded_eq : key.numConstraintsPadded = 2 ^ key.numConstraintVars :=
  (padded_eq key.invariants.constraints).1

theorem numVarsPadded_eq : key.numVarsPadded = 2 ^ key.numVarVars := (padded_eq key.invariants.vars).1

end R1csKey

end

/-! ## The evaluations -/

variable {F : Type} [Field F] [DecidableEq F]

/-- A row times a table; a missing entry stops it. -/
def sparseRowDot (row : Blindfold.SparseRow F) (table : List F) : Option F :=
  row.foldlM (fun acc (j, coeff) => do return acc + coeff * (← table[j]?)) 0

namespace R1csKey

variable (key : R1csKey F)

/-- The rows of the three matrices with their weights. -/
def weightedRows (weights : List F) : List (((Blindfold.SparseRow F × Blindfold.SparseRow F) × Blindfold.SparseRow F) × F) :=
  ((key.matrices.a.zip key.matrices.b).zip key.matrices.c).zip weights

/-- The loop over the rows; rows of weight zero are passed over. -/
def weightedDots (weights table : List F) : Option (F × F × F) :=
  (key.weightedRows weights).foldlM (fun (a, b, c) (((aRow, bRow), cRow), w) => do
    if w = 0 then return (a, b, c)
    else return (a + w * (← sparseRowDot aRow table), b + w * (← sparseRowDot bRow table),
      c + w * (← sparseRowDot cRow table))) (0, 0, 0)

def evaluateLocalMles (constraintPoint varPoint : List F) : Option (F × F × F) :=
  if constraintPoint.length ≠ key.numConstraintVars then none
  else if varPoint.length ≠ key.numVarVars then none
  else
    let eqCon := EqPolynomial.evaluations constraintPoint
    let eqVar := EqPolynomial.evaluations varPoint
    key.weightedDots eqCon eqVar

def evaluateMatrixMles (rX rY : List F) : Option (F × F × F) := do
  let cv := key.numCycleVars
  if rX.length ≠ key.numRowVars then none
  else if rY.length ≠ key.numColVars then none
  else
    let (rxCycle, rxCon) := rX.splitAt cv
    let (ryCycle, ryVar) := rY.splitAt cv
    let cycleEq := eqMle rxCycle ryCycle
    let (aLocal, bLocal, cLocal) ← key.evaluateLocalMles rxCon ryVar
    return (cycleEq * aLocal, cycleEq * bLocal, cycleEq * cLocal)

def evaluateSparseMatvec (constraintPoint witnessEvals : List F) : Option (F × F × F) :=
  if constraintPoint.length ≠ key.numConstraintVars then none
  else if witnessEvals.length < key.matrices.numVars then none
  else key.weightedDots (EqPolynomial.evaluations constraintPoint) witnessEvals

/-- The entries of one sparse row, added into a dense row. -/
def addRow (scale : F) (row : Blindfold.SparseRow F) (local_ : List F) : Option (List F) :=
  row.foldlM (fun local_ (j, coeff) =>
    if j < local_.length then some (local_.modify j (· + scale * coeff)) else none) local_

def combinedLocalRow (weights : List F) (rhoA rhoB rhoC : F) : Option (List F) :=
  (key.weightedRows weights).foldlM (fun local_ (((aRow, bRow), cRow), w) => do
    if w = 0 then return local_
    else
      let local_ ← addRow (w * rhoA) aRow local_
      let local_ ← addRow (w * rhoB) bRow local_
      addRow (w * rhoC) cRow local_) (List.replicate key.numVarsPadded 0)

/-- One cycle's chunk, which starts with zeros. -/
def fillCycle (localRow chunk : List F) (eqC : F) : List F :=
  if eqC = 0 then chunk
  else List.zipWith (fun slot localVal => if localVal = 0 then slot else eqC * localVal) chunk localRow

def combinedRow (rX : List F) (rhoA rhoB rhoC : F) : Option (List F) := do
  let cv := key.numCycleVars
  if rX.length ≠ key.numRowVars then none
  else
    let (rxCycle, rxCon) := rX.splitAt cv
    let eqCon := EqPolynomial.evaluations rxCon
    let eqCycle := EqPolynomial.evaluations rxCycle
    let localRow ← key.combinedLocalRow eqCon rhoA rhoB rhoC
    let chunks := List.replicate key.numCycles (List.replicate key.numVarsPadded 0)
    return (List.zipWith (fillCycle localRow) chunks eqCycle).flatten

end R1csKey

end JoltWasm.R1cs
