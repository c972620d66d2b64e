import Mathlib.Tactic.LinearCombination
import JoltWasm.Ir.Bytecode
import JoltWasm.R1cs.Field

/-!
# The uniform constraints

The constraint set of one cycle over its 32 columns: rows `guard · (left − right) = 0` and two
product rows `left · right = output`.
-/

namespace JoltWasm

/-- The columns of a cycle: the constant, the inputs, and the row flags. -/
inductive Column where
  | const
  | leftInput
  | rightInput
  | product
  | pc
  | imm
  | ramAddress
  | rs1Value
  | rs2Value
  | rdWriteValue
  | ramReadValue
  | ramWriteValue
  | leftLookupOperand
  | rightLookupOperand
  | nextPc
  | lookupOutput
  | shouldBranch
  | flag (f : RowFlag)
  deriving DecidableEq

/-- The variable index of a column. -/
def Column.index : Column → ℕ
  | flag f => 17 + f.bit
  | const => 0
  | leftInput => 1
  | rightInput => 2
  | product => 3
  | pc => 4
  | imm => 5
  | ramAddress => 6
  | rs1Value => 7
  | rs2Value => 8
  | rdWriteValue => 9
  | ramReadValue => 10
  | ramWriteValue => 11
  | leftLookupOperand => 12
  | rightLookupOperand => 13
  | nextPc => 14
  | lookupOutput => 15
  | shouldBranch => 16

/-- A sparse row: columns with their coefficients. -/
abbrev SparseRow := List (Column × ℤ)

/-- One rank-one constraint `a · b = c`. -/
structure R1csRow where
  a : SparseRow
  b : SparseRow
  c : SparseRow

/-- `guard · diff = 0`. -/
def R1csRow.eq (guard diff : SparseRow) : R1csRow := ⟨guard, diff, []⟩

/-- Two's complement bias for subtraction. -/
def twosComplementBias : ℤ := 0x10000000000000000

open Column in
/-- The equality-conditional rows. -/
def wasmEqConstraintRows : List R1csRow := [
  .eq [(flag .leftIsRs1, 1)] [(leftInput, 1), (rs1Value, -1)],
  .eq [(const, 1), (flag .leftIsRs1, -1)] [(leftInput, 1)],
  .eq [(flag .rightIsRs2, 1)] [(rightInput, 1), (rs2Value, -1)],
  .eq [(flag .rightIsImm, 1)] [(rightInput, 1), (imm, -1)],
  .eq [(const, 1), (flag .rightIsRs2, -1), (flag .rightIsImm, -1)] [(rightInput, 1)],
  .eq [(flag .load, 1), (flag .store, 1)] [(ramAddress, 1), (rs1Value, -1), (imm, -1)],
  .eq [(const, 1), (flag .load, -1), (flag .store, -1)] [(ramAddress, 1)],
  .eq [(flag .load, 1)] [(ramReadValue, 1), (ramWriteValue, -1)],
  .eq [(flag .load, 1)] [(ramReadValue, 1), (rdWriteValue, -1)],
  .eq [(flag .store, 1)] [(rs2Value, 1), (ramWriteValue, -1)],
  .eq [(flag .addOperands, 1), (flag .subOperands, 1), (flag .mulOperands, 1)]
    [(leftLookupOperand, 1)],
  .eq [(const, 1), (flag .addOperands, -1), (flag .subOperands, -1), (flag .mulOperands, -1)]
    [(leftLookupOperand, 1), (leftInput, -1)],
  .eq [(flag .addOperands, 1)] [(rightLookupOperand, 1), (leftInput, -1), (rightInput, -1)],
  .eq [(flag .subOperands, 1)]
    [(rightLookupOperand, 1), (leftInput, -1), (rightInput, 1), (const, -twosComplementBias)],
  .eq [(flag .mulOperands, 1)] [(rightLookupOperand, 1), (product, -1)],
  .eq [(const, 1), (flag .addOperands, -1), (flag .subOperands, -1), (flag .mulOperands, -1),
      (flag .advice, -1)]
    [(rightLookupOperand, 1), (rightInput, -1)],
  .eq [(flag .assert, 1)] [(lookupOutput, 1), (const, -1)],
  .eq [(flag .writeLookupToRd, 1)] [(rdWriteValue, 1), (lookupOutput, -1)],
  .eq [(flag .jump, 1)] [(nextPc, 1), (lookupOutput, -1)],
  .eq [(shouldBranch, 1)] [(nextPc, 1), (imm, -1)],
  .eq [(flag .halt, 1)] [(nextPc, 1), (pc, -1)],
  .eq [(const, 1), (shouldBranch, -1), (flag .jump, -1), (flag .halt, -1)]
    [(nextPc, 1), (pc, -1), (const, -1)]]

open Column in
/-- The product rows. -/
def productConstraintRows : List R1csRow := [
  ⟨[(leftInput, 1)], [(rightInput, 1)], [(product, 1)]⟩,
  ⟨[(lookupOutput, 1)], [(flag .branch, 1)], [(shouldBranch, 1)]⟩]

/-- The full constraint set of a cycle. -/
def wasmTraceConstraints : List R1csRow := wasmEqConstraintRows ++ productConstraintRows

section

variable {F : Type*} [Field F]

/-- The value of a sparse row at a witness. -/
def SparseRow.eval (z : Column → F) (row : SparseRow) : F :=
  (row.map fun term => (term.2 : F) * z term.1).sum

/-- The witness satisfies the row. -/
def R1csRow.Holds (z : Column → F) (row : R1csRow) : Prop :=
  row.a.eval z * row.b.eval z = row.c.eval z

/-- The witness satisfies every row of the constraint set. -/
def Satisfies (z : Column → F) : Prop := ∀ row ∈ wasmTraceConstraints, row.Holds z

/-- The columns of `z` that a cycle's bytecode row fixes: the constant, the flags, the immediate
and the pc. -/
structure FixedBy (z : Column → F) (row : BytecodeRow) (pc : Pc) : Prop where
  const : z .const = 1
  flag : ∀ f, z (.flag f) = if row.flags.has f then 1 else 0
  imm : z .imm = row.immSigned
  pc : z .pc = (pc.toNat : F)

/-- The constraints of a cycle, by name. -/
structure Equations (z : Column → F) : Prop where
  leftRs1 : z (.flag .leftIsRs1) * (z .leftInput - z .rs1Value) = 0
  leftZero : (z .const - z (.flag .leftIsRs1)) * z .leftInput = 0
  rightRs2 : z (.flag .rightIsRs2) * (z .rightInput - z .rs2Value) = 0
  rightImm : z (.flag .rightIsImm) * (z .rightInput - z .imm) = 0
  rightZero : (z .const - z (.flag .rightIsRs2) - z (.flag .rightIsImm)) * z .rightInput = 0
  ramAddress : (z (.flag .load) + z (.flag .store)) *
    (z .ramAddress - z .rs1Value - z .imm) = 0
  ramAddressZero : (z .const - z (.flag .load) - z (.flag .store)) * z .ramAddress = 0
  loadKeeps : z (.flag .load) * (z .ramReadValue - z .ramWriteValue) = 0
  loadWrites : z (.flag .load) * (z .ramReadValue - z .rdWriteValue) = 0
  storeWrites : z (.flag .store) * (z .rs2Value - z .ramWriteValue) = 0
  leftLookupZero : (z (.flag .addOperands) + z (.flag .subOperands) + z (.flag .mulOperands)) *
    z .leftLookupOperand = 0
  leftLookup : (z .const - z (.flag .addOperands) - z (.flag .subOperands) -
    z (.flag .mulOperands)) * (z .leftLookupOperand - z .leftInput) = 0
  rightLookupAdd : z (.flag .addOperands) *
    (z .rightLookupOperand - z .leftInput - z .rightInput) = 0
  rightLookupSub : z (.flag .subOperands) *
    (z .rightLookupOperand - z .leftInput + z .rightInput - 2 ^ 64 * z .const) = 0
  rightLookupMul : z (.flag .mulOperands) * (z .rightLookupOperand - z .product) = 0
  rightLookup : (z .const - z (.flag .addOperands) - z (.flag .subOperands) -
    z (.flag .mulOperands) - z (.flag .advice)) * (z .rightLookupOperand - z .rightInput) = 0
  assertOne : z (.flag .assert) * (z .lookupOutput - z .const) = 0
  rdWrite : z (.flag .writeLookupToRd) * (z .rdWriteValue - z .lookupOutput) = 0
  jump : z (.flag .jump) * (z .nextPc - z .lookupOutput) = 0
  branch : z .shouldBranch * (z .nextPc - z .imm) = 0
  halt : z (.flag .halt) * (z .nextPc - z .pc) = 0
  nextPc : (z .const - z .shouldBranch - z (.flag .jump) - z (.flag .halt)) *
    (z .nextPc - z .pc - z .const) = 0
  product : z .leftInput * z .rightInput = z .product
  shouldBranch : z .lookupOutput * z (.flag .branch) = z .shouldBranch

/-- The named constraints are the constraint set. -/
theorem satisfies_iff (z : Column → F) : Satisfies z ↔ Equations z := by
  unfold Satisfies wasmTraceConstraints wasmEqConstraintRows productConstraintRows
  simp only [List.cons_append, List.nil_append, List.forall_mem_cons, List.not_mem_nil,
    R1csRow.Holds, R1csRow.eq, SparseRow.eval, List.map_cons, List.map_nil, List.sum_cons,
    List.sum_nil, twosComplementBias]
  push_cast
  simp only [one_mul, neg_mul, add_zero]
  constructor
  · rintro ⟨h0, h1, h2, h3, h4, h5, h6, h7, h8, h9, h10, h11, h12, h13, h14, h15, h16, h17, h18, h19,
      h20, h21, h22, h23, -⟩
    exact ⟨by linear_combination h0, by linear_combination h1, by linear_combination h2,
      by linear_combination h3, by linear_combination h4, by linear_combination h5,
      by linear_combination h6, by linear_combination h7, by linear_combination h8,
      by linear_combination h9, by linear_combination h10, by linear_combination h11,
      by linear_combination h12, by linear_combination h13, by linear_combination h14,
      by linear_combination h15, by linear_combination h16, by linear_combination h17,
      by linear_combination h18, by linear_combination h19, by linear_combination h20,
      by linear_combination h21, by linear_combination h22, by linear_combination h23⟩
  · intro h
    exact ⟨by linear_combination h.leftRs1, by linear_combination h.leftZero,
      by linear_combination h.rightRs2, by linear_combination h.rightImm,
      by linear_combination h.rightZero, by linear_combination h.ramAddress,
      by linear_combination h.ramAddressZero, by linear_combination h.loadKeeps,
      by linear_combination h.loadWrites, by linear_combination h.storeWrites,
      by linear_combination h.leftLookupZero, by linear_combination h.leftLookup,
      by linear_combination h.rightLookupAdd, by linear_combination h.rightLookupSub,
      by linear_combination h.rightLookupMul, by linear_combination h.rightLookup,
      by linear_combination h.assertOne, by linear_combination h.rdWrite,
      by linear_combination h.jump, by linear_combination h.branch, by linear_combination h.halt,
      by linear_combination h.nextPc, by linear_combination h.product,
      by linear_combination h.shouldBranch, by simp⟩

end

end JoltWasm
