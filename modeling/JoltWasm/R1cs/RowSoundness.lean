import JoltWasm.Backend.Step
import JoltWasm.R1cs.Operands

/-!
# Row soundness

A witness of one cycle that satisfies the constraints and the lookup relation writes what the
machine writes, on every row the arithmetization is meant for.
-/

namespace JoltWasm

/-- A memory row's byte address, as the constraints add it up, is a word address. -/
def SumFits (base offset : U64) : Prop :=
  0 ≤ (base.toNat : ℤ) + offset.toInt ∧ (base.toNat : ℤ) + offset.toInt < 2 ^ 64

/-- The rows the constraints are designed for: register zero is never written, a shift reads a
bitmask, an address does not wrap, and the next pc is a pc. -/
def Ir.Arithmetized (m : Machine) : Ir → Prop
  | nop => m.pc.toNat + 1 < 2 ^ 32
  | halt | jump _ => True
  | trap => False
  | alu op rd _ rs2 =>
      rd ≠ Reg.zero ∧ (op.readsBitmask = true → IsRightShiftBitmask (rs2.value m.regs)) ∧
        m.pc.toNat + 1 < 2 ^ 32
  | advice _ rd _ _ => rd ≠ Reg.zero ∧ m.pc.toNat + 1 < 2 ^ 32
  | assert op _ _ rs2 =>
      (op.readsBitmask = true → IsRightShiftBitmask (rs2.value m.regs)) ∧ m.pc.toNat + 1 < 2 ^ 32
  | load rd base offset =>
      rd ≠ Reg.zero ∧ SumFits (m.regs base) offset ∧ m.pc.toNat + 1 < 2 ^ 32
  | store base _ offset => SumFits (m.regs base) offset ∧ m.pc.toNat + 1 < 2 ^ 32
  | jumpReg rs => (m.regs rs).toNat < 2 ^ 32
  | branch op rs1 rs2 _ =>
      (op.readsBitmask = true → IsRightShiftBitmask (m.regs rs2)) ∧
        (op.evaluate (m.regs rs1) (m.regs rs2) ≠ 1 → m.pc.toNat + 1 < 2 ^ 32)

/-- The memory accepts the row's access, and `ramRead` is the word it holds. -/
def Ir.MemoryAccepts (m : Machine) (ramRead : U64) : Ir → Prop
  | load _ base offset => m.memory.readWord (m.regs base + offset) = .ok ramRead
  | store base value offset =>
      ∃ memory, m.memory.writeWord (m.regs base + offset) (m.regs value) = .ok (ramRead, memory)
  | _ => True

section

variable {F : Type*} [Field F]

/-- The columns of `z` that hold what the row reads. -/
structure ReadsOf (z : Column → F) (m : Machine) (instruction : Ir) (ramRead : U64) : Prop where
  rs1 : ∀ r, instruction.rowSpec.rs1 = some r → z .rs1Value = ((m.regs r).toNat : F)
  rs2 : ∀ r, instruction.rowSpec.rs2 = some r → z .rs2Value = ((m.regs r).toNat : F)
  ram : z .ramReadValue = (ramRead.toNat : F)

/-- The columns of `z` that hold the RAM access of a record. -/
def RamColumns (z : Column → F) : RamAccess → Prop
  | .read address value =>
      z .ramAddress = (address.toNat : F) ∧ z .ramWriteValue = (value.toNat : F)
  | .write address _ postValue =>
      z .ramAddress = (address.toNat : F) ∧ z .ramWriteValue = (postValue.toNat : F)
  | .noOp => z .ramAddress = 0

/-- The columns of `z` hold what the record writes. -/
structure WritesOf (z : Column → F) (record : Record) : Prop where
  rd : ∀ w, record.rd = some w → z .rdWriteValue = (w.postValue.toNat : F)
  ram : RamColumns z record.ram
  nextPc : z .nextPc = (record.nextPc.toNat : F)

end

namespace Equations

variable {F : Type*} [Field F] {z : Column → F} (h : Equations z)

include h

theorem leftInput_rs1 (on : z (.flag .leftIsRs1) = 1) : z .leftInput = z .rs1Value := by
  have eq := h.leftRs1
  rw [on] at eq
  linear_combination eq

theorem leftInput_zero (const : z .const = 1) (off : z (.flag .leftIsRs1) = 0) :
    z .leftInput = 0 := by
  have eq := h.leftZero
  rw [const, off] at eq
  linear_combination eq

theorem rightInput_rs2 (on : z (.flag .rightIsRs2) = 1) : z .rightInput = z .rs2Value := by
  have eq := h.rightRs2
  rw [on] at eq
  linear_combination eq

theorem rightInput_imm (on : z (.flag .rightIsImm) = 1) : z .rightInput = z .imm := by
  have eq := h.rightImm
  rw [on] at eq
  linear_combination eq

theorem rightInput_zero (const : z .const = 1) (rs2 : z (.flag .rightIsRs2) = 0)
    (imm : z (.flag .rightIsImm) = 0) : z .rightInput = 0 := by
  have eq := h.rightZero
  rw [const, rs2, imm] at eq
  linear_combination eq

/-- A row without memory access has address zero. -/
theorem ramAddress_noOp (const : z .const = 1) (load : z (.flag .load) = 0)
    (store : z (.flag .store) = 0) : z .ramAddress = 0 := by
  have eq := h.ramAddressZero
  rw [const, load, store] at eq
  linear_combination eq

theorem rdWrite_lookup (on : z (.flag .writeLookupToRd) = 1) :
    z .rdWriteValue = z .lookupOutput := by
  have eq := h.rdWrite
  rw [on] at eq
  linear_combination eq

/-- A row that neither halts, jumps nor branches continues at the next pc. -/
theorem nextPc_fallThrough (const : z .const = 1) (branch : z (.flag .branch) = 0)
    (jump : z (.flag .jump) = 0) (halt : z (.flag .halt) = 0) : z .nextPc = z .pc + 1 := by
  have noBranch := h.shouldBranch
  have eq := h.nextPc
  rw [branch] at noBranch
  rw [const, jump, halt, ← noBranch] at eq
  linear_combination eq

theorem nextPc_jump (on : z (.flag .jump) = 1) : z .nextPc = z .lookupOutput := by
  have eq := h.jump
  rw [on] at eq
  linear_combination eq

/-- A branch row continues at its target when the lookup output is one, and at the next pc
otherwise. -/
theorem nextPc_branch (const : z .const = 1) (branch : z (.flag .branch) = 1)
    (jump : z (.flag .jump) = 0) (halt : z (.flag .halt) = 0) :
    (z .lookupOutput = 1 → z .nextPc = z .imm) ∧
      (z .lookupOutput ≠ 1 → z .nextPc = z .pc + 1) := by
  have output := h.shouldBranch
  have taken := h.branch
  have fallen := h.nextPc
  rw [branch, mul_one] at output
  rw [const, jump, halt, ← output] at fallen
  rw [← output] at taken
  constructor
  · intro one
    rw [one] at taken
    linear_combination taken
  · intro other
    have factor : 1 - z .lookupOutput ≠ 0 := fun zero => other (by linear_combination -zero)
    rcases mul_eq_zero.mp fallen with zero | zero
    · exact absurd (by linear_combination zero) factor
    · linear_combination zero

end Equations

/-- The immediate the constraints see on a row without memory access. -/
theorem immSigned_of_noMemory {instruction : Ir}
    (load : instruction.rowSpec.flags.has .load = false)
    (store : instruction.rowSpec.flags.has .store = false) :
    (BytecodeRow.of instruction).immSigned = instruction.rowSpec.imm.toNat := by
  simp [BytecodeRow.immSigned, BytecodeRow.of, BytecodeRow.fromSpec,
    RowFlags.intersects_mask_union, load, store]

/-- The immediate the constraints see on a memory row. -/
theorem immSigned_of_memory {instruction : Ir}
    (memory : instruction.rowSpec.flags.has .load = true ∨
      instruction.rowSpec.flags.has .store = true) :
    (BytecodeRow.of instruction).immSigned = instruction.rowSpec.imm.toInt := by
  simp only [BytecodeRow.immSigned, BytecodeRow.of, BytecodeRow.fromSpec,
    RowFlags.intersects_mask_union]
  rcases memory with on | on <;> simp [on]

/-- The next pc of a row that falls through. -/
theorem toNat_pc_succ {pc : Pc} (small : pc.toNat + 1 < 2 ^ 32) : (pc + 1).toNat = pc.toNat + 1 := by
  rw [BitVec.toNat_add]
  exact Nat.mod_eq_of_lt small

theorem toNat_setWidth_pc (target : Pc) : (target.setWidth 64).toNat = target.toNat := by
  have small := target.isLt
  rw [BitVec.toNat_setWidth]
  omega

/-- An address that fits is the integer sum. -/
theorem toNat_address {base offset : U64} (fits : SumFits base offset) :
    ((base + offset).toNat : ℤ) = base.toNat + offset.toInt := by
  obtain ⟨lower, upper⟩ := fits
  rw [BitVec.toNat_add]
  have sign := BitVec.toInt_eq_toNat_cond offset
  have small := offset.isLt
  split at sign <;> omega

section

variable {F : Type*} [WideField F] {z : Column → F} {code : List Ir} {m : Machine}
  {instruction : Ir}

/-- The operand columns of a row that looks up `op` on `rs1` and a right operand. -/
theorem lookup_row {op : AluOp} {advice ramRead : U64} (rs1 : Reg) (rs2 : Operand)
    (fixed : FixedBy z (BytecodeRow.of instruction) m.pc)
    (reads : ReadsOf z m instruction ramRead) (h : Equations z)
    (lookup : LookupHolds instruction.rowSpec.lookup advice z)
    (looksUp : instruction.rowSpec.lookup = some (.table op))
    (leftReg : instruction.rowSpec.rs1 = some rs1)
    (right : (∃ r, rs2 = .reg r ∧ instruction.rowSpec.rs2 = some r ∧
        instruction.rowSpec.flags.has .rightIsRs2 = true) ∨
      (∃ v, rs2 = .imm v ∧ instruction.rowSpec.imm = v ∧
        instruction.rowSpec.flags.has .rightIsImm = true))
    (flags : instruction.rowSpec.flags.has .leftIsRs1 = true ∧
      (∀ f ∈ [RowFlag.load, .store, .advice], instruction.rowSpec.flags.has f = false) ∧
      instruction.rowSpec.flags.has .addOperands = decide (op.operandMode = .add) ∧
      instruction.rowSpec.flags.has .subOperands = decide (op.operandMode = .sub) ∧
      instruction.rowSpec.flags.has .mulOperands = decide (op.operandMode = .mul))
    (bitmask : op.readsBitmask = true → IsRightShiftBitmask (rs2.value m.regs)) :
    z .lookupOutput = (op.evaluate (m.regs rs1) (rs2.value m.regs)).toNat := by
  obtain ⟨leftFlag, off, add, sub, mul⟩ := flags
  have flag : ∀ f, z (.flag f) = if instruction.rowSpec.flags.has f then 1 else 0 := fixed.flag
  have left : z .leftInput = ((m.regs rs1).toNat : F) := by
    rw [h.leftInput_rs1 (by rw [flag, leftFlag, if_pos rfl]), reads.rs1 _ leftReg]
  have rightInput : z .rightInput = ((rs2.value m.regs).toNat : F) := by
    rcases right with ⟨r, rfl, register, on⟩ | ⟨v, rfl, imm, on⟩
    · rw [h.rightInput_rs2 (by rw [flag, on, if_pos rfl]), reads.rs2 _ register]
      rfl
    · rw [h.rightInput_imm (by rw [flag, on, if_pos rfl]), fixed.imm,
        immSigned_of_noMemory (off _ (by simp)) (off _ (by simp)), imm, Int.cast_natCast]
      rfl
  have operands : OperandFlagsOf z op :=
    ⟨fixed.const, by rw [flag, add]; simp, by rw [flag, sub]; simp, by rw [flag, mul]; simp,
      by rw [flag, off _ (by simp)]; simp⟩
  rw [looksUp] at lookup
  rw [lookupOutput_eq h operands left rightInput lookup, tableOutput_eq_evaluate _ _ _ bitmask]

variable {advice ramRead : U64}
  (fetch : code[m.pc.toNat]? = some instruction)
  (fixed : FixedBy z (BytecodeRow.of instruction) m.pc)
  (reads : ReadsOf z m instruction ramRead)
  (lookup : LookupHolds instruction.rowSpec.lookup advice z) (h : Equations z)

include fixed h

/-- The next pc of a row whose flags neither halt, jump nor branch. -/
theorem nextPc_succ (small : m.pc.toNat + 1 < 2 ^ 32)
    (branch : instruction.rowSpec.flags.has .branch = false)
    (jump : instruction.rowSpec.flags.has .jump = false)
    (halt : instruction.rowSpec.flags.has .halt = false) :
    z .nextPc = ((m.pc + 1).toNat : F) := by
  have flag : ∀ f, z (.flag f) = if instruction.rowSpec.flags.has f then 1 else 0 := fixed.flag
  rw [h.nextPc_fallThrough fixed.const (by rw [flag, branch]; simp) (by rw [flag, jump]; simp)
    (by rw [flag, halt]; simp), fixed.pc, toNat_pc_succ small]
  push_cast
  rfl

/-- The address column of a row without memory access. -/
theorem ramAddress_zero (load : instruction.rowSpec.flags.has .load = false)
    (store : instruction.rowSpec.flags.has .store = false) : z .ramAddress = 0 := by
  have flag : ∀ f, z (.flag f) = if instruction.rowSpec.flags.has f then 1 else 0 := fixed.flag
  exact h.ramAddress_noOp fixed.const (by rw [flag, load]; simp) (by rw [flag, store]; simp)

/-- The address column of a memory row. -/
theorem ramAddress_memory {baseValue : U64}
    (register : z .rs1Value = (baseValue.toNat : F))
    (flags : z (.flag .load) + z (.flag .store) = 1)
    (memory : instruction.rowSpec.flags.has .load = true ∨
      instruction.rowSpec.flags.has .store = true)
    (fits : SumFits baseValue instruction.rowSpec.imm) :
    z .ramAddress = ((baseValue + instruction.rowSpec.imm).toNat : F) := by
  have eq := h.ramAddress
  rw [flags, register, fixed.imm, immSigned_of_memory memory] at eq
  have sum : ((baseValue + instruction.rowSpec.imm).toNat : F) =
      (baseValue.toNat : F) + (instruction.rowSpec.imm.toInt : F) := by
    rw [← Int.cast_natCast, toNat_address fits]
    push_cast
    rfl
  rw [sum]
  linear_combination eq

include fetch reads lookup

/-- On an arithmetized row the memory accepts, the machine steps, and it writes what the columns
hold. -/
theorem row_writes (arithmetized : instruction.Arithmetized m)
    (memory : instruction.MemoryAccepts m ramRead) :
    ∃ record next, Machine.stepWith (constantProver advice) code m = .ok (record, next) ∧
      WritesOf z record := by
  have flag : ∀ f, z (.flag f) = if instruction.rowSpec.flags.has f then 1 else 0 := fixed.flag
  cases instruction with
  | nop =>
      refine ⟨_, _, Machine.stepWith_nop _ fetch, ⟨by simp, ?_, ?_⟩⟩
      · exact ramAddress_zero fixed h (by simp [Ir.rowSpec]) (by simp [Ir.rowSpec])
      · exact nextPc_succ fixed h arithmetized (by simp [Ir.rowSpec]) (by simp [Ir.rowSpec])
          (by simp [Ir.rowSpec])
  | halt =>
      refine ⟨_, _, Machine.stepWith_halt _ fetch, ⟨by simp, ?_, ?_⟩⟩
      · exact ramAddress_zero fixed h (by simp [Ir.rowSpec]) (by simp [Ir.rowSpec])
      · have eq := h.halt
        rw [show z (.flag .halt) = 1 by rw [flag]; simp [Ir.rowSpec], fixed.pc] at eq
        linear_combination eq
  | trap => exact arithmetized.elim
  | alu op rd rs1 rs2 =>
      obtain ⟨nonzero, bitmask, small⟩ := arithmetized
      have output := lookup_row rs1 rs2 fixed reads h lookup rfl rfl
        (by cases rs2 <;> simp [Ir.rowSpec, rightOperand])
        (by cases rs2 <;> simp [Ir.rowSpec, rightOperand]) bitmask
      refine ⟨_, _, Machine.stepWith_alu _ fetch, ⟨?_, ?_, ?_⟩⟩
      · rintro w ⟨⟩
        rw [h.rdWrite_lookup (by rw [flag]; simp [Ir.rowSpec]), output, Machine.write_eq,
          if_neg nonzero]
      · exact ramAddress_zero fixed h (by cases rs2 <;> simp [Ir.rowSpec, rightOperand])
          (by cases rs2 <;> simp [Ir.rowSpec, rightOperand])
      · exact nextPc_succ fixed h small (by cases rs2 <;> simp [Ir.rowSpec, rightOperand])
          (by cases rs2 <;> simp [Ir.rowSpec, rightOperand])
          (by cases rs2 <;> simp [Ir.rowSpec, rightOperand])
  | advice hint rd rs1 rs2 =>
      obtain ⟨nonzero, small⟩ := arithmetized
      refine ⟨_, _, Machine.stepWith_advice _ fetch, ⟨?_, ?_, ?_⟩⟩
      · rintro w ⟨⟩
        rw [h.rdWrite_lookup (by rw [flag]; simp [Ir.rowSpec]), Machine.write_eq, if_neg nonzero]
        exact lookup
      · exact ramAddress_zero fixed h (by simp [Ir.rowSpec]) (by simp [Ir.rowSpec])
      · exact nextPc_succ fixed h small (by simp [Ir.rowSpec]) (by simp [Ir.rowSpec])
          (by simp [Ir.rowSpec])
  | assert op failure rs1 rs2 =>
      obtain ⟨bitmask, small⟩ := arithmetized
      have output := lookup_row rs1 rs2 fixed reads h lookup rfl rfl
        (by cases rs2 <;> simp [Ir.rowSpec, rightOperand])
        (by cases rs2 <;> simp [Ir.rowSpec, rightOperand]) bitmask
      have one : op.evaluate (m.regs rs1) (rs2.value m.regs) = 1 := by
        have eq := h.assertOne
        rw [show z (.flag .assert) = 1 by rw [flag]; simp [Ir.rowSpec], output, fixed.const] at eq
        refine word_inj (F := F) ?_
        rw [show (1 : U64).toNat = 1 from rfl]
        push_cast
        linear_combination eq
      refine ⟨_, _, (Machine.stepWith_assert _ fetch).trans (if_pos one), ⟨by simp, ?_, ?_⟩⟩
      · exact ramAddress_zero fixed h (by cases rs2 <;> simp [Ir.rowSpec, rightOperand])
          (by cases rs2 <;> simp [Ir.rowSpec, rightOperand])
      · exact nextPc_succ fixed h small (by cases rs2 <;> simp [Ir.rowSpec, rightOperand])
          (by cases rs2 <;> simp [Ir.rowSpec, rightOperand])
          (by cases rs2 <;> simp [Ir.rowSpec, rightOperand])
  | load rd base offset =>
      obtain ⟨nonzero, fits, small⟩ := arithmetized
      have on : z (.flag .load) = 1 := by rw [flag]; simp [Ir.rowSpec]
      have off : z (.flag .store) = 0 := by rw [flag]; simp [Ir.rowSpec]
      have step := Machine.stepWith_load (constantProver advice) fetch
      rw [memory] at step
      refine ⟨_, _, step, ⟨?_, ⟨?_, ?_⟩, ?_⟩⟩
      · rintro w ⟨⟩
        have eq := h.loadWrites
        rw [on, reads.ram] at eq
        rw [Machine.write_eq, if_neg nonzero]
        linear_combination -eq
      · exact ramAddress_memory fixed h (reads.rs1 _ rfl) (by rw [on, off, add_zero])
          (by simp [Ir.rowSpec]) fits
      · have eq := h.loadKeeps
        rw [on, reads.ram] at eq
        linear_combination -eq
      · exact nextPc_succ fixed h small (by simp [Ir.rowSpec]) (by simp [Ir.rowSpec])
          (by simp [Ir.rowSpec])
  | store base value offset =>
      obtain ⟨fits, small⟩ := arithmetized
      obtain ⟨after, written⟩ := memory
      have on : z (.flag .store) = 1 := by rw [flag]; simp [Ir.rowSpec]
      have off : z (.flag .load) = 0 := by rw [flag]; simp [Ir.rowSpec]
      have step := Machine.stepWith_store (constantProver advice) fetch
      rw [written] at step
      refine ⟨_, _, step, ⟨by simp, ⟨?_, ?_⟩, ?_⟩⟩
      · exact ramAddress_memory fixed h (reads.rs1 _ rfl) (by rw [on, off, zero_add])
          (by simp [Ir.rowSpec]) fits
      · have eq := h.storeWrites
        rw [on, reads.rs2 _ rfl] at eq
        linear_combination -eq
      · exact nextPc_succ fixed h small (by simp [Ir.rowSpec]) (by simp [Ir.rowSpec])
          (by simp [Ir.rowSpec])
  | jump target =>
      have operands : OperandFlagsOf z (.add .w64) := by
        refine ⟨fixed.const, ?_, ?_, ?_, ?_⟩ <;> rw [flag] <;>
          simp [Ir.rowSpec, AluOp.operandMode]
      have left := h.leftInput_zero fixed.const (by rw [flag]; simp [Ir.rowSpec])
      have right : z .rightInput = ((target.setWidth 64).toNat : F) := by
        rw [h.rightInput_imm (by rw [flag]; simp [Ir.rowSpec]), fixed.imm,
          immSigned_of_noMemory (by simp [Ir.rowSpec]) (by simp [Ir.rowSpec]), Int.cast_natCast]
        rfl
      have output := lookupOutput_eq h operands (x := 0) (by simpa using left) right lookup
      rw [tableOutput_eq_evaluate _ _ _ (by simp [AluOp.readsBitmask]), AluOp.evaluate_add64,
        BitVec.toNat_add, toNat_setWidth_pc] at output
      refine ⟨_, _, Machine.stepWith_jump _ fetch, ⟨by simp, ?_, ?_⟩⟩
      · exact ramAddress_zero fixed h (by simp [Ir.rowSpec]) (by simp [Ir.rowSpec])
      · have small := target.isLt
        rw [h.nextPc_jump (by rw [flag]; simp [Ir.rowSpec]), output]
        congr 1
        change (0 + target.toNat) % 2 ^ 64 = target.toNat
        omega
  | jumpReg rs =>
      have operands : OperandFlagsOf z (.add .w64) := by
        refine ⟨fixed.const, ?_, ?_, ?_, ?_⟩ <;> rw [flag] <;>
          simp [Ir.rowSpec, AluOp.operandMode]
      have left : z .leftInput = ((m.regs rs).toNat : F) := by
        rw [h.leftInput_rs1 (by rw [flag]; simp [Ir.rowSpec]), reads.rs1 _ rfl]
      have right := h.rightInput_zero fixed.const (by rw [flag]; simp [Ir.rowSpec])
        (by rw [flag]; simp [Ir.rowSpec])
      have output := lookupOutput_eq h operands left (y := 0) (by simpa using right) lookup
      rw [tableOutput_eq_evaluate _ _ _ (by simp [AluOp.readsBitmask]), AluOp.evaluate_add64]
        at output
      have target : Pc.ofWord? (m.regs rs) = some ((m.regs rs).setWidth 32) := if_pos arithmetized
      have step := Machine.stepWith_jumpReg (constantProver advice) fetch
      rw [target] at step
      refine ⟨_, _, step, ⟨by simp, ?_, ?_⟩⟩
      · exact ramAddress_zero fixed h (by simp [Ir.rowSpec]) (by simp [Ir.rowSpec])
      · rw [h.nextPc_jump (by rw [flag]; simp [Ir.rowSpec]), output, BitVec.toNat_setWidth,
          Nat.mod_eq_of_lt arithmetized]
        simp
  | branch op rs1 rs2 target =>
      obtain ⟨bitmask, small⟩ := arithmetized
      have output := lookup_row rs1 (.reg rs2) fixed reads h lookup rfl rfl
        (by simp [Ir.rowSpec]) (by simp [Ir.rowSpec]) bitmask
      rw [Operand.value] at output
      have next := h.nextPc_branch fixed.const (by rw [flag]; simp [Ir.rowSpec])
        (by rw [flag]; simp [Ir.rowSpec]) (by rw [flag]; simp [Ir.rowSpec])
      refine ⟨_, _, Machine.stepWith_branch _ fetch, ⟨by simp, ?_, ?_⟩⟩
      · exact ramAddress_zero fixed h (by simp [Ir.rowSpec]) (by simp [Ir.rowSpec])
      · by_cases taken : op.evaluate (m.regs rs1) (m.regs rs2) = 1
        · rw [taken] at output
          rw [next.1 (by rw [output]; simp), if_pos taken, fixed.imm,
            immSigned_of_noMemory (by simp [Ir.rowSpec]) (by simp [Ir.rowSpec]), Int.cast_natCast]
          exact congrArg _ (toNat_setWidth_pc target)
        · have other : z .lookupOutput ≠ 1 := by
            intro one
            refine taken (word_inj (F := F) ?_)
            rw [← output, one]
            simp
          rw [next.2 other, if_neg taken, fixed.pc, toNat_pc_succ (small taken)]
          push_cast
          rfl

end

/-- A cycle the verifier accepts for the row at the machine's pc: the static columns are the row's,
the reads are the machine's, and the constraints and the lookup relation hold. -/
structure RowAccepted {F : Type*} [WideField F] (z : Column → F) (code : List Ir) (m : Machine)
    (instruction : Ir) (advice ramRead : U64) : Prop where
  fetch : code[m.pc.toNat]? = some instruction
  fixed : FixedBy z (BytecodeRow.of instruction) m.pc
  reads : ReadsOf z m instruction ramRead
  lookup : LookupHolds instruction.rowSpec.lookup advice z
  satisfies : Satisfies z

/-- The machine steps, and the columns hold what its record writes. -/
def StepWrites {F : Type*} [WideField F] (z : Column → F) (code : List Ir) (m : Machine)
    (advice : U64) : Prop :=
  ∃ record next, Machine.stepWith (constantProver advice) code m = .ok (record, next) ∧
    WritesOf z record

/-- Row soundness: an accepted cycle of an arithmetized row writes what the machine writes. -/
theorem rowAccepted_stepWrites {F : Type*} [WideField F] {z : Column → F} {code : List Ir}
    {m : Machine} {instruction : Ir} {advice ramRead : U64}
    (accepted : RowAccepted z code m instruction advice ramRead)
    (arithmetized : instruction.Arithmetized m) (memory : instruction.MemoryAccepts m ramRead) :
    StepWrites z code m advice :=
  row_writes accepted.fetch accepted.fixed accepted.reads accepted.lookup
    ((satisfies_iff z).mp accepted.satisfies) arithmetized memory

/-- Memory with one page. -/
def onePageMemory : Memory := Memory.new ⟨1, 1⟩ [] []

/-- Columns whose static part is that of an instruction's bytecode row. -/
def rowColumns (instruction : Ir) (pc : Pc) (rest : Column → Fr) : Column → Fr
  | .const => 1
  | .flag f => if (BytecodeRow.of instruction).flags.has f then 1 else 0
  | .imm => (BytecodeRow.of instruction).immSigned
  | .pc => pc.toNat
  | c => rest c

theorem rowColumns_fixedBy (instruction : Ir) (pc : Pc) (rest : Column → Fr) :
    FixedBy (rowColumns instruction pc rest) (BytecodeRow.of instruction) pc :=
  ⟨rfl, fun _ => rfl, rfl, rfl⟩

/-- Columns of a row whose lookup index is its raw right operand. -/
def rawColumns (left right index output next : Fr) : Column → Fr
  | .leftInput | .rs1Value => left
  | .rightInput => right
  | .product => left * right
  | .rightLookupOperand => index
  | .lookupOutput | .rdWriteValue => output
  | .nextPc => next
  | _ => 0

/-- Columns of a load row that reads `value`. -/
def loadColumns (base address value : Fr) : Column → Fr
  | .rs1Value => base
  | .ramAddress => address
  | .ramReadValue | .ramWriteValue | .rdWriteValue => value
  | .nextPc => 1
  | _ => 0

/-- `r12 = r13 + 5` at `r13 = 37`. -/
theorem rowAccepted_stepWrites_add :
    StepWrites (rowColumns (.aluImm (.add .w64) 12 13 5) 0 (rawColumns 37 5 42 42 1))
      [.aluImm (.add .w64) 12 13 5] ⟨fun _ => 37, 0, onePageMemory⟩ 0 := by
  refine @rowAccepted_stepWrites Fr _ _ _ _ (.aluImm (.add .w64) 12 13 5) 0 0
    ⟨rfl, rowColumns_fixedBy _ _ _, ⟨?_, ?_, ?_⟩, ⟨42, ?_, ?_⟩, ?_⟩
    (by refine ⟨by decide, fun read => ?_, by decide⟩; cases read) trivial
  · rintro r ⟨⟩
    simp [rowColumns, rawColumns]
  · rintro r ⟨⟩
  · simp [rowColumns, rawColumns]
  · simp [rowColumns, rawColumns]
  · rw [show (WasmTable.of (.add .w64)).materializeEntry 42 = 42 by decide]
    simp [rowColumns, rawColumns]
  · rw [satisfies_iff]
    constructor <;> simp [rowColumns, rawColumns, BytecodeRow.of, BytecodeRow.fromSpec,
      Ir.rowSpec, rightOperand, BytecodeRow.immSigned, RowFlags.intersects_mask_union, Ir.aluImm,
      AluOp.operandMode]
    norm_num

/-- A cycle the constraints accept although the machine does not write its columns. -/
def AcceptedOther (instruction : Ir) : Prop :=
  ∃ (z : Column → Fr) (code : List Ir) (m : Machine) (ramRead : U64),
    RowAccepted z code m instruction 0 ramRead ∧ ¬ StepWrites z code m 0

/-- Three is no right-shift bitmask: the table has zero where the machine computes four. -/
theorem acceptedOther_srl : AcceptedOther (.alu .srl 12 13 (.reg 14)) := by
  let z : Column → Fr := rowColumns (.alu .srl 12 13 (.reg 14)) 0 fun
    | .leftInput | .rs1Value | .leftLookupOperand => 4
    | .rightInput | .rs2Value | .rightLookupOperand => 3
    | .product => 12
    | .nextPc => 1
    | _ => 0
  have fetch : [Ir.alu .srl 12 13 (.reg 14)][(0 : Pc).toNat]? = some (.alu .srl 12 13 (.reg 14)) :=
    rfl
  have values : (WasmTable.of .srl).materializeEntry (interleaveBits 4 3) = 0 ∧
      (AluOp.srl.evaluate 4 3).toNat = 4 := by decide +kernel
  refine ⟨z, _, ⟨fun r => if r = 13 then 4 else 3, 0, onePageMemory⟩, 0,
    ⟨fetch, rowColumns_fixedBy _ _ _, ⟨?_, ?_, ?_⟩, ⟨4, 3, ?_, ?_, ?_⟩, ?_⟩, ?_⟩
  · rintro r ⟨⟩
    simp [z, rowColumns]
  · rintro r ⟨⟩
    simp [z, rowColumns]
  · simp [z, rowColumns]
  · simp [z, rowColumns]
  · simp [z, rowColumns]
  · rw [values.1]
    simp [z, rowColumns]
  · rw [satisfies_iff]
    constructor <;> simp [z, rowColumns, BytecodeRow.of, BytecodeRow.fromSpec, Ir.rowSpec,
      rightOperand, BytecodeRow.immSigned, RowFlags.intersects_mask_union, operandFlags,
      AluOp.operandMode]
    norm_num
  · rintro ⟨record, next, step, writes⟩
    rw [Machine.stepWith_alu _ fetch] at step
    cases step
    have equal := writes.rd _ rfl
    rw [Machine.write_eq, if_neg (by decide)] at equal
    change (0 : Fr) = ((AluOp.srl.evaluate 4 3).toNat : Fr) at equal
    rw [values.2] at equal
    have := natCast_inj_of_lt (F := Fr) (m := 0) (n := 4) (by norm_num) (by norm_num)
      (by exact_mod_cast equal)
    omega

/-- The machine drops a write of register zero, the constraints do not. -/
theorem acceptedOther_zero : AcceptedOther (.aluImm (.add .w64) 0 13 5) := by
  have fetch : [Ir.aluImm (.add .w64) 0 13 5][(0 : Pc).toNat]? =
      some (.aluImm (.add .w64) 0 13 5) := rfl
  refine ⟨rowColumns (.aluImm (.add .w64) 0 13 5) 0 (rawColumns 37 5 42 42 1), _,
    ⟨fun _ => 37, 0, onePageMemory⟩, 0,
    ⟨fetch, rowColumns_fixedBy _ _ _, ⟨?_, ?_, ?_⟩, ⟨42, ?_, ?_⟩, ?_⟩, ?_⟩
  · rintro r ⟨⟩
    simp [rowColumns, rawColumns]
  · rintro r ⟨⟩
  · simp [rowColumns, rawColumns]
  · simp [rowColumns, rawColumns]
  · rw [show (WasmTable.of (.add .w64)).materializeEntry 42 = 42 by decide]
    simp [rowColumns, rawColumns]
  · rw [satisfies_iff]
    constructor <;> simp [rowColumns, rawColumns, BytecodeRow.of, BytecodeRow.fromSpec,
      Ir.rowSpec, rightOperand, BytecodeRow.immSigned, RowFlags.intersects_mask_union, Ir.aluImm,
      AluOp.operandMode]
    norm_num
  · rintro ⟨record, next, step, writes⟩
    rw [Machine.stepWith_alu _ fetch] at step
    cases step
    have equal := writes.rd _ rfl
    exact absurd (word_inj (x := 42) equal) (by decide)

/-- A register jump to a word above the pcs: the machine traps. -/
theorem acceptedOther_jumpReg : AcceptedOther (.jumpReg 13) := by
  have fetch : [Ir.jumpReg 13][(0 : Pc).toNat]? = some (.jumpReg 13) := rfl
  refine ⟨rowColumns (.jumpReg 13) 0
      (rawColumns 4294967296 0 4294967296 4294967296 4294967296), _,
    ⟨fun _ => 4294967296, 0, onePageMemory⟩, 0,
    ⟨fetch, rowColumns_fixedBy _ _ _, ⟨?_, ?_, ?_⟩, ⟨4294967296, ?_, ?_⟩, ?_⟩, ?_⟩
  · rintro r ⟨⟩
    simp [rowColumns, rawColumns]
  · rintro r ⟨⟩
  · simp [rowColumns, rawColumns]
  · simp [rowColumns, rawColumns]
  · rw [show (WasmTable.of (.add .w64)).materializeEntry 4294967296 = 4294967296 by decide]
    simp [rowColumns, rawColumns]
  · rw [satisfies_iff]
    constructor <;> simp [rowColumns, rawColumns, BytecodeRow.of, BytecodeRow.fromSpec,
      Ir.rowSpec, BytecodeRow.immSigned, RowFlags.intersects_mask_union]
  · rintro ⟨record, next, step, -⟩
    rw [Machine.stepWith_jumpReg _ fetch] at step
    cases step

/-- The largest pc: the machine's next pc wraps to zero. -/
theorem acceptedOther_nop : AcceptedOther .nop := by
  let m : Machine := ⟨fun _ => 0, 4294967295, onePageMemory⟩
  have fetch : (List.replicate (2 ^ 32) Ir.nop)[m.pc.toNat]? = some .nop := by
    rw [List.getElem?_replicate, if_pos (by decide)]
  refine ⟨rowColumns .nop 4294967295 fun | .nextPc => 4294967296 | _ => 0, _, m, 0,
    ⟨fetch, rowColumns_fixedBy _ _ _, ⟨?_, ?_, ?_⟩, trivial, ?_⟩, ?_⟩
  · rintro r ⟨⟩
  · rintro r ⟨⟩
  · simp [rowColumns]
  · rw [satisfies_iff]
    constructor <;> simp [rowColumns, BytecodeRow.of, BytecodeRow.fromSpec, Ir.rowSpec,
      BytecodeRow.immSigned, RowFlags.intersects_mask_union]
    norm_num
  · rintro ⟨record, next, step, writes⟩
    rw [Machine.stepWith_nop _ fetch] at step
    cases step
    have equal := writes.nextPc
    change (4294967296 : Fr) = ((4294967295 + 1 : Pc).toNat : Fr) at equal
    rw [show (4294967295 + 1 : Pc).toNat = 0 by decide] at equal
    have := natCast_inj_of_lt (F := Fr) (m := 4294967296) (n := 0) (by norm_num) (by norm_num)
      (by exact_mod_cast equal)
    omega

/-- An address that wraps: the constraints add the two words in the field. -/
theorem acceptedOther_wrap : AcceptedOther (.load 12 13 2415919112) := by
  have fetch : [Ir.load 12 13 2415919112][(0 : Pc).toNat]? = some (.load 12 13 2415919112) := rfl
  refine ⟨rowColumns (.load 12 13 2415919112) 0
      (loadColumns 18446744073709551608 18446744076125470720 65536), _,
    ⟨fun _ => 18446744073709551608, 0, onePageMemory⟩, 65536,
    ⟨fetch, rowColumns_fixedBy _ _ _, ⟨?_, ?_, ?_⟩, trivial, ?_⟩, ?_⟩
  · rintro r ⟨⟩
    simp [rowColumns, loadColumns]
  · rintro r ⟨⟩
  · simp [rowColumns, loadColumns]
  · rw [satisfies_iff]
    constructor <;> simp [rowColumns, loadColumns, BytecodeRow.of, BytecodeRow.fromSpec,
      Ir.rowSpec, BytecodeRow.immSigned, RowFlags.intersects_mask_union]
    norm_num
  · rintro ⟨record, next, step, writes⟩
    have read : onePageMemory.readWord ((18446744073709551608 : U64) + 2415919112) = .ok 65536 := by
      decide
    rw [Machine.stepWith_load _ fetch] at step
    simp only [read] at step
    cases step
    have equal : (18446744076125470720 : Fr) =
        ((18446744073709551608 + 2415919112 : U64).toNat : Fr) := writes.ram.1
    rw [show (18446744073709551608 + 2415919112 : U64).toNat = 2415919104 by decide] at equal
    have := natCast_inj_of_lt (F := Fr) (m := 18446744076125470720) (n := 2415919104)
      (by norm_num) (by norm_num) (by exact_mod_cast equal)
    omega

/-- An address outside the regions: the machine traps. -/
theorem acceptedOther_outside : AcceptedOther (.load 12 13 0) := by
  have fetch : [Ir.load 12 13 0][(0 : Pc).toNat]? = some (.load 12 13 0) := rfl
  refine ⟨rowColumns (.load 12 13 0) 0 (loadColumns 0 0 0), _, ⟨fun _ => 0, 0, onePageMemory⟩, 0,
    ⟨fetch, rowColumns_fixedBy _ _ _, ⟨?_, ?_, ?_⟩, trivial, ?_⟩, ?_⟩
  · rintro r ⟨⟩
    simp [rowColumns, loadColumns]
  · rintro r ⟨⟩
  · simp [rowColumns, loadColumns]
  · rw [satisfies_iff]
    constructor <;> simp [rowColumns, loadColumns, BytecodeRow.of, BytecodeRow.fromSpec,
      Ir.rowSpec, BytecodeRow.immSigned, RowFlags.intersects_mask_union]
  · rintro ⟨record, next, step, -⟩
    rw [Machine.stepWith_load _ fetch] at step
    cases step

/-- The constraints accept a row the machine does not execute so: a shift by no bitmask, a write of
register zero, a jump or a next pc that is no pc, an address that wraps or is outside the regions. -/
theorem rowAccepted_other :
    AcceptedOther (.alu .srl 12 13 (.reg 14)) ∧ AcceptedOther (.aluImm (.add .w64) 0 13 5) ∧
      AcceptedOther (.jumpReg 13) ∧ AcceptedOther .nop ∧ AcceptedOther (.load 12 13 2415919112) ∧
      AcceptedOther (.load 12 13 0) :=
  ⟨acceptedOther_srl, acceptedOther_zero, acceptedOther_jumpReg, acceptedOther_nop,
    acceptedOther_wrap, acceptedOther_outside⟩

end JoltWasm
