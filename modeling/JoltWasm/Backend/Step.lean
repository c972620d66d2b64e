import JoltWasm.Backend.Machine

/-!
# One step, by instruction

What `Machine.stepWith` does on each instruction, so that later proofs need not unfold it.
-/

namespace JoltWasm

/-- The register read of a right operand. -/
def Operand.read (regs : Reg → U64) : Operand → Option RegisterRead
  | .reg r => some ⟨r, regs r⟩
  | .imm _ => none

/-- The value of a right operand. -/
def Operand.value (regs : Reg → U64) : Operand → U64
  | .reg r => regs r
  | .imm v => v

/-- The register file after a write: the zero register stays zero. -/
def writeReg (regs : Reg → U64) (rd : Reg) (value : U64) : Reg → U64 :=
  Function.update regs rd (if rd = Reg.zero then 0 else value)

@[simp] theorem writeReg_same (regs : Reg → U64) {rd : Reg} (nonzero : rd ≠ Reg.zero) (v : U64) :
    writeReg regs rd v rd = v := by
  simp [writeReg, nonzero]

@[simp] theorem writeReg_other (regs : Reg → U64) {rd r : Reg} (other : r ≠ rd) (v : U64) :
    writeReg regs rd v r = regs r := by
  simp [writeReg, other]

theorem Machine.write_eq (m : Machine) (rd : Reg) (v : U64) :
    m.write rd v = (⟨rd, m.regs rd, if rd = Reg.zero then 0 else v⟩, writeReg m.regs rd v) := rfl

namespace Machine

variable (prover : Prover) (code : List Ir) (m : Machine)

section Steps

variable {code m}

theorem stepWith_nop (fetch : code[m.pc.toNat]? = some .nop) :
    stepWith prover code m =
      .ok (⟨m.pc, m.pc + 1, .nop, none, none, none, .noOp⟩, { m with pc := m.pc + 1 }) := by
  unfold stepWith
  rw [fetch]
  rfl

theorem stepWith_halt (fetch : code[m.pc.toNat]? = some .halt) :
    stepWith prover code m = .ok (⟨m.pc, m.pc, .halt, none, none, none, .noOp⟩, m) := by
  unfold stepWith
  rw [fetch]
  rfl

theorem stepWith_trap (fetch : code[m.pc.toNat]? = some .trap) :
    stepWith prover code m = .error .unreachable := by
  unfold stepWith
  rw [fetch]
  rfl

theorem stepWith_alu {op : AluOp} {rd rs1 : Reg} {rs2 : Operand}
    (fetch : code[m.pc.toNat]? = some (.alu op rd rs1 rs2)) :
    stepWith prover code m =
      let value := op.evaluate (m.regs rs1) (rs2.value m.regs)
      .ok (⟨m.pc, m.pc + 1, .alu op rd rs1 rs2, some ⟨rs1, m.regs rs1⟩, rs2.read m.regs,
          some (m.write rd value).1, .noOp⟩,
        ⟨writeReg m.regs rd value, m.pc + 1, m.memory⟩) := by
  unfold stepWith
  rw [fetch]
  cases rs2 <;> cases mode : op.operandMode <;>
    simp [Ir.rowSpec, rightOperand, operandFlags, mode, lookupOutput, access, nextPc,
      RowSpec.leftInput, RowSpec.rightInput, RowFlags.intersects_mask_union, Operand.value,
      Operand.read, write_eq]

theorem stepWith_advice {hint : AdviceHint} {rd rs1 rs2 : Reg}
    (fetch : code[m.pc.toNat]? = some (.advice hint rd rs1 rs2)) :
    stepWith prover code m =
      let value := prover hint (m.regs rs1) (m.regs rs2)
      .ok (⟨m.pc, m.pc + 1, .advice hint rd rs1 rs2, some ⟨rs1, m.regs rs1⟩,
          some ⟨rs2, m.regs rs2⟩, some (m.write rd value).1, .noOp⟩,
        ⟨writeReg m.regs rd value, m.pc + 1, m.memory⟩) := by
  unfold stepWith
  rw [fetch]
  simp [Ir.rowSpec, lookupOutput, access, nextPc, RowFlags.intersects_mask_union, write_eq]

theorem stepWith_assert {op : AluOp} {failure : AssertFailure} {rs1 : Reg} {rs2 : Operand}
    (fetch : code[m.pc.toNat]? = some (.assert op failure rs1 rs2)) :
    stepWith prover code m =
      if op.evaluate (m.regs rs1) (rs2.value m.regs) = 1 then
        .ok (⟨m.pc, m.pc + 1, .assert op failure rs1 rs2, some ⟨rs1, m.regs rs1⟩,
            rs2.read m.regs, none, .noOp⟩, { m with pc := m.pc + 1 })
      else .error (assertTrap (.assert op failure rs1 rs2) (m.regs rs1)) := by
  unfold stepWith
  rw [fetch]
  by_cases holds : op.evaluate (m.regs rs1) (rs2.value m.regs) = 1#64 <;>
    cases rs2 <;> cases mode : op.operandMode <;> rw [Operand.value] at holds <;>
    simp [Ir.rowSpec, rightOperand, operandFlags, mode, lookupOutput, access, nextPc,
      RowSpec.leftInput, RowSpec.rightInput, RowFlags.intersects_mask_union, Operand.value,
      Operand.read, holds] <;> rfl

theorem stepWith_load {rd base : Reg} {offset : U64}
    (fetch : code[m.pc.toNat]? = some (.load rd base offset)) :
    stepWith prover code m =
      match m.memory.readWord (m.regs base + offset) with
      | .error trap => .error trap
      | .ok value =>
          .ok (⟨m.pc, m.pc + 1, .load rd base offset, some ⟨base, m.regs base⟩, none,
              some (m.write rd value).1, .read (m.regs base + offset) value⟩,
            ⟨writeReg m.regs rd value, m.pc + 1, m.memory⟩) := by
  unfold stepWith
  rw [fetch]
  cases read : m.memory.readWord (m.regs base + offset) <;>
    simp [Ir.rowSpec, lookupOutput, access, nextPc, read, write_eq] <;> rfl

theorem stepWith_store {base value : Reg} {offset : U64}
    (fetch : code[m.pc.toNat]? = some (.store base value offset)) :
    stepWith prover code m =
      match m.memory.writeWord (m.regs base + offset) (m.regs value) with
      | .error trap => .error trap
      | .ok (preValue, memory) =>
          .ok (⟨m.pc, m.pc + 1, .store base value offset, some ⟨base, m.regs base⟩,
              some ⟨value, m.regs value⟩, none,
              .write (m.regs base + offset) preValue (m.regs value)⟩,
            ⟨m.regs, m.pc + 1, memory⟩) := by
  unfold stepWith
  rw [fetch]
  cases written : m.memory.writeWord (m.regs base + offset) (m.regs value) <;>
    simp [Ir.rowSpec, lookupOutput, access, nextPc, written] <;> rfl

theorem stepWith_jump {target : Pc} (fetch : code[m.pc.toNat]? = some (.jump target)) :
    stepWith prover code m =
      .ok (⟨m.pc, target, .jump target, none, none, none, .noOp⟩, { m with pc := target }) := by
  have small : target.toNat % 18446744073709551616 < 4294967296 := by
    have := target.isLt
    omega
  unfold stepWith
  rw [fetch]
  simp [Ir.rowSpec, lookupOutput, access, nextPc, RowSpec.leftInput, RowSpec.rightInput,
    RowFlags.intersects_mask_union, AluOp.evaluate, Width.canonical, Pc.ofWord?, small]

theorem stepWith_jumpReg {rs : Reg} (fetch : code[m.pc.toNat]? = some (.jumpReg rs)) :
    stepWith prover code m =
      match Pc.ofWord? (m.regs rs) with
      | none => .error (.invalidJump (m.regs rs))
      | some target =>
          .ok (⟨m.pc, target, .jumpReg rs, some ⟨rs, m.regs rs⟩, none, none, .noOp⟩,
            { m with pc := target }) := by
  unfold stepWith
  rw [fetch]
  cases jump : Pc.ofWord? (m.regs rs) <;>
    simp [Ir.rowSpec, lookupOutput, access, nextPc, RowSpec.leftInput, RowSpec.rightInput,
      RowFlags.intersects_mask_union, AluOp.evaluate, Width.canonical, jump]

theorem stepWith_branch {op : AluOp} {rs1 rs2 : Reg} {target : Pc}
    (fetch : code[m.pc.toNat]? = some (.branch op rs1 rs2 target)) :
    stepWith prover code m =
      let next := if op.evaluate (m.regs rs1) (m.regs rs2) = 1 then target else m.pc + 1
      .ok (⟨m.pc, next, .branch op rs1 rs2 target, some ⟨rs1, m.regs rs1⟩,
          some ⟨rs2, m.regs rs2⟩, none, .noOp⟩, { m with pc := next }) := by
  unfold stepWith
  rw [fetch]
  by_cases taken : op.evaluate (m.regs rs1) (m.regs rs2) = 1#64 <;>
    cases mode : op.operandMode <;>
    simp [Ir.rowSpec, operandFlags, mode, lookupOutput, access, nextPc, RowSpec.leftInput,
      RowSpec.rightInput, RowFlags.intersects_mask_union, taken]

end Steps

end Machine

end JoltWasm
