import JoltWasm.Backend.Run

/-!
# What a step leaves

The record of a step tells the state after it from the one before: one register at most, one word at most, the pc.
-/

namespace JoltWasm

/-- The memory after an access. -/
def RamAccess.Leads (m next : Memory) : RamAccess → Prop
  | .read address value => m.readWord address = .ok value ∧ next = m
  | .write address preValue postValue => m.writeWord address postValue = .ok (preValue, next)
  | .noOp => next = m

namespace Machine

/-- The registers after a write. -/
def written (regs : Reg → U64) : Option RegisterWrite → Reg → U64
  | some write => Function.update regs write.register write.postValue
  | none => regs

/-- A record tells the next state. -/
structure Effects (m : Machine) (record : Record) (next : Machine) : Prop where
  rd : record.rd.map RegisterWrite.register = record.instruction.rowSpec.rd
  regs : next.regs = written m.regs record.rd
  ram : record.ram.Leads m.memory next.memory
  store : ∀ address preValue postValue, record.ram = .write address preValue postValue →
    ∃ base value offset, record.instruction = .store base value offset ∧ address = m.regs base + offset ∧
      postValue = m.regs value

theorem effects_of_step {prover : Prover} {code : List Ir} {m next : Machine} {record : Record}
    (step : stepWith prover code m = .ok (record, next)) : Effects m record next := by
  have fetch := (stepWith_ok step).1
  generalize same : record.instruction = instruction at fetch
  cases instruction with
  | nop =>
      rw [stepWith_nop prover fetch] at step
      cases step
      exact ⟨rfl, rfl, rfl, nofun⟩
  | halt =>
      rw [stepWith_halt prover fetch] at step
      cases step
      exact ⟨rfl, rfl, rfl, nofun⟩
  | trap =>
      rw [stepWith_trap prover fetch] at step
      cases step
  | alu op rd rs1 rs2 =>
      rw [stepWith_alu prover fetch] at step
      cases step
      exact ⟨rfl, rfl, rfl, nofun⟩
  | advice hint rd rs1 rs2 =>
      rw [stepWith_advice prover fetch] at step
      cases step
      exact ⟨rfl, rfl, rfl, nofun⟩
  | assert op failure rs1 rs2 =>
      rw [stepWith_assert prover fetch] at step
      split at step
      · cases step
        exact ⟨rfl, rfl, rfl, nofun⟩
      · cases step
  | load rd base offset =>
      rw [stepWith_load prover fetch] at step
      split at step
      · cases step
      · next value read =>
          cases step
          exact ⟨rfl, rfl, ⟨read, rfl⟩, nofun⟩
  | store base value offset =>
      rw [stepWith_store prover fetch] at step
      split at step
      · cases step
      · next previous memory stored =>
          cases step
          refine ⟨rfl, rfl, stored, ?_⟩
          rintro _ _ _ ⟨⟩
          exact ⟨base, value, offset, rfl, rfl, rfl⟩
  | jump target =>
      rw [stepWith_jump prover fetch] at step
      cases step
      exact ⟨rfl, rfl, rfl, nofun⟩
  | jumpReg rs =>
      rw [stepWith_jumpReg prover fetch] at step
      split at step
      · cases step
      · cases step
        exact ⟨rfl, rfl, rfl, nofun⟩
  | branch op rs1 rs2 target =>
      rw [stepWith_branch prover fetch] at step
      cases step
      exact ⟨rfl, rfl, rfl, nofun⟩

/-- A record holds what its registers hold before the step. -/
structure Reads (m : Machine) (record : Record) : Prop where
  rs1 : ∀ read, record.rs1 = some read → read.value = m.regs read.register
  rs2 : ∀ read, record.rs2 = some read → read.value = m.regs read.register
  rd : ∀ write, record.rd = some write → write.preValue = m.regs write.register

theorem reads_of_step {prover : Prover} {code : List Ir} {m next : Machine} {record : Record}
    (step : stepWith prover code m = .ok (record, next)) : Reads m record := by
  have fetch := (stepWith_ok step).1
  generalize same : record.instruction = instruction at fetch
  have operand (rs2 : Operand) (read : RegisterRead) (found : rs2.read m.regs = some read) :
      read.value = m.regs read.register := by
    cases rs2 with
    | imm v => cases found
    | reg r =>
        cases found
        rfl
  cases instruction with
  | nop =>
      rw [stepWith_nop prover fetch] at step
      cases step
      constructor <;> rintro _ ⟨⟩
  | halt =>
      rw [stepWith_halt prover fetch] at step
      cases step
      constructor <;> rintro _ ⟨⟩
  | trap =>
      rw [stepWith_trap prover fetch] at step
      cases step
  | alu op rd rs1 rs2 =>
      rw [stepWith_alu prover fetch] at step
      cases step
      refine ⟨?_, operand rs2, ?_⟩ <;> rintro _ ⟨⟩ <;> rfl
  | advice hint rd rs1 rs2 =>
      rw [stepWith_advice prover fetch] at step
      cases step
      constructor <;> rintro _ ⟨⟩ <;> rfl
  | assert op failure rs1 rs2 =>
      rw [stepWith_assert prover fetch] at step
      split at step
      · cases step
        refine ⟨?_, operand rs2, ?_⟩ <;> rintro _ ⟨⟩
        rfl
      · cases step
  | load rd base offset =>
      rw [stepWith_load prover fetch] at step
      split at step
      · cases step
      · cases step
        constructor <;> rintro _ ⟨⟩ <;> rfl
  | store base value offset =>
      rw [stepWith_store prover fetch] at step
      split at step
      · cases step
      · cases step
        constructor <;> rintro _ ⟨⟩ <;> rfl
  | jump target =>
      rw [stepWith_jump prover fetch] at step
      cases step
      constructor <;> rintro _ ⟨⟩
  | jumpReg rs =>
      rw [stepWith_jumpReg prover fetch] at step
      split at step
      · cases step
      · cases step
        constructor <;> rintro _ ⟨⟩
        rfl
  | branch op rs1 rs2 target =>
      rw [stepWith_branch prover fetch] at step
      cases step
      constructor <;> rintro _ ⟨⟩ <;> rfl

end Machine

end JoltWasm
