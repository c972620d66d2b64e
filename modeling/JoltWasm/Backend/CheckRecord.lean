import JoltWasm.Backend.Step
import JoltWasm.Lib.Keeps

/-!
# The constraint form of a record

`checkRecord` restates the row constraints on a record's values.  The machine's records pass it.
-/

namespace JoltWasm

open Lib

/-- A record column that disagrees with the row constraints. -/
inductive RowViolation where
  | registerReads (pc : Pc) (expected actual : Option Reg × Option Reg)
  | registerWrite (pc : Pc) (expected actual : Option Reg)
  | notBoolean (pc : Pc) (op : AluOp)
  | assert (pc : Pc) (output : U64)
  | rdWrite (pc : Pc) (expected actual : U64)
  | ram (pc : Pc) (ram : RamAccess)
  | nextPc (pc expected actual : Pc)
  | invalidJump (target : U64) (pc : Pc)
  deriving DecidableEq

namespace Record

/-- The value of the record's `rs1` read, zero when it reads none. -/
def rs1Value (record : Record) : U64 := (record.rs1.map RegisterRead.value).getD 0

def rs2Value (record : Record) : U64 := (record.rs2.map RegisterRead.value).getD 0

/-- The value the record writes, zero when it writes none. -/
def rdWrite (record : Record) : U64 := (record.rd.map RegisterWrite.postValue).getD 0

def rdPre (record : Record) : U64 := (record.rd.map RegisterWrite.preValue).getD 0

end Record

/-- Whether the record's RAM access is the one of its row. -/
def ramMatches (flags : RowFlags) (address rs2Value rdWrite : U64) : RamAccess → Bool
  | .read at_ value => flags.has .load && at_ == address && value == rdWrite
  | .write at_ _ postValue => flags.has .store && at_ == address && postValue == rs2Value
  | .noOp => !flags.intersects ((RowFlags.mask .load).union (.mask .store))

/-- The pc after a row, from its lookup output. -/
def expectedNext (pc : Pc) (spec : RowSpec) (output : U64) : Except RowViolation Pc :=
  if spec.flags.has .halt then .ok pc
  else if spec.flags.has .jump then
    match Pc.ofWord? output with
    | some target => .ok target
    | none => .error (.invalidJump output pc)
  else if spec.flags.has .branch && output == 1 then .ok (spec.imm.setWidth 32)
  else .ok (pc + 1)

/-- Whether an assert or branch row looks up a table that is not boolean. -/
def nonBooleanTest (spec : RowSpec) : Option AluOp :=
  match spec.lookup with
  | some (.table op) =>
      if spec.flags.intersects ((RowFlags.mask .assert).union (.mask .branch)) && !op.isBoolean then
        some op
      else none
  | _ => none

/-- Check one record against its row's constraints; returns the first violated one. -/
def checkRecord (record : Record) : Except RowViolation Unit := do
  let pc := record.pc
  let spec := record.instruction.rowSpec
  let reads := (record.rs1.map RegisterRead.register, record.rs2.map RegisterRead.register)
  if reads ≠ (spec.rs1, spec.rs2) then .error (.registerReads pc (spec.rs1, spec.rs2) reads)
  let rd := record.rd.map RegisterWrite.register
  if rd ≠ spec.rd then .error (.registerWrite pc spec.rd rd)
  match nonBooleanTest spec with
  | some op => .error (.notBoolean pc op)
  | none => pure ()
  let left := spec.leftInput record.rs1Value
  let right := spec.rightInput record.rs2Value
  let output := spec.output left right record.rdWrite
  if spec.flags.has .assert && output != 1 then .error (.assert pc output)
  if spec.flags.has .writeLookupToRd && record.rdWrite != output then
    .error (.rdWrite pc output record.rdWrite)
  if !ramMatches spec.flags (record.rs1Value + spec.imm) record.rs2Value record.rdWrite record.ram
  then .error (.ram pc record.ram)
  let expected ← expectedNext pc spec output
  if record.nextPc ≠ expected then .error (.nextPc pc expected record.nextPc)

/-- The checks of a record, one by one. -/
structure RecordHolds (record : Record) (spec : RowSpec) (output : U64) : Prop where
  rs1 : record.rs1.map RegisterRead.register = spec.rs1
  rs2 : record.rs2.map RegisterRead.register = spec.rs2
  rd : record.rd.map RegisterWrite.register = spec.rd
  boolean : nonBooleanTest spec = none
  value : spec.output (spec.leftInput record.rs1Value) (spec.rightInput record.rs2Value)
    record.rdWrite = output
  assert : spec.flags.has .assert = true → output = 1
  write : spec.flags.has .writeLookupToRd = true → record.rdWrite = output
  ram : ramMatches spec.flags (record.rs1Value + spec.imm) record.rs2Value record.rdWrite
    record.ram = true
  next : expectedNext record.pc spec output = .ok record.nextPc

theorem checkRecord_ok {record : Record} {output : U64}
    (holds : RecordHolds record record.instruction.rowSpec output) : checkRecord record = .ok () := by
  obtain ⟨rs1, rs2, rd, boolean, value, assert, write, ram, next⟩ := holds
  have assertOk : (record.instruction.rowSpec.flags.has .assert && output != 1) = false := by
    cases on : record.instruction.rowSpec.flags.has .assert with
    | false => rfl
    | true => simp [assert on]
  have writeOk : (record.instruction.rowSpec.flags.has .writeLookupToRd &&
      record.rdWrite != output) = false := by
    cases on : record.instruction.rowSpec.flags.has .writeLookupToRd with
    | false => rfl
    | true => simp [write on]
  unfold checkRecord
  simp only [rs1, rs2, rd, boolean, value, assertOk, writeOk, ram, next, ne_eq, not_true,
    Bool.not_true, Bool.false_eq_true, if_false]
  change (if ¬record.nextPc = record.nextPc then _ else Except.ok ()) = _
  rw [if_neg (not_not.mpr rfl)]

/-- The lookup output the check computes. -/
def Record.output (record : Record) : U64 :=
  let spec := record.instruction.rowSpec
  spec.output (spec.leftInput record.rs1Value) (spec.rightInput record.rs2Value) record.rdWrite

/-- The record check passes exactly when every check holds. -/
theorem checkRecord_ok_iff {record : Record} : checkRecord record = .ok () ↔
    RecordHolds record record.instruction.rowSpec record.output := by
  refine ⟨?_, checkRecord_ok⟩
  unfold checkRecord
  extract_lets pc spec reads rd left right output nextCheck ramCheck writeCheck assertCheck
    booleanCheck rdCheck
  intro checked
  obtain ⟨readsOk, checked⟩ := except_check_eq_ok.mp checked
  obtain ⟨rdOk, checked⟩ := except_check_eq_ok.mp checked
  cases boolean : nonBooleanTest spec with
  | some op =>
      simp only [booleanCheck, boolean] at checked
      cases checked
  | none =>
      simp only [booleanCheck, boolean] at checked
      obtain ⟨assertOk, checked⟩ := except_check_eq_ok.mp checked
      obtain ⟨writeOk, checked⟩ := except_check_eq_ok.mp checked
      obtain ⟨ramOk, checked⟩ := except_check_eq_ok.mp checked
      obtain ⟨expected, next, checked⟩ := except_bind_eq_ok.mp checked
      obtain ⟨rs1Ok, rs2Ok⟩ := Prod.mk.inj (not_not.mp readsOk)
      have same : record.nextPc = expected := by
        by_contra other
        rw [if_pos other] at checked
        cases checked
      refine ⟨rs1Ok, rs2Ok, not_not.mp rdOk, boolean, rfl, fun on => ?_, fun on => ?_, ?_, ?_⟩
      · change output = 1
        simpa [on, spec] using assertOk
      · change record.rdWrite = output
        simpa [on, spec] using writeOk
      · simpa using ramOk
      · exact same ▸ next

namespace Machine

variable {prover : Prover} {code : List Ir} {m : Machine} {instruction : Ir} {record : Record}
  {next : Machine}

/-- The machine's record of a well-formed row passes the check. -/
theorem recordHolds_of_step (fetch : code[m.pc.toNat]? = some instruction)
    (wellFormed : instruction ≠ .halt → instruction.isWellFormed = true)
    (step : stepWith prover code m = .ok (record, next)) :
    record.instruction = instruction ∧ ∃ output, RecordHolds record instruction.rowSpec output := by
  cases instruction with
  | nop =>
      rw [stepWith_nop prover fetch] at step
      cases step
      refine ⟨rfl, 0, ?_⟩
      constructor <;> simp [Ir.rowSpec, nonBooleanTest, RowSpec.output, ramMatches,
        RowFlags.intersects_mask_union, expectedNext]
  | halt =>
      rw [stepWith_halt prover fetch] at step
      cases step
      refine ⟨rfl, 0, ?_⟩
      constructor <;> simp [Ir.rowSpec, nonBooleanTest, RowSpec.output, ramMatches,
        RowFlags.intersects_mask_union, expectedNext]
  | trap =>
      rw [stepWith_trap prover fetch] at step
      cases step
  | alu op rd rs1 rs2 =>
      have nonzero : rd ≠ Reg.zero := of_decide_eq_true (wellFormed (by simp))
      rw [stepWith_alu prover fetch] at step
      cases step
      refine ⟨rfl, op.evaluate (m.regs rs1) (rs2.value m.regs), ?_⟩
      cases rs2 <;> constructor <;> simp [Ir.rowSpec, rightOperand, nonBooleanTest, RowSpec.output,
        RowSpec.leftInput, RowSpec.rightInput, ramMatches, RowFlags.intersects_mask_union,
        expectedNext, Operand.read, Operand.value, write_eq, nonzero, Record.rs1Value,
        Record.rs2Value, Record.rdWrite]
  | advice hint rd rs1 rs2 =>
      have nonzero : rd ≠ Reg.zero := of_decide_eq_true (wellFormed (by simp))
      rw [stepWith_advice prover fetch] at step
      cases step
      refine ⟨rfl, prover hint (m.regs rs1) (m.regs rs2), ?_⟩
      constructor <;> simp [Ir.rowSpec, nonBooleanTest, RowSpec.output, ramMatches,
        RowFlags.intersects_mask_union, expectedNext, write_eq, nonzero, Record.rdWrite]
  | assert op failure rs1 rs2 =>
      rw [stepWith_assert prover fetch] at step
      split at step
      · rename_i holds
        cases step
        refine ⟨rfl, 1, ?_⟩
        have boolean : op.isBoolean = true := wellFormed (by simp)
        cases rs2 <;> rw [Operand.value] at holds <;> constructor <;>
          simp [Ir.rowSpec, rightOperand, nonBooleanTest, RowSpec.output, RowSpec.leftInput,
            RowSpec.rightInput, ramMatches, RowFlags.intersects_mask_union, expectedNext,
            Operand.read, Record.rs1Value, Record.rs2Value, boolean, holds]
      · cases step
  | load rd base offset =>
      have nonzero : rd ≠ Reg.zero := of_decide_eq_true (wellFormed (by simp))
      rw [stepWith_load prover fetch] at step
      split at step
      · cases step
      · cases step
        refine ⟨rfl, 0, ?_⟩
        constructor <;> simp [Ir.rowSpec, nonBooleanTest, RowSpec.output, ramMatches, expectedNext,
          write_eq, nonzero, Record.rs1Value, Record.rdWrite]
  | store base value offset =>
      rw [stepWith_store prover fetch] at step
      split at step
      · cases step
      · cases step
        refine ⟨rfl, 0, ?_⟩
        constructor <;> simp [Ir.rowSpec, nonBooleanTest, RowSpec.output, ramMatches, expectedNext,
          Record.rs1Value, Record.rs2Value]
  | jump target =>
      have small : target.toNat % 18446744073709551616 < 4294967296 := by
        have := target.isLt
        omega
      rw [stepWith_jump prover fetch] at step
      cases step
      refine ⟨rfl, target.setWidth 64, ?_⟩
      constructor <;> simp [Ir.rowSpec, nonBooleanTest, RowSpec.output, RowSpec.leftInput,
        RowSpec.rightInput, ramMatches, RowFlags.intersects_mask_union, expectedNext, Pc.ofWord?,
        small]
  | jumpReg rs =>
      rw [stepWith_jumpReg prover fetch] at step
      cases target : Pc.ofWord? (m.regs rs) with
      | none =>
          rw [target] at step
          cases step
      | some pc =>
          rw [target] at step
          cases step
          refine ⟨rfl, m.regs rs, ?_⟩
          constructor <;> simp [Ir.rowSpec, nonBooleanTest, RowSpec.output, RowSpec.leftInput,
            RowSpec.rightInput, ramMatches, RowFlags.intersects_mask_union, expectedNext,
            Record.rs1Value, target]
  | branch op rs1 rs2 target =>
      rw [stepWith_branch prover fetch] at step
      cases step
      refine ⟨rfl, op.evaluate (m.regs rs1) (m.regs rs2), ?_⟩
      have boolean : op.isBoolean = true := wellFormed (by simp)
      by_cases taken : op.evaluate (m.regs rs1) (m.regs rs2) = 1#64 <;> constructor <;>
        simp [Ir.rowSpec, nonBooleanTest, RowSpec.output, RowSpec.leftInput, RowSpec.rightInput,
          ramMatches, RowFlags.intersects_mask_union, expectedNext, Record.rs1Value,
          Record.rs2Value, boolean, taken]

theorem checkRecord_of_step (fetch : code[m.pc.toNat]? = some instruction)
    (wellFormed : instruction ≠ .halt → instruction.isWellFormed = true)
    (step : stepWith prover code m = .ok (record, next)) : checkRecord record = .ok () := by
  obtain ⟨rfl, output, holds⟩ := recordHolds_of_step fetch wellFormed step
  exact checkRecord_ok holds

end Machine

end JoltWasm
