import JoltWasm.Program.Completeness

/-!
# The executable spec

The record check against the constraints, on every record that has a trace row.
-/

namespace JoltWasm

open Lib

/-- The byte address of an access, zero when there is none. -/
def RamAccess.address : RamAccess → U64
  | read address _ => address
  | write address _ _ => address
  | noOp => 0

namespace Record

/-- The instruction inputs of the record's row. -/
def leftInput (record : Record) : U64 := record.instruction.rowSpec.leftInput record.rs1Value

def rightInput (record : Record) : U64 := record.instruction.rowSpec.rightInput record.rs2Value

/-- The next pc is the pc after. -/
def Continues (record : Record) : Prop := record.nextPc.toNat = record.pc.toNat + 1

/-- The pc is the last one and the next pc is zero. -/
def Wraps (record : Record) : Prop := record.pc.toNat + 1 = 2 ^ 32 ∧ record.nextPc = 0

/-- The records on which the check and the constraints part. -/
def Parts (record : Record) : Prop :=
  match record.instruction with
  | .nop | .trap | .advice .. => record.Wraps
  | .halt | .jump _ | .jumpReg _ => False
  | .alu op .. =>
      record.Continues ∧ ¬(record.rdWrite = op.evaluate record.leftInput record.rightInput ↔
          record.rdWrite = tableOutput op record.leftInput record.rightInput) ∨
        record.Wraps ∧ record.rdWrite = op.evaluate record.leftInput record.rightInput
  | .assert op .. =>
      if op.isBoolean then
        record.Wraps ∧ op.evaluate record.leftInput record.rightInput = 1
      else record.Continues ∧ tableOutput op record.leftInput record.rightInput = 1
  | .load _ _ offset | .store _ _ offset =>
      record.ram.address = record.rs1Value + offset ∧
        (record.Wraps ∨ record.Continues ∧ ¬SumFits record.rs1Value offset)
  | .branch op _ _ target =>
      if op.isBoolean then
        record.Wraps ∧ op.evaluate record.leftInput record.rightInput ≠ 1
      else
        tableOutput op record.leftInput record.rightInput = 1 ∧ record.nextPc = target ∨
          tableOutput op record.leftInput record.rightInput = 0 ∧ record.Continues

end Record

/-! ## The two sides -/

/-- A record whose registers are its row's, and the columns of its trace row. -/
structure Converted (row : WasmTraceRow) (record : Record) (spec : RowSpec) : Prop where
  registers : record.rs1.map RegisterRead.register = spec.rs1 ∧
    record.rs2.map RegisterRead.register = spec.rs2 ∧
    record.rd.map RegisterWrite.register = spec.rd
  static : row.bytecodeRow = BytecodeRow.fromSpec spec
  pc : row.pc = record.pc
  nextPc : row.nextPc = record.nextPc
  rs1 : row.rs1Value = record.rs1Value
  rs2 : row.rs2Value = record.rs2Value
  rd : row.rdWriteValue = record.rdWrite
  address : row.ramAddress = record.ram.address
  ram : ramMatches spec.flags record.ram.address record.rs2Value record.rdWrite record.ram = true

theorem slotsOf_converted {record : Record} {spec : RowSpec} {slots : Slots}
    (classified : record.instruction.rowSpec = spec) (shaped : spec.Shaped)
    (rs1 : record.rs1.map RegisterRead.register = spec.rs1)
    (rs2 : record.rs2.map RegisterRead.register = spec.rs2)
    (rd : record.rd.map RegisterWrite.register = spec.rd)
    (found : WasmTraceRow.slotsOf record = .ok slots) :
    Converted (.fromParts spec record.pc record.nextPc slots) record spec := by
  unfold WasmTraceRow.slotsOf at found
  rw [classified] at found
  cases load : spec.flags.has .load with
  | true =>
      obtain ⟨noStore, noRs2⟩ := shaped.loadStore load
      have zero : record.rs2Value = 0 := by
        rw [noRs2, Option.map_eq_none_iff] at rs2
        simp [Record.rs2Value, rs2]
      cases access : record.ram with
      | read address value =>
          simp only [load, access, if_true] at found
          split_ifs at found with same
          cases found
          constructor <;> simp [*, WasmTraceRow.fromParts, WasmTraceRow.bytecodeRow,
            BytecodeRow.fromSpec, WasmTraceRow.rs1Value, WasmTraceRow.rs2Value,
            WasmTraceRow.rdWriteValue, WasmTraceRow.ramAddress, WasmTraceRow.isLoad,
            WasmTraceRow.isStore, RamAccess.address, ramMatches, not_not.mp same]
      | _ => simp [load, access] at found
  | false =>
      cases store : spec.flags.has .store with
      | true =>
          have zero : record.rdWrite = 0 := by
            rw [shaped.storeWrite store, Option.map_eq_none_iff] at rd
            simp [Record.rdWrite, rd]
          cases access : record.ram with
          | write address preValue postValue =>
              simp only [load, store, access, Bool.false_eq_true, if_true, if_false] at found
              split_ifs at found with same
              cases found
              constructor <;> simp [*, WasmTraceRow.fromParts, WasmTraceRow.bytecodeRow,
                BytecodeRow.fromSpec, WasmTraceRow.rs1Value, WasmTraceRow.rs2Value,
                WasmTraceRow.rdWriteValue, WasmTraceRow.ramAddress, WasmTraceRow.isLoad,
                WasmTraceRow.isStore, RamAccess.address, ramMatches, not_not.mp same]
          | _ => simp [load, store, access] at found
      | false =>
          cases access : record.ram with
          | noOp =>
              simp [load, store, access] at found
              cases found
              constructor <;> simp [*, WasmTraceRow.fromParts, WasmTraceRow.bytecodeRow,
                BytecodeRow.fromSpec, WasmTraceRow.rs1Value, WasmTraceRow.rs2Value,
                WasmTraceRow.rdWriteValue, WasmTraceRow.ramAddress, WasmTraceRow.isLoad,
                WasmTraceRow.isStore, RamAccess.address, ramMatches,
                RowFlags.intersects_mask_union]
          | _ => simp [load, store, access] at found

/-- The trace row of a record holds its values. -/
theorem converted_of_fromRecord {record : Record} {row : WasmTraceRow}
    (converts : WasmTraceRow.fromRecord record = .ok row) :
    Converted row record record.instruction.rowSpec := by
  unfold WasmTraceRow.fromRecord at converts
  obtain ⟨same, converts⟩ := except_check_eq_ok.mp converts
  obtain ⟨slots, found, converts⟩ := except_bind_eq_ok.mp converts
  cases converts
  obtain ⟨rs1, rest⟩ := Prod.mk.inj (not_not.mp same)
  obtain ⟨rs2, rd⟩ := Prod.mk.inj rest
  exact slotsOf_converted rfl (Ir.rowSpec_shaped _) rs1 rs2 rd found

variable {row : WasmTraceRow} {record : Record} {spec : RowSpec}

/-- An access that matches its row at its own address matches at another one only when the row has
no access or the addresses are equal. -/
theorem ramMatches_iff {flags : RowFlags} {access : RamAccess} {address rs2Value rdWrite : U64}
    (own : ramMatches flags access.address rs2Value rdWrite access = true) :
    ramMatches flags address rs2Value rdWrite access = true ↔
      (flags.has .load = true ∨ flags.has .store = true → access.address = address) := by
  cases access with
  | noOp =>
      simp only [ramMatches, RowFlags.intersects_mask_union, Bool.not_eq_true',
        Bool.or_eq_false_iff] at own
      simp [ramMatches, RowFlags.intersects_mask_union, own]
  | read at_ value =>
      simp only [ramMatches, RamAccess.address, Bool.and_eq_true, beq_iff_eq] at own
      simp [ramMatches, RamAccess.address, own]
  | write at_ preValue postValue =>
      simp only [ramMatches, RamAccess.address, Bool.and_eq_true, beq_iff_eq] at own
      simp [ramMatches, RamAccess.address, own]

/-- The check of a converted record, by what its registers and slots leave open. -/
theorem checkRecord_iff (converted : Converted row record record.instruction.rowSpec)
    (spec_ : record.instruction.rowSpec = spec) : checkRecord record = .ok () ↔
      nonBooleanTest spec = none ∧ (spec.flags.has .assert = true → record.output = 1) ∧
      (spec.flags.has .writeLookupToRd = true → record.rdWrite = record.output) ∧
      (spec.flags.has .load = true ∨ spec.flags.has .store = true →
        record.ram.address = record.rs1Value + spec.imm) ∧
      expectedNext record.pc spec record.output = .ok record.nextPc := by
  obtain ⟨⟨rs1, rs2, rd⟩, -, -, -, -, -, -, -, ram⟩ := converted
  rw [checkRecord_ok_iff]
  subst spec_
  constructor
  · rintro ⟨-, -, -, boolean, -, assert, write, access, next⟩
    exact ⟨boolean, assert, write, (ramMatches_iff ram).mp access, next⟩
  · rintro ⟨boolean, assert, write, access, next⟩
    exact ⟨rs1, rs2, rd, boolean, rfl, assert, write, (ramMatches_iff ram).mpr access, next⟩

/-- The lookup output the constraints see. -/
def Record.entry (record : Record) : U64 :=
  match record.instruction.rowSpec.lookup with
  | some (.table op) => tableOutput op record.leftInput record.rightInput
  | some (.advice _) => record.rdWrite
  | none => 0

theorem lookupOutput_eq_entry (converted : Converted row record record.instruction.rowSpec) :
    row.lookupOutput = record.entry := by
  unfold WasmTraceRow.lookupOutput WasmTraceRow.tableOp WasmTraceRow.lookupIndex Record.entry
  rw [lookup_eq converted.static]
  cases record.instruction.rowSpec.lookup with
  | none => rfl
  | some found =>
      cases found with
      | table op =>
          rw [leftInput_eq converted.static converted.rs1,
            rightInput_eq converted.static converted.rs2]
          rfl
      | advice hint =>
          rw [converted.rd]
          change WasmTable.materializeEntry .rangeCheck (record.rdWrite.setWidth 128) = _
          rw [rangeCheck_entry]
          simp

/-- An address is the wrapping sum and the sum fits exactly when it is the integer sum. -/
theorem address_eq_iff {base offset address : U64} :
    (address.toNat : ℤ) = base.toNat + offset.toInt ↔
      address = base + offset ∧ SumFits base offset := by
  constructor
  · intro sum
    have fits : SumFits base offset := by
      have small := address.isLt
      exact ⟨by omega, by omega⟩
    refine ⟨BitVec.eq_of_toNat_eq ?_, fits⟩
    have exact_ := toNat_address fits
    omega
  · rintro ⟨rfl, fits⟩
    exact toNat_address fits

/-- The constraints on the witness of a converted record, in its own values. -/
theorem satisfies_cycleWitness_iff {F : Type*} [WideField F]
    (converted : Converted row record record.instruction.rowSpec)
    (spec_ : record.instruction.rowSpec = spec) :
    Satisfies (cycleWitness row : Column → F) ↔
      (spec.flags.has .assert = true → record.entry = 1) ∧
      (spec.flags.has .writeLookupToRd = true → record.rdWrite = record.entry) ∧
      (spec.flags.has .load = true ∨ spec.flags.has .store = true →
        record.ram.address = record.rs1Value + spec.imm ∧ SumFits record.rs1Value spec.imm) ∧
      (spec.flags.has .branch = true → record.entry = 0 ∨ record.entry = 1) ∧
      (spec.flags.has .jump = true → record.nextPc.toNat = record.entry.toNat) ∧
      (spec.flags.has .branch = true → record.entry = 1 →
        record.nextPc.toNat = spec.imm.toNat) ∧
      (spec.flags.has .halt = true → record.nextPc = record.pc) ∧
      (spec.flags.has .halt = false → spec.flags.has .jump = false →
        (spec.flags.has .branch && record.entry == 1) = false → record.Continues) := by
  have shaped := record.instruction.rowSpec_shaped
  subst spec_
  have holds : Satisfies (cycleWitness row : Column → F) ↔ RowHolds row :=
    (satisfies_iff _).trans ⟨rowHolds_of_equations converted.static shaped,
      equations_of_rowHolds converted.static shaped⟩
  have address (memory : record.instruction.rowSpec.flags.has .load = true ∨
      record.instruction.rowSpec.flags.has .store = true) :
      (row.ramAddress.toNat : ℤ) = row.rs1Value.toNat + row.immSigned ↔
        record.ram.address = record.rs1Value + record.instruction.rowSpec.imm ∧
          SumFits record.rs1Value record.instruction.rowSpec.imm := by
    rw [converted.address, converted.rs1, immSigned_memory converted.static memory, address_eq_iff]
  rw [holds, ← lookupOutput_eq_entry converted, Record.Continues, ← converted.pc,
    ← converted.nextPc, ← converted.rd, ← flags_eq converted.static, ← imm_eq converted.static]
  rw [← flags_eq converted.static, ← imm_eq converted.static] at address
  constructor
  · rintro ⟨assert, write, sum, bit, jump, branch, halt, next⟩
    exact ⟨assert, write, fun memory => (address memory).mp (sum memory), bit, jump, branch, halt,
      next⟩
  · rintro ⟨assert, write, sum, bit, jump, branch, halt, next⟩
    exact ⟨assert, write, fun memory => (address memory).mpr (sum memory), bit, jump, branch, halt,
      next⟩

namespace Record

theorem next_iff (record : Record) :
    record.pc + 1 = record.nextPc ↔ record.Continues ∨ record.Wraps := by
  have pcBound := record.pc.isLt
  have nextBound := record.nextPc.isLt
  have sum : (record.pc + 1).toNat = (record.pc.toNat + 1) % 2 ^ 32 := BitVec.toNat_add ..
  unfold Continues Wraps
  constructor
  · intro next
    rw [next] at sum
    by_cases last : record.pc.toNat + 1 = 2 ^ 32
    · exact .inr ⟨last, BitVec.eq_of_toNat_eq (by
        rw [sum, last]
        rfl)⟩
    · exact .inl (by omega)
  · rintro (next | ⟨last, zero⟩)
    · exact BitVec.eq_of_toNat_eq (by omega)
    · rw [zero]
      exact BitVec.eq_of_toNat_eq (by
        rw [sum, last]
        rfl)

theorem not_continues_of_wraps {record : Record} (wraps : record.Wraps) : ¬ record.Continues := by
  have nextBound := record.nextPc.isLt
  unfold Continues
  rw [wraps.1]
  omega

end Record

/-- A jump output is the next pc exactly when it is its value. -/
theorem jump_iff {pc nextPc : Pc} {output : U64} :
    (match Pc.ofWord? output with
      | some target => .ok target
      | none => .error (.invalidJump output pc)) = (.ok nextPc : Except RowViolation Pc) ↔
      nextPc.toNat = output.toNat := by
  have nextBound := nextPc.isLt
  unfold Pc.ofWord?
  by_cases small : output.toNat < 2 ^ 32
  · rw [if_pos small]
    constructor
    · intro found
      rw [← Except.ok.inj found, BitVec.toNat_setWidth, Nat.mod_eq_of_lt small]
    · intro same
      refine congrArg Except.ok (BitVec.eq_of_toNat_eq ?_)
      rw [BitVec.toNat_setWidth, Nat.mod_eq_of_lt small, same]
  · rw [if_neg small]
    exact ⟨nofun, fun same => absurd (same ▸ nextBound) small⟩

/-- The values of a row that looks up a table. -/
theorem Record.values_of_table (record : Record) (op : AluOp)
    (table : record.instruction.rowSpec.lookup = some (.table op)) :
    record.output = op.evaluate record.leftInput record.rightInput ∧
      record.entry = tableOutput op record.leftInput record.rightInput := by
  unfold Record.output Record.entry
  simp only [RowSpec.output, table]
  exact ⟨rfl, trivial⟩

/-- The table of a boolean op holds the op's value. -/
theorem tableOutput_of_boolean {op : AluOp} (boolean : op.isBoolean = true) (x y : U64) :
    tableOutput op x y = op.evaluate x y := by
  refine tableOutput_eq_evaluate op x y fun reads => ?_
  rw [readsBitmask_of_boolean boolean] at reads
  cases reads

/-- On a record that has a trace row, the check and the constraints agree exactly when the record
does not part them. -/
theorem checkRecord_iff_satisfies {F : Type*} [WideField F]
    (converts : WasmTraceRow.fromRecord record = .ok row) :
    (checkRecord record = .ok () ↔ Satisfies (cycleWitness row : Column → F)) ↔
      ¬ record.Parts := by
  have converted := converted_of_fromRecord converts
  rw [checkRecord_iff converted rfl, satisfies_cycleWitness_iff converted rfl]
  have next := record.next_iff
  have disjoint : ¬(record.Wraps ∧ record.Continues) := fun both =>
    Record.not_continues_of_wraps both.1 both.2
  unfold Record.Parts
  clear converted converts
  cases shape : record.instruction with
  | nop | trap =>
      simp [Ir.rowSpec, nonBooleanTest, expectedNext]
      tauto
  | halt => simp [Ir.rowSpec, nonBooleanTest, expectedNext, eq_comm]
  | alu op rd rs1 rs2 =>
      obtain ⟨output, entry⟩ := record.values_of_table op (by rw [shape, Ir.rowSpec])
      rw [output, entry]
      cases rs2 <;> simp [Ir.rowSpec, rightOperand, nonBooleanTest, expectedNext,
        RowFlags.intersects_mask_union] <;> tauto
  | advice hint rd rs1 rs2 =>
      have output : record.output = record.rdWrite := by
        simp [Record.output, shape, Ir.rowSpec, RowSpec.output]
      have entry : record.entry = record.rdWrite := by
        simp [Record.entry, shape, Ir.rowSpec]
      rw [output, entry]
      simp [Ir.rowSpec, nonBooleanTest, expectedNext]
      tauto
  | assert op failure rs1 rs2 =>
      obtain ⟨output, entry⟩ := record.values_of_table op (by rw [shape, Ir.rowSpec])
      rw [output, entry]
      cases boolean : op.isBoolean with
      | true =>
          rw [tableOutput_of_boolean boolean]
          cases rs2 <;> simp [Ir.rowSpec, rightOperand, nonBooleanTest, expectedNext,
            RowFlags.intersects_mask_union, boolean] <;> tauto
      | false =>
          cases rs2 <;> simp [Ir.rowSpec, rightOperand, nonBooleanTest, expectedNext,
            RowFlags.intersects_mask_union, boolean] <;> tauto
  | load rd base offset =>
      simp [Ir.rowSpec, nonBooleanTest, expectedNext]
      tauto
  | store base value offset =>
      simp [Ir.rowSpec, nonBooleanTest, expectedNext]
      tauto
  | jump target =>
      obtain ⟨output, entry⟩ := record.values_of_table (.add .w64) (by rw [shape, Ir.rowSpec])
      rw [output, entry, tableOutput_eq_evaluate (.add .w64) _ _ fun reads => absurd reads (by decide)]
      simp [Ir.rowSpec, nonBooleanTest, expectedNext, RowFlags.intersects_mask_union]
      exact jump_iff
  | jumpReg rs =>
      obtain ⟨output, entry⟩ := record.values_of_table (.add .w64) (by rw [shape, Ir.rowSpec])
      rw [output, entry, tableOutput_eq_evaluate (.add .w64) _ _ fun reads => absurd reads (by decide)]
      simp [Ir.rowSpec, nonBooleanTest, expectedNext, RowFlags.intersects_mask_union]
      exact jump_iff
  | branch op rs1 rs2 target =>
      obtain ⟨output, entry⟩ := record.values_of_table op (by rw [shape, Ir.rowSpec])
      have target_ : record.nextPc.toNat = target.toNat % 18446744073709551616 ↔
          target = record.nextPc := by
        have small := target.isLt
        rw [Nat.mod_eq_of_lt (by omega), BitVec.toNat_inj, eq_comm]
      rw [output, entry]
      cases boolean : op.isBoolean with
      | true =>
          rw [tableOutput_of_boolean boolean]
          rcases AluOp.evaluate_boolean op boolean record.leftInput record.rightInput with
            value | value
          · simp [Ir.rowSpec, nonBooleanTest, expectedNext, RowFlags.intersects_mask_union, boolean,
              value]
            tauto
          · simp [Ir.rowSpec, nonBooleanTest, expectedNext, RowFlags.intersects_mask_union, boolean,
              value, target_]
      | false =>
          simp [Ir.rowSpec, nonBooleanTest, expectedNext, RowFlags.intersects_mask_union, boolean,
            target_]
          by_cases taken : tableOutput op record.leftInput record.rightInput = 1#64
          · simp [taken, eq_comm]
          · simp [taken]

/-- An addition that both sides accept. -/
def sumRecord : Record :=
  ⟨4, 5, .aluImm (.add .w64) 12 13 5, some ⟨13, 7⟩, none, some ⟨12, 0, 12⟩, .noOp⟩

theorem checkRecord_iff_satisfies_sum : ∃ row, WasmTraceRow.fromRecord sumRecord = .ok row ∧
    (checkRecord sumRecord = .ok () ↔ Satisfies (cycleWitness row : Column → Fr)) := by
  refine ⟨.fromParts sumRecord.instruction.rowSpec 4 5 ⟨7, 0, 0, 12⟩, by decide,
    (checkRecord_iff_satisfies (by decide)).mpr ?_⟩
  rintro (⟨-, other⟩ | ⟨⟨last, -⟩, -⟩)
  · rw [tableOutput_eq_evaluate (.add .w64) _ _ nofun] at other
    exact other Iff.rfl
  · cases last

/-- A load whose base and offset wrap: the check adds them as words. -/
def wrappingRecord : Record :=
  ⟨0, 1, .load 12 13 16, some ⟨13, 18446744073709551608⟩, none, some ⟨12, 0, 7⟩, .read 8 7⟩

/-- The check passes a record that the constraints reject. -/
theorem checkRecord_not_satisfies : ∃ row, WasmTraceRow.fromRecord wrappingRecord = .ok row ∧
    ¬(checkRecord wrappingRecord = .ok () ↔ Satisfies (cycleWitness row : Column → Fr)) := by
  have converts : WasmTraceRow.fromRecord wrappingRecord = .ok (.fromParts
      wrappingRecord.instruction.rowSpec 0 1 ⟨18446744073709551608, 8, 0, 7⟩) := by decide
  refine ⟨_, converts, fun same => ?_⟩
  have holds := rowHolds_of_equations (converted_of_fromRecord converts).static
    (Ir.rowSpec_shaped _) ((satisfies_iff _).mp (same.mp (by decide)))
  have sum := holds.address (.inl (by decide))
  revert sum
  decide

end JoltWasm
