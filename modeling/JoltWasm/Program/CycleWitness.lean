import JoltWasm.Program.TraceRow
import JoltWasm.R1cs.RowSoundness

/-!
# The witness of a cycle

The columns of a trace row, and when they satisfy the constraints.
-/

namespace JoltWasm

section

variable {F : Type*} [Field F]

/-- The row's witness, by column. -/
def cycleWitness (row : WasmTraceRow) : Column → F
  | .const => 1
  | .leftInput => row.leftInput.toNat
  | .rightInput => row.rightInput.toNat
  | .product => (row.leftInput.toNat * row.rightInput.toNat : ℕ)
  | .pc => row.pc.toNat
  | .imm => row.immSigned
  | .ramAddress => row.ramAddress.toNat
  | .rs1Value => row.rs1Value.toNat
  | .rs2Value => row.rs2Value.toNat
  | .rdWriteValue => row.rdWriteValue.toNat
  | .ramReadValue => row.ramReadValue.toNat
  | .ramWriteValue => row.ramWriteValue.toNat
  | .leftLookupOperand => row.lookupOperands.1.toNat
  | .rightLookupOperand => row.lookupOperands.2.toNat
  | .nextPc => row.nextPc.toNat
  | .lookupOutput => row.lookupOutput.toNat
  | .shouldBranch => if row.flags.has .branch && row.lookupOutput == 1 then 1 else 0
  | .flag f => if row.flags.has f then 1 else 0

end

/-- The values on which the field equations are the machine's: a table that reads a bitmask reads one,
and an address does not wrap. -/
structure FieldExact (spec : RowSpec) (record : Record) : Prop where
  bitmask : ∀ op, spec.lookup = some (.table op) → op.readsBitmask = true →
    IsRightShiftBitmask (spec.rightInput record.rs2Value)
  address : spec.flags.has .load = true ∨ spec.flags.has .store = true →
    SumFits record.rs1Value spec.imm

variable {record : Record} {spec : RowSpec} {row : WasmTraceRow} {output : U64}

section

variable (static : row.bytecodeRow = BytecodeRow.fromSpec spec)

include static

theorem flags_eq : row.flags = spec.flags := congrArg BytecodeRow.flags static
theorem imm_eq : row.imm = spec.imm := congrArg BytecodeRow.imm static
theorem lookup_eq : row.lookup = spec.lookup := congrArg BytecodeRow.lookup static

theorem leftInput_eq (rs1 : row.rs1Value = record.rs1Value) :
    row.leftInput = spec.leftInput record.rs1Value := by
  rw [WasmTraceRow.leftInput, flags_eq static, rs1, RowSpec.leftInput]

theorem rightInput_eq (rs2 : row.rs2Value = record.rs2Value) :
    row.rightInput = spec.rightInput record.rs2Value := by
  rw [WasmTraceRow.rightInput, flags_eq static, rs2, imm_eq static, RowSpec.rightInput]

/-- The immediate of a row whose constraints use it as a value. -/
theorem immSigned_eq (load : spec.flags.has .load = false) (store : spec.flags.has .store = false) :
    row.immSigned = spec.imm.toNat := by
  rw [WasmTraceRow.immSigned, static]
  simp [BytecodeRow.immSigned, BytecodeRow.fromSpec, RowFlags.intersects_mask_union, load, store]

/-- The immediate of a memory row is signed. -/
theorem immSigned_memory (memory : spec.flags.has .load = true ∨ spec.flags.has .store = true) :
    row.immSigned = spec.imm.toInt := by
  rw [WasmTraceRow.immSigned, static]
  simp only [BytecodeRow.immSigned, BytecodeRow.fromSpec, RowFlags.intersects_mask_union]
  rcases memory with on | on <;> simp [on]

end

/-- The row's lookup output is the record's. -/
theorem lookupOutput_eq_output (columns : row.Columns record spec)
    (holds : RecordHolds record spec output) (exact_ : FieldExact spec record) :
    row.lookupOutput = output := by
  have value := holds.value
  unfold RowSpec.output at value
  unfold WasmTraceRow.lookupOutput WasmTraceRow.tableOp WasmTraceRow.lookupIndex
  rw [lookup_eq columns.static]
  cases lookup : spec.lookup with
  | none =>
      rw [lookup] at value
      exact value
  | some found =>
      rw [lookup] at value
      cases found with
      | table op =>
          rw [leftInput_eq columns.static columns.rs1, rightInput_eq columns.static columns.rs2]
          exact (tableOutput_eq_evaluate op _ _ (exact_.bitmask op lookup)).trans value
      | advice hint =>
          rw [columns.rd]
          change WasmTable.materializeEntry .rangeCheck (record.rdWrite.setWidth 128) = output
          rw [rangeCheck_entry]
          simpa using value

/-- On a branch row the lookup output is a bit. -/
theorem branch_bit (branch : spec.flags.has .branch = true) (holds : RecordHolds record spec output)
    (shaped : spec.Shaped) : output = 0 ∨ output = 1 := by
  have value := holds.value
  have boolean := holds.boolean
  unfold RowSpec.output at value
  unfold nonBooleanTest at boolean
  cases lookup : spec.lookup with
  | none =>
      rw [lookup] at value
      exact .inl value.symm
  | some found =>
      rw [lookup] at value boolean
      cases found with
      | table op =>
          rw [← value]
          refine AluOp.evaluate_boolean op ?_ _ _
          simpa [RowFlags.intersects_mask_union, branch] using boolean
      | advice hint =>
          obtain ⟨-, -, -, -, -, off⟩ := shaped.advice hint lookup
          rw [off] at branch
          cases branch

/-- The lookup operands of a row: at most one operand flag is on, and it says how they are formed. -/
inductive LookupOperands (row : WasmTraceRow) : Prop where
  | add (on : row.flags.has .addOperands = true) (sub : row.flags.has .subOperands = false)
      (mul : row.flags.has .mulOperands = false) (advice : row.flags.has .advice = false)
      (left : row.lookupOperands.1 = 0)
      (right : row.lookupOperands.2.toNat = row.leftInput.toNat + row.rightInput.toNat)
  | sub (add : row.flags.has .addOperands = false) (on : row.flags.has .subOperands = true)
      (mul : row.flags.has .mulOperands = false) (advice : row.flags.has .advice = false)
      (left : row.lookupOperands.1 = 0)
      (right : row.lookupOperands.2.toNat = row.leftInput.toNat + 2 ^ 64 - row.rightInput.toNat)
  | mul (add : row.flags.has .addOperands = false) (sub : row.flags.has .subOperands = false)
      (on : row.flags.has .mulOperands = true) (advice : row.flags.has .advice = false)
      (left : row.lookupOperands.1 = 0)
      (right : row.lookupOperands.2.toNat = row.leftInput.toNat * row.rightInput.toNat)
  | plain (add : row.flags.has .addOperands = false) (sub : row.flags.has .subOperands = false)
      (mul : row.flags.has .mulOperands = false) (left : row.lookupOperands.1 = row.leftInput)
      (right : row.flags.has .advice = false →
        row.lookupOperands.2.toNat = row.rightInput.toNat)

theorem lookupOperands_of_shaped (static : row.bytecodeRow = BytecodeRow.fromSpec spec)
    (shaped : spec.Shaped) : LookupOperands row := by
  have flags := flags_eq static
  have small : (row.rightInput.setWidth 128).toNat = row.rightInput.toNat := by
    have := row.rightInput.isLt
    rw [BitVec.toNat_setWidth]
    omega
  cases lookup : spec.lookup with
  | none =>
      obtain ⟨add, sub, mul, advice⟩ := shaped.noLookup lookup
      rw [← lookup_eq static] at lookup
      rw [← flags] at add sub mul advice
      refine .plain add sub mul ?_ fun _ => ?_ <;> simp only [WasmTraceRow.lookupOperands, lookup]
      exact small
  | some found =>
      cases found with
      | table op =>
          obtain ⟨add, sub, mul, advice⟩ := shaped.table op lookup
          rw [← lookup_eq static] at lookup
          rw [← flags] at add sub mul advice
          cases mode : op.operandMode <;> rw [mode] at add sub mul
          case interleaved =>
            refine .plain add sub mul ?_ fun _ => ?_ <;>
              simp only [WasmTraceRow.lookupOperands, lookup, mode, if_true]
            exact small
          case add =>
            refine .add add sub mul advice ?_ ?_ <;> simp [WasmTraceRow.lookupOperands,
              WasmTraceRow.lookupIndex, lookup, mode, toNat_lookupIndex_add]
          case sub =>
            refine .sub add sub mul advice ?_ ?_ <;> simp [WasmTraceRow.lookupOperands,
              WasmTraceRow.lookupIndex, lookup, mode, toNat_lookupIndex_sub]
          case mul =>
            refine .mul add sub mul advice ?_ ?_ <;> simp [WasmTraceRow.lookupOperands,
              WasmTraceRow.lookupIndex, lookup, mode, toNat_lookupIndex_mul]
      | advice hint =>
          obtain ⟨add, sub, mul, advice, left, -⟩ := shaped.advice hint lookup
          rw [← lookup_eq static] at lookup
          rw [← flags] at add sub mul advice left
          refine .plain add sub mul ?_ fun off => ?_
          · simp [WasmTraceRow.lookupOperands, lookup, WasmTraceRow.leftInput, left]
          · rw [advice] at off
            cases off

/-- The next pc of a jump row. -/
theorem next_jump (holds : RecordHolds record spec output) (shaped : spec.Shaped)
    (on : spec.flags.has .jump = true) : record.nextPc.toNat = output.toNat := by
  have next := holds.next
  rw [expectedNext, (shaped.jump on).1, on] at next
  simp only [Bool.false_eq_true, if_false, if_true, Pc.ofWord?] at next
  split at next
  · rename_i found
    split_ifs at found with small
    rw [← Except.ok.inj next, ← Option.some.inj found, BitVec.toNat_setWidth,
      Nat.mod_eq_of_lt small]
  · cases next

/-- The next pc of a branch row: its target when the lookup output is one. -/
theorem next_branch (holds : RecordHolds record spec output) (shaped : spec.Shaped)
    (on : spec.flags.has .branch = true) (taken : output = 1) :
    record.nextPc.toNat = spec.imm.toNat := by
  have next := holds.next
  have jump : spec.flags.has .jump = false := by
    cases jump : spec.flags.has .jump with
    | false => rfl
    | true =>
        rw [(shaped.jump jump).2] at on
        cases on
  rw [expectedNext, (shaped.branch on).1, jump, on, taken] at next
  rw [← Except.ok.inj next, BitVec.toNat_setWidth, Nat.mod_eq_of_lt (shaped.branch on).2]

/-- The next pc of a row that neither halts, jumps nor branches away. -/
theorem next_fallThrough (holds : RecordHolds record spec output)
    (halt : spec.flags.has .halt = false) (jump : spec.flags.has .jump = false)
    (branch : (spec.flags.has .branch && output == 1) = false) :
    record.nextPc = record.pc + 1 := by
  have next := holds.next
  rw [expectedNext, halt, jump, branch] at next
  exact (Except.ok.inj next).symm

/-- What the constraints say about a row's values, beyond the columns its slots alias. -/
structure RowHolds (row : WasmTraceRow) : Prop where
  assert : row.flags.has .assert = true → row.lookupOutput = 1
  write : row.flags.has .writeLookupToRd = true → row.rdWriteValue = row.lookupOutput
  address : row.flags.has .load = true ∨ row.flags.has .store = true →
    (row.ramAddress.toNat : ℤ) = row.rs1Value.toNat + row.immSigned
  bit : row.flags.has .branch = true → row.lookupOutput = 0 ∨ row.lookupOutput = 1
  jump : row.flags.has .jump = true → row.nextPc.toNat = row.lookupOutput.toNat
  branch : row.flags.has .branch = true → row.lookupOutput = 1 →
    row.nextPc.toNat = row.imm.toNat
  halt : row.flags.has .halt = true → row.nextPc = row.pc
  next : row.flags.has .halt = false → row.flags.has .jump = false →
    (row.flags.has .branch && row.lookupOutput == 1) = false →
    row.nextPc.toNat = row.pc.toNat + 1

/-- A record that passes its checks with exact values has a row whose values hold. -/
theorem rowHolds_of_recordHolds (columns : row.Columns record spec)
    (holds : RecordHolds record spec output) (shaped : spec.Shaped)
    (exact_ : FieldExact spec record)
    (small : spec.flags.has .halt = false → spec.flags.has .jump = false →
      record.pc.toNat + 1 < 2 ^ 32) : RowHolds row := by
  have flags := flags_eq columns.static
  have value := lookupOutput_eq_output columns holds exact_
  constructor <;> rw [flags]
  case assert =>
    rw [value]
    exact holds.assert
  case write =>
    rw [value, columns.rd]
    exact holds.write
  case address =>
    intro memory
    rw [columns.memory memory, columns.rs1, toNat_address (exact_.address memory),
      immSigned_memory columns.static memory]
  case bit =>
    intro on
    rw [value]
    exact branch_bit on holds shaped
  case jump =>
    intro on
    rw [columns.nextPc, value]
    exact next_jump holds shaped on
  case branch =>
    intro on taken
    rw [columns.nextPc, imm_eq columns.static]
    exact next_branch holds shaped on (value ▸ taken)
  case halt =>
    intro on
    have next := holds.next
    rw [expectedNext, on] at next
    rw [columns.nextPc, columns.pc]
    exact (Except.ok.inj next).symm
  case next =>
    intro halt jump branch
    rw [value] at branch
    rw [columns.nextPc, columns.pc, next_fallThrough holds halt jump branch,
      toNat_pc_succ (small halt jump)]

theorem ramAddress_of_noMemory (load : row.flags.has .load = false)
    (store : row.flags.has .store = false) : row.ramAddress = 0 := by
  simp [WasmTraceRow.ramAddress, WasmTraceRow.isLoad, WasmTraceRow.isStore, load, store]

/-- The columns a load's slots alias. -/
theorem load_aliases (load : row.flags.has .load = true) (store : row.flags.has .store = false) :
    row.ramWriteValue = row.ramReadValue ∧ row.rdWriteValue = row.ramReadValue := by
  simp [WasmTraceRow.ramReadValue, WasmTraceRow.ramWriteValue, WasmTraceRow.rdWriteValue,
    WasmTraceRow.isLoad, WasmTraceRow.isStore, load, store]

/-- The columns a store's slots alias. -/
theorem store_aliases (load : row.flags.has .load = false) (store : row.flags.has .store = true) :
    row.ramWriteValue = row.rs2Value := by
  simp [WasmTraceRow.ramWriteValue, WasmTraceRow.rs2Value, WasmTraceRow.isLoad,
    WasmTraceRow.isStore, load, store]

section

variable {F : Type*} [Field F]

/-- The witness of a row whose values hold satisfies the constraints. -/
theorem equations_of_rowHolds (static : row.bytecodeRow = BytecodeRow.fromSpec spec)
    (shaped : spec.Shaped) (holds : RowHolds row) : Equations (cycleWitness row : Column → F) := by
  have flags := flags_eq static
  have operands := lookupOperands_of_shaped static shaped
  have imm (load : spec.flags.has .load = false) (store : spec.flags.has .store = false) :
      (row.immSigned : F) = row.imm.toNat := by
    rw [immSigned_eq static load store, imm_eq static, Int.cast_natCast]
  have loadStore (load : row.flags.has .load = true) : row.flags.has .store = false := by
    rw [flags] at load ⊢
    exact (shaped.loadStore load).1
  constructor
  case leftRs1 =>
    simp only [cycleWitness, WasmTraceRow.leftInput]
    cases row.flags.has .leftIsRs1 <;> simp
  case leftZero =>
    simp only [cycleWitness, WasmTraceRow.leftInput]
    cases row.flags.has .leftIsRs1 <;> simp
  case rightRs2 =>
    simp only [cycleWitness, WasmTraceRow.rightInput]
    cases row.flags.has .rightIsRs2 <;> simp
  case rightImm =>
    simp only [cycleWitness, WasmTraceRow.rightInput]
    cases on : row.flags.has .rightIsImm with
    | false => simp
    | true =>
        rw [flags] at on ⊢
        obtain ⟨load, store⟩ := shaped.immUnsigned (.inl on)
        cases off : spec.flags.has .rightIsRs2 with
        | true => simp [shaped.right off] at on
        | false => simp [imm load store]
  case rightZero =>
    simp only [cycleWitness, WasmTraceRow.rightInput]
    rw [flags]
    cases on : spec.flags.has .rightIsRs2 with
    | true => simp [shaped.right on]
    | false => cases spec.flags.has .rightIsImm <;> simp
  case ramAddress =>
    simp only [cycleWitness]
    cases load : row.flags.has .load with
    | true =>
        have sum : (row.ramAddress.toNat : F) = row.rs1Value.toNat + row.immSigned := by
          exact_mod_cast congrArg (Int.cast : ℤ → F) (holds.address (.inl load))
        rw [sum]
        ring
    | false =>
        cases store : row.flags.has .store with
        | true =>
            have sum : (row.ramAddress.toNat : F) = row.rs1Value.toNat + row.immSigned := by
              exact_mod_cast congrArg (Int.cast : ℤ → F) (holds.address (.inr store))
            rw [sum]
            ring
        | false => simp
  case ramAddressZero =>
    simp only [cycleWitness]
    cases load : row.flags.has .load with
    | true => simp [loadStore load]
    | false =>
        cases store : row.flags.has .store with
        | true => simp
        | false => simp [ramAddress_of_noMemory load store]
  case loadKeeps =>
    simp only [cycleWitness]
    cases load : row.flags.has .load with
    | false => simp
    | true => simp [(load_aliases load (loadStore load)).1]
  case loadWrites =>
    simp only [cycleWitness]
    cases load : row.flags.has .load with
    | false => simp
    | true => simp [(load_aliases load (loadStore load)).2]
  case storeWrites =>
    simp only [cycleWitness]
    cases store : row.flags.has .store with
    | false => simp
    | true =>
        cases load : row.flags.has .load with
        | false => simp [store_aliases load store]
        | true =>
            rw [loadStore load] at store
            cases store
  case leftLookupZero =>
    simp only [cycleWitness]
    rcases operands with ⟨add, sub, mul, _, left, _⟩ | ⟨add, sub, mul, _, left, _⟩ |
      ⟨add, sub, mul, _, left, _⟩ | ⟨add, sub, mul, left, _⟩ <;> simp [add, sub, mul, left]
  case leftLookup =>
    simp only [cycleWitness]
    rcases operands with ⟨add, sub, mul, _, left, _⟩ | ⟨add, sub, mul, _, left, _⟩ |
      ⟨add, sub, mul, _, left, _⟩ | ⟨add, sub, mul, left, _⟩ <;> simp [add, sub, mul, left]
  case rightLookupAdd =>
    simp only [cycleWitness]
    rcases operands with ⟨add, _, _, _, _, right⟩ | ⟨add, _, _, _, _, _⟩ |
      ⟨add, _, _, _, _, _⟩ | ⟨add, _, _, _, _⟩ <;> simp [add]
    rw [right]
    push_cast
    ring
  case rightLookupSub =>
    simp only [cycleWitness]
    rcases operands with ⟨_, sub, _, _, _, _⟩ | ⟨_, sub, _, _, _, right⟩ |
      ⟨_, sub, _, _, _, _⟩ | ⟨_, sub, _, _, _⟩ <;> simp [sub]
    have bound := row.rightInput.isLt
    rw [right, Nat.cast_sub (by omega)]
    push_cast
    ring
  case rightLookupMul =>
    simp only [cycleWitness]
    rcases operands with ⟨_, _, mul, _, _, _⟩ | ⟨_, _, mul, _, _, _⟩ |
      ⟨_, _, mul, _, _, right⟩ | ⟨_, _, mul, _, _⟩ <;> simp [mul]
    rw [right]
    push_cast
    ring
  case rightLookup =>
    simp only [cycleWitness]
    rcases operands with ⟨add, sub, mul, advice, _, _⟩ | ⟨add, sub, mul, advice, _, _⟩ |
      ⟨add, sub, mul, advice, _, _⟩ | ⟨add, sub, mul, _, right⟩
    case plain =>
      cases on : row.flags.has .advice with
      | true => simp [add, sub, mul]
      | false => simp [add, sub, mul, right on]
    all_goals simp [add, sub, mul, advice]
  case assertOne =>
    simp only [cycleWitness]
    cases on : row.flags.has .assert with
    | false => simp
    | true => simp [holds.assert on]
  case rdWrite =>
    simp only [cycleWitness]
    cases on : row.flags.has .writeLookupToRd with
    | false => simp
    | true => simp [holds.write on]
  case jump =>
    simp only [cycleWitness]
    cases on : row.flags.has .jump with
    | false => simp
    | true => simp [holds.jump on]
  case branch =>
    simp only [cycleWitness]
    cases taken : row.flags.has .branch && row.lookupOutput == 1 with
    | false => simp
    | true =>
        rw [Bool.and_eq_true, beq_iff_eq] at taken
        obtain ⟨load, store⟩ := shaped.immUnsigned (.inr (flags ▸ taken.1))
        rw [holds.branch taken.1 taken.2, imm load store]
        ring
  case halt =>
    simp only [cycleWitness]
    cases on : row.flags.has .halt with
    | false => simp
    | true => simp [holds.halt on]
  case nextPc =>
    simp only [cycleWitness]
    cases halt : row.flags.has .halt with
    | true =>
        rw [flags] at halt ⊢
        have branch : spec.flags.has .branch = false := by
          cases branch : spec.flags.has .branch with
          | false => rfl
          | true =>
              rw [(shaped.branch branch).1] at halt
              cases halt
        have jump : spec.flags.has .jump = false := by
          cases jump : spec.flags.has .jump with
          | false => rfl
          | true =>
              rw [(shaped.jump jump).1] at halt
              cases halt
        simp [branch, jump]
    | false =>
        cases jump : row.flags.has .jump with
        | true =>
            rw [flags] at jump ⊢
            simp [(shaped.jump jump).2]
        | false =>
            cases branch : row.flags.has .branch && row.lookupOutput == 1 with
            | true => simp
            | false =>
                rw [holds.next halt jump branch]
                push_cast
                ring
  case product =>
    simp only [cycleWitness]
    push_cast
    rfl
  case shouldBranch =>
    simp only [cycleWitness]
    cases on : row.flags.has .branch with
    | false => simp
    | true => rcases holds.bit on with zero | one <;> simp [*]

/-- The witness of a row that passes its checks with exact values satisfies the constraints. -/
theorem cycleWitness_equations (columns : row.Columns record spec)
    (holds : RecordHolds record spec output) (shaped : spec.Shaped)
    (exact_ : FieldExact spec record)
    (small : spec.flags.has .halt = false → spec.flags.has .jump = false →
      record.pc.toNat + 1 < 2 ^ 32) : Equations (cycleWitness row : Column → F) :=
  equations_of_rowHolds columns.static shaped
    (rowHolds_of_recordHolds columns holds shaped exact_ small)

end

/-- Satisfied constraints say no more than that the row's values hold. -/
theorem rowHolds_of_equations {F : Type*} [WideField F]
    (static : row.bytecodeRow = BytecodeRow.fromSpec spec) (shaped : spec.Shaped)
    (h : Equations (cycleWitness row : Column → F)) : RowHolds row := by
  have flags := flags_eq static
  have pcBound := row.pc.isLt
  have nextBound := row.nextPc.isLt
  constructor
  case assert =>
    intro on
    have one := h.assertOne
    simp only [cycleWitness, on, if_true, one_mul] at one
    exact word_inj (F := F) (by simpa using sub_eq_zero.mp one)
  case write =>
    intro on
    have same := h.rdWrite
    simp only [cycleWitness, on, if_true, one_mul] at same
    exact word_inj (F := F) (sub_eq_zero.mp same)
  case address =>
    intro memory
    have sum := h.ramAddress
    have one : cycleWitness row (.flag .load) + cycleWitness row (.flag .store) = (1 : F) := by
      simp only [cycleWitness]
      rcases memory with on | on
      · rw [flags] at on ⊢
        simp [on, (shaped.loadStore on).1]
      · cases load : row.flags.has .load with
        | false => simp [on]
        | true =>
            rw [flags] at on load
            rw [(shaped.loadStore load).1] at on
            cases on
    rw [one, one_mul] at sum
    simp only [cycleWitness] at sum
    have imm := immSigned_memory static (flags ▸ memory)
    have addressBound := row.ramAddress.isLt
    have baseBound := row.rs1Value.isLt
    have lower := BitVec.le_toInt spec.imm
    have upper := BitVec.toInt_lt (x := spec.imm)
    refine intCast_inj_of_lt (F := F) ?_ ?_ ?_
    · rw [abs_lt]
      omega
    · rw [abs_lt]
      omega
    · push_cast
      linear_combination sum
  case bit =>
    intro on
    have bit := h.shouldBranch
    simp only [cycleWitness, on, if_true, mul_one, Bool.true_and] at bit
    cases taken : row.lookupOutput == 1 with
    | true => exact .inr (beq_iff_eq.mp taken)
    | false =>
        rw [taken] at bit
        exact .inl (word_inj (F := F) (by simpa using bit))
  case jump =>
    intro on
    have same := h.jump
    have outputBound := row.lookupOutput.isLt
    simp only [cycleWitness, on, if_true, one_mul] at same
    exact natCast_inj_of_lt (F := F) (by omega) (by omega) (sub_eq_zero.mp same)
  case branch =>
    intro on taken
    have target := h.branch
    have immBound := row.imm.isLt
    obtain ⟨load, store⟩ := shaped.immUnsigned (.inr (flags ▸ on))
    simp only [cycleWitness, on, taken, immSigned_eq static load store, ← imm_eq static,
      beq_self_eq_true, Bool.and_self, if_true, one_mul, Int.cast_natCast] at target
    exact natCast_inj_of_lt (F := F) (by omega) (by omega) (sub_eq_zero.mp target)
  case halt =>
    intro on
    have same := h.halt
    simp only [cycleWitness, on, if_true, one_mul] at same
    exact BitVec.eq_of_toNat_eq (natCast_inj_of_lt (F := F) (by omega) (by omega)
      (sub_eq_zero.mp same))
  case next =>
    intro halt jump branch
    have succ := h.nextPc
    simp only [cycleWitness, halt, jump, branch, Bool.false_eq_true, if_false, sub_zero,
      one_mul] at succ
    refine natCast_inj_of_lt (F := F) (by omega) (by omega) ?_
    push_cast
    linear_combination succ

end JoltWasm
