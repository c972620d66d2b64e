import JoltWasm.Backend.CheckRecord
import JoltWasm.Ir.Bytecode
import JoltWasm.Tables.Catalog

/-!
# The proof-facing trace row

One record as four value slots and the static half of its row.  The slots alias the columns that are
equal or exclude each other on the row's class: other, load or store.
-/

namespace JoltWasm

/-- The values of a row, aliased by its class. -/
structure Slots where
  slot0 : U64
  slot1 : U64
  slot2 : U64
  slot3 : U64
  deriving DecidableEq

structure WasmTraceRow where
  slots : Slots
  imm : U64
  pc : Pc
  nextPc : Pc
  flags : RowFlags
  rs1 : ℕ
  rs2 : ℕ
  rd : ℕ
  lookup : Option Lookup
  deriving DecidableEq

/-- A record whose values do not satisfy its row's contract. -/
inductive TraceRowError where
  | registerOperands (pc : Pc) (expected actual : Option Reg × Option Reg × Option Reg)
  | memoryContract (pc : Pc) (ram : RamAccess) (detail : String)
  deriving DecidableEq

namespace WasmTraceRow

def fromParts (spec : RowSpec) (pc nextPc : Pc) (slots : Slots) : WasmTraceRow where
  slots := slots
  imm := spec.imm
  pc := pc
  nextPc := nextPc
  flags := spec.flags
  rs1 := registerId spec.rs1
  rs2 := registerId spec.rs2
  rd := registerId spec.rd
  lookup := spec.lookup

/-- The canonical padding row: `Halt` at pc 0. -/
def noOp : WasmTraceRow := fromParts Ir.halt.rowSpec 0 0 ⟨0, 0, 0, 0⟩

/-- The slots of a record, by its row's class. -/
def slotsOf (record : Record) : Except TraceRowError Slots :=
  let contract (detail : String) : Except TraceRowError Slots :=
    .error (.memoryContract record.pc record.ram detail)
  let flags := record.instruction.rowSpec.flags
  if flags.has .load then
    match record.ram with
    | .read address value =>
        if value ≠ record.rdWrite then contract "load value must equal the rd write"
        else .ok ⟨record.rs1Value, address, record.rdPre, record.rdWrite⟩
    | _ => contract "load row without a RAM read"
  else if flags.has .store then
    match record.ram with
    | .write address preValue postValue =>
        if postValue ≠ record.rs2Value then contract "store value must equal rs2"
        else .ok ⟨record.rs1Value, record.rs2Value, preValue, address⟩
    | _ => contract "store row without a RAM write"
  else if record.ram ≠ .noOp then contract "non-memory row carries a RAM access"
  else .ok ⟨record.rs1Value, record.rs2Value, record.rdPre, record.rdWrite⟩

/-- Materialize a record, checking it against its row's contract. -/
def fromRecord (record : Record) : Except TraceRowError WasmTraceRow := do
  let spec := record.instruction.rowSpec
  let operands := (record.rs1.map RegisterRead.register, record.rs2.map RegisterRead.register,
    record.rd.map RegisterWrite.register)
  if operands ≠ (spec.rs1, spec.rs2, spec.rd) then
    .error (.registerOperands record.pc (spec.rs1, spec.rs2, spec.rd) operands)
  let slots ← slotsOf record
  return fromParts spec record.pc record.nextPc slots

section Columns

variable (row : WasmTraceRow)

def isLoad : Bool := row.flags.has .load
def isStore : Bool := row.flags.has .store

def rs1Value : U64 := row.slots.slot0
def rs2Value : U64 := if row.isLoad then 0 else row.slots.slot1
def rdPreValue : U64 := if row.isStore then 0 else row.slots.slot2
def rdWriteValue : U64 := if row.isStore then 0 else row.slots.slot3

def ramAddress : U64 :=
  if row.isLoad then row.slots.slot1 else if row.isStore then row.slots.slot3 else 0

def ramReadValue : U64 :=
  if row.isLoad then row.slots.slot3 else if row.isStore then row.slots.slot2 else 0

def ramWriteValue : U64 :=
  if row.isLoad then row.slots.slot3 else if row.isStore then row.slots.slot1 else 0

/-- The static half of the row, as committed in the bytecode table. -/
def bytecodeRow : BytecodeRow := ⟨row.imm, row.flags, row.rs1, row.rs2, row.rd, row.lookup⟩

/-- The immediate as the constraints see it. -/
def immSigned : ℤ := row.bytecodeRow.immSigned

def rs1Index : Option Reg := registerOfId row.rs1
def rs2Index : Option Reg := registerOfId row.rs2
def rdIndex : Option Reg := registerOfId row.rd

/-- The catalog op whose table the row reads. -/
def tableOp : Option AluOp := row.lookup.map Lookup.tableOp

/-- Whether the row's lookup index is its raw right lookup operand. -/
def rafFlag : Bool := row.lookup.any Lookup.isRawIndex

/-- The catalog table id, if the row looks one up. -/
def table : Option ℕ := row.tableOp.map fun op => (WasmTable.of op).index

/-- Left instruction input. -/
def leftInput : U64 := if row.flags.has .leftIsRs1 then row.rs1Value else 0

/-- Right instruction input. -/
def rightInput : U64 :=
  if row.flags.has .rightIsRs2 then row.rs2Value
  else if row.flags.has .rightIsImm then row.imm
  else 0

/-- The lookup index: the operands under the op's mode, or the raw advice value. -/
def lookupIndex : Option U128 :=
  match row.lookup with
  | some (.table op) => some (lookupIndexFor op.operandMode row.leftInput row.rightInput)
  | some (.advice _) => some (row.rdWriteValue.setWidth 128)
  | none => none

/-- The lookup operands the constraints see. -/
def lookupOperands : U64 × U128 :=
  match row.lookup with
  | some (.table op) =>
      if op.operandMode = .interleaved then (row.leftInput, row.rightInput.setWidth 128)
      else (0, row.lookupIndex.getD 0)
  | some (.advice _) => (0, row.lookupIndex.getD 0)
  | none => (row.leftInput, row.rightInput.setWidth 128)

/-- The lookup output: the table's entry at the row's index. -/
def lookupOutput : U64 :=
  match row.tableOp, row.lookupIndex with
  | some op, some index => (WasmTable.of op).materializeEntry index
  | _, _ => 0

end Columns

end WasmTraceRow

/-- The full trace of a record stream. -/
def buildTraceRows : List Record → Except TraceRowError (List WasmTraceRow)
  | [] => .ok []
  | record :: records => do
      let row ← WasmTraceRow.fromRecord record
      let rows ← buildTraceRows records
      return row :: rows

/-! ## The shape of a row -/

/-- Which flags and fields of a row exclude each other. -/
structure RowSpec.Shaped (spec : RowSpec) : Prop where
  right : spec.flags.has .rightIsRs2 = true → spec.flags.has .rightIsImm = false
  loadStore : spec.flags.has .load = true → spec.flags.has .store = false ∧ spec.rs2 = none
  storeWrite : spec.flags.has .store = true → spec.rd = none
  immUnsigned : spec.flags.has .rightIsImm = true ∨ spec.flags.has .branch = true →
    spec.flags.has .load = false ∧ spec.flags.has .store = false
  table : ∀ op, spec.lookup = some (.table op) →
    spec.flags.has .addOperands = decide (op.operandMode = .add) ∧
    spec.flags.has .subOperands = decide (op.operandMode = .sub) ∧
    spec.flags.has .mulOperands = decide (op.operandMode = .mul) ∧ spec.flags.has .advice = false
  advice : ∀ hint, spec.lookup = some (.advice hint) →
    spec.flags.has .addOperands = false ∧ spec.flags.has .subOperands = false ∧
    spec.flags.has .mulOperands = false ∧ spec.flags.has .advice = true ∧
    spec.flags.has .leftIsRs1 = false ∧ spec.flags.has .branch = false
  noLookup : spec.lookup = none →
    spec.flags.has .addOperands = false ∧ spec.flags.has .subOperands = false ∧
    spec.flags.has .mulOperands = false ∧ spec.flags.has .advice = false
  jump : spec.flags.has .jump = true →
    spec.flags.has .halt = false ∧ spec.flags.has .branch = false
  branch : spec.flags.has .branch = true →
    spec.flags.has .halt = false ∧ spec.imm.toNat < 2 ^ 32

/-- The rows of the classification are shaped. -/
theorem Ir.rowSpec_shaped (instruction : Ir) : instruction.rowSpec.Shaped := by
  cases instruction with
  | alu op rd rs1 rs2 => cases rs2 <;> constructor <;> simp [rowSpec, rightOperand]
  | assert op failure rs1 rs2 => cases rs2 <;> constructor <;> simp [rowSpec, rightOperand]
  | branch op rs1 rs2 target =>
      have small : target.toNat % 18446744073709551616 < 4294967296 := by
        have := target.isLt
        omega
      constructor <;> simp [rowSpec, small]
  | _ => constructor <;> simp [rowSpec, AluOp.operandMode]

namespace WasmTraceRow

/-- The columns of a row are the record's values. -/
structure Columns (row : WasmTraceRow) (record : Record) (spec : RowSpec) : Prop where
  static : row.bytecodeRow = BytecodeRow.fromSpec spec
  pc : row.pc = record.pc
  nextPc : row.nextPc = record.nextPc
  rs1 : row.rs1Value = record.rs1Value
  rs2 : row.rs2Value = record.rs2Value
  rd : row.rdWriteValue = record.rdWrite
  memory : spec.flags.has .load = true ∨ spec.flags.has .store = true →
    row.ramAddress = record.rs1Value + spec.imm
  noMemory : spec.flags.has .load = false → spec.flags.has .store = false → row.ramAddress = 0
  load : spec.flags.has .load = true →
    row.ramReadValue = record.rdWrite ∧ row.ramWriteValue = record.rdWrite
  store : spec.flags.has .store = true → row.ramWriteValue = record.rs2Value

/-- A record that passes its row's checks has slots. -/
theorem slotsOf_ok {record : Record} {output : U64}
    (holds : RecordHolds record record.instruction.rowSpec output) :
    ∃ slots, slotsOf record = .ok slots ∧
      (fromParts record.instruction.rowSpec record.pc record.nextPc slots).Columns record
        record.instruction.rowSpec := by
  have shaped := record.instruction.rowSpec_shaped
  obtain ⟨rs1, rs2, rd, -, -, -, -, ram, -⟩ := holds
  unfold slotsOf
  generalize record.instruction.rowSpec = spec at shaped rs1 rs2 rd ram ⊢
  cases load : spec.flags.has .load with
  | true =>
      obtain ⟨noStore, noRs2⟩ := shaped.loadStore load
      have zero : record.rs2Value = 0 := by
        rw [noRs2, Option.map_eq_none_iff] at rs2
        simp [Record.rs2Value, rs2]
      cases access : record.ram with
      | read address value =>
          rw [access] at ram
          simp only [ramMatches, load, Bool.true_and, Bool.and_eq_true, beq_iff_eq] at ram
          obtain ⟨rfl, rfl⟩ := ram
          refine ⟨⟨record.rs1Value, record.rs1Value + spec.imm, record.rdPre, record.rdWrite⟩,
            by simp [load], ?_⟩
          constructor <;> simp [fromParts, bytecodeRow, BytecodeRow.fromSpec, rs1Value, rs2Value,
            rdWriteValue, ramAddress, ramReadValue, ramWriteValue, isLoad, isStore, load, noStore,
            zero]
      | write address preValue postValue =>
          rw [access] at ram
          simp [ramMatches, noStore] at ram
      | noOp =>
          rw [access] at ram
          simp [ramMatches, RowFlags.intersects_mask_union, load] at ram
  | false =>
      cases store : spec.flags.has .store with
      | true =>
          have zero : record.rdWrite = 0 := by
            rw [shaped.storeWrite store, Option.map_eq_none_iff] at rd
            simp [Record.rdWrite, rd]
          cases access : record.ram with
          | read address value =>
              rw [access] at ram
              simp [ramMatches, load] at ram
          | write address preValue postValue =>
              rw [access] at ram
              simp only [ramMatches, store, Bool.true_and, Bool.and_eq_true, beq_iff_eq] at ram
              obtain ⟨rfl, rfl⟩ := ram
              refine ⟨⟨record.rs1Value, record.rs2Value, preValue, record.rs1Value + spec.imm⟩,
                by simp [load, store], ?_⟩
              constructor <;> simp [fromParts, bytecodeRow, BytecodeRow.fromSpec, rs1Value,
                rs2Value, rdWriteValue, ramAddress, ramWriteValue, isLoad, isStore, load, store,
                zero]
          | noOp =>
              rw [access] at ram
              simp [ramMatches, RowFlags.intersects_mask_union, store] at ram
      | false =>
          cases access : record.ram with
          | noOp =>
              refine ⟨⟨record.rs1Value, record.rs2Value, record.rdPre, record.rdWrite⟩,
                by simp [load, store], ?_⟩
              constructor <;> simp [fromParts, bytecodeRow, BytecodeRow.fromSpec, rs1Value,
                rs2Value, rdWriteValue, ramAddress, isLoad, isStore, load, store]
          | _ =>
              rw [access] at ram
              simp [ramMatches, load, store] at ram

/-- A record that passes its row's checks converts. -/
theorem fromRecord_ok {record : Record} {output : U64}
    (holds : RecordHolds record record.instruction.rowSpec output) :
    ∃ row, fromRecord record = .ok row ∧ row.Columns record record.instruction.rowSpec := by
  obtain ⟨slots, found, columns⟩ := slotsOf_ok holds
  refine ⟨_, ?_, columns⟩
  unfold fromRecord
  simp only [holds.rs1, holds.rs2, holds.rd, ne_eq, not_true, if_false, found]
  rfl

end WasmTraceRow

end JoltWasm
