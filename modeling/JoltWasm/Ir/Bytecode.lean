import JoltWasm.Ir.Row

/-!
# The committed bytecode table

One row for each pc, the static half of a proof row, padded with the halt row to a power of two.
-/

namespace JoltWasm

/-- Sentinel for "no register" in the packed ids. -/
def registerNone : ℕ := 0xFF

def registerId (reg : Option Reg) : ℕ :=
  match reg with
  | some r => r.val
  | none => registerNone

/-- The register of a packed id. -/
def registerOfId (id : ℕ) : Option Reg :=
  if id ≠ registerNone then if h : id < registerCount then some ⟨id, h⟩ else none else none

/-- The static half of a proof row. -/
structure BytecodeRow where
  imm : U64
  flags : RowFlags
  rs1 : ℕ
  rs2 : ℕ
  rd : ℕ
  lookup : Option Lookup
  deriving DecidableEq

namespace BytecodeRow

def fromSpec (spec : RowSpec) : BytecodeRow where
  imm := spec.imm
  flags := spec.flags
  rs1 := registerId spec.rs1
  rs2 := registerId spec.rs2
  rd := registerId spec.rd
  lookup := spec.lookup

/-- The static row of an instruction. -/
def of (instruction : Ir) : BytecodeRow := fromSpec instruction.rowSpec

/-- The catalog op whose table the row reads. -/
def tableOp (row : BytecodeRow) : Option AluOp := row.lookup.map Lookup.tableOp

/-- Whether the row's lookup index is its raw right operand. -/
def rafFlag (row : BytecodeRow) : Bool := row.lookup.any Lookup.isRawIndex

/-- The immediate the constraints see: a signed byte offset on memory rows. -/
def immSigned (row : BytecodeRow) : ℤ :=
  if row.flags.intersects ((RowFlags.mask .load).union (.mask .store)) then row.imm.toInt
  else row.imm.toNat

end BytecodeRow

inductive PreprocessingError where
  | missingHaltTrampoline (found : Option Ir)
  | targetOutOfRange (pc : Pc) (target len : ℕ)
  | notBoolean (pc : Pc) (instruction : Ir)
  | programTooLarge (rows : ℕ)
  | entryOutOfRange (name : String) (function : ℕ)
  deriving DecidableEq

/-- The padded bytecode table. -/
structure WasmBytecode where
  rows : List BytecodeRow
  /-- Number of rows before the padding. -/
  len : ℕ
  entries : List (String × Pc)

/-- The absolute target of a jump or branch. -/
def Ir.target? : Ir → Option Pc
  | jump target | branch _ _ _ target => some target
  | _ => none

/-- Whether an assert or branch row uses a table that is not boolean. -/
def Ir.testsNonBoolean (instruction : Ir) : Bool :=
  let spec := instruction.rowSpec
  match spec.lookup with
  | some (.table op) =>
      spec.flags.intersects ((RowFlags.mask .branch).union (.mask .assert)) && !op.isBoolean
  | _ => false

namespace WasmBytecode

/-- The check of one instruction of a program of `len` rows, and its row. -/
def preprocessRow (len : ℕ) (pc : ℕ) (instruction : Ir) : Except PreprocessingError BytecodeRow :=
  let row := BytecodeRow.fromSpec instruction.rowSpec
  match instruction.target? with
  | some target =>
      if len ≤ target.toNat then .error (.targetOutOfRange (BitVec.ofNat 32 pc) target.toNat len)
      else if instruction.testsNonBoolean then
        .error (.notBoolean (BitVec.ofNat 32 pc) instruction)
      else .ok row
  | none =>
      if instruction.testsNonBoolean then .error (.notBoolean (BitVec.ofNat 32 pc) instruction)
      else .ok row

/-- The rows from pc `pc` on. -/
def preprocessRows (len : ℕ) : ℕ → List Ir → Except PreprocessingError (List BytecodeRow)
  | _, [] => .ok []
  | pc, instruction :: code => do
      let row ← preprocessRow len pc instruction
      let rows ← preprocessRows len (pc + 1) code
      return row :: rows

/-- The entry pcs of the exports. -/
def preprocessEntries (program : IrProgram) :
    List (String × ℕ) → Except PreprocessingError (List (String × Pc))
  | [] => .ok []
  | (name, function) :: exports =>
      match program.entries.lookup name with
      | none => .error (.entryOutOfRange name function)
      | some pc =>
          if program.code.length ≤ pc.toNat then .error (.entryOutOfRange name function)
          else do
            let entries ← preprocessEntries program exports
            return (name, pc) :: entries

/-- Padded size of a table of `len` rows. -/
def codeSizeOf (len : ℕ) : ℕ := max len.nextPowerOfTwo 2

/-- Validate and pad the program's code. -/
def preprocess (program : IrProgram) : Except PreprocessingError WasmBytecode := do
  let len := program.code.length
  if program.code.head? ≠ some .halt then .error (.missingHaltTrampoline program.code.head?)
  if 2 ^ 32 ≤ len then .error (.programTooLarge len)
  let rows ← preprocessRows len 0 program.code
  let entries ← preprocessEntries program program.exports
  return ⟨rows ++ List.replicate (codeSizeOf len - len) (BytecodeRow.of .halt), len, entries⟩

/-- Padded size: a power of two, at least two. -/
def codeSize (bytecode : WasmBytecode) : ℕ := bytecode.rows.length

/-- The row at a pc, the first row past the table. -/
def row (bytecode : WasmBytecode) (pc : Pc) : BytecodeRow :=
  bytecode.rows.getD pc.toNat (bytecode.rows.getD 0 (BytecodeRow.of .halt))

/-- Entry-stub pc of an export. -/
def entry (bytecode : WasmBytecode) (name : String) : Option Pc := bytecode.entries.lookup name

end WasmBytecode

end JoltWasm
