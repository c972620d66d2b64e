import JoltWasm.Claims.FetchArgument
import JoltWasm.Claims.FormulaDimensions
import JoltWasm.Claims.LookupArgument
import JoltWasm.Claims.MemoryArgument
import JoltWasm.Claims.RegistersArgument
import JoltWasm.Program.Completeness
import JoltWasm.Program.RamDomain

/-!
# The columns of a trace

All columns of a proof together.  The relations of the registers, the RAM, the fetch and the lookups hold for every
challenge exactly when the committed accesses pick a row of the table, a place of the lookup tables and at most one
word in each cycle, and the other columns are what these hold there.
-/

namespace JoltWasm

open Lib

open private Nat.nextPowerOfTwo.go from Init.Data.Nat.Power2.Basic

/-! ## The padded table -/

theorem nextPowerOfTwo_go {n e : ℕ} (positive : 0 < 2 ^ e) (least : e ≤ Nat.clog 2 n) :
    Nat.nextPowerOfTwo.go n (2 ^ e) positive = 2 ^ Nat.clog 2 n := by
  generalize gap : Nat.clog 2 n - e = more
  induction more generalizing e with
  | zero =>
      obtain rfl : e = Nat.clog 2 n := by omega
      rw [Nat.nextPowerOfTwo.go, if_neg (Nat.not_lt.mpr (Nat.le_pow_clog one_lt_two n))]
  | succ more ih =>
      have less : 2 ^ e < n := (Nat.lt_clog_iff_pow_lt one_lt_two).mp (by omega)
      rw [Nat.nextPowerOfTwo.go, if_pos less]
      exact ih (e := e + 1) (Nat.two_pow_pos _) (by omega) (by omega)

namespace WasmBytecode

/-- The padded size is a power of two. -/
theorem codeSizeOf_eq (len : ℕ) : codeSizeOf len = 2 ^ max (Nat.clog 2 len) 1 := by
  have power : len.nextPowerOfTwo = 2 ^ Nat.clog 2 len := nextPowerOfTwo_go (e := 0) (Nat.two_pow_pos 0) (Nat.zero_le _)
  have monotone : Monotone fun e : ℕ => 2 ^ e := fun _ _ => Nat.pow_le_pow_right two_pos
  rw [codeSizeOf, power]
  exact (monotone.map_max (a := Nat.clog 2 len) (b := 1)).symm

/-- The number of variables of the padded table. -/
def logSize (bytecode : WasmBytecode) : ℕ := bytecode.rows.length.log2

section

variable {program : IrProgram} {bytecode : WasmBytecode} (preprocessed : preprocess program = .ok bytecode)

include preprocessed

theorem preprocess_ok : program.code.head? = some .halt ∧ program.code.length < 2 ^ 32 ∧
    bytecode.rows = program.code.map BytecodeRow.of ++
      List.replicate (codeSizeOf program.code.length - program.code.length) (BytecodeRow.of .halt) ∧
    preprocessEntries program program.exports = .ok bytecode.entries := by
  unfold preprocess at preprocessed
  simp only at preprocessed
  split at preprocessed
  · cases preprocessed
  · next head =>
      split at preprocessed
      · cases preprocessed
      · next small =>
          obtain ⟨rows, checked, preprocessed⟩ := except_bind_eq_ok.mp preprocessed
          obtain ⟨entries, listed, preprocessed⟩ := except_bind_eq_ok.mp preprocessed
          cases preprocessed
          rw [preprocessRows_ok checked]
          exact ⟨not_not.mp head, Nat.not_le.mp small, rfl, listed⟩

/-- The padded table has a power of two of rows, at least those of the code. -/
theorem length_rows : bytecode.rows.length = 2 ^ bytecode.logSize ∧ 0 < bytecode.logSize ∧ bytecode.logSize ≤ 32 ∧
    program.code.length ≤ bytecode.rows.length := by
  obtain ⟨-, small, rows, -⟩ := preprocess_ok preprocessed
  have room : program.code.length ≤ codeSizeOf program.code.length := by
    rw [codeSizeOf_eq]
    exact (Nat.le_pow_clog one_lt_two _).trans (Nat.pow_le_pow_right two_pos (Nat.le_max_left _ _))
  have size : bytecode.rows.length = codeSizeOf program.code.length := by
    rw [rows, List.length_append, List.length_map, List.length_replicate]
    omega
  have exponent : bytecode.logSize = max (Nat.clog 2 program.code.length) 1 := by
    rw [logSize, size, codeSizeOf_eq, Nat.log2_two_pow]
  have bounded : Nat.clog 2 program.code.length ≤ 32 := Nat.clog_le_of_le_pow small.le
  rw [exponent, size]
  exact ⟨codeSizeOf_eq _, by omega, by omega, room⟩

/-- The rows are those of the code, and halt rows after them. -/
theorem rowAt_eq (k : ℕ) : rowAt bytecode.rows k = BytecodeRow.of ((program.code[k]?).getD .halt) := by
  obtain ⟨-, -, rows, -⟩ := preprocess_ok preprocessed
  rw [rowAt, rows, List.getD_eq_getElem?_getD]
  rcases Nat.lt_or_ge k program.code.length with inside | past
  · rw [List.getElem?_append_left (by rwa [List.length_map]), List.getElem?_map, List.getElem?_eq_getElem inside]
    rfl
  · rw [List.getElem?_append_right (by rwa [List.length_map]), List.getElem?_eq_none past, List.getElem?_replicate]
    split_ifs <;> rfl

/-- The entry of an export is that of the program, within the code. -/
theorem entry_ok {name : String} {pc : Pc} (found : bytecode.entry name = some pc) :
    program.entries.lookup name = some pc ∧ pc.toNat < program.code.length := by
  obtain ⟨-, -, -, listed⟩ := preprocess_ok preprocessed
  rw [entry] at found
  generalize bytecode.entries = entries at found listed
  generalize program.exports = exports at listed
  induction exports generalizing entries with
  | nil =>
      cases listed
      cases found
  | cons export_ exports ih =>
      obtain ⟨name', function⟩ := export_
      rw [preprocessEntries] at listed
      split at listed
      · cases listed
      · next pc' known =>
          split at listed
          · cases listed
          · next inside =>
              obtain ⟨rest, listed', same⟩ := except_bind_eq_ok.mp listed
              cases same
              rw [List.lookup_cons] at found
              split at found
              · next equal =>
                  cases found
                  rw [beq_iff_eq.mp equal]
                  exact ⟨known, Nat.not_le.mp inside⟩
              · exact ih _ found listed'

end

end WasmBytecode

namespace Stages

/-! ## All columns -/

/-- The columns of a trace. -/
structure TraceColumns (F : Type) extends FetchColumns F where
  committed : OneHotColumns F
  ram : RamColumns F
  registersVal : ℕ → ℕ → F
  rdInc : ℕ → F
  rs1Value : ℕ → F
  rs2Value : ℕ → F
  rdWriteValue : ℕ → F
  instructionRa : ℕ → ℕ → ℕ → F
  lookupOutput : ℕ → F
  leftLookupOperand : ℕ → F
  rightLookupOperand : ℕ → F
  leftInput : ℕ → F
  rightInput : ℕ → F
  product : ℕ → F
  shouldBranch : ℕ → F

/-- The dimensions of the relations of a proof. -/
structure ProofShape where
  dimensions : JoltFormulaDimensions
  registers : ReadWriteDimensions
  ram : RamRafEvaluationDimensions
  committedChunkBits : ℕ

namespace ProofShape

variable (shape : ProofShape)

def logT : ℕ := shape.dimensions.trace.logT

def logK : ℕ := shape.ram.readWrite.logK

def booleanity : BooleanityDimensions := ⟨shape.dimensions.raLayout, shape.logT, shape.committedChunkBits⟩

/-- The dimensions that a verifier derives, with phases that fit. -/
structure From (config : FiatShamir.JoltOneHotConfig) (readWrite : JoltReadWriteConfig) (checked : CheckedInputs)
    (bytecode : WasmBytecode) : Prop where
  dimensions : JoltFormulaDimensions.tryFrom
    (.of config checked.traceLength.log2 (2 * xlen) bytecode.rows.length checked.ramK) = .ok shape.dimensions
  registers : shape.registers = readWrite.registerDimensions checked.traceLength.log2 registerAddressBits
  ram : shape.ram.readWrite = readWrite.ramDimensions checked.traceLength.log2 checked.ramK.log2
  registersFit : shape.registers.Fits
  ramFit : shape.ram.readWrite.Fits
  chunk : shape.committedChunkBits = config.logKChunk.toNat

/-- What derived dimensions have in common. -/
structure Sized (checked : CheckedInputs) (bytecode : WasmBytecode) (virtualRaPolys : ℕ) : Prop where
  registers : shape.registers.logT = shape.logT ∧ shape.registers.logK = registerAddressBits
  registersFit : shape.registers.Fits
  ram : shape.ram.readWrite.logT = shape.logT
  domain : shape.logK = checked.ramK.log2
  ramFit : shape.ram.readWrite.Fits
  positive : 0 < shape.committedChunkBits
  narrow : shape.committedChunkBits ≤ 128
  readRaf : shape.dimensions.instructionReadRaf = ⟨shape.logT, 2 * xlen, virtualRaPolys⟩
  tiles : virtualRaPolys * (shape.dimensions.instructionRaVirtualization.committedPerVirtual * shape.committedChunkBits) =
    2 * xlen
  layout : shape.dimensions.raLayout = ⟨chunkCount (2 * xlen) shape.committedChunkBits,
    chunkCount bytecode.logSize shape.committedChunkBits, chunkCount shape.logK shape.committedChunkBits⟩
  bytecode : shape.dimensions.bytecodeReadRaf =
    ⟨shape.logT, bytecode.logSize, chunkCount bytecode.logSize shape.committedChunkBits⟩

variable {shape}

theorem From.sized {config : FiatShamir.JoltOneHotConfig} {readWrite : JoltReadWriteConfig} {checked : CheckedInputs}
    {bytecode : WasmBytecode} (from_ : shape.From config readWrite checked bytecode)
    (rows : bytecode.rows.length = 2 ^ bytecode.logSize) (power : 2 ^ checked.ramK.log2 = checked.ramK) :
    ∃ virtualRaPolys, shape.Sized checked bytecode virtualRaPolys := by
  obtain ⟨dimensions, registers, ram, registersFit, ramFit, chunk⟩ := from_
  have tiled := JoltFormulaDimensions.tryFrom_tiled dimensions
  have cycles : shape.logT = checked.traceLength.log2 := congrArg TraceDimensions.logT tiled.trace
  have table : ceilLog2 bytecode.rows.length = bytecode.logSize := by rw [rows, JoltFormulaDimensions.ceilLog2_two_pow]
  have words : ceilLog2 checked.ramK = checked.ramK.log2 := by
    conv_lhs => rw [← power]
    exact JoltFormulaDimensions.ceilLog2_two_pow _
  have domain : shape.logK = checked.ramK.log2 := congrArg ReadWriteDimensions.logK ram
  obtain ⟨positive, -, ⟨per, committed⟩, ⟨virtual, whole⟩, -, layout, readRaf, virtualization, bytecodeReadRaf, -⟩ := tiled
  change 0 < config.logKChunk.toNat at positive
  change config.lookupsRaVirtualLogKChunk.toNat = config.logKChunk.toNat * per at committed
  change 2 * xlen = config.lookupsRaVirtualLogKChunk.toNat * virtual at whole
  simp only [JoltOneHotDimensions.of, table, words, ← cycles, ← domain, ← chunk] at layout readRaf virtualization bytecodeReadRaf
  rw [← chunk] at positive committed
  have some_ : 0 < config.lookupsRaVirtualLogKChunk.toNat := by
    rcases Nat.eq_zero_or_pos config.lookupsRaVirtualLogKChunk.toNat with zero | positive
    · rw [zero, Nat.zero_mul] at whole
      exact absurd whole (by decide)
    · exact positive
  have divided : 2 * xlen / config.lookupsRaVirtualLogKChunk.toNat = virtual := by
    rw [whole, Nat.mul_div_cancel_left _ some_]
  have each : config.lookupsRaVirtualLogKChunk.toNat / shape.committedChunkBits = per := by
    rw [committed, Nat.mul_div_cancel_left _ positive]
  have tiles : virtual * (per * shape.committedChunkBits) = 2 * xlen := by
    rw [whole, committed]
    ring
  have narrow : shape.committedChunkBits ∣ 2 * xlen := by
    rw [whole, committed, Nat.mul_assoc]
    exact Nat.dvd_mul_right _ _
  rw [divided] at readRaf
  refine ⟨virtual, ?_, registersFit, ?_, domain, ramFit, positive, Nat.le_of_dvd (by decide) narrow, readRaf, ?_, layout,
    bytecodeReadRaf⟩
  · rw [registers, cycles]
    exact ⟨rfl, rfl⟩
  · rw [ram, cycles]
    rfl
  · rw [virtualization]
    simp only [each, tiles]

end ProofShape

namespace TraceColumns

variable {F : Type} (columns : TraceColumns F)

def registers : RegisterColumns F where
  registersVal := columns.registersVal
  rs1Ra := columns.rs1Ra
  rs2Ra := columns.rs2Ra
  rdWa := columns.rdWa
  rdInc := columns.rdInc
  rs1Value := columns.rs1Value
  rs2Value := columns.rs2Value
  rdWriteValue := columns.rdWriteValue

def lookups : LookupColumns F where
  lookupOutput := columns.lookupOutput
  leftLookupOperand := columns.leftLookupOperand
  rightLookupOperand := columns.rightLookupOperand
  lookupTableFlag := columns.lookupTableFlag
  instructionRafFlag := columns.instructionRafFlag
  instructionRa := columns.instructionRa

variable [Field F]

/-- The witness of a cycle. -/
def cycle (j : ℕ) : Column → F
  | .const => 1
  | .leftInput => columns.leftInput j
  | .rightInput => columns.rightInput j
  | .product => columns.product j
  | .pc => columns.pc j
  | .imm => columns.imm j
  | .ramAddress => columns.ram.ramAddress j
  | .rs1Value => columns.rs1Value j
  | .rs2Value => columns.rs2Value j
  | .rdWriteValue => columns.rdWriteValue j
  | .ramReadValue => columns.ram.ramReadValue j
  | .ramWriteValue => columns.ram.ramWriteValue j
  | .leftLookupOperand => columns.leftLookupOperand j
  | .rightLookupOperand => columns.rightLookupOperand j
  | .nextPc => columns.nextPc j
  | .lookupOutput => columns.lookupOutput j
  | .shouldBranch => columns.shouldBranch j
  | .flag f => columns.flag f j

/-- All relations hold at every point and for every challenge, and the constraints in each cycle. -/
structure Accepted (shape : ProofShape) (initial : InitialEvaluations F) (checked : CheckedInputs)
    (bytecode : List BytecodeRow) : Prop where
  memory : MemoryHolds columns.committed columns.ram shape.booleanity shape.ram initial
    (PublicIoMemory.new checked.publicIo) shape.dimensions.instructionReadRaf.instructionAddressBits
  registers : columns.registers.Holds shape.registers
  fetch : columns.Holds columns.committed shape.dimensions.bytecodeReadRaf bytecode checked.entryPc.toNat
    shape.committedChunkBits
  lookups : columns.lookups.Holds columns.committed shape.dimensions.instructionReadRaf
    shape.dimensions.instructionRaVirtualization.committedPerVirtual shape.committedChunkBits
  constraints : ∀ j < 2 ^ shape.logT, Satisfies (columns.cycle j)

/-- The register that a row of the table names. -/
def registerPlace (bytecode : List BytecodeRow) (register : BytecodeRow → ℕ) (place : Option ℕ) : Option ℕ :=
  (place.map fun k => register (rowAt bytecode k)).filter (· < laneRegisterCount)

/-- The row that the accesses of a cycle pick. -/
def tablePlace (shape : ProofShape) (hots : JoltRaPolynomial → ℕ → Option ℕ) (j : ℕ) : Option ℕ :=
  accessedPlace shape.dimensions.bytecodeReadRaf.logK shape.committedChunkBits fun i => hots (.bytecode i) j

/-- The place of the lookup tables that they pick. -/
def lookupPlace (shape : ProofShape) (hots : JoltRaPolynomial → ℕ → Option ℕ) (j : ℕ) : Option ℕ :=
  accessedPlace (2 * xlen) shape.committedChunkBits fun i => hots (.instruction i) j

/-- The word that they pick. -/
def wordPlace (shape : ProofShape) (hots : JoltRaPolynomial → ℕ → Option ℕ) : ℕ → Option ℕ :=
  ramPlace shape.logK shape.committedChunkBits hots

/-- The columns are those of the rows, table entries and words that the accesses pick. -/
structure Traced (shape : ProofShape) (words : ℕ → F) (io : PublicIo) (bytecode : List BytecodeRow)
    (entryBytecodeIndex : ℕ) (hots : JoltRaPolynomial → ℕ → Option ℕ) : Prop where
  hot : columns.committed.Hot shape.booleanity hots
  accesses : ∀ j < 2 ^ shape.logT, HotColumn (2 ^ shape.logK) (fun k => columns.ram.ramRa k j) (wordPlace shape hots j)
  memory : columns.ram.Run shape.logK (2 ^ shape.logT) words (wordPlace shape hots)
  final : ∀ k, 1 ≤ k → k < 1536 → columns.ram.ramValFinal k = finalVector io k
  registers : columns.registers.Run (2 ^ shape.logT)
    (fun j => registerPlace bytecode BytecodeRow.rs1 (tablePlace shape hots j))
    (fun j => registerPlace bytecode BytecodeRow.rs2 (tablePlace shape hots j))
    fun j => registerPlace bytecode BytecodeRow.rd (tablePlace shape hots j)
  fetch : columns.Fetched shape.logT bytecode entryBytecodeIndex (tablePlace shape hots)
  lookups : columns.lookups.Looked columns.committed shape.dimensions.instructionReadRaf
    shape.dimensions.instructionRaVirtualization.committedPerVirtual shape.committedChunkBits (lookupPlace shape hots)
  constraints : ∀ j < 2 ^ shape.logT, Satisfies (columns.cycle j)

/-! ## The relations and what they say -/

/-- A selector over the registers that agrees with the row's is hot at the register that the row names. -/
theorem registerPlace_hot {bytecode : List BytecodeRow} {register : BytecodeRow → ℕ} {selector : ℕ → F} {place : Option ℕ}
    (same : ∀ r < laneRegisterCount, selector r = place.elim 0 fun k => if register (rowAt bytecode k) = r then 1 else 0) :
    HotColumn (2 ^ registerAddressBits) selector (registerPlace bytecode register place) := by
  constructor
  · intro r here
    exact of_decide_eq_true (Option.filter_eq_some_iff.mp here).2
  · intro r small
    rw [same r small]
    cases place with
    | none => exact (if_neg nofun).symm
    | some k =>
        refine if_congr ?_ rfl rfl
        rw [registerPlace, Option.map_some, Option.filter_eq_some_iff, Option.some_inj, decide_eq_true_iff]
        exact ⟨fun here => ⟨here, small⟩, fun both => both.1⟩

variable {columns}

theorem selects_of_fetched {logT : ℕ} {bytecode : List BytecodeRow} {entryBytecodeIndex : ℕ} {place : ℕ → Option ℕ}
    (fetched : columns.Fetched logT bytecode entryBytecodeIndex place) :
    columns.registers.Selects (2 ^ logT) (fun j => registerPlace bytecode BytecodeRow.rs1 (place j))
      (fun j => registerPlace bytecode BytecodeRow.rs2 (place j)) fun j => registerPlace bytecode BytecodeRow.rd (place j) where
  rs1Ra j inside := registerPlace_hot fun r small => fetched.rs1 r small j inside
  rs2Ra j inside := registerPlace_hot fun r small => fetched.rs2 r small j inside
  rdWa j inside := registerPlace_hot fun r small => fetched.rd r small j inside

end TraceColumns

section

variable {F : Type} [WideField F] {columns : TraceColumns F} {shape : ProofShape} {source : IrProgram} {maxTraceLength : ℕ}
  {preprocessing : WasmProgramPreprocessing}
  (preprocessed : WasmProgramPreprocessing.new source maxTraceLength = .ok preprocessing) {io : PublicIo}
  {checked : CheckedInputs} (valid : Checked (.full preprocessing) io checked) {virtualRaPolys : ℕ}
  (sized : shape.Sized checked preprocessing.bytecode virtualRaPolys) {initial : InitialEvaluations F}
  (opened : initial.OfFull checked preprocessing)

theorem preprocess_bytecode (preprocessed : WasmProgramPreprocessing.new source maxTraceLength = .ok preprocessing) :
    WasmBytecode.preprocess source = .ok preprocessing.bytecode := by
  obtain ⟨bytecode, found, preprocessed⟩ := except_bind_eq_ok.mp preprocessed
  cases preprocessed
  exact found

include preprocessed valid sized opened

/-- The relations hold for every challenge exactly when the columns are those of some accesses. -/
theorem accepted_iff_traced (entry : checked.entryPc.toNat < preprocessing.bytecode.rows.length) :
    columns.Accepted shape initial checked preprocessing.bytecode.rows ↔
      ∃ hots, columns.Traced shape (initialVector preprocessing io.inputs) io preprocessing.bytecode.rows
        checked.entryPc.toNat hots := by
  obtain ⟨rows, some_, narrow, -⟩ := WasmBytecode.length_rows (preprocess_bytecode preprocessed)
  have table : shape.dimensions.bytecodeReadRaf.logT = shape.logT ∧
      shape.dimensions.bytecodeReadRaf.logK = preprocessing.bytecode.logSize ∧
      shape.dimensions.bytecodeReadRaf.committedRaPolys =
        chunkCount preprocessing.bytecode.logSize shape.committedChunkBits := by
    rw [sized.bytecode]
    exact ⟨rfl, rfl, rfl⟩
  have lookup : shape.dimensions.instructionReadRaf.logT = shape.logT ∧
      shape.dimensions.instructionReadRaf.instructionAddressBits = 2 * xlen ∧
      shape.dimensions.instructionReadRaf.numVirtualRaPolys = virtualRaPolys := by
    rw [sized.readRaf]
    exact ⟨rfl, rfl, rfl⟩
  have domain : checked.ramK.log2 < 64 :=
    (Nat.pow_lt_pow_iff_right one_lt_two).mp (valid.power.trans_lt valid.bounded)
  have chunk := sized.narrow
  have few : shape.booleanity.layout.total * 3 ≤ 2 ^ 253 := by
    have each (width : ℕ) : chunkCount width shape.committedChunkBits ≤ width + shape.committedChunkBits - 1 :=
      Nat.div_le_self _ _
    have first := each (2 * xlen)
    have second := each preprocessing.bytecode.logSize
    have third := each shape.logK
    have word : xlen = 64 := rfl
    have total : shape.booleanity.layout.total = chunkCount (2 * xlen) shape.committedChunkBits +
        chunkCount preprocessing.bytecode.logSize shape.committedChunkBits + chunkCount shape.logK shape.committedChunkBits := by
      rw [ProofShape.booleanity, sized.layout, JoltRaPolynomialLayout.total]
    have address := sized.domain
    omega
  have virtual : virtualRaPolys ≤ 2 ^ 253 := by
    have whole : virtualRaPolys ∣ 2 * xlen := ⟨_, sized.tiles.symm⟩
    exact (Nat.le_of_dvd (by decide) whole).trans (by decide)
  have memory := @memoryHolds_iff F _ columns.committed columns.ram source maxTraceLength preprocessing preprocessed io checked
    valid shape.booleanity shape.ram sized.ramFit sized.ram sized.domain (by rw [ProofShape.booleanity, sized.layout]; rfl)
    sized.positive (by change shape.committedChunkBits < 253; omega) few initial opened
  -- Over one-hot accesses each argument says what its columns are.
  have fetch {hots : JoltRaPolynomial → ℕ → Option ℕ} (hot : columns.committed.Hot shape.booleanity hots) :
      columns.toFetchColumns.Holds columns.committed shape.dimensions.bytecodeReadRaf preprocessing.bytecode.rows
          checked.entryPc.toNat shape.committedChunkBits ↔
        columns.Fetched shape.logT preprocessing.bytecode.rows checked.entryPc.toNat (TraceColumns.tablePlace shape hots) := by
    have joined : ∀ j < 2 ^ shape.dimensions.bytecodeReadRaf.logT,
        HotColumn (2 ^ shape.dimensions.bytecodeReadRaf.logK)
          (fun k => columns.committed.chunkProduct .bytecode shape.dimensions.bytecodeReadRaf.logK shape.committedChunkBits k j)
          (TraceColumns.tablePlace shape hots j) := fun j below =>
      OneHotColumns.chunkProduct_hot sized.positive fun i listed => hot.hot _
        (shape.booleanity.layout.bytecode_mem (by
          rw [ProofShape.booleanity, sized.layout]
          rwa [table.2.1] at listed)) j (by rwa [table.1] at below)
    have read : columns.toFetchColumns.Holds .. ↔ _ := FetchColumns.holds_iff_fetched (apart_of_wide (by decide)) sized.positive
      (by rwa [table.2.1]) (by rw [table.2.1]; omega) (by rw [table.2.1]; exact rows) (by rw [table.2.1, table.2.2])
      (by rw [table.2.1, ← rows]; exact entry) joined
    rwa [table.1] at read
  have lookups {hots : JoltRaPolynomial → ℕ → Option ℕ} (hot : columns.committed.Hot shape.booleanity hots) :
      columns.lookups.Holds columns.committed shape.dimensions.instructionReadRaf
          shape.dimensions.instructionRaVirtualization.committedPerVirtual shape.committedChunkBits ↔
        columns.lookups.Looked columns.committed shape.dimensions.instructionReadRaf
          shape.dimensions.instructionRaVirtualization.committedPerVirtual shape.committedChunkBits
          (TraceColumns.lookupPlace shape hots) :=
    LookupColumns.holds_iff_looked lookup.2.1 (by rw [lookup.2.2]; exact sized.tiles) sized.positive
      (apart_of_wide (by decide)) (apart_of_wide (by rwa [lookup.2.2])) fun j below =>
        OneHotColumns.chunkProduct_hot sized.positive fun i listed => hot.hot _
          (shape.booleanity.layout.instruction_mem (by rwa [ProofShape.booleanity, sized.layout])) j (by rwa [lookup.1] at below)
  have registers {place : ℕ → Option ℕ}
      (fetched : columns.Fetched shape.logT preprocessing.bytecode.rows checked.entryPc.toNat place) :
      columns.registers.Holds shape.registers ↔ columns.registers.Run (2 ^ shape.logT)
        (fun j => TraceColumns.registerPlace preprocessing.bytecode.rows BytecodeRow.rs1 (place j))
        (fun j => TraceColumns.registerPlace preprocessing.bytecode.rows BytecodeRow.rs2 (place j))
        fun j => TraceColumns.registerPlace preprocessing.bytecode.rows BytecodeRow.rd (place j) := by
    have run := RegisterColumns.holds_iff_run (apart_of_wide (by decide)) sized.registersFit sized.registers.2
      (by rw [sized.registers.1]; exact TraceColumns.selects_of_fetched fetched)
    rwa [sized.registers.1] at run
  constructor
  · intro accepted
    obtain ⟨hots, hot, accesses, run, final⟩ := (memory _).mp accepted.memory
    have fetched := (fetch hot).mp accepted.fetch
    exact ⟨hots, hot, accesses, run, final, (registers fetched).mp accepted.registers, fetched, (lookups hot).mp accepted.lookups,
      accepted.constraints⟩
  · rintro ⟨hots, traced⟩
    exact ⟨(memory _).mpr ⟨hots, traced.hot, traced.accesses, traced.memory, traced.final⟩,
      (registers traced.fetch).mpr traced.registers, (fetch traced.hot).mpr traced.fetch, (lookups traced.hot).mpr traced.lookups,
      traced.constraints⟩

end

end Stages

end JoltWasm
