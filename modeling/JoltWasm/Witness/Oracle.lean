import JoltWasm.Claims.FormulaDimensions
import JoltWasm.Opening.FinalPoint
import JoltWasm.Witness.Backend

/-!
# The oracle of the backend

Every polynomial of the protocol that derives from a trace, by its id: the columns of the cycle domain, the one-hot grids
of the committed accesses, and the contents of the RAM and of the registers, replayed from the rows.
-/

namespace JoltWasm

open Layout

/-! ## Ids and shapes -/

inductive JoltVirtualPolynomial where
  | pc
  | nextPc
  | leftLookupOperand
  | rightLookupOperand
  | leftInstructionInput
  | rightInstructionInput
  | product
  | shouldBranch
  | rd
  | imm
  | rs1Value
  | rs2Value
  | rdWriteValue
  | rs1Ra
  | rs2Ra
  | rdWa
  | lookupOutput
  | instructionRaf
  | instructionRafFlag
  | instructionRa (index : ℕ)
  | registersVal
  | ramAddress
  | ramRa
  | ramReadValue
  | ramWriteValue
  | ramVal
  | ramValInit
  | ramValFinal
  | ramHammingWeight
  | univariateSkip
  | rowFlag (flag : RowFlag)
  | lookupTableFlag (table : ℕ)
  | bytecodeValClaim (stage : ℕ)
  | bytecodeReadRafAddrClaim
  | booleanityAddrClaim
  | bytecodeClaimReductionIntermediate
  | programImageInitContributionRw
  | fusedInc
  deriving DecidableEq

inductive JoltPolynomialId where
  | committed (polynomial : JoltCommittedPolynomial)
  | virtual (polynomial : JoltVirtualPolynomial)
  deriving DecidableEq

inductive PolynomialEncoding where
  | dense
  | compact
  | oneHot
  deriving DecidableEq

/-- The domain of a polynomial, as the logarithm of its size, and its physical representation. -/
structure Shape where
  logRows : ℕ
  encoding : PolynomialEncoding
  deriving DecidableEq

def committedProgramReason : String :=
  "committed-program polynomial served from preprocessing, not the execution trace"
def latticeReason : String :=
  "lattice-mode packed-witness polynomial; the WebAssembly stack never constructs it"
def protocolIntermediateReason : String :=
  "protocol intermediate produced during proving, never served by a witness backend"
def unservedReason : String :=
  "no consumer on the modular stack; no trace derivation is defined"

/-- The order of the committed polynomials in a proof. -/
def proofCommitmentOrder (layout : JoltRaPolynomialLayout) : List JoltCommittedPolynomial :=
  [.rdInc, .ramInc] ++ (List.range layout.instruction).map .instructionRa ++ (List.range layout.ram).map .ramRa ++
    (List.range layout.bytecode).map .bytecodeRa

/-! ## The witnesses of a row -/

namespace Extract

variable (row : WasmTraceRow) (next : Option WasmTraceRow)

def rdInc : ℤ :=
  if row.rdIndex.isSome then (row.rdWriteValue.toNat : ℤ) - (row.rdPreValue.toNat : ℤ) else 0

def ramInc : ℤ :=
  if row.isStore then (row.ramWriteValue.toNat : ℤ) - (row.ramReadValue.toNat : ℤ) else 0

/-- The pc of the row after, the padding's at the last cycle. -/
def nextPc : ℕ := next.elim 0 fun row => row.pc.toNat

/-- The index of the row's lookup, zero without one. -/
def lookupIndex : ℕ := (row.lookupIndex.getD 0).toNat

def product : ℕ := row.leftInput.toNat * row.rightInput.toNat

def shouldBranch : Bool := row.flags.has .branch && row.lookupOutput == 1

def ramAccessAddress : Option U64 := if row.isLoad || row.isStore then some row.ramAddress else none

def ramHammingWeight : Bool := (ramAccessAddress row).any (· ≠ 0)

def remappedRamAddress : Option ℕ := (ramAccessAddress row).bind fun address => remapWordAddress address.toNat

/-! The hot address of a chunk: lookups and pcs are hot in every cycle, RAM accesses only where there is one. -/

def instructionRaChunk (selector : RaChunkSelector) : Option ℕ := some (selector.chunk (lookupIndex row))

def bytecodeRaChunk (selector : RaChunkSelector) : Option ℕ := some (selector.chunk row.pc.toNat)

def ramRaChunk (selector : RaChunkSelector) : Option ℕ := (remappedRamAddress row).map selector.chunk

end Extract

/-- The error of a chunk selector, under the backend's label. -/
def OpeningError.toWitness : OpeningError → WitnessError
  | .invalidDimensions reason => .invalidDimensions joltVmLabel reason
  | _ => .unknownOracle joltVmLabel

/-- An address as the messages write it. -/
def hexAddress (address : ℕ) : String := "0x" ++ String.ofList (Nat.toDigits 16 address)

namespace TraceBackend

variable (backend : TraceBackend)

/-! ## Dimensions -/

def requireIndex (index count : ℕ) : Except WitnessError Unit :=
  if index < count then .ok () else .error (.unknownOracle joltVmLabel)

def formulaDimensions : Except WitnessError Stages.JoltFormulaDimensions :=
  (Stages.JoltFormulaDimensions.tryFrom (.of backend.config.oneHot backend.config.logT (2 * xlen)
    backend.preprocessing.bytecode.rows.length backend.config.ramK)).mapError fun error =>
      .invalidDimensions joltVmLabel error.message

def raLayout : Except WitnessError JoltRaPolynomialLayout := do
  let dimensions ← backend.formulaDimensions
  return dimensions.raLayout

def committedPolynomialOrder : Except WitnessError (List JoltCommittedPolynomial) := do
  let layout ← backend.raLayout
  return proofCommitmentOrder layout

def ramLogK : Except WitnessError ℕ :=
  if backend.config.ramK = 0 ∨ isPowerOfTwo backend.config.ramK = false then
    .error (.invalidDimensions joltVmLabel s!"ram_k must be a nonzero power of two, got {backend.config.ramK}")
  else .ok backend.config.ramK.log2

/-- The variables of a grid over the cycle domain. -/
def gridLogRows (logRows : ℕ) (reason : String) : Except WitnessError ℕ :=
  if backend.config.logT + logRows < 2 ^ 64 then .ok (backend.config.logT + logRows)
  else .error (.invalidDimensions joltVmLabel reason)

def ramReadWriteLogRows : Except WitnessError ℕ := do
  let logK ← backend.ramLogK
  backend.gridLogRows logK "RAM read-write rows overflow"

def registerReadWriteLogRows : Except WitnessError ℕ :=
  backend.gridLogRows registerAddressBits "register read-write rows overflow"

def oneHotLogRows : Except WitnessError ℕ :=
  backend.gridLogRows backend.config.oneHot.logKChunk.toNat "one-hot committed rows overflow"

def instructionVirtualRaLogRows : Except WitnessError ℕ :=
  backend.gridLogRows backend.config.oneHot.lookupsRaVirtualLogKChunk.toNat "instruction virtual RA rows overflow"

def instructionVirtualRaCount : Except WitnessError ℕ :=
  let chunkBits := backend.config.oneHot.lookupsRaVirtualLogKChunk.toNat
  if chunkBits = 0 ∨ (2 * xlen) % chunkBits ≠ 0 then
    .error (.invalidDimensions joltVmLabel s!"lookup virtual chunk bits {chunkBits} must evenly divide {2 * xlen}")
  else .ok (2 * xlen / chunkBits)

/-- The shape of a served polynomial. -/
def shapeOf : JoltPolynomialId → Except WitnessError Shape
  | .committed .rdInc | .committed .ramInc => .ok ⟨backend.config.logT, .compact⟩
  | .committed (.instructionRa index) => do
      requireIndex index (← backend.raLayout).instruction
      return ⟨← backend.oneHotLogRows, .oneHot⟩
  | .committed (.bytecodeRa index) => do
      requireIndex index (← backend.raLayout).bytecode
      return ⟨← backend.oneHotLogRows, .oneHot⟩
  | .committed (.ramRa index) => do
      requireIndex index (← backend.raLayout).ram
      return ⟨← backend.oneHotLogRows, .oneHot⟩
  | .committed (.bytecodeChunk _) => .error (.notServed "BytecodeChunk" committedProgramReason)
  | .committed .programImageInit => .error (.notServed "ProgramImageInit" committedProgramReason)
  | .virtual .ramVal | .virtual .ramRa => do return ⟨← backend.ramReadWriteLogRows, .dense⟩
  | .virtual .registersVal | .virtual .rs1Ra | .virtual .rs2Ra | .virtual .rdWa => do
      return ⟨← backend.registerReadWriteLogRows, .dense⟩
  | .virtual .ramValFinal => do return ⟨← backend.ramLogK, .dense⟩
  | .virtual (.instructionRa index) => do
      requireIndex index (← backend.instructionVirtualRaCount)
      return ⟨← backend.instructionVirtualRaLogRows, .dense⟩
  | .virtual (.lookupTableFlag index) => do
      requireIndex index WasmTable.count
      return ⟨backend.config.logT, .dense⟩
  | .virtual .rd => .error (.notServed "Rd" unservedReason)
  | .virtual .instructionRaf => .error (.notServed "InstructionRaf" unservedReason)
  | .virtual .ramValInit => .error (.notServed "RamValInit" unservedReason)
  | .virtual .univariateSkip => .error (.notServed "UnivariateSkip" protocolIntermediateReason)
  | .virtual (.bytecodeValClaim _) => .error (.notServed "BytecodeValClaim" protocolIntermediateReason)
  | .virtual .bytecodeReadRafAddrClaim => .error (.notServed "BytecodeReadRafAddrClaim" protocolIntermediateReason)
  | .virtual .booleanityAddrClaim => .error (.notServed "BooleanityAddrClaim" protocolIntermediateReason)
  | .virtual .bytecodeClaimReductionIntermediate =>
      .error (.notServed "BytecodeClaimReductionIntermediate" protocolIntermediateReason)
  | .virtual .programImageInitContributionRw =>
      .error (.notServed "ProgramImageInitContributionRw" protocolIntermediateReason)
  | .virtual .fusedInc => .error (.notServed "FusedInc" latticeReason)
  | .virtual _ => .ok ⟨backend.config.logT, .dense⟩

/-! ## Columns and one-hot grids -/

variable {F : Type} [Field F]

/-- A column of the cycle domain. -/
def materializeCycle (extract : WasmTraceRow → Option WasmTraceRow → F) : Except WitnessError (List F) :=
  backend.walkCycles fun row next => .ok (extract row next)

/-- Ones at the hot addresses of the cycles, in a grid of addresses by cycles. -/
def scatterOnes (cycles : ℕ) : ℕ → List (Option ℕ) → List F → List F
  | _, [], values => values
  | cycle, address :: hotAddresses, values =>
      scatterOnes cycles (cycle + 1) hotAddresses (address.elim values fun address => values.set (address * cycles + cycle) 1)

/-- One member of a one-hot decomposition. -/
def materializeOneHot (index chunks chunkBits : ℕ) (extract : WasmTraceRow → RaChunkSelector → Option ℕ) :
    Except WitnessError (List F) := do
  let selector ← (RaChunkSelector.new index chunks chunkBits).mapError OpeningError.toWitness
  let cycles ← checkedPow2 backend.config.logT
  let logRows ← backend.gridLogRows chunkBits "one-hot rows overflow"
  let hotAddresses ← backend.walkCycles fun row _ => .ok (extract row selector)
  let rows ← checkedPow2 logRows
  return scatterOnes cycles 0 hotAddresses (List.replicate rows 0)

/-! ## The RAM -/

/-- The word of an address, within the domain. -/
def remappedRamAddress (address : ℕ) : Except WitnessError ℕ :=
  (remapWordAddress address).elim
    (.error (.invalidWitnessData joltVmLabel s!"RAM address {hexAddress address} is outside the RAM window or misaligned"))
    fun index =>
      if index < backend.config.ramK then .ok index
      else .error (.invalidWitnessData joltVmLabel
        s!"RAM address {hexAddress address} exceeds the {backend.config.ramK}-word RAM domain")

/-- The program image and the inputs. -/
def initialRamState : Except WitnessError (List U64) := do
  if backend.config.ramK = 0 then .error (.invalidDimensions joltVmLabel "ram_k must be nonzero")
  (backend.preprocessing.initialMemory backend.io.inputs).foldlM (fun state word => do
    let index ← backend.remappedRamAddress word.address
    return state.set index word.value) (List.replicate backend.config.ramK 0)

/-- The stores of the rows, replayed in order. -/
def finalRamState : Except WitnessError (List U64) := do
  let state ← backend.initialRamState
  backend.rows.foldlM (fun state row =>
    if row.isStore then do
      let address ← backend.remappedRamAddress row.ramAddress.toNat
      return state.set address row.ramWriteValue
    else return state) state

/-- The words of a state, in the column of a cycle. -/
def writeColumn (cycles cycle : ℕ) : ℕ → List U64 → List F → List F
  | _, [], values => values
  | address, value :: state, values =>
      writeColumn cycles cycle (address + 1) state (values.set (address * cycles + cycle) (value.toNat : F))

/-- The state after a cycle, and the grid with the column of the cycle. -/
def ramValCycle (cycles : ℕ) (loop : List U64 × List F) (cycle : ℕ) : Except WitnessError (List U64 × List F) :=
  let values := writeColumn cycles cycle 0 loop.1 loop.2
  backend.rows[cycle]?.elim (.ok (loop.1, values)) fun row =>
    if row.isLoad then do
      let address ← backend.remappedRamAddress row.ramAddress.toNat
      return (loop.1, values.set (address * cycles + cycle) (row.ramReadValue.toNat : F))
    else if row.isStore then do
      let address ← backend.remappedRamAddress row.ramAddress.toNat
      return (loop.1.set address row.ramWriteValue, values.set (address * cycles + cycle) (row.ramReadValue.toNat : F))
    else return (loop.1, values)

def materializeRamVal : Except WitnessError (List F) := do
  let cycles ← checkedPow2 backend.config.logT
  let state ← backend.initialRamState
  let (_, values) ← (List.range cycles).foldlM (backend.ramValCycle cycles)
    (state, List.replicate (backend.config.ramK * cycles) 0)
  return values

def ramRaCycle (cycles : ℕ) (values : List F) (cycle : ℕ) : Except WitnessError (List F) :=
  (backend.rows[cycle]?.bind Extract.ramAccessAddress).elim (.ok values) fun rawAddress => do
    let address ← backend.remappedRamAddress rawAddress.toNat
    return values.set (address * cycles + cycle) 1

def materializeRamRa : Except WitnessError (List F) := do
  let cycles ← checkedPow2 backend.config.logT
  (List.range cycles).foldlM (backend.ramRaCycle cycles) (List.replicate (backend.config.ramK * cycles) 0)

def materializeRamValFinal : Except WitnessError (List F) := do
  let state ← backend.finalRamState
  return state.map fun word => (word.toNat : F)

/-! ## The registers -/

def invalidRegisterAddress (register : ℕ) : WitnessError :=
  .invalidWitnessData joltVmLabel
    s!"register index {register} exceeds {registerAddressBits}-bit register read-write domain"

/-- A register within the domain. -/
def registerAddress (registerCount : ℕ) (register : Reg) : Except WitnessError ℕ :=
  if registerCount ≤ register.val then .error (invalidRegisterAddress register.val) else .ok register.val

def registersValCycle (cycles registerCount : ℕ) (loop : List U64 × List F) (cycle : ℕ) :
    Except WitnessError (List U64 × List F) :=
  let values := writeColumn cycles cycle 0 loop.1 loop.2
  backend.rows[cycle]?.elim (.ok (loop.1, values)) fun row =>
    row.rdIndex.elim (.ok (loop.1, values)) fun register => do
      let register ← registerAddress registerCount register
      return (loop.1.set register row.rdWriteValue, values)

def registerSelectorCycle (cycles registerCount : ℕ) (register : WasmTraceRow → Option Reg) (values : List F) (cycle : ℕ) :
    Except WitnessError (List F) :=
  (backend.rows[cycle]?.bind register).elim (.ok values) fun register => do
    let register ← registerAddress registerCount register
    return values.set (register * cycles + cycle) 1

def materializeRegistersVal : Except WitnessError (List F) := do
  let cycles ← checkedPow2 backend.config.logT
  let registerCount ← checkedPow2 registerAddressBits
  let (_, values) ← (List.range cycles).foldlM (backend.registersValCycle cycles registerCount)
    (List.replicate registerCount 0, List.replicate (registerCount * cycles) 0)
  return values

/-- The selector of a register operand; past the rows no register is selected. -/
def materializeRegisterSelector (register : WasmTraceRow → Option Reg) : Except WitnessError (List F) := do
  let cycles ← checkedPow2 backend.config.logT
  let registerCount ← checkedPow2 registerAddressBits
  (List.range cycles).foldlM (backend.registerSelectorCycle cycles registerCount register)
    (List.replicate (registerCount * cycles) 0)

/-! ## The tables -/

/-- A truth value in the field. -/
def ofBool (b : Bool) : F := if b then 1 else 0

/-- The evaluations of a served polynomial. -/
def oracleTable (id : JoltPolynomialId) : Except WitnessError (List F) := do
  let _ ← backend.shapeOf id
  match id with
  | .committed .rdInc => backend.materializeCycle fun row _ => (Extract.rdInc row : F)
  | .committed .ramInc => backend.materializeCycle fun row _ => (Extract.ramInc row : F)
  | .committed (.instructionRa index) =>
      backend.materializeOneHot index (← backend.raLayout).instruction backend.config.oneHot.logKChunk.toNat
        Extract.instructionRaChunk
  | .committed (.bytecodeRa index) =>
      backend.materializeOneHot index (← backend.raLayout).bytecode backend.config.oneHot.logKChunk.toNat Extract.bytecodeRaChunk
  | .committed (.ramRa index) =>
      backend.materializeOneHot index (← backend.raLayout).ram backend.config.oneHot.logKChunk.toNat Extract.ramRaChunk
  | .virtual .ramVal => backend.materializeRamVal
  | .virtual .ramRa => backend.materializeRamRa
  | .virtual .registersVal => backend.materializeRegistersVal
  | .virtual .rs1Ra => backend.materializeRegisterSelector WasmTraceRow.rs1Index
  | .virtual .rs2Ra => backend.materializeRegisterSelector WasmTraceRow.rs2Index
  | .virtual .rdWa => backend.materializeRegisterSelector WasmTraceRow.rdIndex
  | .virtual .ramValFinal => backend.materializeRamValFinal
  | .virtual (.instructionRa index) =>
      backend.materializeOneHot index (← backend.instructionVirtualRaCount)
        backend.config.oneHot.lookupsRaVirtualLogKChunk.toNat Extract.instructionRaChunk
  | .virtual .pc => backend.materializeCycle fun row _ => (row.pc.toNat : F)
  | .virtual .nextPc => backend.materializeCycle fun _ next => (Extract.nextPc next : F)
  | .virtual .leftLookupOperand => backend.materializeCycle fun row _ => (row.lookupOperands.1.toNat : F)
  | .virtual .rightLookupOperand => backend.materializeCycle fun row _ => (row.lookupOperands.2.toNat : F)
  | .virtual .leftInstructionInput => backend.materializeCycle fun row _ => (row.leftInput.toNat : F)
  | .virtual .rightInstructionInput => backend.materializeCycle fun row _ => (row.rightInput.toNat : F)
  | .virtual .product => backend.materializeCycle fun row _ => (Extract.product row : F)
  | .virtual .shouldBranch => backend.materializeCycle fun row _ => ofBool (Extract.shouldBranch row)
  | .virtual .imm => backend.materializeCycle fun row _ => (row.immSigned : F)
  | .virtual .rs1Value => backend.materializeCycle fun row _ => (row.rs1Value.toNat : F)
  | .virtual .rs2Value => backend.materializeCycle fun row _ => (row.rs2Value.toNat : F)
  | .virtual .rdWriteValue => backend.materializeCycle fun row _ => (row.rdWriteValue.toNat : F)
  | .virtual .lookupOutput => backend.materializeCycle fun row _ => (row.lookupOutput.toNat : F)
  | .virtual .instructionRafFlag => backend.materializeCycle fun row _ => ofBool row.rafFlag
  | .virtual .ramAddress => backend.materializeCycle fun row _ => (row.ramAddress.toNat : F)
  | .virtual .ramReadValue => backend.materializeCycle fun row _ => (row.ramReadValue.toNat : F)
  | .virtual .ramWriteValue => backend.materializeCycle fun row _ => (row.ramWriteValue.toNat : F)
  | .virtual .ramHammingWeight => backend.materializeCycle fun row _ => ofBool (Extract.ramHammingWeight row)
  | .virtual (.rowFlag flag) => backend.materializeCycle fun row _ => ofBool (row.flags.has flag)
  | .virtual (.lookupTableFlag table) => backend.materializeCycle fun row _ => ofBool (row.table == some table)
  | _ => .error (.notServed "" unservedReason)

end TraceBackend

end JoltWasm
