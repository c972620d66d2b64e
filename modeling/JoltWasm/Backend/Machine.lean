import JoltWasm.Ir.Row
import JoltWasm.Backend.Memory

/-!
# The reference interpreter

Each step executes one row: instruction inputs, lookup, flag-guarded effects.  The interpreter
fills an advice row with the honest prover's computation; `stepWith` takes any other prover.
-/

namespace JoltWasm

open Layout

structure RegisterRead where
  register : Reg
  value : U64
  deriving DecidableEq

structure RegisterWrite where
  register : Reg
  preValue : U64
  postValue : U64
  deriving DecidableEq

/-- The memory access of a row: one aligned 64-bit word. -/
inductive RamAccess where
  | read (address value : U64)
  | write (address preValue postValue : U64)
  | noOp
  deriving DecidableEq

/-- The execution record of one instruction. -/
structure Record where
  pc : Pc
  nextPc : Pc
  instruction : Ir
  rs1 : Option RegisterRead
  rs2 : Option RegisterRead
  rd : Option RegisterWrite
  ram : RamAccess
  deriving DecidableEq

/-- The interpreter's state. -/
structure Machine where
  regs : Reg → U64
  pc : Pc
  memory : Memory

/-- A prover: the value it supplies for an advice row with the given register reads. -/
abbrev Prover := AdviceHint → U64 → U64 → U64

/-- The prover that supplies `q` for every advice row. -/
def constantProver (q : U64) : Prover := fun _ _ _ => q

inductive ExecutionError where
  | unknownExport (name : String)
  | argumentCount (name : String) (expected actual : ℕ)
  | trap (pc : Pc) (trap : Trap)
  | stepLimit (limit : ℕ)
  deriving DecidableEq

/-- A completed run of an exported function. -/
structure Execution where
  records : List Record
  results : List U64
  terminated : Bool
  memory : Memory

def defaultStepLimit : ℕ := 2 ^ 32

/-- The guest-visible trap of a failed assert row. -/
def assertTrap (instruction : Ir) (rs1Value : U64) : Trap :=
  match instruction with
  | .assert _ failure _ _ =>
      match failure with
      | .outOfBounds bytes => .outOfBoundsMemory rs1Value bytes
      | .divideByZero => .divideByZero
      | .integerOverflow => .integerOverflow
      | .tableOutOfBounds => .tableOutOfBounds
      | .indirectCallTypeMismatch => .indirectCallTypeMismatch
  | _ => .unreachable

/-- `Pc::try_from(output)`. -/
def Pc.ofWord? (output : U64) : Option Pc :=
  if output.toNat < 2 ^ 32 then some (output.setWidth 32) else none

namespace Machine

/-- The register file after writing `rd`; writes to the zero register are dropped. -/
def write (m : Machine) (rd : Reg) (value : U64) : RegisterWrite × (Reg → U64) :=
  let postValue := if rd = Reg.zero then 0 else value
  (⟨rd, m.regs rd, postValue⟩, Function.update m.regs rd postValue)

/-- The lookup output of a row. -/
def lookupOutput (prover : Prover) (spec : RowSpec) (rs1Value rs2Value : U64) : U64 :=
  match spec.lookup with
  | some (.table op) => op.evaluate (spec.leftInput rs1Value) (spec.rightInput rs2Value)
  -- The instruction inputs of an advice row are zero; the hint reads the registers.
  | some (.advice hint) => prover hint rs1Value rs2Value
  | none => 0

/-- The memory access of a row, the value it leaves for `rd`, and the memory after it. -/
def access (m : Machine) (spec : RowSpec) (rs1Value rs2Value output : U64) :
    Except Trap (RamAccess × Option U64 × Memory) :=
  let address := rs1Value + spec.imm
  if spec.flags.has .load then do
    let value ← m.memory.readWord address
    return (.read address value, some value, m.memory)
  else if spec.flags.has .store then do
    let (preValue, memory) ← m.memory.writeWord address rs2Value
    return (.write address preValue rs2Value, none, memory)
  else if spec.flags.intersects ((RowFlags.mask .writeLookupToRd).union (.mask .advice)) then
    return (.noOp, some output, m.memory)
  else return (.noOp, none, m.memory)

/-- The pc after a row. -/
def nextPc (pc : Pc) (spec : RowSpec) (output : U64) : Except Trap Pc :=
  if spec.flags.has .halt then .ok pc
  else if spec.flags.has .jump then
    match Pc.ofWord? output with
    | some target => .ok target
    | none => .error (.invalidJump output)
  else if spec.flags.has .branch && output == 1 then .ok (spec.imm.setWidth 32)
  else .ok (pc + 1)

/-- Execute one row against the given prover. -/
def stepWith (prover : Prover) (code : List Ir) (m : Machine) : Except Trap (Record × Machine) := do
  let some instruction := code[m.pc.toNat]? | .error (.invalidJump (m.pc.setWidth 64))
  let spec := instruction.rowSpec
  if spec.flags.has .trap then .error .unreachable
  let rs1 := spec.rs1.map fun r => RegisterRead.mk r (m.regs r)
  let rs2 := spec.rs2.map fun r => RegisterRead.mk r (m.regs r)
  let rs1Value := (rs1.map RegisterRead.value).getD 0
  let rs2Value := (rs2.map RegisterRead.value).getD 0
  let output := lookupOutput prover spec rs1Value rs2Value
  if spec.flags.has .assert && output != 1 then .error (assertTrap instruction rs1Value)
  let (ram, rdValue, memory) ← m.access spec rs1Value rs2Value output
  let (rd, regs) := match spec.rd, rdValue with
    | some reg, some value => let (written, regs) := m.write reg value; (some written, regs)
    | _, _ => (none, m.regs)
  let next ← nextPc m.pc spec output
  return (⟨m.pc, next, instruction, rs1, rs2, rd, ram⟩, ⟨regs, next, memory⟩)

/-- Execute one row. -/
def step (code : List Ir) (m : Machine) : Except Trap (Record × Machine) :=
  stepWith AdviceHint.compute code m

/-- Run until a halt row, at most `fuel` steps of the limit. -/
def run (code : List Ir) (limit : ℕ) : ℕ → Machine → Except ExecutionError (List Record × Machine)
  | 0, _ => .error (.stepLimit limit)
  | fuel + 1, m =>
      match step code m with
      | .error trap => .error (.trap m.pc trap)
      | .ok (record, next) =>
          if record.instruction = .halt then .ok ([record], next)
          else
            match run code limit fuel next with
            | .error e => .error e
            | .ok (records, last) => .ok (record :: records, last)

/-- Write the entry's arguments to the public input words, from word `i` on. -/
def writeInputs : ℕ → List U64 → Memory → Except Trap Memory
  | _, [], memory => .ok memory
  | i, arg :: args, memory => do
      let (_, memory) ← memory.writeWord (BitVec.ofNat 64 (inputAddress i)) arg
      writeInputs (i + 1) args memory

/-- Load the data segments in order. -/
def initData : List DataSegment → Memory → Except Trap Memory
  | [], memory => .ok memory
  | segment :: data, memory => do
      let memory ← memory.initLinear segment.offset segment.bytes
      initData data memory

/-- The host's failures are reported at the halt trampoline. -/
def hostTrap {α : Type} : Except Trap α → Except ExecutionError α
  | .ok a => .ok a
  | .error trap => .error (.trap IrProgram.haltPc trap)

/-- The machine before any run. -/
def new (program : IrProgram) : Except ExecutionError Machine := do
  let memory ← hostTrap
    (initData program.data (Memory.new program.memory program.globals program.table))
  return ⟨fun _ => 0, IrProgram.haltPc, memory⟩

/-- A map lookup that reports a missing export. -/
def find {β : Type} (map : List (String × β)) (name : String) : Except ExecutionError β :=
  match map.lookup name with
  | some b => .ok b
  | none => .error (.unknownExport name)

/-- The machine at the entry stub of an export, its arguments in the public input words. -/
def enter (program : IrProgram) (m : Machine) (name : String) (args : List U64) :
    Except ExecutionError Machine := do
  let function ← find program.exports name
  let entry ← find program.entries name
  let some f := program.functions[function]? | .error (.unknownExport name)
  let _ ← find program.outputWords name
  if args.length ≠ f.params then .error (.argumentCount name f.params args.length)
  let memory ← hostTrap (writeInputs 0 args m.memory)
  return ⟨fun _ => 0, entry, memory⟩

/-- The results and the termination word after a run. -/
def finish (program : IrProgram) (name : String) (records : List Record) (m : Machine) :
    Except ExecutionError Execution := do
  let results ← find program.outputWords name
  let results ← hostTrap
    ((List.range results).mapM fun k => m.memory.readWord (BitVec.ofNat 64 (outputAddress k)))
  let terminated ← hostTrap (m.memory.readWord (BitVec.ofNat 64 terminationAddr))
  return ⟨records, results, terminated == 1, m.memory⟩

/-- Run the exported function `name` with `args` through its entry stub. -/
def invoke (program : IrProgram) (m : Machine) (name : String) (args : List U64)
    (limit : ℕ := defaultStepLimit) : Except ExecutionError Execution := do
  let entered ← enter program m name args
  let (records, last) ← run program.code limit limit entered
  finish program name records last

end Machine

end JoltWasm
