import JoltWasm.Ir.Alu

/-!
# The lowered register machine

Each instruction is a three-address row: at most two register reads, one register write and one
memory access.  Operand-stack slots and locals are fixed registers, calls spill the frame to a
shadow stack in guest memory.
-/

namespace JoltWasm

/-- Size of the virtual register file. -/
abbrev registerCount : ℕ := 128

instance neZero_registerCount : NeZero registerCount := ⟨by decide⟩

/-- A virtual register. -/
abbrev Reg := Fin registerCount

namespace Reg

/-- Hardwired zero: the machine drops writes to it. -/
def zero : Reg := 0
/-- Shadow-stack pointer. -/
def sp : Reg := 1
/-- Return-address scratch. -/
def ra : Reg := 2
def t0 : Reg := 3
def t1 : Reg := 4
def t2 : Reg := 5
def t3 : Reg := 6
def t4 : Reg := 7
/-- Linear-memory bounds limits, one for each access width. -/
def limitB : Reg := 8
def limitH : Reg := 9
def limitW : Reg := 10
def limitD : Reg := 11

/-- First register of the per-function frame. -/
def frameBase : ℕ := 12

end Reg

/-- Frame slots available to a function. -/
def maxFrameSlots : ℕ := registerCount - Reg.frameBase

/-- Most results a function may return: one temporary each. -/
def maxResults : ℕ := Reg.t4.val - Reg.t0.val + 1

/-- The register holding frame slot `slot`. -/
def Reg.frameSlot (slot : ℕ) : Option Reg :=
  if h : slot < maxFrameSlots then
    some ⟨Reg.frameBase + slot, by simp only [maxFrameSlots, frameBase] at h ⊢; omega⟩
  else none

/-- The temporary `T0 + i`. -/
def Reg.temp (i : ℕ) : Option Reg :=
  if h : i < maxResults then
    some ⟨Reg.t0.val + i, by
      have five : maxResults = 5 := rfl
      change 3 + i < 128
      omega⟩
  else none

/-- The right operand of an ALU or assert row. -/
inductive Operand where
  | reg (r : Reg)
  | imm (v : U64)
  deriving DecidableEq

/-- The guest-visible trap raised by a failing assert row. -/
inductive AssertFailure where
  | outOfBounds (bytes : ℕ)
  | divideByZero
  | integerOverflow
  | tableOutOfBounds
  | indirectCallTypeMismatch
  deriving DecidableEq

/-- What an advice row computes for the honest prover. -/
inductive AdviceHint where
  | quotientU
  deriving DecidableEq

/-- The unsigned quotient, zero for a zero divisor. -/
def AdviceHint.compute (hint : AdviceHint) (x y : U64) : U64 :=
  match hint with
  | quotientU => if y = 0 then 0 else x / y

/-- One lowered instruction. -/
inductive Ir where
  | nop
  | halt
  | trap
  | alu (op : AluOp) (rd rs1 : Reg) (rs2 : Operand)
  | advice (hint : AdviceHint) (rd rs1 rs2 : Reg)
  | assert (op : AluOp) (failure : AssertFailure) (rs1 : Reg) (rs2 : Operand)
  | load (rd base : Reg) (offset : U64)
  | store (base value : Reg) (offset : U64)
  | jump (target : Pc)
  | jumpReg (rs : Reg)
  | branch (op : AluOp) (rs1 rs2 : Reg) (target : Pc)
  deriving DecidableEq

namespace Ir

/-- `rd = imm`. -/
def const_ (rd : Reg) (imm : U64) : Ir := alu (.add .w64) rd Reg.zero (.imm imm)

/-- `rd = rs`. -/
def mov (rd rs : Reg) : Ir := alu (.add .w64) rd rs (.imm 0)

/-- `rd = op(rs1, imm)`. -/
def aluImm (op : AluOp) (rd rs1 : Reg) (imm : U64) : Ir := alu op rd rs1 (.imm imm)

/-- Jump to `target` iff `rs = 0`. -/
def branchIfZero (rs : Reg) (target : Pc) : Ir := branch .eq rs Reg.zero target

/-- Jump to `target` iff `rs ≠ 0`. -/
def branchIfNonzero (rs : Reg) (target : Pc) : Ir := branch .ne rs Reg.zero target

end Ir

/-- Static metadata of one lowered function. -/
structure IrFunction where
  entry : Pc
  params : ℕ
  results : ℕ
  frameSlots : ℕ
  deriving DecidableEq

/-- An occupied function-table slot: the callee and its canonical signature. -/
structure TableSlot where
  entry : Pc
  signature : ℕ
  deriving DecidableEq

/-- The two guest words of a slot: the entry pc and the signature plus one, zero when null. -/
def TableSlot.words : Option TableSlot → List U64
  | some slot => [slot.entry.setWidth 64, BitVec.ofNat 64 (slot.signature + 1)]
  | none => [0, 0]

/-- Linear-memory limits in 64 KiB pages. -/
structure MemoryLimits where
  initialPages : ℕ
  maxPages : ℕ
  deriving DecidableEq

/-- An active data segment. -/
structure DataSegment where
  offset : ℕ
  bytes : List (BitVec 8)
  deriving DecidableEq

/-- A complete lowered program.  Maps from export names are association lists in key order. -/
structure IrProgram where
  code : List Ir
  functions : List IrFunction
  exports : List (String × ℕ)
  /-- The pc of each export's entry stub. -/
  entries : List (String × Pc)
  /-- The number of public output words each entry stub stores. -/
  outputWords : List (String × ℕ)
  memory : MemoryLimits
  globals : List U64
  data : List DataSegment
  table : List (Option TableSlot)
  deriving DecidableEq

/-- The pc of the halt trampoline. -/
def IrProgram.haltPc : Pc := 0

end JoltWasm
