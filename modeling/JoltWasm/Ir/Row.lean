import JoltWasm.Ir.Instruction

/-!
# Proof-row classification

`Ir.rowSpec` gives every instruction its static row: the registers it reads and writes, its
immediate, its flags and the table its lookup output comes from.
-/

namespace JoltWasm

/-- One circuit flag of a proof row; the order is the order of the flag columns. -/
inductive RowFlag where
  | leftIsRs1
  | rightIsRs2
  | rightIsImm
  | addOperands
  | subOperands
  | mulOperands
  | writeLookupToRd
  | load
  | store
  | jump
  | branch
  | assert
  | halt
  | trap
  | advice
  deriving DecidableEq

namespace RowFlag

/-- Every flag, in bit order. -/
def all : List RowFlag :=
  [leftIsRs1, rightIsRs2, rightIsImm, addOperands, subOperands, mulOperands, writeLookupToRd,
    load, store, jump, branch, assert, halt, trap, advice]

def count : ℕ := 15

/-- The flag's bit. -/
def bit (f : RowFlag) : ℕ := f.ctorIdx

end RowFlag

/-- A set of row flags, as its bit mask. -/
structure RowFlags where
  bits : BitVec 32
  deriving DecidableEq

namespace RowFlags

def empty : RowFlags := ⟨0⟩

def mask (f : RowFlag) : RowFlags := ⟨(1 : BitVec 32) <<< f.bit⟩

def union (a b : RowFlags) : RowFlags := ⟨a.bits ||| b.bits⟩

/-- The set of the listed flags. -/
def of (fs : List RowFlag) : RowFlags := fs.foldr (fun f s => (mask f).union s) empty

/-- Whether any flag of `other` is set. -/
def intersects (a b : RowFlags) : Bool := a.bits &&& b.bits != 0

def has (a : RowFlags) (f : RowFlag) : Bool := a.bits &&& (mask f).bits != 0

end RowFlags

/-- What a row looks up: a catalog table, or prover advice. -/
inductive Lookup where
  | table (op : AluOp)
  | advice (hint : AdviceHint)
  deriving DecidableEq

namespace Lookup

/-- The catalog op whose table the row reads: advice rows read the 64-bit range check. -/
def tableOp : Lookup → AluOp
  | table op => op
  | advice _ => .add .w64

/-- Whether the lookup index is the raw right lookup operand. -/
def isRawIndex : Lookup → Bool
  | table op => op.operandMode != .interleaved
  | advice _ => true

end Lookup

/-- The static row description of one instruction. -/
structure RowSpec where
  flags : RowFlags := .empty
  rs1 : Option Reg := none
  rs2 : Option Reg := none
  rd : Option Reg := none
  imm : U64 := 0
  lookup : Option Lookup := none
  deriving DecidableEq

namespace RowSpec

/-- Left instruction input from the `rs1` read. -/
def leftInput (spec : RowSpec) (rs1Value : U64) : U64 :=
  if spec.flags.has .leftIsRs1 then rs1Value else 0

/-- Right instruction input: the `rs2` read, the immediate, or zero. -/
def rightInput (spec : RowSpec) (rs2Value : U64) : U64 :=
  if spec.flags.has .rightIsRs2 then rs2Value
  else if spec.flags.has .rightIsImm then spec.imm
  else 0

/-- Whether the row's lookup index is its raw right lookup operand. -/
def rafFlag (spec : RowSpec) : Bool := spec.lookup.any Lookup.isRawIndex

/-- The lookup output for the given instruction inputs; advice rows take the recorded write. -/
def output (spec : RowSpec) (left right rdWrite : U64) : U64 :=
  match spec.lookup with
  | some (.table op) => op.evaluate left right
  | some (.advice _) => rdWrite
  | none => 0

end RowSpec

/-- The operand flag of a table. -/
def operandFlags (op : AluOp) : List RowFlag :=
  match op.operandMode with
  | .interleaved => []
  | .add => [.addOperands]
  | .sub => [.subOperands]
  | .mul => [.mulOperands]

/-- Right-operand flags, register and immediate. -/
def rightOperand : Operand → List RowFlag × Option Reg × U64
  | .reg r => ([.rightIsRs2], some r, 0)
  | .imm v => ([.rightIsImm], none, v)

/-- Row classification of an instruction. -/
def Ir.rowSpec : Ir → RowSpec
  | nop => {}
  | halt => { flags := .of [.halt] }
  | trap => { flags := .of [.trap] }
  | alu op rd rs1 rs2 =>
      let (right, rs2, imm) := rightOperand rs2
      { flags := .of (.leftIsRs1 :: right ++ .writeLookupToRd :: operandFlags op)
        rs1 := some rs1
        rs2 := rs2
        rd := some rd
        imm := imm
        lookup := some (.table op) }
  | advice hint rd rs1 rs2 =>
      { flags := .of [.advice, .writeLookupToRd]
        rs1 := some rs1
        rs2 := some rs2
        rd := some rd
        lookup := some (.advice hint) }
  | assert op _ rs1 rs2 =>
      let (right, rs2, imm) := rightOperand rs2
      { flags := .of (.leftIsRs1 :: right ++ .assert :: operandFlags op)
        rs1 := some rs1
        rs2 := rs2
        imm := imm
        lookup := some (.table op) }
  | load rd base offset =>
      { flags := .of [.load], rs1 := some base, rd := some rd, imm := offset }
  | store base value offset =>
      { flags := .of [.store], rs1 := some base, rs2 := some value, imm := offset }
  | jump target =>
      { flags := .of [.rightIsImm, .addOperands, .jump]
        imm := target.setWidth 64
        lookup := some (.table (.add .w64)) }
  | jumpReg rs =>
      { flags := .of [.leftIsRs1, .addOperands, .jump]
        rs1 := some rs
        lookup := some (.table (.add .w64)) }
  | branch op rs1 rs2 target =>
      { flags := .of (.leftIsRs1 :: .rightIsRs2 :: .branch :: operandFlags op)
        rs1 := some rs1
        rs2 := some rs2
        imm := target.setWidth 64
        lookup := some (.table op) }

/-- Membership in the operand flags of a table. -/
@[simp] theorem mem_operandFlags (op : AluOp) (f : RowFlag) :
    f ∈ operandFlags op ↔ f = .addOperands ∧ op.operandMode = .add ∨
      f = .subOperands ∧ op.operandMode = .sub ∨ f = .mulOperands ∧ op.operandMode = .mul := by
  unfold operandFlags
  cases op.operandMode <;> simp

/-- A row that writes no register zero, does not halt, and whose test is a boolean table. -/
def Ir.isWellFormed : Ir → Bool
  | alu _ rd _ _ | advice _ rd _ _ | load rd _ _ => rd ≠ Reg.zero
  | assert op _ _ _ | branch op _ _ _ => op.isBoolean
  | nop | trap | store .. | jump _ | jumpReg _ => true
  | halt => false

namespace RowFlags

/-- Membership in a mask is equality of flags. -/
@[simp] theorem has_mask (f g : RowFlag) : (mask f).has g = decide (f = g) := by
  cases f <;> cases g <;> decide

@[simp] theorem has_empty (f : RowFlag) : empty.has f = false := by
  cases f <;> decide

theorem has_eq_getLsbD (a : RowFlags) (f : RowFlag) : a.has f = a.bits.getLsbD f.bit := by
  have nonzero : BitVec.twoPow 32 f.bit ≠ 0#32 := by cases f <;> decide
  change (a.bits &&& BitVec.twoPow 32 f.bit != 0) = _
  rw [BitVec.and_twoPow]
  cases a.bits.getLsbD f.bit <;> simp [nonzero]

@[simp] theorem has_union (a b : RowFlags) (f : RowFlag) :
    (a.union b).has f = (a.has f || b.has f) := by
  simp only [has_eq_getLsbD, union, BitVec.getLsbD_or]

/-- A listed set has exactly the listed flags. -/
@[simp] theorem has_of (fs : List RowFlag) (f : RowFlag) : (of fs).has f = decide (f ∈ fs) := by
  induction fs with
  | nil => simp [of]
  | cons g fs ih =>
      change ((mask g).union (of fs)).has f = _
      rw [has_union, has_mask, ih]
      simp [eq_comm, Bool.decide_or]

/-- Two sets intersect when a flag of the first is in the second. -/
theorem intersects_mask_union (a : RowFlags) (f g : RowFlag) :
    a.intersects ((mask f).union (mask g)) = (a.has f || a.has g) := by
  unfold intersects has union
  rw [Bool.eq_iff_iff, bne_iff_ne, Bool.or_eq_true, bne_iff_ne, bne_iff_ne, BitVec.and_or_distrib_left]
  constructor
  · intro h
    by_contra none
    push Not at none
    simp [none] at h
  · intro h zero
    have := BitVec.or_eq_zero_iff.mp zero
    tauto

end RowFlags

end JoltWasm
