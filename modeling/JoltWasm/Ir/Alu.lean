import Mathlib.Data.BitVec

/-!
# The lookup-table catalog

Every arithmetic row of the lowered register machine is one `AluOp`: a table with two 64-bit
instruction inputs and one 64-bit output.  `AluOp.evaluate` is the reference semantics of the
catalog, `AluOp.operandMode` the way the two inputs form the index of the table.
-/

namespace JoltWasm

/-- The machine word: Rust's `u64`. -/
abbrev U64 := BitVec 64

/-- A program counter: Rust's `u32`, an index into the code. -/
abbrev Pc := BitVec 32

/-- Operand width of an integer operator. -/
inductive Width where
  | w32
  | w64
  deriving DecidableEq, Repr

/-- How the two instruction inputs of a row form its lookup index. -/
inductive OperandMode where
  | interleaved
  | add
  | sub
  | mul
  deriving DecidableEq, Repr

/-- The lookup-table catalog: every variant is exactly one table. -/
inductive AluOp where
  | add (width : Width)
  | sub (width : Width)
  | mul (width : Width)
  | and
  | andn
  | or
  | xor
  | eq
  | ne
  | ltU
  | ltS
  | geU
  | geS
  | leU
  | srl
  | sra
  | rotr
  | negateIf
  | mulUNoOverflow
  | pow2
  | shiftRightBitmask
  | signExtendWord
  | lowerHalfWord
  | clz
  | ctz
  | popcnt
  deriving DecidableEq, Repr

/-- `u64::from(bool)`. -/
def U64.ofBool (b : Bool) : U64 := if b then 1 else 0

/-- `u64::from(v as u32)`. -/
def U64.low32 (v : U64) : U64 := (v.setWidth 32).setWidth 64

/-- The value kept by a row of the given width: an `i32` result is zero-extended. -/
def Width.canonical (width : Width) (v : U64) : U64 :=
  match width with
  | .w32 => v.low32
  | .w64 => v

/-- The right-shift bitmask for `shift < 64`: ones from bit `shift` upward. -/
def shiftRightBitmask (shift : U64) : U64 :=
  ((((1 : BitVec 128) <<< (64 - shift.toNat)) - 1).setWidth 64) <<< shift.toNat

/-- A value that `shiftRightBitmask` produces for some shift below 64. -/
def IsRightShiftBitmask (y : U64) : Prop :=
  ∃ s < 64, y = shiftRightBitmask (BitVec.ofNat 64 s)

namespace AluOp

def operandMode : AluOp → OperandMode
  | add _ | pow2 | shiftRightBitmask | signExtendWord | lowerHalfWord => .add
  | sub _ => .sub
  | mul _ | mulUNoOverflow => .mul
  | and | andn | or | xor | eq | ne | ltU | ltS | geU | geS | leU | srl | sra | rotr | negateIf
  | clz | ctz | popcnt => .interleaved

/-- Whether the output is always `0` or `1`, so that assert and branch rows may use it. -/
def isBoolean : AluOp → Bool
  | eq | ne | ltU | ltS | geU | geS | leU | mulUNoOverflow => true
  | _ => false

/-- Whether the table reads its right operand as a right-shift bitmask. -/
def readsBitmask : AluOp → Bool
  | srl | sra | rotr => true
  | _ => false

/-- The table's function of the instruction inputs. -/
def evaluate (op : AluOp) (x y : U64) : U64 :=
  let raw := x + y
  match op with
  | add w => w.canonical (x + y)
  | sub w => w.canonical (x - y)
  | mul w => w.canonical (x * y)
  | and => x &&& y
  | andn => x &&& ~~~y
  | or => x ||| y
  | xor => x ^^^ y
  | eq => U64.ofBool (x == y)
  | ne => U64.ofBool (x != y)
  | ltU => U64.ofBool (x.ult y)
  | ltS => U64.ofBool (x.slt y)
  | geU => U64.ofBool (y.ule x)
  | geS => U64.ofBool (y.sle x)
  | leU => U64.ofBool (x.ule y)
  | srl => x >>> y.ctz.toNat
  | sra => x.sshiftRight y.ctz.toNat
  | rotr => x.rotateRight (y.ctz.toNat % 64)
  | negateIf => if x >>> 63 == 1 then -y else y
  | mulUNoOverflow => U64.ofBool (decide (x.toNat * y.toNat < 2 ^ 64))
  | pow2 => (1 : U64) <<< (raw &&& 63).toNat
  | shiftRightBitmask => JoltWasm.shiftRightBitmask (raw &&& 63)
  | signExtendWord => (raw.setWidth 32).signExtend 64
  | lowerHalfWord => raw.low32
  | clz => x.clz
  | ctz => x.ctz
  | popcnt => x.cpop

end AluOp

@[simp] theorem U64.ofBool_eq_one (b : Bool) : U64.ofBool b = 1#64 ↔ b = true := by
  cases b <;> decide

@[simp] theorem U64.ofBool_eq_zero (b : Bool) : U64.ofBool b = 0#64 ↔ b = false := by
  cases b <;> decide

@[simp] theorem U64.toNat_low32 (v : U64) : v.low32.toNat = v.toNat % 2 ^ 32 := by
  simp only [U64.low32, BitVec.toNat_setWidth]
  omega

/-- Negate `v` by the sign of `sign`. -/
def negateBy {n m : ℕ} (sign : BitVec n) (v : BitVec m) : BitVec m := if sign.msb then -v else v

namespace AluOp

@[simp] theorem evaluate_add64 (x y : U64) : (add .w64).evaluate x y = x + y := rfl

@[simp] theorem evaluate_sub64 (x y : U64) : (sub .w64).evaluate x y = x - y := rfl

@[simp] theorem evaluate_mul64 (x y : U64) : (mul .w64).evaluate x y = x * y := rfl

@[simp] theorem evaluate_xor (x y : U64) : xor.evaluate x y = x ^^^ y := rfl

@[simp] theorem evaluate_eq (x y : U64) : eq.evaluate x y = 1#64 ↔ x = y := by
  simp [evaluate]

@[simp] theorem evaluate_ne (x y : U64) : ne.evaluate x y = 1#64 ↔ x ≠ y := by
  simp [evaluate]

@[simp] theorem evaluate_ltU (x y : U64) : ltU.evaluate x y = 1#64 ↔ x < y := by
  simp [evaluate, BitVec.ult_iff_lt]

@[simp] theorem evaluate_leU (x y : U64) : leU.evaluate x y = 1#64 ↔ x ≤ y := by
  simp [evaluate, BitVec.ule_iff_le]

@[simp] theorem evaluate_mulUNoOverflow (x y : U64) :
    mulUNoOverflow.evaluate x y = 1#64 ↔ x.toNat * y.toNat < 2 ^ 64 := by
  simp [evaluate]

/-- Negation by the sign of the left input. -/
theorem evaluate_negateIf (x y : U64) :
    negateIf.evaluate x y = negateBy x y := by
  have sign : (x >>> 63 == 1) = x.msb := by
    rw [Bool.eq_iff_iff, beq_iff_eq, ← BitVec.toNat_inj, BitVec.toNat_ushiftRight,
      BitVec.msb_eq_decide, decide_eq_true_iff, Nat.shiftRight_eq_div_pow]
    change _ = 1 ↔ _
    omega
  simp only [evaluate, sign, negateBy]

end AluOp

/-- A boolean table outputs zero or one. -/
theorem AluOp.evaluate_boolean (op : AluOp) (boolean : op.isBoolean = true) (x y : U64) :
    op.evaluate x y = 0 ∨ op.evaluate x y = 1 := by
  have bit (b : Bool) : U64.ofBool b = 0 ∨ U64.ofBool b = 1 := by cases b <;> decide
  cases op <;> first | exact bit _ | simp [isBoolean] at boolean

end JoltWasm
