import JoltWasm.R1cs.Wasm
import JoltWasm.Tables.Correct

/-!
# Lookup operands under the constraints

What the constraints of one row say about its instruction inputs, its lookup operands and its
lookup output.
-/

namespace JoltWasm

variable {F : Type*} [WideField F] {z : Column → F}

/-- The lookup relation of a row: the output is the table's entry at the row's two lookup operands,
or the prover's value on an advice row. -/
def LookupHolds (lookup : Option Lookup) (advice : U64) (z : Column → F) : Prop :=
  match lookup with
  | some (.table op) =>
      match op.operandMode with
      | .interleaved =>
          ∃ x y : U64, z .leftLookupOperand = (x.toNat : F) ∧ z .rightLookupOperand = (y.toNat : F) ∧
            z .lookupOutput = ((WasmTable.of op).materializeEntry (interleaveBits x y)).toNat
      | _ =>
          ∃ index : U128, z .rightLookupOperand = (index.toNat : F) ∧
            z .lookupOutput = ((WasmTable.of op).materializeEntry index).toNat
  | some (.advice _) => z .lookupOutput = (advice.toNat : F)
  | none => True

/-- Words are equal when they are equal in the field. -/
theorem word_inj {x y : U64} (equal : (x.toNat : F) = y.toNat) : x = y := by
  have hx := x.isLt
  have hy := y.isLt
  exact BitVec.eq_of_toNat_eq (natCast_inj_of_lt (by omega) (by omega) equal)

/-- Indices are equal when they are equal in the field. -/
theorem index_inj {i j : U128} (equal : (i.toNat : F) = j.toNat) : i = j := by
  have hi := i.isLt
  have hj := j.isLt
  exact BitVec.eq_of_toNat_eq (natCast_inj_of_lt (by omega) (by omega) equal)

theorem toNat_lookupIndex_add (x y : U64) :
    (lookupIndexFor .add x y).toNat = x.toNat + y.toNat := by
  have hx := x.isLt
  have hy := y.isLt
  rw [lookupIndexFor, BitVec.toNat_add, BitVec.toNat_setWidth, BitVec.toNat_setWidth]
  omega

theorem toNat_lookupIndex_sub (x y : U64) :
    (lookupIndexFor .sub x y).toNat = x.toNat + 2 ^ 64 - y.toNat := by
  have hx := x.isLt
  have hy := y.isLt
  rw [lookupIndexFor, BitVec.toNat_sub, BitVec.toNat_add, toNat_bias, BitVec.toNat_setWidth,
    BitVec.toNat_setWidth, Nat.mod_eq_of_lt (show x.toNat < 2 ^ 128 by omega),
    Nat.mod_eq_of_lt (show y.toNat < 2 ^ 128 by omega)]
  omega

theorem toNat_lookupIndex_mul (x y : U64) :
    (lookupIndexFor .mul x y).toNat = x.toNat * y.toNat := by
  have hx := x.isLt
  have hy := y.isLt
  have fits : x.toNat * y.toNat < 2 ^ 128 :=
    calc x.toNat * y.toNat < 2 ^ 64 * 2 ^ 64 := Nat.mul_lt_mul'' hx hy
      _ = 2 ^ 128 := by norm_num
  rw [lookupIndexFor, BitVec.toNat_mul, BitVec.toNat_setWidth, BitVec.toNat_setWidth,
    Nat.mod_eq_of_lt (show x.toNat < 2 ^ 128 by omega),
    Nat.mod_eq_of_lt (show y.toNat < 2 ^ 128 by omega), Nat.mod_eq_of_lt fits]

/-- The operand flags of a row are those of the table it looks up. -/
structure OperandFlagsOf (z : Column → F) (op : AluOp) : Prop where
  const : z .const = 1
  add : z (.flag .addOperands) = if op.operandMode = .add then 1 else 0
  sub : z (.flag .subOperands) = if op.operandMode = .sub then 1 else 0
  mul : z (.flag .mulOperands) = if op.operandMode = .mul then 1 else 0
  advice : z (.flag .advice) = 0

/-- A row that looks up `op` on the inputs `x` and `y` outputs the table's entry there. -/
theorem lookupOutput_eq (h : Equations z) {op : AluOp} (flags : OperandFlagsOf z op) {x y : U64}
    (left : z .leftInput = (x.toNat : F)) (right : z .rightInput = (y.toNat : F)) {advice : U64}
    (lookup : LookupHolds (some (.table op)) advice z) :
    z .lookupOutput = (tableOutput op x y).toNat := by
  obtain ⟨const, add, sub, mul, noAdvice⟩ := flags
  rw [tableOutput]
  cases mode : op.operandMode with
  | interleaved =>
      simp only [mode, reduceCtorEq, if_false] at add sub mul
      simp only [LookupHolds, mode] at lookup
      obtain ⟨x', y', leftOperand, rightOperand, output⟩ := lookup
      have leftEq := h.leftLookup
      have rightEq := h.rightLookup
      rw [const, add, sub, mul, leftOperand, left] at leftEq
      rw [const, add, sub, mul, noAdvice, rightOperand, right] at rightEq
      obtain rfl : x' = x := word_inj (F := F) (by linear_combination leftEq)
      obtain rfl : y' = y := word_inj (F := F) (by linear_combination rightEq)
      exact output
  | add =>
      simp only [mode, reduceCtorEq, if_true, if_false] at add sub mul
      simp only [LookupHolds, mode] at lookup
      obtain ⟨index, rightOperand, output⟩ := lookup
      have sum := h.rightLookupAdd
      rw [add, rightOperand, left, right] at sum
      obtain rfl : index = lookupIndexFor .add x y := index_inj (F := F) (by
        rw [toNat_lookupIndex_add]
        push_cast
        linear_combination sum)
      exact output
  | sub =>
      simp only [mode, reduceCtorEq, if_true, if_false] at add sub mul
      simp only [LookupHolds, mode] at lookup
      obtain ⟨index, rightOperand, output⟩ := lookup
      have difference := h.rightLookupSub
      rw [sub, rightOperand, left, right, const] at difference
      obtain rfl : index = lookupIndexFor .sub x y := index_inj (F := F) (by
        have small := y.isLt
        rw [toNat_lookupIndex_sub, Nat.cast_sub (by omega)]
        push_cast
        linear_combination difference)
      exact output
  | mul =>
      simp only [mode, reduceCtorEq, if_true, if_false] at add sub mul
      simp only [LookupHolds, mode] at lookup
      obtain ⟨index, rightOperand, output⟩ := lookup
      have product := h.rightLookupMul
      rw [mul, rightOperand, ← h.product, left, right] at product
      obtain rfl : index = lookupIndexFor .mul x y := index_inj (F := F) (by
        rw [toNat_lookupIndex_mul]
        push_cast
        linear_combination product)
      exact output

end JoltWasm
