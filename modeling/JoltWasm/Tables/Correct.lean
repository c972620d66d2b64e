import JoltWasm.Tables.Shift

/-!
# The tables compute the catalog

At the lookup index of a row, the op's table holds `AluOp.evaluate` of the instruction inputs; the
three shift tables do so when the right input is a right-shift bitmask.
-/

namespace JoltWasm

/-! ## Shifts by a bitmask -/

/-- The shift of a bitmask. -/
theorem ctz_shiftRightBitmask {s : ℕ} (small : s < 64) :
    (shiftRightBitmask (BitVec.ofNat 64 s)).ctz.toNat = s := by
  have bit := getLsbD_shiftRightBitmask small
  have nonzero : shiftRightBitmask (BitVec.ofNat 64 s) ≠ 0#64 := by
    intro zero
    have := bit s
    rw [zero] at this
    simp [small] at this
  have top := BitVec.getLsbD_true_ctz_of_ne_zero nonzero
  rw [bit] at top
  by_contra different
  have above : s < (shiftRightBitmask (BitVec.ofNat 64 s)).ctz.toNat := by
    have := of_decide_eq_true (Bool.and_eq_true_iff.mp top).1
    omega
  have := BitVec.getLsbD_false_of_lt_ctz above
  rw [bit] at this
  simp [small] at this

section

variable {s : ℕ} (small : s < 64) (x : U64)

include small

theorem srlLoop_eq : srlLoop x (shiftRightBitmask (BitVec.ofNat 64 s)) 64 = x >>> s := by
  apply BitVec.eq_of_toNat_eq
  rw [toNat_srlLoop small x le_rfl, BitVec.toNat_ushiftRight, Nat.shiftRight_eq_div_pow,
    Nat.sub_self, Nat.zero_max]

theorem sraEntry_eq :
    srlLoop x (shiftRightBitmask (BitVec.ofNat 64 s)) 64 +
        U64.ofBool x.msb * signExtensionLoop (shiftRightBitmask (BitVec.ofNat 64 s)) 64 =
      x.sshiftRight s := by
  rw [srlLoop_eq small]
  cases sign : x.msb
  · rw [BitVec.sshiftRight_eq_of_msb_false sign]
    simp [U64.ofBool]
  · rw [BitVec.sshiftRight_eq_of_msb_true sign]
    apply BitVec.eq_of_toNat_eq
    have extension := toNat_signExtensionLoop small (le_refl 64)
    have wordSize := x.isLt
    have power : 2 ^ 64 = 2 ^ s * 2 ^ (64 - s) := by
      rw [← pow_add]
      congr 1
      omega
    have shifted : (2 ^ 64 - 1 - x.toNat) / 2 ^ s = 2 ^ (64 - s) - 1 - x.toNat / 2 ^ s := by
      have := Nat.mul_sub_div x.toNat (2 ^ s) (2 ^ (64 - s)) (power ▸ wordSize)
      rw [← power, Nat.add_comm x.toNat, ← Nat.sub_sub] at this
      omega
    have quotient : x.toNat / 2 ^ s < 2 ^ (64 - s) := by
      rw [Nat.div_lt_iff_lt_mul (Nat.two_pow_pos s), Nat.mul_comm, ← power]
      exact wordSize
    have bound : 2 ^ (64 - s) ≤ 2 ^ 64 := Nat.pow_le_pow_right (by omega) (by omega)
    have unit : U64.ofBool true * signExtensionLoop (shiftRightBitmask (BitVec.ofNat 64 s)) 64 =
        signExtensionLoop (shiftRightBitmask (BitVec.ofNat 64 s)) 64 := by
      simp [U64.ofBool]
    rw [unit, BitVec.toNat_add, extension,
      BitVec.toNat_ushiftRight, BitVec.toNat_not, BitVec.toNat_ushiftRight, BitVec.toNat_not,
      Nat.shiftRight_eq_div_pow, Nat.shiftRight_eq_div_pow, shifted, Nat.min_eq_right (by omega)]
    generalize x.toNat / 2 ^ s = shift at quotient ⊢
    generalize 2 ^ (64 - s) = top at quotient bound ⊢
    omega

theorem rotrEntry_eq :
    (rotrLoop x (shiftRightBitmask (BitVec.ofNat 64 s)) 64).first +
        (rotrLoop x (shiftRightBitmask (BitVec.ofNat 64 s)) 64).second = x.rotateRight s := by
  obtain ⟨first, second⟩ := rotrLoop_sums small x (le_refl 64)
  rw [Nat.sub_self, Nat.zero_max] at first
  rw [Nat.sub_self, pow_zero, Nat.div_one, Nat.mul_one] at second
  have power : 2 ^ 64 = 2 ^ s * 2 ^ (64 - s) := by
    rw [← pow_add]
    congr 1
    omega
  have upper : x.toNat / 2 ^ s < 2 ^ (64 - s) := by
    rw [Nat.div_lt_iff_lt_mul (Nat.two_pow_pos s), Nat.mul_comm, ← power]
    exact x.isLt
  have wrapped : x.toNat <<< (64 - s) % 2 ^ 64 = (x.toNat % 2 ^ s) <<< (64 - s) := by
    rw [power, Nat.shiftLeft_eq, Nat.shiftLeft_eq, Nat.mul_mod_mul_right]
  apply BitVec.eq_of_toNat_eq
  rw [BitVec.toNat_rotateRight, BitVec.toNat_add, first, second, Nat.mod_eq_of_lt small, wrapped,
    Nat.shiftRight_eq_div_pow, Nat.or_comm, ← Nat.shiftLeft_add_eq_or_of_lt upper,
    Nat.shiftLeft_eq, Nat.add_comm, Nat.mod_eq_of_lt]
  calc x.toNat % 2 ^ s * 2 ^ (64 - s) + x.toNat / 2 ^ s
      < x.toNat % 2 ^ s * 2 ^ (64 - s) + 2 ^ (64 - s) := by omega
    _ = (x.toNat % 2 ^ s + 1) * 2 ^ (64 - s) := by ring
    _ ≤ 2 ^ s * 2 ^ (64 - s) :=
        Nat.mul_le_mul_right _ (Nat.mod_lt _ (Nat.two_pow_pos s))
    _ = 2 ^ 64 := power.symm

end

/-! ## Arithmetic indices -/

/-- The low word of the index of an arithmetic row. -/
theorem setWidth_lookupIndex_add (x y : U64) : (lookupIndexFor .add x y).setWidth 64 = x + y := by
  rw [lookupIndexFor, BitVec.setWidth_add _ _ (by omega)]
  simp

theorem toNat_bias : ((1 : U128) <<< 64).toNat = 2 ^ 64 := by
  rw [BitVec.toNat_shiftLeft, Nat.shiftLeft_eq]
  rfl

theorem setWidth_lookupIndex_sub (x y : U64) : (lookupIndexFor .sub x y).setWidth 64 = x - y := by
  apply BitVec.eq_of_toNat_eq
  have hx := x.isLt
  have hy := y.isLt
  rw [lookupIndexFor, BitVec.toNat_setWidth, BitVec.toNat_sub, BitVec.toNat_add, toNat_bias,
    BitVec.toNat_setWidth, BitVec.toNat_setWidth, BitVec.toNat_sub,
    Nat.mod_eq_of_lt (show x.toNat < 2 ^ 128 by omega),
    Nat.mod_eq_of_lt (show y.toNat < 2 ^ 128 by omega)]
  omega

theorem setWidth_lookupIndex_mul (x y : U64) : (lookupIndexFor .mul x y).setWidth 64 = x * y := by
  rw [lookupIndexFor, BitVec.setWidth_mul _ _ (by omega)]
  simp

theorem rangeCheck_entry (index : U128) :
    WasmTable.rangeCheck.materializeEntry index = index.setWidth 64 := by
  simp only [WasmTable.materializeEntry]
  ext i hi
  have ones : (((1 : U128) <<< 64) - 1).getLsbD i = true := by
    change (2 ^ 64 - 1).testBit i = true
    rw [Nat.testBit_two_pow_sub_one]
    exact decide_eq_true hi
  rw [BitVec.getElem_setWidth, BitVec.getElem_setWidth, BitVec.getLsbD_and, ones, Bool.and_true]

theorem lowerHalfWord_entry (index : U128) :
    WasmTable.lowerHalfWord.materializeEntry index = U64.low32 (index.setWidth 64) := by
  apply BitVec.eq_of_toNat_eq
  simp only [WasmTable.materializeEntry, U64.toNat_low32, BitVec.toNat_setWidth,
    BitVec.toNat_ofNat]
  omega

/-- The six low bits of an index and of its low word are the same. -/
theorem low_bits (index : U128) : index.toNat % 64 = (index.setWidth 64 &&& 63).toNat := by
  rw [BitVec.toNat_and, BitVec.toNat_setWidth]
  change _ = index.toNat % 2 ^ 64 &&& (2 ^ 6 - 1)
  rw [Nat.and_two_pow_sub_one_eq_mod]
  omega

/-- Setting the upper half of a word whose bit 31 is set extends its sign. -/
theorem signExtend_word (w : BitVec 32) :
    (if (w.setWidth 64 >>> 31) &&& 1 = (1 : U64) then
        w.setWidth 64 ||| ((((1 : U64) <<< 32) - 1) <<< 32) else w.setWidth 64) =
      w.signExtend 64 := by
  have small := w.isLt
  have word : (w.setWidth 64).toNat = w.toNat := by
    rw [BitVec.toNat_setWidth]
    omega
  have sign : (w.setWidth 64 >>> 31) &&& 1 = (1 : U64) ↔ w.msb = true := by
    rw [← BitVec.toNat_inj, BitVec.toNat_and, BitVec.toNat_ushiftRight, word,
      Nat.shiftRight_eq_div_pow, BitVec.msb_eq_decide, decide_eq_true_iff]
    change _ &&& (2 ^ 1 - 1) = 1 ↔ _
    rw [Nat.and_two_pow_sub_one_eq_mod]
    omega
  apply BitVec.eq_of_toNat_eq
  rw [BitVec.toNat_signExtend, word]
  by_cases negative : w.msb = true
  · rw [if_pos (sign.mpr negative), if_pos negative, BitVec.toNat_or, word, Nat.or_comm]
    change (2 ^ 32 - 1) <<< 32 ||| w.toNat = _
    rw [← Nat.shiftLeft_add_eq_or_of_lt small]
    omega
  · rw [if_neg (fun bit => negative (sign.mp bit)), if_neg negative, word, Nat.add_zero]

theorem signExtendWord_entry (index : U128) :
    WasmTable.signExtendWord.materializeEntry index =
      ((index.setWidth 64).setWidth 32).signExtend 64 := by
  have lower : BitVec.ofNat 64 (index.toNat % 2 ^ 32) =
      ((index.setWidth 64).setWidth 32).setWidth 64 := by
    apply BitVec.eq_of_toNat_eq
    simp only [BitVec.toNat_setWidth, BitVec.toNat_ofNat]
    omega
  rw [← signExtend_word, ← lower]
  rfl

/-! ## The catalog -/

theorem negateIf_entry (x y : U64) :
    tableOutput .negateIf x y = AluOp.negateIf.evaluate x y := by
  have ones : (((1 : U128) <<< 64) - 1).setWidth 64 = BitVec.allOnes 64 := by decide
  have sign : x &&& ((1 : U64) <<< 63) = 0 ↔ x.msb = false := by
    change x &&& BitVec.twoPow 64 63 = 0#64 ↔ _
    rw [BitVec.and_twoPow, BitVec.msb_eq_getLsbD_last]
    cases x.getLsbD 63 <;> decide
  rw [AluOp.evaluate_negateIf, tableOutput]
  simp only [WasmTable.of, WasmTable.materializeEntry, AluOp.operandMode, lookupIndexFor,
    uninterleave_interleave, ones, BitVec.and_allOnes, sign, negateBy]
  cases x.msb <;> simp

theorem mulUNoOverflow_entry (x y : U64) :
    tableOutput .mulUNoOverflow x y = AluOp.mulUNoOverflow.evaluate x y := by
  have hx := x.isLt
  have hy := y.isLt
  have fits : x.toNat * y.toNat < 2 ^ 128 :=
    calc x.toNat * y.toNat < 2 ^ 64 * 2 ^ 64 := Nat.mul_lt_mul'' hx hy
      _ = 2 ^ 128 := by norm_num
  have product : (x.setWidth 128 * y.setWidth 128).toNat = x.toNat * y.toNat := by
    rw [BitVec.toNat_mul, BitVec.toNat_setWidth, BitVec.toNat_setWidth,
      Nat.mod_eq_of_lt (show x.toNat < 2 ^ 128 by omega),
      Nat.mod_eq_of_lt (show y.toNat < 2 ^ 128 by omega), Nat.mod_eq_of_lt fits]
  have upper : (x.setWidth 128 * y.setWidth 128) >>> 64 = 0 ↔ x.toNat * y.toNat < 2 ^ 64 := by
    rw [← BitVec.toNat_inj, BitVec.toNat_ushiftRight, product, Nat.shiftRight_eq_div_pow]
    change _ = 0 ↔ _
    omega
  rw [tableOutput]
  simp only [WasmTable.of, WasmTable.materializeEntry, AluOp.operandMode, lookupIndexFor,
    AluOp.evaluate, ← upper]
  congr 1

theorem shiftTable_entry {op : AluOp} (shifts : op.readsBitmask = true) (x : U64) {s : ℕ}
    (small : s < 64) :
    tableOutput op x (shiftRightBitmask (BitVec.ofNat 64 s)) =
      op.evaluate x (shiftRightBitmask (BitVec.ofNat 64 s)) := by
  cases op with
  | srl =>
      rw [tableOutput, AluOp.evaluate, ctz_shiftRightBitmask small, ← srlLoop_eq small]
      simp only [WasmTable.of, WasmTable.materializeEntry, AluOp.operandMode, lookupIndexFor,
        uninterleave_interleave]
  | sra =>
      rw [tableOutput, AluOp.evaluate, ctz_shiftRightBitmask small, ← sraEntry_eq small]
      simp only [WasmTable.of, WasmTable.materializeEntry, AluOp.operandMode, lookupIndexFor,
        uninterleave_interleave]
  | rotr =>
      rw [tableOutput, AluOp.evaluate, ctz_shiftRightBitmask small, Nat.mod_eq_of_lt small,
        ← rotrEntry_eq small]
      simp only [WasmTable.of, WasmTable.materializeEntry, AluOp.operandMode, lookupIndexFor,
        uninterleave_interleave]
  | _ => exact absurd shifts (by simp [AluOp.readsBitmask])

/-- The table of an op holds its evaluation at the index of every row whose right operand is one
the table reads. -/
theorem tableOutput_eq_evaluate (op : AluOp) (x y : U64)
    (bitmask : op.readsBitmask = true → IsRightShiftBitmask y) :
    tableOutput op x y = op.evaluate x y := by
  cases op with
  | add width =>
      cases width with
      | w32 =>
          exact (lowerHalfWord_entry _).trans (congrArg U64.low32 (setWidth_lookupIndex_add x y))
      | w64 => exact (rangeCheck_entry _).trans (setWidth_lookupIndex_add x y)
  | sub width =>
      cases width with
      | w32 =>
          exact (lowerHalfWord_entry _).trans (congrArg U64.low32 (setWidth_lookupIndex_sub x y))
      | w64 => exact (rangeCheck_entry _).trans (setWidth_lookupIndex_sub x y)
  | mul width =>
      cases width with
      | w32 =>
          exact (lowerHalfWord_entry _).trans (congrArg U64.low32 (setWidth_lookupIndex_mul x y))
      | w64 => exact (rangeCheck_entry _).trans (setWidth_lookupIndex_mul x y)
  | srl | sra | rotr =>
      obtain ⟨s, small, rfl⟩ := bitmask rfl
      exact shiftTable_entry rfl x small
  | negateIf => exact negateIf_entry x y
  | mulUNoOverflow => exact mulUNoOverflow_entry x y
  | pow2 =>
      rw [tableOutput]
      simp only [WasmTable.of, WasmTable.materializeEntry, AluOp.operandMode, low_bits,
        setWidth_lookupIndex_add, AluOp.evaluate]
  | shiftRightBitmask =>
      rw [tableOutput]
      simp only [WasmTable.of, WasmTable.materializeEntry, AluOp.operandMode, low_bits,
        setWidth_lookupIndex_add, AluOp.evaluate, JoltWasm.shiftRightBitmask]
  | signExtendWord =>
      rw [tableOutput]
      exact (signExtendWord_entry _).trans (by rw [AluOp.operandMode, setWidth_lookupIndex_add]; rfl)
  | lowerHalfWord =>
      exact (lowerHalfWord_entry _).trans (congrArg U64.low32 (setWidth_lookupIndex_add x y))
  | clz =>
      rw [tableOutput]
      simp only [WasmTable.of, WasmTable.materializeEntry, AluOp.operandMode, lookupIndexFor,
        uninterleave_interleave, AluOp.evaluate]
      split
      · next zero => exact (BitVec.clz_eq_iff_eq_zero.mpr zero).symm
      · rfl
  | ctz =>
      rw [tableOutput]
      simp only [WasmTable.of, WasmTable.materializeEntry, AluOp.operandMode, lookupIndexFor,
        uninterleave_interleave, AluOp.evaluate]
      split
      · next zero =>
          rw [zero, BitVec.ctz, BitVec.clz_eq_iff_eq_zero.mpr]
          · rfl
          · ext i hi
            simp [BitVec.getElem_reverse]
      · rfl
  | _ =>
      rw [tableOutput]
      simp only [WasmTable.of, WasmTable.materializeEntry, AluOp.operandMode, lookupIndexFor,
        uninterleave_interleave, AluOp.evaluate, BitVec.slt, BitVec.sle]

/-- The interpreter and the proof system compute the same function of a row's inputs. -/
theorem evaluate_eq_tableOutput (op : AluOp) (x y : U64)
    (bitmask : op.readsBitmask = true → IsRightShiftBitmask y) :
    op.evaluate x y = tableOutput op x y :=
  (tableOutput_eq_evaluate op x y bitmask).symm

theorem evaluate_eq_tableOutput_rotr :
    AluOp.rotr.evaluate 0x123456789abcdef0 0xfffffffffffffff0 =
      tableOutput .rotr 0x123456789abcdef0 0xfffffffffffffff0 :=
  evaluate_eq_tableOutput .rotr _ _ fun _ => ⟨4, by decide, rfl⟩

end JoltWasm
