import JoltWasm.Tables.Interleave

/-!
# The lookup tables of the catalog

Every `AluOp` is realised by one table of 128-bit indices.  The tables of two operands uninterleave
their index; the shift tables read the shifted operand and the bitmask from the most significant
bit down.
-/

namespace JoltWasm

/-- The table catalog, in id order. -/
inductive WasmTable where
  | rangeCheck
  | lowerHalfWord
  | and
  | andn
  | or
  | xor
  | equal
  | notEqual
  | unsignedLessThan
  | signedLessThan
  | unsignedGreaterThanEqual
  | signedGreaterThanEqual
  | unsignedLessThanEqual
  | srl
  | sra
  | rotr
  | negateIf
  | mulUNoOverflow
  | pow2
  | shiftRightBitmask
  | signExtendWord
  | clz
  | ctz
  | popcnt
  deriving DecidableEq

namespace WasmTable

/-- Number of tables. -/
def count : ℕ := 24

/-- The variant's position in declaration order. -/
def index (t : WasmTable) : ℕ := t.ctorIdx

/-- The table that realises `op`. -/
def of : AluOp → WasmTable
  | .add .w64 | .sub .w64 | .mul .w64 => rangeCheck
  | .add .w32 | .sub .w32 | .mul .w32 | .lowerHalfWord => lowerHalfWord
  | .and => and
  | .andn => andn
  | .or => or
  | .xor => xor
  | .eq => equal
  | .ne => notEqual
  | .ltU => unsignedLessThan
  | .ltS => signedLessThan
  | .geU => unsignedGreaterThanEqual
  | .geS => signedGreaterThanEqual
  | .leU => unsignedLessThanEqual
  | .srl => srl
  | .sra => sra
  | .rotr => rotr
  | .negateIf => negateIf
  | .mulUNoOverflow => mulUNoOverflow
  | .pow2 => pow2
  | .shiftRightBitmask => shiftRightBitmask
  | .signExtendWord => signExtendWord
  | .clz => clz
  | .ctz => ctz
  | .popcnt => popcnt

end WasmTable

/-- Bit `i` of a word, as a word. -/
def bitWord (v : U64) (i : ℕ) : U64 := U64.ofBool (v.getLsbD i)

/-- `entry` of the logical shift after `n` bits, most significant first. -/
def srlLoop (x y : U64) : ℕ → U64
  | 0 => 0
  | n + 1 =>
      srlLoop x y n * (1 + bitWord y (63 - n)) + bitWord x (63 - n) * bitWord y (63 - n)

/-- `sign_extension` of the arithmetic shift after `n` bits. -/
def signExtensionLoop (y : U64) : ℕ → U64
  | 0 => 0
  | n + 1 =>
      if n = 0 then signExtensionLoop y n
      else signExtensionLoop y n + ((1 : U64) <<< n) * (1 - bitWord y (63 - n))

/-- The sums of a rotation: `prod_one_plus_y`, `first_sum` and `second_sum`. -/
structure RotrSums where
  prod : U128
  first : U64
  second : U64

/-- The sums of a rotation after `n` bits, most significant first. -/
def rotrLoop (x y : U64) : ℕ → RotrSums
  | 0 => ⟨1, 0, 0⟩
  | n + 1 =>
      let sums := rotrLoop x y n
      let i := 63 - n
      let xBit := bitWord x i
      let yBit := bitWord y i
      { prod := sums.prod * (1 + yBit.setWidth 128)
        first := sums.first * (1 + yBit) + xBit * yBit
        second :=
          sums.second +
            xBit * ((1 - yBit.setWidth 128) * sums.prod).setWidth 64 * ((1 : U64) <<< i) }

namespace WasmTable

/-- The table's entry at an index. -/
def materializeEntry (t : WasmTable) (index : U128) : U64 :=
  let (x, y) := uninterleaveBits index
  match t with
  | rangeCheck => (index &&& (((1 : U128) <<< 64) - 1)).setWidth 64
  | lowerHalfWord => BitVec.ofNat 64 (index.toNat % 2 ^ 32)
  | and => x &&& y
  | andn => x &&& ~~~y
  | or => x ||| y
  | xor => x ^^^ y
  | equal => U64.ofBool (x == y)
  | notEqual => U64.ofBool (x != y)
  | unsignedLessThan => U64.ofBool (x.ult y)
  | signedLessThan => U64.ofBool (decide (x.toInt < y.toInt))
  | unsignedGreaterThanEqual => U64.ofBool (y.ule x)
  | signedGreaterThanEqual => U64.ofBool (decide (y.toInt ≤ x.toInt))
  | unsignedLessThanEqual => U64.ofBool (x.ule y)
  | srl => srlLoop x y 64
  | sra => srlLoop x y 64 + U64.ofBool x.msb * signExtensionLoop y 64
  | rotr => (rotrLoop x y 64).first + (rotrLoop x y 64).second
  | negateIf =>
      let mask : U64 := (((1 : U128) <<< 64) - 1).setWidth 64
      let value := y &&& mask
      if x &&& ((1 : U64) <<< 63) = 0 then value else -value &&& mask
  | mulUNoOverflow => U64.ofBool (index >>> 64 == 0)
  | pow2 => (1 : U64) <<< (index.toNat % 64)
  | shiftRightBitmask =>
      let shift := index.toNat % 64
      (((1 : U128) <<< (64 - shift)) - 1).setWidth 64 <<< shift
  | signExtendWord =>
      let lowerHalf := BitVec.ofNat 64 (index.toNat % 2 ^ 32)
      if (lowerHalf >>> 31) &&& 1 = 1 then lowerHalf ||| ((((1 : U64) <<< 32) - 1) <<< 32) else lowerHalf
  | clz => if x = 0 then 64 else x.clz
  | ctz => if x = 0 then 64 else x.ctz
  | popcnt => x.cpop

end WasmTable

/-- The lookup index of a row with the given instruction inputs. -/
def lookupIndexFor (mode : OperandMode) (left right : U64) : U128 :=
  match mode with
  | .interleaved => interleaveBits left right
  | .add => left.setWidth 128 + right.setWidth 128
  | .sub => left.setWidth 128 + ((1 : U128) <<< 64) - right.setWidth 128
  | .mul => left.setWidth 128 * right.setWidth 128

/-- The entry of the op's table at the row's lookup index. -/
def tableOutput (op : AluOp) (left right : U64) : U64 :=
  (WasmTable.of op).materializeEntry (lookupIndexFor op.operandMode left right)

/-! ## Right-shift bitmasks -/

/-- The bits of a right-shift bitmask: ones from the shift upward. -/
theorem getLsbD_shiftRightBitmask {s : ℕ} (small : s < 64) (i : ℕ) :
    (shiftRightBitmask (BitVec.ofNat 64 s)).getLsbD i = (decide (s ≤ i) && decide (i < 64)) := by
  have word : (BitVec.ofNat 64 s).toNat = s := by
    rw [BitVec.toNat_ofNat]
    omega
  have ones : ((1 : BitVec 128) <<< (64 - s) - 1).toNat = 2 ^ (64 - s) - 1 := by
    have bound : 2 ^ (64 - s) ≤ 2 ^ 64 := Nat.pow_le_pow_right (by omega) (by omega)
    have positive := Nat.two_pow_pos (64 - s)
    rw [BitVec.toNat_sub, BitVec.toNat_shiftLeft, Nat.shiftLeft_eq]
    change (2 ^ 128 - 1 + 1 * 2 ^ (64 - s) % 2 ^ 128) % 2 ^ 128 = _
    omega
  rw [shiftRightBitmask, word, BitVec.getLsbD_shiftLeft, BitVec.getLsbD_setWidth,
    BitVec.getLsbD, ones, Nat.testBit_two_pow_sub_one]
  by_cases low : i < s
  · simp [low, Nat.not_le.mpr low]
  · by_cases high : i < 64
    · simp only [high, low, decide_true, decide_false, Bool.not_false, Bool.true_and]
      rw [Bool.eq_iff_iff]
      simp
      omega
    · simp [high]

end JoltWasm
