import JoltWasm.Tables.Mle

/-!
# Prefixes and suffixes of the tables

The prover never materialises a table.  At a split of the address into bound and unbound variables
it combines prefix polynomials of the bound variables, kept as dense tables and checkpoints, with
suffix values of the unbound bits.
-/

namespace JoltWasm

open Lib

/-- Production word size. -/
def xlen64 : ℕ := 64

/-! ## Substrings of an index -/

/-- A substring of a lookup index. -/
structure LookupBits where
  bits : U128
  len : ℕ

namespace LookupBits

/-- The low `len` bits. -/
def new (bits : U128) (len : ℕ) : LookupBits :=
  ⟨if len < 128 then bits % ((1 : U128) <<< len) else bits, len⟩

/-- The bits of both operands. -/
def uninterleave (b : LookupBits) : LookupBits × LookupBits :=
  let (xBits, yBits) := uninterleaveBits b.bits
  let x := new (xBits.setWidth 128) (b.len / 2)
  let y := new (yBits.setWidth 128) (b.len - x.len)
  (x, y)

/-- The high bits and the `suffixLen` low ones. -/
def split (b : LookupBits) (suffixLen : ℕ) : LookupBits × LookupBits :=
  (new (b.bits >>> suffixLen) (b.len - suffixLen), new (b.bits % ((1 : U128) <<< suffixLen)) suffixLen)

def toU64 (b : LookupBits) : U64 := b.bits.setWidth 64

def trailingZeros (b : LookupBits) : ℕ := min b.bits.ctz.toNat b.len

/-- `wrapping_shl` takes the shift modulo 128. -/
def leadingOnes (b : LookupBits) : ℕ := (~~~(b.bits <<< ((128 - b.len) % 128))).clz.toNat

end LookupBits

/-- Leading zeros of `x` within its bits. -/
def leadingZeros (x : LookupBits) : ℕ :=
  if x.toU64 = 0 then x.len else x.len - (64 - x.toU64.clz.toNat)

/-- Bit `i` of the `n` bits of `v`, most significant first. -/
def bitFromTop (v : U64) (n i : ℕ) : U64 := (v >>> (n - 1 - i)) &&& 1

/-! ## Prefixes -/

/-- The prefixes, in declaration order. -/
inductive Prefixes where
  | lowerWord
  | lowerHalfWord
  | eq
  | and
  | andn
  | or
  | xor
  | lessThan
  | leftOperandIsZero
  | leftOperandMsb
  | rightOperandMsb
  | pow2
  | rightShift
  | signExtension
  | leftShift
  | leftShiftHelper
  | signExtensionUpperHalf
  | rightOperand
  | leftMsbRightOperand
  | leftMsbRightOperandIsZero
  | overflowBitsZero
  | popcnt
  | clz
  | ctz
  deriving DecidableEq

section

variable {F : Type} [CommRing F]

/-- The recurrence of `RightShiftPrefix` at the bits of a phase. -/
def rightShiftPhase (x y : U64) (n : ℕ) (start : F) : F :=
  (List.range n).foldl (fun result i =>
    if bitFromTop y n i = 1 then result + result + ((bitFromTop x n i).toNat : F) else result) start

/-- The recurrence of `LeftShiftPrefix` at the bits of a phase: `result` and `prod`. -/
def leftShiftPhase (x y : U64) (n jStart : ℕ) (start : F × F) : F × F :=
  (List.range n).foldl (fun (result, prod) i =>
    (if bitFromTop y n i = 0 ∧ bitFromTop x n i = 1 then
        result + prod * (((1 : U64) <<< (xlen64 - 1 - jStart / 2 - i)).toNat : F)
      else result,
      if bitFromTop y n i = 1 then prod + prod else prod)) start

/-- `sum` of `SignExtensionPrefix` in the first phase, over the bits before `i`. -/
def signExtensionFirst (y : U64) (n : ℕ) : ℕ → U64
  | 0 => 0
  | i + 1 =>
      if i = 0 then signExtensionFirst y n i
      else if bitFromTop y n i = 0 then signExtensionFirst y n i + (1 : U64) <<< i
      else signExtensionFirst y n i

/-- `new_sum` of `SignExtensionPrefix` in a later phase. -/
def signExtensionPhase (F : Type) [CommRing F] (y : U64) (n baseIndex : ℕ) : F :=
  (List.range n).foldl (fun newSum i =>
    if bitFromTop y n i = 0 then newSum + (((1 : U64) <<< (baseIndex + i)).toNat : F)
    else newSum) 0

namespace Prefixes

/-- The checkpoint before the first phase. -/
def defaultCheckpoint (F : Type) [CommRing F] : Prefixes → F
  | eq | leftOperandIsZero | pow2 | leftShiftHelper | signExtensionUpperHalf
  | overflowBitsZero => 1
  | _ => 0

/-- The prefix at the bits `b` of a phase, from the checkpoints of the phases before. -/
def evaluate (p : Prefixes) (checkpoints : Prefixes → F) (b : LookupBits) (suffixLen : ℕ) : F :=
  let jStart := 2 * xlen64 - suffixLen - b.len
  let (x, y) := b.uninterleave
  match p with
  | lowerWord =>
      if jStart < xlen64 then 0
      else checkpoints lowerWord + ((b.bits <<< suffixLen).toNat : F)
  | lowerHalfWord =>
      if jStart < xlen64 + xlen64 / 2 then 0
      else checkpoints lowerHalfWord + ((b.bits <<< suffixLen).toNat : F)
  | eq => if x.bits = y.bits then checkpoints eq else 0
  | and => checkpoints and + (((x.toU64 &&& y.toU64) <<< (suffixLen / 2)).toNat : F)
  | andn => checkpoints andn + (((x.toU64 &&& ~~~y.toU64) <<< (suffixLen / 2)).toNat : F)
  | or => checkpoints or + (((x.toU64 ||| y.toU64) <<< (suffixLen / 2)).toNat : F)
  | xor => checkpoints xor + (((x.toU64 ^^^ y.toU64) <<< (suffixLen / 2)).toNat : F)
  | lessThan =>
      if x.toU64 < y.toU64 then checkpoints lessThan + checkpoints eq else checkpoints lessThan
  | leftOperandIsZero => if x.toU64 ≠ 0 then 0 else checkpoints leftOperandIsZero
  | leftOperandMsb =>
      if jStart > 0 then checkpoints leftOperandMsb else ((x.toU64 >>> (x.len - 1)).toNat : F)
  | rightOperandMsb =>
      if jStart > 0 then checkpoints rightOperandMsb else ((y.toU64 >>> (y.len - 1)).toNat : F)
  | pow2 =>
      if suffixLen ≠ 0 then 1
      else checkpoints pow2 * (((1 : U64) <<< (b.toU64 &&& 63)).toNat : F)
  | rightShift => rightShiftPhase x.toU64 y.toU64 y.len (checkpoints rightShift)
  | signExtension =>
      if jStart = 0 then
        if (x.toU64 >>> (x.len - 1)) &&& 1 = 0 then 0
        else ((signExtensionFirst y.toU64 y.len y.len).toNat : F)
      else
        checkpoints signExtension +
          checkpoints leftOperandMsb * signExtensionPhase F y.toU64 y.len (jStart / 2)
  | leftShift =>
      (leftShiftPhase x.toU64 y.toU64 y.len jStart
        (checkpoints leftShift, checkpoints leftShiftHelper)).1
  | leftShiftHelper =>
      -- A shift by 64, when the 64 bits of a whole operand are ones, wraps.
      checkpoints leftShiftHelper * (((1 : U64) <<< (y.toU64.cpop.toNat % 64)).toNat : F)
  | signExtensionUpperHalf =>
      let halfWordSize := xlen64 / 2
      let signBitRound := xlen64 + halfWordSize
      if suffixLen ≥ halfWordSize then 1
      else if jStart ≤ signBitRound ∧ signBitRound < jStart + b.len then
        (((((1 : U128) <<< halfWordSize) - 1) <<< halfWordSize).toNat : F) *
          (((x.toU64 >>> (x.len - 1)) &&& 1).toNat : F)
      else checkpoints signExtensionUpperHalf
  | rightOperand => checkpoints rightOperand + ((y.bits <<< (suffixLen / 2)).toNat : F)
  | leftMsbRightOperand =>
      let leftMsb :=
        if jStart = 0 then ((x.toU64 >>> (x.len - 1)).toNat : F) else checkpoints leftOperandMsb
      checkpoints leftMsbRightOperand + leftMsb * ((y.bits <<< (suffixLen / 2)).toNat : F)
  | leftMsbRightOperandIsZero =>
      if y.toU64 ≠ 0 then 0
      else if jStart = 0 then ((x.toU64 >>> (x.len - 1)).toNat : F)
      else checkpoints leftMsbRightOperandIsZero
  | overflowBitsZero =>
      if jStart ≥ 128 - xlen64 then checkpoints overflowBitsZero
      else
        let overflowBits :=
          if suffixLen ≥ xlen64 then b.bits else b.bits >>> (xlen64 - suffixLen)
        if overflowBits ≠ 0 then 0 else checkpoints overflowBitsZero
  | popcnt => checkpoints popcnt + (x.toU64.cpop.toNat : F)
  | clz => checkpoints clz + checkpoints leftOperandIsZero * (leadingZeros x : F)
  | ctz => if x.toU64 = 0 then checkpoints ctz + (x.len : F) else (x.toU64.ctz.toNat : F)

end Prefixes

end

/-! ## Suffixes -/

/-- The suffixes, in declaration order. -/
inductive Suffixes where
  | one
  | and
  | andNot
  | xor
  | or
  | rightOperand
  | lowerWord
  | lowerHalfWord
  | lessThan
  | eq
  | leftOperandIsZero
  | rightOperandIsZero
  | pow2
  | rightShift
  | rightShiftHelper
  | signExtension
  | leftShift
  | signExtensionUpperHalf
  | overflowBitsZero
  | popcnt
  | clzLow
  | ctzLow
  deriving DecidableEq

/-- The suffix at the unbound bits. -/
def Suffixes.suffixMle (suffix : Suffixes) (b : LookupBits) : U64 :=
  let (x, y) := b.uninterleave
  match suffix with
  | one => 1
  | and => x.toU64 &&& y.toU64
  | andNot => x.toU64 &&& ~~~y.toU64
  | xor => x.toU64 ^^^ y.toU64
  | or => x.toU64 ||| y.toU64
  | rightOperand => y.toU64
  | lowerWord => (b.bits % ((1 : U128) <<< xlen64)).setWidth 64
  | lowerHalfWord => (b.bits % ((1 : U128) <<< (xlen64 / 2))).setWidth 64
  | lessThan => U64.ofBool (x.toU64.ult y.toU64)
  | eq => U64.ofBool (x.bits == y.bits)
  | leftOperandIsZero => U64.ofBool (x.toU64 == 0)
  | rightOperandIsZero => U64.ofBool (y.toU64 == 0)
  | pow2 => if b.len = 0 then 1 else (1 : U64) <<< (b.split 6).2.toU64
  | rightShift => x.toU64 >>> y.trailingZeros
  | rightShiftHelper => (1 : U64) <<< y.leadingOnes
  | signExtension =>
      let paddingLen := min y.toU64.ctz.toNat y.len
      (((1 : U128) <<< xlen64) - ((1 : U128) <<< (xlen64 - paddingLen))).setWidth 64
  | leftShift => (x.toU64 &&& ~~~y.toU64) <<< y.leadingOnes
  | signExtensionUpperHalf =>
      let halfWordSize := xlen64 / 2
      if b.len ≥ halfWordSize then
        if (b.bits >>> (halfWordSize - 1)) &&& 1 = 1 then
          (((1 : U64) <<< halfWordSize) - 1) <<< halfWordSize
        else 0
      else 1
  | overflowBitsZero => U64.ofBool (b.bits >>> xlen64 == 0)
  | popcnt => x.toU64.cpop
  | clzLow => BitVec.ofNat 64 (leadingZeros x)
  | ctzLow => if x.toU64 = 0 then BitVec.ofNat 64 x.len else x.toU64.ctz

/-! ## The tables -/

namespace WasmTable

/-- The prefixes a table combines. -/
def prefixes : WasmTable → List Prefixes
  | rangeCheck => [.lowerWord]
  | lowerHalfWord => [.lowerHalfWord]
  | and => [.and]
  | andn => [.andn]
  | or => [.or]
  | xor => [.xor]
  | equal | notEqual => [.eq]
  | unsignedLessThan | unsignedGreaterThanEqual | unsignedLessThanEqual => [.lessThan, .eq]
  | signedLessThan => [.leftOperandMsb, .rightOperandMsb, .lessThan, .eq]
  | signedGreaterThanEqual => [.rightOperandMsb, .leftOperandMsb, .lessThan, .eq]
  | srl => [.rightShift]
  | sra => [.rightShift, .leftOperandMsb, .signExtension]
  | rotr => [.rightShift, .leftShiftHelper, .leftShift]
  | negateIf =>
      [.rightOperand, .leftOperandMsb, .leftMsbRightOperand, .leftMsbRightOperandIsZero]
  | mulUNoOverflow => [.overflowBitsZero]
  | pow2 | shiftRightBitmask => [.pow2]
  | signExtendWord => [.lowerHalfWord, .signExtensionUpperHalf]
  | clz => [.clz, .leftOperandIsZero]
  | ctz => [.ctz]
  | popcnt => [.popcnt]

/-- The suffixes a table combines. -/
def suffixes : WasmTable → List Suffixes
  | rangeCheck => [.one, .lowerWord]
  | lowerHalfWord => [.one, .lowerHalfWord]
  | and => [.one, .and]
  | andn => [.one, .andNot]
  | or => [.one, .or]
  | xor => [.one, .xor]
  | equal => [.eq]
  | notEqual => [.one, .eq]
  | unsignedLessThan | signedLessThan | unsignedGreaterThanEqual | signedGreaterThanEqual =>
      [.one, .lessThan]
  | unsignedLessThanEqual => [.one, .lessThan, .eq]
  | srl => [.rightShift, .rightShiftHelper]
  | sra => [.one, .rightShift, .rightShiftHelper, .signExtension]
  | rotr => [.rightShiftHelper, .rightShift, .leftShift, .one]
  | negateIf => [.one, .rightOperand, .rightOperandIsZero]
  | mulUNoOverflow => [.overflowBitsZero]
  | pow2 => [.pow2]
  | shiftRightBitmask => [.one, .pow2]
  | signExtendWord => [.one, .lowerHalfWord, .signExtensionUpperHalf]
  | clz => [.one, .clzLow]
  | ctz => [.ctzLow, .leftOperandIsZero]
  | popcnt => [.one, .popcnt]

variable {F : Type} [CommRing F]

/-- Recombine prefix and suffix values.  A list of suffixes of the wrong length is an error. -/
def combine (t : WasmTable) (prefixes : Prefixes → F) (suffixes : List F) : Option F :=
  match t, suffixes with
  | rangeCheck, [one, low] => some (prefixes .lowerWord * one + low)
  | lowerHalfWord, [one, low] => some (prefixes .lowerHalfWord * one + low)
  | and, [one, low] => some (prefixes .and * one + low)
  | andn, [one, low] => some (prefixes .andn * one + low)
  | or, [one, low] => some (prefixes .or * one + low)
  | xor, [one, low] => some (prefixes .xor * one + low)
  | equal, [eq] => some (prefixes .eq * eq)
  | notEqual, [one, eq] => some (one - prefixes .eq * eq)
  | unsignedLessThan, [one, lessThan] =>
      some (prefixes .lessThan * one + prefixes .eq * lessThan)
  | signedLessThan, [one, lessThan] =>
      some (prefixes .leftOperandMsb * one - prefixes .rightOperandMsb * one +
        prefixes .lessThan * one + prefixes .eq * lessThan)
  | unsignedGreaterThanEqual, [one, lessThan] =>
      some (one - prefixes .lessThan * one - prefixes .eq * lessThan)
  | signedGreaterThanEqual, [one, lessThan] =>
      some (one + prefixes .rightOperandMsb * one - prefixes .leftOperandMsb * one -
        prefixes .lessThan * one - prefixes .eq * lessThan)
  | unsignedLessThanEqual, [one, lessThan, eq] =>
      some (prefixes .lessThan * one + prefixes .eq * lessThan + prefixes .eq * eq)
  | srl, [rightShift, rightShiftHelper] =>
      some (prefixes .rightShift * rightShiftHelper + rightShift)
  | sra, [one, rightShift, rightShiftHelper, signExtension] =>
      some (prefixes .rightShift * rightShiftHelper + rightShift +
        prefixes .leftOperandMsb * signExtension + prefixes .signExtension * one)
  | rotr, [rightShiftHelper, rightShift, leftShift, one] =>
      some (prefixes .rightShift * rightShiftHelper + rightShift +
        prefixes .leftShiftHelper * leftShift + prefixes .leftShift * one)
  | negateIf, [one, rightOperand, rightOperandIsZero] =>
      let twoToXlen := ((2 ^ xlen64 : ℕ) : F)
      some (prefixes .rightOperand * one + rightOperand -
        2 * (prefixes .leftMsbRightOperand * one + prefixes .leftOperandMsb * rightOperand) +
        twoToXlen * prefixes .leftOperandMsb * one -
        twoToXlen * prefixes .leftMsbRightOperandIsZero * rightOperandIsZero)
  | mulUNoOverflow, [overflowBitsZero] => some (prefixes .overflowBitsZero * overflowBitsZero)
  | pow2, [low] => some (prefixes .pow2 * low)
  | shiftRightBitmask, [one, low] => some (((2 ^ xlen64 : ℕ) : F) * one - prefixes .pow2 * low)
  | signExtendWord, [one, low, signExtensionUpperHalf] =>
      some (prefixes .lowerHalfWord * one + low +
        prefixes .signExtensionUpperHalf * signExtensionUpperHalf)
  | clz, [one, clzLow] => some (prefixes .clz * one + prefixes .leftOperandIsZero * clzLow)
  | ctz, [ctzLow, leftIsZero] => some (ctzLow + prefixes .ctz * leftIsZero)
  | popcnt, [one, low] => some (prefixes .popcnt * one + low)
  | _, _ => none

end WasmTable

/-! ## Phases -/

section

variable {F : Type} [CommRing F]

/-- A prefix on all binary values of a phase of `len` bits. -/
def prefixTable (len suffixLen : ℕ) (checkpoints : Prefixes → F) (p : Prefixes) (x : ℕ) : F :=
  p.evaluate checkpoints (LookupBits.new (BitVec.ofNat 128 x) len) suffixLen

/-- The number of unbound bits after phase `phase`. -/
def suffixLenOf (len phase : ℕ) : ℕ := 2 * xlen64 - (phase + 1) * len

/-- The checkpoints before phase `phase`: the fully bound tables of the phase before. -/
def checkpointsAt (len : ℕ) (r : List F) : ℕ → Prefixes → F
  | 0 => Prefixes.defaultCheckpoint F
  | phase + 1 => fun p =>
      bindAll len ((r.drop (phase * len)).take len)
        (prefixTable len (suffixLenOf len phase) (checkpointsAt len r phase) p) 0

/-- A prefix's table in phase `phase`, bound to the challenges of the phase so far, at the
remaining bits. -/
def boundPrefix (len : ℕ) (r : List F) (phase remaining : ℕ) (p : Prefixes) : F :=
  bindAll len (r.drop (phase * len))
    (prefixTable len (suffixLenOf len phase) (checkpointsAt len r phase) p) remaining

/-- The suffixes of a table at the unbound bits. -/
def suffixEvals (F : Type) [CommRing F] (t : WasmTable) (b : LookupBits) : List F :=
  t.suffixes.map fun suffix => ((suffix.suffixMle b).toNat : F)

end

end JoltWasm
