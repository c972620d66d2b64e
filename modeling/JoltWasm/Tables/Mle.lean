import JoltWasm.Lib.PairSums
import JoltWasm.Tables.Catalog

/-!
# Multilinear evaluation of the tables

The tables are generic over the word size: 64 bits in production, 8 bits in the tests that visit
every entry.  `materializeEntryAt` is the entry at an index of two words of `xlen` bits, and
`evaluateMle` the verifier's formula at a point of `2 * xlen` coordinates, most significant first.
-/

namespace JoltWasm

open Lib

/-! ## Entries -/

/-- `entry` of the logical shift after `n` bits. -/
def srlLoopAt (xlen : ℕ) (x y : U64) : ℕ → U64
  | 0 => 0
  | n + 1 =>
      srlLoopAt xlen x y n * (1 + bitWord y (xlen - 1 - n)) +
        bitWord x (xlen - 1 - n) * bitWord y (xlen - 1 - n)

/-- `sign_extension` of the arithmetic shift after `n` bits. -/
def signExtensionLoopAt (xlen : ℕ) (y : U64) : ℕ → U64
  | 0 => 0
  | n + 1 =>
      if n = 0 then signExtensionLoopAt xlen y n
      else signExtensionLoopAt xlen y n + ((1 : U64) <<< n) * (1 - bitWord y (xlen - 1 - n))

/-- The sums of a rotation after `n` bits. -/
def rotrLoopAt (xlen : ℕ) (x y : U64) : ℕ → RotrSums
  | 0 => ⟨1, 0, 0⟩
  | n + 1 =>
      let sums := rotrLoopAt xlen x y n
      let i := xlen - 1 - n
      let xBit := bitWord x i
      let yBit := bitWord y i
      { prod := sums.prod * (1 + yBit.setWidth 128)
        first := sums.first * (1 + yBit) + xBit * yBit
        second :=
          sums.second +
            xBit * ((1 - yBit.setWidth 128) * sums.prod).setWidth 64 * ((1 : U64) <<< i) }

/-- Sign-extend the low `xlen` bits to an `i64`. -/
def signExtendTo64 (xlen : ℕ) (v : U64) : ℤ :=
  ((v <<< (64 - xlen)).sshiftRight (64 - xlen)).toInt

/-- `trailing_zeros` of the word size. -/
def logXlen (xlen : ℕ) : ℕ := (BitVec.ofNat 64 xlen).ctz.toNat

namespace WasmTable

/-- The table's entry at an index of two words of `xlen` bits. -/
def materializeEntryAt (xlen : ℕ) (t : WasmTable) (index : U128) : U64 :=
  let (x, y) := uninterleaveBits index
  match t with
  | rangeCheck => (index &&& (((1 : U128) <<< xlen) - 1)).setWidth 64
  | lowerHalfWord => BitVec.ofNat 64 (index.toNat % 2 ^ (xlen / 2))
  | and => x &&& y
  | andn => x &&& ~~~y
  | or => x ||| y
  | xor => x ^^^ y
  | equal => U64.ofBool (x == y)
  | notEqual => U64.ofBool (x != y)
  | unsignedLessThan => U64.ofBool (x.ult y)
  | signedLessThan => U64.ofBool (decide (signExtendTo64 xlen x < signExtendTo64 xlen y))
  | unsignedGreaterThanEqual => U64.ofBool (y.ule x)
  | signedGreaterThanEqual => U64.ofBool (decide (signExtendTo64 xlen y ≤ signExtendTo64 xlen x))
  | unsignedLessThanEqual => U64.ofBool (x.ule y)
  | srl => srlLoopAt xlen x y xlen
  | sra =>
      srlLoopAt xlen x y xlen +
        U64.ofBool (x.getLsbD (xlen - 1)) * signExtensionLoopAt xlen y xlen
  | rotr => (rotrLoopAt xlen x y xlen).first + (rotrLoopAt xlen x y xlen).second
  | negateIf =>
      let mask : U64 := (((1 : U128) <<< xlen) - 1).setWidth 64
      let value := y &&& mask
      if x &&& ((1 : U64) <<< (xlen - 1)) = 0 then value else -value &&& mask
  | mulUNoOverflow => U64.ofBool (index >>> xlen == 0)
  | pow2 => (1 : U64) <<< (index.toNat % xlen)
  | shiftRightBitmask =>
      let shift := index.toNat % xlen
      (((1 : U128) <<< (xlen - shift)) - 1).setWidth 64 <<< shift
  | signExtendWord =>
      let half := xlen / 2
      let lowerHalf := BitVec.ofNat 64 (index.toNat % 2 ^ half)
      if (lowerHalf >>> (half - 1)) &&& 1 = 1 then
        lowerHalf ||| ((((1 : U64) <<< half) - 1) <<< half)
      else lowerHalf
  | clz => if x = 0 then BitVec.ofNat 64 xlen else x.clz - (64 - BitVec.ofNat 64 xlen)
  | ctz => if x = 0 then BitVec.ofNat 64 xlen else x.ctz
  | popcnt => x.cpop

end WasmTable

/-! ## The verifier's formulas -/

section

variable {F : Type} [CommRing F]

/-- `for i in 0..n` with `x_i = r[2 * i]` and `y_i = r[2 * i + 1]`. -/
def forPairs {S : Type} (n : ℕ) (r : List F) (init : S) (body : ℕ → F → F → S → S) : S :=
  (List.range n).foldl (fun s i => body i (r.getD (2 * i) 0) (r.getD (2 * i + 1) 0) s) init

/-- `lt` and `eq` of the comparisons. -/
def ltLoop (xlen : ℕ) (r : List F) : F × F :=
  forPairs xlen r (0, 1) fun _ x y (lt, eq) =>
    (lt + (1 - x) * y * eq, eq * (x * y + (1 - x) * (1 - y)))

namespace WasmTable

/-- The multilinear extension of the table at a point. -/
def evaluateMle (xlen : ℕ) (t : WasmTable) (r : List F) : F :=
  let half := xlen / 2
  match t with
  | rangeCheck =>
      ∑ i ∈ Finset.range xlen, ((2 ^ (xlen - 1 - i) : ℕ) : F) * r.getD (xlen + i) 0
  | lowerHalfWord =>
      ∑ i ∈ Finset.range half, ((2 ^ (half - 1 - i) : ℕ) : F) * r.getD (xlen + half + i) 0
  | and => forPairs xlen r 0 fun i x y result => result + ((2 ^ (xlen - 1 - i) : ℕ) : F) * x * y
  | andn =>
      forPairs xlen r 0 fun i x y result => result + ((2 ^ (xlen - 1 - i) : ℕ) : F) * x * (1 - y)
  | or =>
      forPairs xlen r 0 fun i x y result =>
        result + ((2 ^ (xlen - 1 - i) : ℕ) : F) * (x + y - x * y)
  | xor =>
      forPairs xlen r 0 fun i x y result =>
        result + ((2 ^ (xlen - 1 - i) : ℕ) : F) * ((1 - x) * y + x * (1 - y))
  | equal =>
      forPairs (r.length / 2) r 1 fun _ x y result => result * (x * y + (1 - x) * (1 - y))
  | notEqual =>
      1 - forPairs (r.length / 2) r 1 fun _ x y result => result * (x * y + (1 - x) * (1 - y))
  | unsignedLessThan => (ltLoop xlen r).1
  | signedLessThan => r.getD 0 0 - r.getD 1 0 + (ltLoop xlen r).1
  | unsignedGreaterThanEqual => 1 - (ltLoop xlen r).1
  | signedGreaterThanEqual => 1 - (r.getD 0 0 - r.getD 1 0 + (ltLoop xlen r).1)
  | unsignedLessThanEqual => (ltLoop xlen r).1 + (ltLoop xlen r).2
  | srl => forPairs xlen r 0 fun _ x y result => result * (1 + y) + x * y
  | sra =>
      let (result, signExtension) :=
        forPairs xlen r ((0, 0) : F × F) fun i x y (result, signExtension) =>
          (result * (1 + y) + x * y,
            if i = 0 then signExtension else signExtension + ((2 ^ i : ℕ) : F) * (1 - y))
      result + r.getD 0 0 * signExtension
  | rotr =>
      let (_, firstSum, secondSum) :=
        forPairs xlen r ((1, 0, 0) : F × F × F) fun i x y (prodOnePlusY, firstSum, secondSum) =>
          (prodOnePlusY * (1 + y), firstSum * (1 + y) + x * y,
            secondSum + x * (1 - y) * prodOnePlusY * ((2 ^ (xlen - 1 - i) : ℕ) : F))
      firstSum + secondSum
  | negateIf =>
      let sign := r.getD 0 0
      let (value, valueIsZero) :=
        forPairs xlen r ((0, 1) : F × F) fun i _ bit (value, valueIsZero) =>
          (value + ((2 ^ (xlen - 1 - i) : ℕ) : F) * bit, valueIsZero * (1 - bit))
      let twoToXlen := ((2 ^ xlen : ℕ) : F)
      value - 2 * sign * value + twoToXlen * sign - twoToXlen * sign * valueIsZero
  | mulUNoOverflow => ∏ i ∈ Finset.range xlen, (1 - r.getD i 0)
  | pow2 =>
      ∏ i ∈ Finset.range (logXlen xlen),
        (1 + ((2 ^ 2 ^ i - 1 : ℕ) : F) * r.getD (r.length - i - 1) 0)
  | shiftRightBitmask =>
      let logW := logXlen xlen
      let low := r.drop (r.length - logW)
      ∑ s ∈ Finset.range xlen, (((2 ^ (xlen - s) - 1) * 2 ^ s : ℕ) : F) *
        ∏ i ∈ Finset.range logW,
          if s / 2 ^ i % 2 = 0 then 1 - low.getD (logW - i - 1) 0 else low.getD (logW - i - 1) 0
  | signExtendWord =>
      let lowerHalf :=
        ∑ i ∈ Finset.range half, ((2 ^ (half - 1 - i) : ℕ) : F) * r.getD (xlen + half + i) 0
      let signBit := r.getD (xlen + half) 0
      let upperHalf := ∑ i ∈ Finset.range half, ((2 ^ (half - 1 - i) : ℕ) : F) * signBit
      lowerHalf + upperHalf * ((2 ^ half : ℕ) : F)
  | clz =>
      let (result, allZeroSoFar) :=
        forPairs xlen r ((0, 1) : F × F) fun i x _ (result, allZeroSoFar) =>
          (result + allZeroSoFar * x * (i : F), allZeroSoFar * (1 - x))
      result + allZeroSoFar * (xlen : F)
  | ctz =>
      -- The pairs from the last to the first.
      let (result, allZeroSoFar) :=
        (List.range xlen).foldl (fun (result, allZeroSoFar) k =>
          let x := r.getD (2 * (xlen - 1 - k)) 0
          (result + allZeroSoFar * x * (k : F), allZeroSoFar * (1 - x))) ((0, 1) : F × F)
      result + allZeroSoFar * (xlen : F)
  | popcnt => forPairs xlen r 0 fun _ x _ result => result + x

end WasmTable

end

end JoltWasm
