import Mathlib.Data.ZMod.Basic
import JoltWasm.Field.Limbs

/-!
# Montgomery and Barrett arithmetic of the scalar field

Products of an element by a machine integer, and the reduction of an integer of many limbs.
-/

namespace JoltWasm

open Lib

namespace Limbs

variable {N : ℕ}

/-- A loop over the limbs of `a` whose steps leave a limb and a carry. -/
def sweep (step : ℕ → ℕ → ℕ → ℕ × ℕ) (small : ∀ x y carry, (step x y carry).1 < limbBase) (a : Limbs N)
    (ys : List ℕ) : Limbs N × ℕ :=
  (⟨(chain step a.limbs ys 0).1, by
    have is := chain_isDigits small a.limbs ys 0
    rwa [a.isLimbs.length] at is⟩, (chain step a.limbs ys 0).2)

def cons (limb : ℕ) (a : Limbs N) : Limbs (N + 1) :=
  ⟨limb % limbBase :: a.limbs, a.isLimbs.cons (Nat.mod_lt _ limbBase_pos)⟩

def snoc (a : Limbs N) (limb : ℕ) : Limbs (N + 1) :=
  ⟨a.limbs ++ [limb % limbBase], a.isLimbs.append (.cons (Nat.mod_lt _ limbBase_pos) .nil)⟩

def tail (a : Limbs (N + 1)) : Limbs N := ⟨a.limbs.tail, a.isLimbs.tail⟩

/-- A limb; zero past the width. -/
def limb (a : Limbs N) (i : ℕ) : ℕ := a.limbs.getD i 0

end Limbs

namespace Mont

/-- `MODULUS`. -/
def modulus : Limbs 4 :=
  ⟨[0x43e1f593f0000001, 0x2833e84879b97091, 0xb85045b68181585d, 0x30644e72e131a029], rfl, by
    simp [limbBase]⟩

/-- The order of the field. -/
def order : ℕ := 0x30644e72e131a029b85045b68181585d2833e84879b9709143e1f593f0000001

/-- `INV`: the negated inverse of the modulus in a limb. -/
def inv : ℕ := 0xc2e1f593efffffff

/-- `R`, the Montgomery form of one. -/
def r : Limbs 4 :=
  ⟨[0xac96341c4ffffffb, 0x36fc76959f60cd29, 0x666ea36f7879462e, 0x0e0a77c19a07df2f], rfl, by
    simp [limbBase]⟩

/-- `R2`, the Montgomery form of `R`. -/
def r2 : Limbs 4 :=
  ⟨[0x1bb8e645ae216da7, 0x53fe3ab1e35c59e3, 0x8c49833d53bb8085, 0x0216d0b17f4e44a5], rfl, by
    simp [limbBase]⟩

def modulusHasSpareBit : Bool := modulus.limb 3 >>> 63 == 0

/-- `leading_zeros` of the top limb. -/
def modulusNumSpareBits : ℕ := 64 - (modulus.limb 3).size

/-! ## Limb steps -/

/-- `mac_with_carry`, with the third operand fixed. -/
theorem mulStep_fst_lt (m x y carry : ℕ) : (mulStep limbBase m x y carry).1 < limbBase :=
  Nat.mod_lt _ limbBase_pos

/-- `sbb`. -/
def sbb (a b borrow : ℕ) : ℕ × ℕ :=
  let tmp := 2 ^ 64 + a - b - borrow
  (tmp % limbBase, (tmp >>> 64 == 0).toNat)

theorem sbb_fst_lt (a b borrow : ℕ) : (sbb a b borrow).1 < limbBase := Nat.mod_lt _ limbBase_pos

/-- `k * p`: the low limbs and the carry limb. -/
def modulusTimes (k : ℕ) : Limbs 4 × ℕ :=
  (Limbs.zero : Limbs 4).sweep (mulStep limbBase k) (mulStep_fst_lt k) modulus.limbs

/-- The loop that corrects the quotient of a long division. -/
def correctQuotient (pHi pLo : ℕ) : ℕ → ℕ → ℕ
  | 0, _ => 0
  | q + 1, rem =>
      if rem < 2 ^ 64 ∧ rem <<< 64 < (q + 1) * pLo then correctQuotient pHi pLo q (rem + pHi) else q + 1

/-- `BARRETT_MU`. -/
def barrettMu : ℕ :=
  let shift := modulusNumSpareBits
  let pHi := if 0 < shift then (modulus.limb 3 <<< shift % limbBase) ||| (modulus.limb 2 >>> (64 - shift))
    else modulus.limb 3
  let pLo := if 0 < shift then (modulus.limb 2 <<< shift % limbBase) ||| (modulus.limb 1 >>> (64 - shift))
    else modulus.limb 2
  let dividendTop := (1 <<< 63) <<< 64
  let q := dividendTop / pHi
  correctQuotient pHi pLo q (dividendTop - q * pHi) % limbBase

/-! ## Barrett reduction -/

def compare4 (a b : Limbs 4) : Ordering := compareHigh a.limbs.reverse b.limbs.reverse

/-- The difference, and the borrow that callers exclude. -/
def sub4 (a b : Limbs 4) : Limbs 4 × ℕ := a.sweep sbb sbb_fst_lt b.limbs

/-- What `barrett_cond_subtract` takes away. -/
def subtrahend (rN : Limbs 4) : Option (Limbs 4) :=
  if compare4 rN (modulusTimes 2).1 ≠ .lt then
    if compare4 rN (modulusTimes 3).1 ≠ .lt then some (modulusTimes 3).1 else some (modulusTimes 2).1
  else if compare4 rN modulus ≠ .lt then some modulus
  else none

/-- The low limbs of a number below `4p`, reduced. -/
def barrettCondSubtract (rTmp : Limbs 5) : Limbs 4 :=
  let rN : Limbs 4 := rTmp.copyLow
  match subtrahend rN with
  | some multiple => (sub4 rN multiple).1
  | none => rN

/-- The quotient estimate, from the top bits. -/
def barrettQuotient (c : Limbs 5) : ℕ :=
  let tildeC := if modulusHasSpareBit then
      c.limb 4 <<< modulusNumSpareBits % limbBase + c.limb 3 >>> (64 - modulusNumSpareBits)
    else c.limb 4
  (tildeC * barrettMu) >>> 64

/-- `m * 2p`, in five limbs. -/
def barrettMultiple (m : ℕ) : Limbs 5 × ℕ :=
  (Limbs.zero : Limbs 5).sweep (mulStep limbBase m) (mulStep_fst_lt m)
    ((modulusTimes 2).1.snoc (modulusTimes 2).2).limbs

/-- `c - m * 2p`, and the borrow. -/
def barrettDifference (c : Limbs 5) : Limbs 5 × ℕ :=
  c.sweep sbb sbb_fst_lt (barrettMultiple (barrettQuotient c)).1.limbs

def barrettReduce5To4 (c : Limbs 5) : Limbs 4 := barrettCondSubtract (barrettDifference c).1

/-! ## Products by machine integers -/

def bigint4MulU64 (a : Limbs 4) (b : ℕ) : Limbs 5 :=
  let row := (Limbs.zero : Limbs 4).sweep (mulStep limbBase b) (mulStep_fst_lt b) a.limbs
  row.1.snoc row.2

def bigint4MulU128 (a : Limbs 4) (b : ℕ) : Limbs 6 :=
  let low := bigint4MulU64 a (b % limbBase)
  let row := low.tail.sweep (mulStep limbBase (b >>> 64)) (mulStep_fst_lt _) a.limbs
  (row.1.snoc row.2).cons (low.limb 0)

def fromUncheckedNplus2 (element : Limbs 6) : Limbs 4 :=
  barrettReduce5To4 ((barrettReduce5To4 element.tail).cons (element.limb 0))

def mulU64 (a : Limbs 4) (b : ℕ) : Limbs 4 :=
  if b = 0 ∨ a.isZero then Limbs.zero
  else if b = 1 then a
  else barrettReduce5To4 (bigint4MulU64 a b)

def mulU128 (a : Limbs 4) (b : ℕ) : Limbs 4 :=
  if b >>> 64 = 0 then mulU64 a (b % limbBase) else fromUncheckedNplus2 (bigint4MulU128 a b)

/-! ## Montgomery reduction -/

/-- One step of the reduction, on the limbs from its position on. -/
def montgomeryStep (state : List ℕ × ℕ) : List ℕ × ℕ :=
  let tmp := state.1.headD 0 * inv % limbBase
  let row := chain (mulStep limbBase tmp) (state.1.take 4) modulus.limbs 0
  let top := addStep (state.1.getD 4 0) row.2 state.2
  (row.1.tail ++ top.1 :: state.1.drop 5, top.2)

/-- Four steps; the limbs that are left, and the last carry. -/
def montgomeryReduceInPlace (limbs : List ℕ) : List ℕ × ℕ := montgomeryStep^[4] (limbs, 0)

/-- The limbs from the fifth on, reduced modulo `p`, high limbs first. -/
def foldTail (limbs : List ℕ) : Limbs 4 :=
  (limbs.drop 4).foldr (fun limb acc => barrettReduce5To4 (acc.cons limb)) Limbs.zero

variable {extra : ℕ}

/-- What the reduction starts from: where there are more than eight limbs, the tail is folded first. -/
def montgomeryBuffer (unreduced : Limbs (8 + extra)) : List ℕ :=
  if 0 < extra then
    unreduced.limbs.take 4 ++ (foldTail unreduced.limbs).limbs ++ List.replicate extra 0
  else unreduced.limbs

theorem montgomeryBuffer_isLimbs (unreduced : Limbs (8 + extra)) :
    IsDigits limbBase (8 + extra) (montgomeryBuffer unreduced) := by
  rw [montgomeryBuffer]
  split
  · have low : IsDigits limbBase 4 (unreduced.limbs.take 4) :=
      ⟨by rw [List.length_take, unreduced.isLimbs.length]; omega, fun x member =>
        unreduced.isLimbs.small x (List.mem_of_mem_take member)⟩
    exact (low.append (foldTail unreduced.limbs).isLimbs).append (.replicate limbBase_pos extra)
  · exact unreduced.isLimbs

theorem montgomeryStep_isLimbs {state : List ℕ × ℕ} {n : ℕ} (is : IsDigits limbBase (n + 5) state.1) :
    IsDigits limbBase (n + 4) (montgomeryStep state).1 := by
  obtain ⟨limbs, carry2⟩ := state
  simp only at is
  have row := chain_isDigits (mulStep_fst_lt (limbs.headD 0 * inv % limbBase)) (limbs.take 4) modulus.limbs 0
  rw [List.length_take, is.length, show min 4 (n + 5) = 3 + 1 by omega] at row
  have high : IsDigits limbBase n (limbs.drop 5) :=
    ⟨by rw [List.length_drop, is.length, Nat.add_sub_cancel], fun x member =>
      is.small x (List.mem_of_mem_drop member)⟩
  rw [show n + 4 = 3 + (n + 1) by omega]
  exact row.tail.append (high.cons (Nat.mod_lt _ limbBase_pos))

theorem montgomeryReduceInPlace_isLimbs {limbs : List ℕ} (is : IsDigits limbBase (8 + extra) limbs) :
    IsDigits limbBase (4 + extra) (montgomeryReduceInPlace limbs).1 := by
  rw [show 8 + extra = extra + 3 + 5 by omega] at is
  have first := @montgomeryStep_isLimbs (limbs, 0) _ is
  have second := montgomeryStep_isLimbs (n := extra + 2) first
  have third := montgomeryStep_isLimbs (n := extra + 1) second
  have fourth := montgomeryStep_isLimbs (n := extra) third
  rw [Nat.add_comm extra 4] at fourth
  exact fourth

/-- The four limbs of the reduction, before the last subtraction. -/
def montgomeryResult (unreduced : Limbs (8 + extra)) : Limbs 4 :=
  ⟨(montgomeryReduceInPlace (montgomeryBuffer unreduced)).1.take 4, by
    have is := montgomeryReduceInPlace_isLimbs (montgomeryBuffer_isLimbs unreduced)
    exact ⟨by rw [List.length_take, is.length]; omega, fun x member => is.small x (List.mem_of_mem_take member)⟩⟩

/-- `from_montgomery_reduce`, for at least eight limbs. -/
def fromMontgomeryReduce (unreduced : Limbs (8 + extra)) : Limbs 4 :=
  let carry := (montgomeryReduceInPlace (montgomeryBuffer unreduced)).2
  let result := montgomeryResult unreduced
  let needsSub := if modulusHasSpareBit then compare4 result modulus ≠ .lt
    else carry ≠ 0 ∨ compare4 result modulus ≠ .lt
  if needsSub then (sub4 result modulus).1 else result

/-! ## Elements -/

/-- Canonical limbs, in Montgomery form, of a field element. -/
structure IsMontgomery (a : Limbs 4) (x : ZMod order) : Prop where
  canonical : a.toNat < order
  value : (a.toNat : ZMod order) = x * 2 ^ 256

/-- An element of the field, as the library stores it. -/
structure Fr where
  limbs : Limbs 4
  canonical : limbs.toNat < order

/-- The operations that the library of the field provides, on canonical limbs. -/
structure ArkFr where
  new : ℕ → Limbs 4
  add : Limbs 4 → Limbs 4 → Limbs 4
  mul : Limbs 4 → Limbs 4 → Limbs 4
  neg : Limbs 4 → Limbs 4
  new_isMontgomery : ∀ {n : ℕ}, n < order → IsMontgomery (new n) n
  add_isMontgomery : ∀ {a b : Limbs 4} {x y : ZMod order}, IsMontgomery a x → IsMontgomery b y →
    IsMontgomery (add a b) (x + y)
  mul_isMontgomery : ∀ {a b : Limbs 4} {x y : ZMod order}, IsMontgomery a x → IsMontgomery b y →
    IsMontgomery (mul a b) (x * y)
  neg_isMontgomery : ∀ {a : Limbs 4} {x : ZMod order}, IsMontgomery a x → IsMontgomery (neg a) (-x)

variable (ark : ArkFr)

/-- `PRECOMP_TABLE_SIZE`. -/
def precompTableSize : ℕ := 1 <<< 14

/-- `PRECOMP_TABLE`. -/
def precompTable (i : ℕ) : Limbs 4 := if i = 0 then Limbs.zero else ark.new i

def fromU64 (n : ℕ) : Limbs 4 := if n < precompTableSize then precompTable ark n else mulU64 r n

def fromU128 (n : ℕ) : Limbs 4 := if n < precompTableSize then precompTable ark n else mulU128 r n

end Mont

end JoltWasm
