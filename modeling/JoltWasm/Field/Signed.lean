import JoltWasm.Field.Limbs

/-!
# Sign-magnitude integers

Two layouts of the magnitude share one sign state machine.  Zero is not canonical: it may carry either
sign.
-/

namespace JoltWasm

open Lib

/-- The magnitude operations that a family provides. -/
class Magnitude (Mag : Type) where
  zero : Mag
  isZero : Mag → Bool
  cmp : Mag → Mag → Ordering
  add : Mag → Mag → Mag
  sub : Mag → Mag → Mag
  mul : Mag → Mag → Mag

/-- A magnitude and a sign. -/
@[ext]
structure Signed (Mag : Type) where
  magnitude : Mag
  isPositive : Bool

namespace Signed

variable {Mag : Type} [Magnitude Mag]

/-- `add_assign_in_place`. -/
def add (a b : Signed Mag) : Signed Mag :=
  if a.isPositive = b.isPositive then ⟨Magnitude.add a.magnitude b.magnitude, a.isPositive⟩
  else if Magnitude.cmp a.magnitude b.magnitude ≠ .lt then
    ⟨Magnitude.sub a.magnitude b.magnitude, a.isPositive⟩
  else ⟨Magnitude.sub b.magnitude a.magnitude, b.isPositive⟩

def negate (a : Signed Mag) : Signed Mag := ⟨a.magnitude, !a.isPositive⟩

/-- `sub_assign_in_place`. -/
def sub (a b : Signed Mag) : Signed Mag := a.add b.negate

/-- `mul_assign_in_place`. -/
def mul (a b : Signed Mag) : Signed Mag :=
  ⟨Magnitude.mul a.magnitude b.magnitude, a.isPositive == b.isPositive⟩

def zero : Signed Mag := ⟨Magnitude.zero, true⟩

def isZero (a : Signed Mag) : Bool := Magnitude.isZero a.magnitude

/-- `PartialEq::eq`. -/
def eq (a b : Signed Mag) : Bool :=
  (Magnitude.isZero a.magnitude && Magnitude.isZero b.magnitude) ||
    (a.isPositive == b.isPositive && Magnitude.cmp a.magnitude b.magnitude == .eq)

def cmp (a b : Signed Mag) : Ordering :=
  if Magnitude.isZero a.magnitude && Magnitude.isZero b.magnitude then .eq
  else
    match a.isPositive, b.isPositive with
    | true, false => .gt
    | false, true => .lt
    | true, _ => Magnitude.cmp a.magnitude b.magnitude
    | false, _ => (Magnitude.cmp a.magnitude b.magnitude).swap

end Signed

/-! ## Whole limbs -/

instance (N : ℕ) : Magnitude (Limbs N) where
  zero := Limbs.zero
  isZero := Limbs.isZero
  cmp := Limbs.cmp
  add a b := (a.addWithCarry b).1
  sub a b := (a.subWithBorrow b).1
  mul := Limbs.mulLow

/-- `SignedBigInt<N>`. -/
abbrev SignedBigInt (N : ℕ) := Signed (Limbs N)

namespace SignedBigInt

variable {N M P : ℕ}

/-- The product, truncated to `P` limbs. -/
def mulTrunc (a : SignedBigInt N) (b : SignedBigInt M) : SignedBigInt P :=
  ⟨a.magnitude.mulTrunc b.magnitude, a.isPositive == b.isPositive⟩

/-- `acc + a * b`; the product and the sum are truncated to `P` limbs. -/
def fmaddTrunc (a : SignedBigInt N) (b : SignedBigInt M) (acc : SignedBigInt P) : SignedBigInt P :=
  acc.add (mulTrunc a b)

def fromU64WithSign (value : ℕ) (isPositive : Bool) : SignedBigInt N := ⟨Limbs.fromU64 value, isPositive⟩

def fromU64 (value : ℕ) : SignedBigInt N := fromU64WithSign value true

/-- `from_i64`, by `unsigned_abs`. -/
def fromI64 (value : ℤ) : SignedBigInt N := fromU64WithSign value.natAbs (decide (0 ≤ value))

/-- The two limbs of a 128-bit value, under zeros; there are at least two limbs. -/
def limbsOfU128 (value : ℕ) : Limbs (N + 2) :=
  ⟨value % limbBase :: value / limbBase % limbBase :: List.replicate N 0,
    ((IsDigits.replicate limbBase_pos N).cons (Nat.mod_lt _ limbBase_pos)).cons (Nat.mod_lt _ limbBase_pos)⟩

def fromU128WithSign (value : ℕ) (isPositive : Bool) : SignedBigInt (N + 2) := ⟨limbsOfU128 value, isPositive⟩

def fromU128 (value : ℕ) : SignedBigInt (N + 2) := fromU128WithSign value true

def fromI128 (value : ℤ) : SignedBigInt (N + 2) := fromU128WithSign value.natAbs (decide (0 ≤ value))

end SignedBigInt

abbrev S64 := SignedBigInt 1
abbrev S128 := SignedBigInt 2
abbrev S256 := SignedBigInt 4

namespace S64

def magnitudeAsU64 (a : S64) : ℕ := a.magnitude.limbs.headD 0

def toI128 (a : S64) : ℤ :=
  let magnitude : ℤ := a.magnitudeAsU64
  if a.isPositive then magnitude else -magnitude

end S64

namespace S128

def magnitudeAsU128 (a : S128) : ℕ :=
  ((a.magnitude.limbs.getD 1 0) <<< 64) ||| a.magnitude.limbs.getD 0 0

/-- The value, if 128 bits hold it. -/
def toI128 (a : S128) : Option ℤ :=
  let mag := a.magnitudeAsU128
  if a.isPositive then if mag >>> 127 = 0 then some mag else none
  else if mag >>> 127 = 0 then some (-mag)
  else if mag = 1 <<< 127 then some (-2 ^ 127) else none

end S128

/-! ## Limbs and a 32-bit head -/

/-- The magnitude of `SignedBigIntHi32<N>`. -/
@[ext]
structure Hi32 (N : ℕ) where
  lo : Limbs N
  hi : ℕ
  hi_lt : hi < 2 ^ 32

namespace Hi32

variable {N : ℕ}

def zero : Hi32 N := ⟨Limbs.zero, 0, by norm_num⟩

def isZero (a : Hi32 N) : Bool := a.hi == 0 && a.lo.limbs.all (· == 0)

def cmp (a b : Hi32 N) : Ordering :=
  (compare a.hi b.hi).then (compareHigh a.lo.limbs.reverse b.lo.limbs.reverse)

def add (a b : Hi32 N) : Hi32 N :=
  ⟨a.lo.addAssignTrunc b.lo, (a.hi + b.hi + (chain addStep a.lo.limbs b.lo.limbs 0).2) % 2 ^ 32,
    Nat.mod_lt _ (by norm_num)⟩

/-- `wrapping_sub` in 32 bits. -/
def wrappingSub (x y : ℕ) : ℕ := (x + 2 ^ 32 - y) % 2 ^ 32

def sub (a b : Hi32 N) : Hi32 N :=
  ⟨(a.lo.subWithBorrow b.lo).1, wrappingSub (wrappingSub a.hi b.hi) (a.lo.subWithBorrow b.lo).2.toNat,
    Nat.mod_lt _ (by norm_num)⟩

/-- The limbs with the head as a limb. -/
def limbs (a : Hi32 N) : Limbs (N + 1) :=
  ⟨a.lo.limbs ++ [a.hi], a.lo.isLimbs.append (.cons (a.hi_lt.trans (by norm_num)) .nil)⟩

/-- One row of the product buffer; its last carry is dropped. -/
def mulRow (b : Hi32 N) (prod : List ℕ) (i a : ℕ) : List ℕ :=
  prod.take i ++ (chain (mulStep limbBase a) ((prod.drop i).take (N + 1)) b.limbs.limbs 0).1 ++
    prod.drop (i + (N + 1))

/-- The buffer of 16 limbs, after all rows. -/
def mulBuffer (a b : Hi32 N) : List ℕ :=
  (a.limbs.limbs.zipIdx).foldl (fun prod (limb, i) => b.mulRow prod i limb) (List.replicate 16 0)

/-- The rows of the product leave limbs in the buffer. -/
theorem mulRow_isLimbs (b : Hi32 N) {prod : List ℕ} {i a : ℕ} (small : a < limbBase)
    (is : IsDigits limbBase 16 prod) : IsDigits limbBase 16 (b.mulRow prod i a) := by
  have window : ∀ x ∈ (prod.drop i).take (N + 1), x < limbBase := fun x member =>
    is.small x (List.mem_of_mem_drop (List.mem_of_mem_take member))
  have row := (chain_mul (mulStep limbBase a) (· < limbBase) limbBase_pos
    (fun x y carry => mulStep_spec small) window b.limbs.isLimbs.small limbBase_pos).2.1
  have low : IsDigits limbBase (prod.take i).length (prod.take i) :=
    ⟨rfl, fun x member => is.small x (List.mem_of_mem_take member)⟩
  have high : IsDigits limbBase (prod.drop (i + (N + 1))).length (prod.drop (i + (N + 1))) :=
    ⟨rfl, fun x member => is.small x (List.mem_of_mem_drop member)⟩
  have all := (low.append row).append high
  have length : (prod.take i).length + ((prod.drop i).take (N + 1)).length +
      (prod.drop (i + (N + 1))).length = 16 := by
    simp only [List.length_take, List.length_drop, is.length]
    omega
  rwa [length] at all

theorem mulRows_isLimbs (b : Hi32 N) {as : List ℕ} (small : ∀ a ∈ as, a < limbBase) (i : ℕ) {prod : List ℕ}
    (is : IsDigits limbBase 16 prod) :
    IsDigits limbBase 16 ((as.zipIdx i).foldl (fun prod (limb, i) => b.mulRow prod i limb) prod) := by
  induction as generalizing i prod with
  | nil => exact is
  | cons a as ih =>
      exact ih (fun a member => small a (List.mem_cons_of_mem _ member)) (i + 1)
        (b.mulRow_isLimbs (small a List.mem_cons_self) is)

theorem mulBuffer_isLimbs (a b : Hi32 N) : IsDigits limbBase 16 (a.mulBuffer b) :=
  b.mulRows_isLimbs a.limbs.isLimbs.small 0 (.replicate limbBase_pos 16)

/-- The low limbs of the buffer; the head is its next limb, cut to 32 bits. -/
def mul (a b : Hi32 N) : Hi32 N :=
  ⟨(⟨a.mulBuffer b, a.mulBuffer_isLimbs b⟩ : Limbs 16).copyLow, (a.mulBuffer b).getD N 0 % 2 ^ 32,
    Nat.mod_lt _ (by norm_num)⟩

end Hi32

instance (N : ℕ) : Magnitude (Hi32 N) where
  zero := Hi32.zero
  isZero := Hi32.isZero
  cmp := Hi32.cmp
  add := Hi32.add
  sub := Hi32.sub
  mul := Hi32.mul

/-- `SignedBigIntHi32<N>`. -/
abbrev SignedBigIntHi32 (N : ℕ) := Signed (Hi32 N)

namespace SignedBigIntHi32

/-- The same integer in whole limbs. -/
def toSignedBigintNplus1 {N : ℕ} (a : SignedBigIntHi32 N) : SignedBigInt (N + 1) :=
  ⟨a.magnitude.limbs, a.isPositive⟩

end SignedBigIntHi32

abbrev S160 := SignedBigIntHi32 2

/-- `From<u128> for S160`. -/
def S160.ofU128 (value : ℕ) : S160 := ⟨⟨SignedBigInt.limbsOfU128 value, 0, by norm_num⟩, true⟩

end JoltWasm
