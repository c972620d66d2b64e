import JoltWasm.Field.MontCorrect
import JoltWasm.Field.SignedCorrect

/-!
# Accumulators of the scalar field

The accumulator trait with its default methods, the three accumulators of the field, and the histories
that callers build with them.
-/

namespace JoltWasm

open Lib

namespace Mont

abbrev U64 := Fin (2 ^ 64)
abbrev U128 := Fin (2 ^ 128)

instance neZero_u64 : NeZero (2 ^ 64) := ⟨(Nat.two_pow_pos 64).ne'⟩

/-- The range of `i64`. -/
abbrev I64 := {b : ℤ // -2 ^ 63 ≤ b ∧ b < 2 ^ 63}

def I64.unsignedAbs (b : I64) : U64 := ⟨b.1.natAbs, by
  obtain ⟨b, low, high⟩ := b
  simp only
  omega⟩

/-! ## Elements -/

/-- The element that canonical limbs represent. -/
def Fr.value (a : Fr) : ZMod order := a.limbs.toNat * (2 ^ 256)⁻¹

theorem two_coprime : Nat.Coprime 2 order := by decide

/-- The modulus is odd. -/
theorem dvd_of_dvd_pow_mul {k n : ℕ} (divides : order ∣ 2 ^ k * n) : order ∣ n :=
  (two_coprime.pow_left k).symm.dvd_of_dvd_mul_left divides

theorem r_mul_inv : (2 ^ 256 : ZMod order) * (2 ^ 256)⁻¹ = 1 := by
  have unit := ZMod.coe_mul_inv_eq_one (n := order) (2 ^ 256)
    (two_coprime.pow_left 256)
  rwa [Nat.cast_pow, Nat.cast_ofNat] at unit

theorem Fr.isMontgomery (a : Fr) : IsMontgomery a.limbs a.value where
  canonical := a.canonical
  value := by rw [Fr.value, mul_assoc, mul_comm _ (2 ^ 256), r_mul_inv, mul_one]

theorem Fr.cast_toNat (a : Fr) : (a.limbs.toNat : ZMod order) = a.value * 2 ^ 256 := a.isMontgomery.value

theorem IsMontgomery.value_eq {a : Limbs 4} {x : ZMod order} (is : IsMontgomery a x) :
    (⟨a, is.canonical⟩ : Fr).value = x := by
  rw [Fr.value, is.value, mul_assoc, r_mul_inv, mul_one]

namespace Fr

variable (ark : ArkFr)

def add (a b : Fr) : Fr := ⟨ark.add a.limbs b.limbs, (ark.add_isMontgomery a.isMontgomery b.isMontgomery).canonical⟩

def mul (a b : Fr) : Fr := ⟨ark.mul a.limbs b.limbs, (ark.mul_isMontgomery a.isMontgomery b.isMontgomery).canonical⟩

def neg (a : Fr) : Fr := ⟨ark.neg a.limbs, (ark.neg_isMontgomery a.isMontgomery).canonical⟩

def zero : Fr := ⟨Limbs.zero, zero_isMontgomery.canonical⟩

def fromU64 (v : U64) : Fr := ⟨Mont.fromU64 ark v, (fromU64_isMontgomery ark v.isLt).canonical⟩

def fromU8 (v : Fin (2 ^ 8)) : Fr := fromU64 ark (v.castLE (by norm_num))

def fromU128 (v : U128) : Fr := ⟨Mont.fromU128 ark v, (fromU128_isMontgomery ark v.isLt).canonical⟩

def fromI64 (v : I64) : Fr :=
  if v.1 < 0 then neg ark (fromU64 ark v.unsignedAbs) else fromU64 ark v.unsignedAbs

/-- `Ring::mul_pow_2`. -/
def mulPow2 (a : Fr) (pow : ℕ) : Fr :=
  if h : 64 ≤ pow then mulPow2 (mul ark a (fromU64 ark ⟨2 ^ 63, by norm_num⟩)) (pow - 63)
  else mul ark a (fromU64 ark ⟨2 ^ pow, Nat.pow_lt_pow_right (by norm_num) (by omega)⟩)

def mulU64 (a : Fr) (n : U64) : Fr := ⟨Mont.mulU64 a.limbs n, (mulU64_isMontgomery a.isMontgomery n.isLt).canonical⟩

def mulU128 (a : Fr) (n : U128) : Fr :=
  ⟨Mont.mulU128 a.limbs n, (mulU128_isMontgomery a.isMontgomery n.isLt).canonical⟩

section Values

variable (a b : Fr)

@[simp] theorem value_add : (add ark a b).value = a.value + b.value :=
  (ark.add_isMontgomery a.isMontgomery b.isMontgomery).value_eq

@[simp] theorem value_mul : (mul ark a b).value = a.value * b.value :=
  (ark.mul_isMontgomery a.isMontgomery b.isMontgomery).value_eq

@[simp] theorem value_neg : (neg ark a).value = -a.value := (ark.neg_isMontgomery a.isMontgomery).value_eq

@[simp] theorem value_zero : zero.value = 0 := zero_isMontgomery.value_eq

@[simp] theorem value_fromU64 (v : U64) : (fromU64 ark v).value = v.val := (fromU64_isMontgomery ark v.isLt).value_eq

@[simp] theorem value_fromU8 (v : Fin (2 ^ 8)) : (fromU8 ark v).value = v.val := value_fromU64 ark _

@[simp] theorem value_fromU128 (v : U128) : (fromU128 ark v).value = v.val :=
  (fromU128_isMontgomery ark v.isLt).value_eq

@[simp] theorem value_mulU64 (n : U64) : (mulU64 a n).value = a.value * n.val :=
  (mulU64_isMontgomery a.isMontgomery n.isLt).value_eq

@[simp] theorem value_mulU128 (n : U128) : (mulU128 a n).value = a.value * n.val :=
  (mulU128_isMontgomery a.isMontgomery n.isLt).value_eq

@[simp] theorem value_fromI64 (v : I64) : (fromI64 ark v).value = v.1 := by
  have abs : (v.unsignedAbs.val : ℤ) = |v.1| := Int.natCast_natAbs v.1
  rw [fromI64]
  split_ifs with negative
  · rw [value_neg, value_fromU64, ← Int.cast_natCast, abs, abs_of_neg negative, Int.cast_neg, neg_neg]
  · rw [value_fromU64, ← Int.cast_natCast, abs, abs_of_nonneg (not_lt.mp negative)]

@[simp] theorem value_mulPow2 (pow : ℕ) : (mulPow2 ark a pow).value = a.value * 2 ^ pow := by
  induction a, pow using @mulPow2.induct ark with
  | case1 a pow long ih =>
      rw [mulPow2, dif_pos long, ih, value_mul, value_fromU64, mul_assoc]
      rw [Nat.cast_pow, Nat.cast_ofNat, ← pow_add, Nat.add_sub_cancel' (by omega)]
  | case2 a pow short =>
      rw [mulPow2, dif_neg short, value_mul, value_fromU64, Nat.cast_pow, Nat.cast_ofNat]

end Values

end Fr

/-- The magnitude of a signed scalar, one limb at a time. -/
def Fr.ofMagnitude (ark : ArkFr) (scalar : S256) : Fr :=
  scalar.magnitude.limbs.reverse.foldl
    (fun magnitude limb => .add ark (.mulPow2 ark magnitude 64) (.fromU64 ark (Fin.ofNat _ limb))) .zero

@[simp] theorem Fr.value_ofMagnitude (ark : ArkFr) (scalar : S256) :
    (Fr.ofMagnitude ark scalar).value = scalar.magnitude.toNat := by
  have small := scalar.magnitude.isLimbs.small
  rw [ofMagnitude, List.foldl_reverse, Limbs.toNat]
  generalize scalar.magnitude.limbs = limbs at small
  induction limbs with
  | nil => exact value_zero.trans Nat.cast_zero.symm
  | cons limb limbs ih =>
      have first : (Fin.ofNat (2 ^ 64) limb).val = limb := Nat.mod_eq_of_lt (small limb List.mem_cons_self)
      rw [List.foldr_cons, value_add, value_mulPow2, value_fromU64, first,
        ih fun x member => small x (List.mem_cons_of_mem _ member), Nat.ofDigits_cons, Nat.cast_add, Nat.cast_mul,
        Nat.cast_pow, Nat.cast_ofNat]
      ring

/-! ## The trait -/

/-- `Accumulator`, with its default methods. -/
structure Accumulator (ark : ArkFr) (A : Type) where
  default : A
  add : A → Fr → A
  merge : A → A → A
  reduce : A → Limbs 4
  fmadd : A → Fr → Fr → A
  fmaddU8 : A → Fr → Fin (2 ^ 8) → A := fun acc a b => fmadd acc a (.fromU8 ark b)
  fmaddU64 : A → Fr → U64 → A := fun acc a b => fmadd acc a (.fromU64 ark b)
  fmaddU128 : A → Fr → U128 → A := fun acc a b => fmadd acc a (.fromU128 ark b)
  fmaddI64 : A → Fr → I64 → A := fun acc a b => fmadd acc a (.fromI64 ark b)
  fmaddS256 : A → Fr → S256 → A := fun acc value scalar =>
    if scalar.isPositive then fmadd acc value (.ofMagnitude ark scalar)
    else fmadd acc (.neg ark value) (.ofMagnitude ark scalar)
  fmaddSignedU64 : A → Fr → U64 → Bool → A := fun acc value magnitude isPositive =>
    if isPositive then fmaddU64 acc value magnitude
    else fmaddS256 acc value (SignedBigInt.fromU64WithSign magnitude false)
  fmaddBool : A → Fr → Bool → A := fun acc a b => if b then add acc a else acc

/-! ## The small-scalar accumulator -/

/-- Unreduced five-limb sums of the positive and of the negative terms. -/
structure FrSmallScalarAccumulator where
  pos : Limbs 5
  neg : Limbs 5

namespace FrSmallScalarAccumulator

def addTo (slots : Limbs 5) (value : Fr) : Limbs 5 := slots.addAssignTrunc value.limbs

def fmaddMagnitude (slots : Limbs 5) (value : Fr) (scalar : U64) : Limbs 5 :=
  if scalar = 0 then slots
  else if scalar = 1 then addTo slots value
  else slots.addAssignTrunc (bigint4MulU64 value.limbs scalar)

def add (acc : FrSmallScalarAccumulator) (value : Fr) : FrSmallScalarAccumulator :=
  { acc with pos := addTo acc.pos value }

def merge (acc other : FrSmallScalarAccumulator) : FrSmallScalarAccumulator :=
  ⟨acc.pos.addAssignTrunc other.pos, acc.neg.addAssignTrunc other.neg⟩

def reduce (ark : ArkFr) (acc : FrSmallScalarAccumulator) : Limbs 4 :=
  if acc.pos.cmp acc.neg ≠ .lt then barrettReduce5To4 (acc.pos.subTrunc acc.neg)
  else ark.neg (barrettReduce5To4 (acc.neg.subTrunc acc.pos))

def fmaddI64 (acc : FrSmallScalarAccumulator) (value : Fr) (scalar : I64) : FrSmallScalarAccumulator :=
  if 0 ≤ scalar.1 then { acc with pos := fmaddMagnitude acc.pos value scalar.unsignedAbs }
  else { acc with neg := fmaddMagnitude acc.neg value scalar.unsignedAbs }

def accumulator (ark : ArkFr) : Accumulator ark FrSmallScalarAccumulator where
  default := ⟨Limbs.zero, Limbs.zero⟩
  add := add
  merge := merge
  reduce := reduce ark
  fmadd acc a b := add acc (.mul ark a b)
  fmaddU64 acc value scalar := { acc with pos := fmaddMagnitude acc.pos value scalar }
  fmaddI64 := fmaddI64

end FrSmallScalarAccumulator

/-! ## Positional slots -/

/-- Eight `u128` slots; `overflowed` records that an addition has left its slot, where a build with
overflow checks stops and any other build wraps. -/
structure Slots where
  slots : Fin 8 → ℕ
  overflowed : Bool

namespace Slots

def zero : Slots := ⟨fun _ => 0, false⟩

/-- `slots[k] += v`. -/
def bump (s : Slots) (k : Fin 8) (v : ℕ) : Slots :=
  ⟨Function.update s.slots k ((s.slots k + v) % 2 ^ 128), s.overflowed || decide (2 ^ 128 ≤ s.slots k + v)⟩

def bumps (s : Slots) (additions : List (Fin 8 × ℕ)) : Slots :=
  additions.foldl (fun s (k, v) => s.bump k v) s

def merge (s other : Slots) : Slots :=
  { s with overflowed := s.overflowed || other.overflowed }.bumps
    ((List.finRange 8).map fun k => (k, other.slots k))

/-- Positions `i + j`, `i + j + 1` and `i + 4`. -/
def lowAt (i j : Fin 4) : Fin 8 := ⟨i + j, by omega⟩

def highAt (i j : Fin 4) : Fin 8 := ⟨i + j + 1, by omega⟩

def upperAt (i : Fin 4) : Fin 8 := ⟨i + 4, by omega⟩

/-- The halves of all limb products, each at its position. -/
def products (a b : Limbs 4) : List (Fin 8 × ℕ) :=
  (List.finRange 4).flatMap fun i : Fin 4 => (List.finRange 4).flatMap fun j : Fin 4 =>
    let product := a.limb i * b.limb j
    [(lowAt i j, product % limbBase), (highAt i j, product >>> 64)]

/-- A slot with the carry: a limb of the sum, and the next carry. -/
def normalizeStep (slot _ carry : ℕ) : ℕ × ℕ :=
  let sum := (slot + carry) % 2 ^ 128
  let overflow := decide (2 ^ 128 ≤ slot + carry)
  (sum % limbBase, sum >>> 64 + overflow.toNat <<< 64)

theorem normalizeStep_fst_lt (slot y carry : ℕ) : (normalizeStep slot y carry).1 < limbBase :=
  Nat.mod_lt _ limbBase_pos

/-- The slots as one integer of nine limbs. -/
def normalize (s : Slots) : Limbs (8 + 1) :=
  let carried := chain normalizeStep (List.ofFn s.slots) [] 0
  (⟨carried.1, by
    have is := chain_isDigits normalizeStep_fst_lt (List.ofFn s.slots) [] 0
    rwa [List.length_ofFn] at is⟩ : Limbs 8).snoc carried.2

end Slots

/-! ## The wide accumulator -/

namespace WideAccumulator

/-- The limbs of an element enter at positions four to seven, as its product by `2^256`. -/
def add (acc : Slots) (value : Fr) : Slots :=
  acc.bumps ((List.finRange 4).map fun i : Fin 4 => (Slots.upperAt i, value.limbs.limb i))

def accumulator (ark : ArkFr) : Accumulator ark Slots where
  default := .zero
  add := add
  merge := .merge
  reduce acc := fromMontgomeryReduce acc.normalize
  fmadd acc a b := acc.bumps (Slots.products a.limbs b.limbs)
  fmaddU64 acc value scalar := add acc (value.mulU64 scalar)
  fmaddU128 acc value scalar := add acc (value.mulU128 scalar)

end WideAccumulator

/-! ## The signed-product accumulator -/

structure FrSignedProductAccumulator where
  pos : Slots
  neg : Slots

namespace FrSignedProductAccumulator

def fmaddMagnitude (slots : Slots) (value : Fr) (magnitude : Limbs 4) : Slots :=
  slots.bumps (Slots.products value.limbs magnitude)

/-- A product enters the slots of its sign. -/
def fmaddSigned (acc : FrSignedProductAccumulator) (value : Fr) (magnitude : Limbs 4) (isPositive : Bool) :
    FrSignedProductAccumulator :=
  if isPositive then { acc with pos := fmaddMagnitude acc.pos value magnitude }
  else { acc with neg := fmaddMagnitude acc.neg value magnitude }

def fmaddUnsigned (acc : FrSignedProductAccumulator) (value : Fr) (scalar : U64) : FrSignedProductAccumulator :=
  { acc with pos := fmaddMagnitude acc.pos value (Limbs.fromU64 scalar) }

def add (acc : FrSignedProductAccumulator) (value : Fr) : FrSignedProductAccumulator :=
  fmaddUnsigned acc value 1

def reduce (ark : ArkFr) (acc : FrSignedProductAccumulator) : Limbs 4 :=
  let pos := acc.pos.normalize
  let neg := acc.neg.normalize
  let reduced := if pos.cmp neg ≠ .lt then fromMontgomeryReduce (pos.subTrunc neg : Limbs (8 + 1))
    else ark.neg (fromMontgomeryReduce (neg.subTrunc pos : Limbs (8 + 1)))
  ark.mul reduced r2

def accumulator (ark : ArkFr) : Accumulator ark FrSignedProductAccumulator where
  default := ⟨.zero, .zero⟩
  add := add
  merge acc other := ⟨acc.pos.merge other.pos, acc.neg.merge other.neg⟩
  reduce := reduce ark
  fmadd acc a b := add acc (.mul ark a b)
  fmaddU64 := fmaddUnsigned
  fmaddI64 acc value scalar :=
    fmaddSigned acc value (Limbs.fromU64 scalar.unsignedAbs) (decide (0 ≤ scalar.1))
  fmaddSignedU64 acc value magnitude isPositive := fmaddSigned acc value (Limbs.fromU64 magnitude) isPositive
  fmaddS256 acc value scalar :=
    if scalar.magnitude.isZero then acc else fmaddSigned acc value scalar.magnitude scalar.isPositive

end FrSignedProductAccumulator

/-! ## Histories -/

/-- One call on an accumulator. -/
inductive Op
  | add (value : Fr)
  | fmadd (a b : Fr)
  | fmaddU8 (a : Fr) (b : Fin (2 ^ 8))
  | fmaddU64 (a : Fr) (b : U64)
  | fmaddU128 (a : Fr) (b : U128)
  | fmaddI64 (a : Fr) (b : I64)
  | fmaddSignedU64 (value : Fr) (magnitude : U64) (isPositive : Bool)
  | fmaddS256 (value : Fr) (scalar : S256)
  | fmaddBool (a : Fr) (b : Bool)

/-- The calls that have built an accumulator, with the histories of those merged into it. -/
inductive History
  | default
  | op (history : History) (call : Op)
  | merge (history other : History)

variable {ark : ArkFr} {A : Type}

def Op.apply (acc : Accumulator ark A) (state : A) : Op → A
  | .add value => acc.add state value
  | .fmadd a b => acc.fmadd state a b
  | .fmaddU8 a b => acc.fmaddU8 state a b
  | .fmaddU64 a b => acc.fmaddU64 state a b
  | .fmaddU128 a b => acc.fmaddU128 state a b
  | .fmaddI64 a b => acc.fmaddI64 state a b
  | .fmaddSignedU64 value magnitude isPositive => acc.fmaddSignedU64 state value magnitude isPositive
  | .fmaddS256 value scalar => acc.fmaddS256 state value scalar
  | .fmaddBool a b => acc.fmaddBool state a b

/-- What a call adds, in the field. -/
def Op.value : Op → ZMod order
  | .add value => value.value
  | .fmadd a b => a.value * b.value
  | .fmaddU8 a b => a.value * b.val
  | .fmaddU64 a b => a.value * b.val
  | .fmaddU128 a b => a.value * b.val
  | .fmaddI64 a b => a.value * b.1
  | .fmaddSignedU64 value magnitude isPositive =>
      if isPositive then value.value * magnitude.val else -(value.value * magnitude.val)
  | .fmaddS256 value scalar => value.value * scalar.toInt Limbs.toNat
  | .fmaddBool a b => if b then a.value else 0

namespace History

def run (acc : Accumulator ark A) : History → A
  | .default => acc.default
  | .op history call => call.apply acc (history.run acc)
  | .merge history other => acc.merge (history.run acc) (other.run acc)

/-- The field sum of all products. -/
def value : History → ZMod order
  | .default => 0
  | .op history call => history.value + call.value
  | .merge history other => history.value + other.value

/-- The number of calls. -/
def terms : History → ℕ
  | .default => 0
  | .op history _ => history.terms + 1
  | .merge history other => history.terms + other.terms

end History

end Mont

end JoltWasm
