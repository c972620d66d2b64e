import Mathlib.Tactic.NormNum.Prime
import JoltWasm.Lib.Lucas

/-!
# The scalar field

The constraints are over any field in which the naturals below `2 ^ 253` are different; the
backend's `Fr`, the BN254 scalar field, is one.
-/

namespace JoltWasm

/-- A field whose characteristic, if any, has at least 254 bits. -/
class WideField (F : Type*) extends Field F where
  natCast_ne_zero : ∀ n : ℕ, 0 < n → n < 2 ^ 253 → (n : F) ≠ 0

section

variable {F : Type*} [WideField F]

/-- Naturals below the bound are equal in the field only when they are equal. -/
theorem natCast_inj_of_lt {m n : ℕ} (hm : m < 2 ^ 253) (hn : n < 2 ^ 253)
    (equal : (m : F) = n) : m = n := by
  wlog order : m ≤ n generalizing m n
  · exact (this hn hm equal.symm (by omega)).symm
  by_contra different
  refine WideField.natCast_ne_zero (F := F) (n - m) (by omega) (by omega) ?_
  rw [Nat.cast_sub order, equal, sub_self]

/-- Integers of small magnitude are equal in the field only when they are equal. -/
theorem intCast_inj_of_lt {m n : ℤ} (hm : |m| < 2 ^ 252) (hn : |n| < 2 ^ 252)
    (equal : (m : F) = n) : m = n := by
  rw [abs_lt] at hm hn
  have shifted : ((m + 2 ^ 252).toNat : F) = ((n + 2 ^ 252).toNat : F) := by
    have lift : ∀ k : ℤ, -2 ^ 252 < k → ((k + 2 ^ 252).toNat : F) = (k : F) + 2 ^ 252 := by
      intro k lower
      have nonneg : ((k + 2 ^ 252).toNat : ℤ) = k + 2 ^ 252 := Int.toNat_of_nonneg (by omega)
      rw [← Int.cast_natCast, nonneg]
      push_cast
      ring
    rw [lift m hm.1, lift n hn.1, equal]
  have := natCast_inj_of_lt (F := F) (by omega) (by omega) shifted
  omega

end

/-! ## BN254 -/

/-- The order of the BN254 scalar field. -/
def bn254Order : ℕ := 21888242871839275222246405745257275088548364400416034343698204186575808495617

/-- Certificates for the primes that the order's certificate rests on, and for the order: bits, prime,
primitive root and factors. -/
private def certificates : List (ℕ × ℕ × ℕ × List (ℕ × ℕ)) :=
  [(29, 405928799, 22, [(2, 1), (11, 1), (3691, 1), (4999, 1)]),
    (34, 12048837557, 2, [(2, 2), (7, 2), (661, 1), (93001, 1)]),
    (43, 5156902474397, 2, [(12048837557, 1), (2, 2), (107, 1)]),
    (51, 1670836401704629, 2, [(5156902474397, 1), (2, 2), (3, 4)]),
    (30, 639533339, 2, [(2, 1), (229, 1), (853, 1), (1637, 1)]),
    (56, 65865678001877903, 5, [(639533339, 1), (2, 1), (83, 1), (379, 1), (1637, 1)]),
    (94, 13818364434197438864469338081, 3,
      [(65865678001877903, 1), (2, 5), (5, 1), (823, 1), (1593227, 1)]),
    (254, bn254Order, 5,
      [(405928799, 1), (1670836401704629, 1), (13818364434197438864469338081, 1), (2, 28), (3, 2),
        (13, 1), (29, 1), (983, 1), (11003, 1), (237073, 1)])]

private theorem certificates_pass :
    ∀ c ∈ certificates, Lib.lucasTest c.1 c.2.1 c.2.2.1 c.2.2.2 = true := by
  decide +kernel

/-- A certified number is prime when its factors are. -/
private theorem prime_of_certificate {bits p a : ℕ} {factors : List (ℕ × ℕ)}
    (primes : ∀ f ∈ factors, f.1.Prime) (listed : (bits, p, a, factors) ∈ certificates) : p.Prime :=
  Lib.prime_of_lucasTest bits p a factors primes (certificates_pass _ listed)

private theorem prime_405928799 : Nat.Prime 405928799 :=
  prime_of_certificate (by norm_num) (.head _)

private theorem prime_12048837557 : Nat.Prime 12048837557 :=
  prime_of_certificate (by norm_num) (.tail _ (.head _))

private theorem prime_5156902474397 : Nat.Prime 5156902474397 :=
  prime_of_certificate (List.forall_mem_cons.mpr ⟨prime_12048837557, by norm_num⟩)
    (List.mem_of_getElem (i := 2) (h := by decide) rfl)

private theorem prime_1670836401704629 : Nat.Prime 1670836401704629 :=
  prime_of_certificate (List.forall_mem_cons.mpr ⟨prime_5156902474397, by norm_num⟩)
    (List.mem_of_getElem (i := 3) (h := by decide) rfl)

private theorem prime_639533339 : Nat.Prime 639533339 :=
  prime_of_certificate (by norm_num) (List.mem_of_getElem (i := 4) (h := by decide) rfl)

private theorem prime_65865678001877903 : Nat.Prime 65865678001877903 :=
  prime_of_certificate (List.forall_mem_cons.mpr ⟨prime_639533339, by norm_num⟩)
    (List.mem_of_getElem (i := 5) (h := by decide) rfl)

private theorem prime_13818364434197438864469338081 : Nat.Prime 13818364434197438864469338081 :=
  prime_of_certificate (List.forall_mem_cons.mpr ⟨prime_65865678001877903, by norm_num⟩)
    (List.mem_of_getElem (i := 6) (h := by decide) rfl)

theorem prime_bn254Order : bn254Order.Prime :=
  prime_of_certificate (List.forall_mem_cons.mpr ⟨prime_405928799, List.forall_mem_cons.mpr
      ⟨prime_1670836401704629, List.forall_mem_cons.mpr
        ⟨prime_13818364434197438864469338081, by norm_num⟩⟩⟩)
    (List.mem_of_getElem (i := 7) (h := by decide) rfl)

instance : Fact bn254Order.Prime := ⟨prime_bn254Order⟩

/-- The BN254 scalar field. -/
abbrev Fr := ZMod bn254Order

instance : WideField Fr where
  natCast_ne_zero n positive small zero := by
    rw [ZMod.natCast_eq_zero_iff] at zero
    have := Nat.le_of_dvd positive zero
    unfold bn254Order at this
    omega

end JoltWasm
