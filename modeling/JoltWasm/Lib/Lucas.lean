import Mathlib.NumberTheory.LucasPrimality
import JoltWasm.Lib.Numerals

/-!
# Primality from a primitive root

Lucas's test with the exponentiations done by squaring, so that a check of a 254-bit prime is a
few thousand multiplications.
-/

namespace JoltWasm.Lib

/-- `a ^ n % m` by squaring, for exponents below `2 ^ bits`. -/
def powMod (m : ℕ) : ℕ → ℕ → ℕ → ℕ
  | 0, _, _ => 1 % m
  | bits + 1, a, n => powMod m bits (a * a % m) (n / 2) * (if n % 2 = 1 then a else 1) % m

theorem powMod_eq (m : ℕ) {bits a n : ℕ} (small : n < 2 ^ bits) :
    powMod m bits a n = a ^ n % m := by
  induction bits generalizing a n with
  | zero =>
      obtain rfl : n = 0 := by omega
      rfl
  | succ bits ih =>
      rw [powMod, ih (show n / 2 < 2 ^ bits by omega), ← Nat.pow_mod, ← pow_two, ← pow_mul,
        Nat.mod_mul_mod]
      split_ifs with odd
      · rw [← pow_succ]
        congr 2
        omega
      · rw [Nat.mul_one]
        congr 2
        omega

/-- The conditions of Lucas's test for the primitive root `a` of `p`, with `p - 1` factored. -/
def lucasTest (bits p a : ℕ) (factors : List (ℕ × ℕ)) : Bool :=
  decide (1 < p) && decide (p ≤ 2 ^ bits) &&
    (factors.map fun f => f.1 ^ f.2).prod == p - 1 &&
    powMod p bits a (p - 1) == 1 &&
    factors.all fun f => powMod p bits a ((p - 1) / f.1) != 1

/-- A number that passes the test with prime factors is prime. -/
theorem prime_of_lucasTest (bits p a : ℕ) (factors : List (ℕ × ℕ))
    (primes : ∀ f ∈ factors, f.1.Prime) (test : lucasTest bits p a factors = true) : p.Prime := by
  simp only [lucasTest, Bool.and_eq_true, decide_eq_true_eq, beq_iff_eq, List.all_eq_true,
    bne_iff_ne] at test
  obtain ⟨⟨⟨⟨large, small⟩, product⟩, root⟩, order⟩ := test
  have power : ∀ n ≤ p - 1, ((a : ZMod p) ^ n = 1 ↔ powMod p bits a n = 1) := by
    intro n bound
    rw [powMod_eq p (by omega), ← Nat.cast_pow, ← Nat.cast_one, ZMod.natCast_eq_natCast_iff',
      Nat.mod_eq_of_lt large]
  refine lucas_primality p (a : ZMod p) ((power _ le_rfl).mpr root) fun q prime divides => ?_
  rw [← product, prime.prime.dvd_prod_iff] at divides
  obtain ⟨_, listed, divides⟩ := divides
  obtain ⟨f, member, rfl⟩ := List.mem_map.mp listed
  obtain rfl := (Nat.prime_dvd_prime_iff_eq prime (primes f member)).mp
    (prime.dvd_of_dvd_pow divides)
  exact fun one => order f member ((power _ (Nat.div_le_self _ _)).mp one)

end JoltWasm.Lib
