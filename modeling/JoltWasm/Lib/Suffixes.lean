import JoltWasm.Lib.Degrees

/-!
# Prefixes and suffixes

A summand that is a value times a sum of products, of a factor of the last coordinates by a factor of the
first.  While last coordinates are free the first are summed out, against each of their factors; the rest
of the sum is over the last coordinates only.
-/

namespace JoltWasm.Lib

open Finset

variable {F : Type*} [Field F]

/-- First coordinates that are bits choose a block of the vector. -/
theorem extension_chunk (f : ℕ → F) {n j : ℕ} (inside : j < 2 ^ n) (low : List F) :
    extension f (bitPoint F n j ++ low) = extension (fun k => f (j * 2 ^ low.length + k)) low :=
  (extension_bitPoint_append f inside low).trans (sum_congr rfl fun _ _ => mul_comm _ _)

/-- A value, summed over its first coordinates against a factor. -/
def suffixSum (n : ℕ) (suffix value : List F → F) (low : List F) : F :=
  cubeSum n fun high => suffix high * value (high ++ low)

theorem suffixSum_eq_sum (n : ℕ) (suffix value : List F → F) (low : List F) : suffixSum n suffix value low =
    ∑ k ∈ range (2 ^ n), suffix (bitPoint F n k) * value (bitPoint F n k ++ low) := cubeSum_eq_sum n _

theorem multilinear_suffixSum (n : ℕ) (suffix : List F → F) {value : List F → F} (hv : Multilinear value) :
    Multilinear (suffixSum n suffix value) := by
  simp only [funext (suffixSum_eq_sum n suffix value)]
  exact Multilinear.sum fun k _ => (hv.append_left _).const_mul _

/-- The last coordinates bits, the value a vector's extension. -/
theorem suffixSum_bits (n : ℕ) (suffix : List F → F) (g : ℕ → F) {m y : ℕ} (inside : y < 2 ^ m) :
    suffixSum n suffix (extension g) (bitPoint F m y) =
      ∑ k ∈ range (2 ^ n), suffix (bitPoint F n k) * g (k * 2 ^ m + y) := by
  rw [suffixSum_eq_sum]
  refine sum_congr rfl fun k member => ?_
  rw [extension_chunk _ (mem_range.mp member), length_bitPoint, extension_bitPoint _ inside]

/-- The factors of the last coordinates and of the first make up the factor of the value. -/
structure Splits {ι : Type*} (s : Finset ι) (pre suf : ι → List F → F) (a b : ℕ) (factor : List F → F) : Prop where
  split : ∀ high low : List F, high.length = a → low.length = b →
    factor (high ++ low) = ∑ i ∈ s, pre i low * suf i high

variable {ι : Type*} {s : Finset ι} {pre suf : ι → List F → F} {a b : ℕ} {factor : List F → F}

/-- While last coordinates are free. -/
theorem Splits.restSum_before (splits : Splits s pre suf a b factor) (value : List F → F) {m : ℕ} {low : List F}
    (lengths : m + low.length = b) : restSum (fun x => factor x * value x) (a + m) low =
      restSum (fun x => ∑ i ∈ s, pre i x * suffixSum a (suf i) value x) m low := by
  have corner (h y : ℕ) : factor (bitPoint F a h ++ bitPoint F m y ++ low) * value (bitPoint F a h ++ bitPoint F m y ++ low) =
      ∑ i ∈ s, pre i (bitPoint F m y ++ low) *
        (suf i (bitPoint F a h) * value (bitPoint F a h ++ (bitPoint F m y ++ low))) := by
    rw [List.append_assoc, splits.split _ _ (length_bitPoint _ _) (by rw [List.length_append, length_bitPoint, lengths]),
      sum_mul]
    exact sum_congr rfl fun i _ => mul_assoc _ _ _
  rw [restSum, restSum, cubeSum_append, cubeSum_comm, cubeSum_eq_sum, cubeSum_eq_sum]
  refine sum_congr rfl fun y _ => ?_
  rw [cubeSum_eq_sum]
  simp only [corner, suffixSum_eq_sum, mul_sum]
  exact sum_comm

end JoltWasm.Lib
