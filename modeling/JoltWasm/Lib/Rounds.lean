import Mathlib.Algebra.Polynomial.Degree.Lemmas
import JoltWasm.Lib.Gapped

/-!
# Rounds from the last coordinate on

A function is summed over the cube one coordinate at a time, the last free coordinate first.  The polynomial of a
round gives the sum that is left at each value of its coordinate.
-/

namespace JoltWasm.Lib

open Finset Polynomial

variable {F : Type*} [Field F]

/-- The sum over the cube, by index. -/
theorem cubeSum_eq_sum (n : ℕ) (f : List F → F) : cubeSum n f = ∑ k ∈ range (2 ^ n), f (bitPoint F n k) := by
  induction n generalizing f with
  | zero => simp [cubeSum, bitPoint]
  | succ n ih =>
      rw [cubeSum, ih, ih, pow_succ, mul_two, sum_range_add]
      congr 1
      · exact sum_congr rfl fun k member => by rw [bitPoint_succ_low (mem_range.mp member)]
      · exact sum_congr rfl fun k member => by rw [Nat.add_comm (2 ^ n) k, bitPoint_succ_high (mem_range.mp member)]

/-- The last coordinate takes both values. -/
theorem cubeSum_concat (n : ℕ) (f : List F → F) :
    cubeSum (n + 1) f = cubeSum n (fun x => f (x ++ [0])) + cubeSum n fun x => f (x ++ [1]) := by
  induction n generalizing f with
  | zero => rfl
  | succ n ih =>
      rw [cubeSum, ih, ih, cubeSum, cubeSum]
      simp only [List.cons_append]
      ring

/-- With the first coordinates at the bits of an index, the weights of the others are left. -/
theorem extension_bitPoint_append (f : ℕ → F) {n j : ℕ} (inside : j < 2 ^ n) (low : List F) :
    extension f (bitPoint F n j ++ low) =
      ∑ offset ∈ range (2 ^ low.length), eqWeight low offset * f (j * 2 ^ low.length + offset) := by
  have rows : extension f (bitPoint F n j ++ low) = extension (fun a => ∑ offset ∈ range (2 ^ low.length),
      eqWeight low offset * f (a * 2 ^ low.length + offset)) (bitPoint F n j) := by
    rw [extension_append_eq_sum, extension]
    refine sum_congr rfl fun a _ => ?_
    rw [sum_mul]
    exact sum_congr rfl fun offset _ => by ring
  rw [rows, extension_bitPoint _ inside]

/-- The sum that is left when the last coordinates are fixed. -/
def restSum (f : List F → F) (n : ℕ) (low : List F) : F := cubeSum n fun x => f (x ++ low)

theorem restSum_succ (f : List F → F) (n : ℕ) (low : List F) :
    restSum f (n + 1) low = restSum f n (0 :: low) + restSum f n (1 :: low) := by
  simp only [restSum, cubeSum_concat, List.append_assoc, List.singleton_append]

theorem restSum_zero (f : List F → F) (low : List F) : restSum f 0 low = f low := rfl

/-- The polynomial of the round with `n` free coordinates after it, of degree at most `d`. -/
structure IsRound (d : ℕ) (f : List F → F) (n : ℕ) (low : List F) (p : F[X]) : Prop where
  degree : p.natDegree ≤ d
  value : ∀ t, p.eval t = restSum f n (t :: low)

/-- The values at zero and one make up the claim. -/
theorem IsRound.sum {d n : ℕ} {f : List F → F} {low : List F} {p : F[X]} (round : IsRound d f n low p) :
    p.eval 0 + p.eval 1 = restSum f (n + 1) low := by
  rw [round.value, round.value, restSum_succ]

end JoltWasm.Lib
