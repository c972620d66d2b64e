import Mathlib.Algebra.Polynomial.BigOperators
import Mathlib.Tactic.ComputeDegree
import JoltWasm.Lib.CubeBlocks

/-!
# Degrees in one coordinate

Along each coordinate a summand is a polynomial of bounded degree.  The polynomial of a round is the sum of
these over the coordinates that are still free.
-/

namespace JoltWasm.Lib

open Finset Polynomial

variable {F : Type*} [Field F]

/-- Along every coordinate, the function is a polynomial of degree at most `d`. -/
def DegreeIn (d : ℕ) (f : List F → F) : Prop :=
  ∀ high low : List F, ∃ p : F[X], p.natDegree ≤ d ∧ ∀ t, p.eval t = f (high ++ t :: low)

theorem Multilinear.degreeIn {f : List F → F} (hf : Multilinear f) : DegreeIn 1 f := fun high low => by
  refine ⟨C (f (high ++ 0 :: low)) + C (f (high ++ 1 :: low) - f (high ++ 0 :: low)) * X, by compute_degree, fun t => ?_⟩
  rw [hf high low t, eval_add, eval_mul, eval_C, eval_C, eval_X]
  ring

/-- The last of three values in arithmetic progression. -/
theorem Multilinear.at_two {f : List F → F} (hf : Multilinear f) (high low : List F) :
    f (high ++ 1 :: low) + f (high ++ 1 :: low) - f (high ++ 0 :: low) = f (high ++ 2 :: low) := by
  rw [hf high low 2]
  ring

theorem Multilinear.sum {ι : Type*} {s : Finset ι} {f : ι → List F → F} (each : ∀ i ∈ s, Multilinear (f i)) :
    Multilinear fun x => ∑ i ∈ s, f i x := fun a b t => by
  simp only [mul_sum, ← sum_add_distrib]
  exact sum_congr rfl fun i member => each i member a b t

namespace DegreeIn

variable {d e : ℕ} {f g : List F → F}

theorem mul (hf : DegreeIn d f) (hg : DegreeIn e g) : DegreeIn (d + e) fun x => f x * g x := fun high low => by
  obtain ⟨p, degree, value⟩ := hf high low
  obtain ⟨q, degree', value'⟩ := hg high low
  exact ⟨p * q, natDegree_mul_le_of_le degree degree', fun t => by rw [eval_mul, value, value']⟩

theorem add (hf : DegreeIn d f) (hg : DegreeIn d g) : DegreeIn d fun x => f x + g x := fun high low => by
  obtain ⟨p, degree, value⟩ := hf high low
  obtain ⟨q, degree', value'⟩ := hg high low
  exact ⟨p + q, natDegree_add_le_of_degree_le degree degree', fun t => by rw [eval_add, value, value']⟩

theorem const_mul (c : F) (hf : DegreeIn d f) : DegreeIn d fun x => c * f x := fun high low => by
  obtain ⟨p, degree, value⟩ := hf high low
  exact ⟨C c * p, (natDegree_C_mul_le c p).trans degree, fun t => by rw [eval_C_mul, value]⟩

theorem sum {ι : Type*} {s : Finset ι} {f : ι → List F → F} (each : ∀ i ∈ s, DegreeIn d (f i)) :
    DegreeIn d fun x => ∑ i ∈ s, f i x := fun high low => by
  have each (i : ι) : ∃ p : F[X], i ∈ s → p.natDegree ≤ d ∧ ∀ t, p.eval t = f i (high ++ t :: low) := by
    by_cases member : i ∈ s
    · obtain ⟨p, both⟩ := each i member high low
      exact ⟨p, fun _ => both⟩
    · exact ⟨0, fun member' => absurd member' member⟩
  choose p both using each
  refine ⟨∑ i ∈ s, p i, natDegree_sum_le_of_forall_le s p fun i member => (both i member).1, fun t => ?_⟩
  rw [eval_finsetSum]
  exact sum_congr rfl fun i member => (both i member).2 t

theorem prod {ι : Type*} {s : Finset ι} {f : ι → List F → F} (each : ∀ i ∈ s, DegreeIn 1 (f i)) :
    DegreeIn s.card fun x => ∏ i ∈ s, f i x := by
  classical
  induction s using Finset.induction_on with
  | empty => exact fun high low => ⟨1, by simp, fun t => by simp⟩
  | insert i s fresh ih =>
      have rest := ih fun j member => each j (mem_insert_of_mem member)
      simp only [prod_insert fresh, card_insert_of_notMem fresh, Nat.add_comm s.card]
      exact (each i (mem_insert_self i s)).mul rest

/-- The sum over the coordinates that are left keeps the degree. -/
theorem exists_isRound (hf : DegreeIn d f) (n : ℕ) (low : List F) : ∃ p, IsRound d f n low p := by
  choose p degree value using fun k : ℕ => hf (bitPoint F n k) low
  refine ⟨∑ k ∈ range (2 ^ n), p k, natDegree_sum_le_of_forall_le _ _ fun k _ => degree k, fun t => ?_⟩
  rw [eval_finsetSum, restSum, cubeSum_eq_sum]
  exact sum_congr rfl fun k _ => value k t

end DegreeIn

theorem restSum_add (f g : List F → F) (n : ℕ) (low : List F) :
    restSum (fun x => f x + g x) n low = restSum f n low + restSum g n low := cubeSum_add n _ _

end JoltWasm.Lib
