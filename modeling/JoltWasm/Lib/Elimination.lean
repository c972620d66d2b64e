import Mathlib.Algebra.BigOperators.Fin
import Mathlib.LinearAlgebra.Dimension.Finite
import Mathlib.LinearAlgebra.Dimension.Constructions
import Mathlib.LinearAlgebra.FiniteDimensional.Lemmas
import Mathlib.Tactic.LinearCombination
import Mathlib.Tactic.Ring
import JoltWasm.Lib.Numerals

/-!
# Row operations

An augmented matrix of `size` rows and `size + 1` columns, and the vectors that all rows annihilate.  Row
operations keep these vectors.  A matrix that annihilates no vector but zero has a pivot in every column of
its elimination.
-/

namespace JoltWasm.Lib

open Finset

variable {F : Type*} [Field F] {size i : ℕ} {m m' : ℕ → ℕ → F} {y : ℕ → F}

/-- Every row annihilates the vector. -/
def Annihilates (size : ℕ) (m : ℕ → ℕ → F) (y : ℕ → F) : Prop :=
  ∀ j < size, ∑ k ∈ range (size + 1), m j k * y k = 0

/-- No other solution of the homogeneous system than zero. -/
def Regular (size : ℕ) (m : ℕ → ℕ → F) : Prop :=
  ∀ y, y size = 0 → Annihilates size m y → ∀ k < size, y k = 0

theorem annihilates_congr (same : ∀ j < size, ∀ k ≤ size, m j k = m' j k) :
    Annihilates size m y ↔ Annihilates size m' y := by
  refine forall₂_congr fun j inside => ?_
  rw [sum_congr rfl fun k member => by rw [same j inside k (Nat.lt_succ_iff.mp (mem_range.mp member))]]

/-- Rows in another order. -/
theorem annihilates_swap {p : ℕ} (first : i < size) (second : p < size) :
    Annihilates size (fun j => m (Equiv.swap i p j)) y ↔ Annihilates size m y := by
  have stays (j : ℕ) (inside : j < size) : Equiv.swap i p j < size := by
    rw [Equiv.swap_apply_def]
    split_ifs
    · exact second
    · exact first
    · exact inside
  constructor
  · intro all j inside
    have row := all _ (stays j inside)
    simpa only [Equiv.swap_apply_self] using row
  · exact fun all j inside => all _ (stays j inside)

/-- Multiples of one row subtracted from the others. -/
theorem annihilates_sub {f : ℕ → F} (inside : i < size) (own : f i = 0) :
    Annihilates size (fun j k => m j k - f j * m i k) y ↔ Annihilates size m y := by
  have row (j : ℕ) : ∑ k ∈ range (size + 1), (m j k - f j * m i k) * y k =
      ∑ k ∈ range (size + 1), m j k * y k - f j * ∑ k ∈ range (size + 1), m i k * y k := by
    rw [mul_sum, ← sum_sub_distrib]
    exact sum_congr rfl fun k _ => by ring
  constructor
  · intro all j small
    have pivot := all i inside
    rw [row, own, zero_mul, sub_zero] at pivot
    have other := all j small
    rwa [row, pivot, mul_zero, sub_zero] at other
  · intro all j small
    rw [row, all j small, all i inside, mul_zero, sub_zero]

theorem Regular.of_annihilates (regular : Regular size m)
    (same : ∀ y, Annihilates size m' y → Annihilates size m y) : Regular size m' :=
  fun y last all => regular y last (same y all)

/-- The first `i` columns are cleared below their pivots. -/
def Triangular (size i : ℕ) (m : ℕ → ℕ → F) : Prop :=
  ∀ c < i, m c c ≠ 0 ∧ ∀ j, c < j → j < size → m j c = 0

/-- A regular matrix has a pivot in its next column. -/
theorem Triangular.exists_pivot (triangular : Triangular size i m) (regular : Regular size m)
    (inside : i < size) : ∃ r, i ≤ r ∧ r < size ∧ m r i ≠ 0 := by
  by_contra none
  push Not at none
  -- The first rows alone cannot tell apart all vectors of one coordinate more.
  let rows : (Fin (i + 1) → F) →ₗ[F] (Fin i → F) :=
    { toFun := fun x j => ∑ k : Fin (i + 1), m j k * x k
      map_add' := fun x x' => funext fun j => by
        simp only [Pi.add_apply, mul_add, sum_add_distrib]
      map_smul' := fun c x => funext fun j => by
        simp only [Pi.smul_apply, smul_eq_mul, RingHom.id_apply, mul_sum]
        exact sum_congr rfl fun k _ => by ring }
  have kernel : LinearMap.ker rows ≠ ⊥ :=
    LinearMap.ker_ne_bot_of_finrank_lt (by simp [Module.finrank_pi])
  obtain ⟨x, isKernel, nonzero⟩ := (Submodule.ne_bot_iff _).mp kernel
  let y : ℕ → F := fun k => if h : k < i + 1 then x ⟨k, h⟩ else 0
  have short (j : ℕ) : ∑ k ∈ range (size + 1), m j k * y k = ∑ k : Fin (i + 1), m j k * x k := by
    rw [← sum_subset (range_mono (by omega : i + 1 ≤ size + 1)) fun k _ outside => by
      rw [show y k = 0 from dif_neg fun low => outside (mem_range.mpr low), mul_zero], sum_range]
    exact sum_congr rfl fun k _ => by rw [show y k = x k from dif_pos k.isLt]
  have all : Annihilates size m y := by
    intro j small
    rw [short]
    rcases Nat.lt_or_ge j i with early | late
    · exact congrFun (LinearMap.mem_ker.mp isKernel) ⟨j, early⟩
    · refine sum_eq_zero fun k _ => ?_
      have cleared : m j k = 0 := by
        rcases Nat.lt_or_ge k i with before | last
        · exact (triangular k before).2 j (before.trans_le late) small
        · rw [show k.val = i by omega]
          exact none j late small
      rw [cleared, zero_mul]
  have zero := regular y (dif_neg (by omega)) all
  refine nonzero (funext fun k => ?_)
  have entry := zero k (by omega)
  rwa [show y k = x k from dif_pos k.isLt] at entry

end JoltWasm.Lib
