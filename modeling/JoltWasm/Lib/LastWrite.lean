import JoltWasm.Lib.OneHot

/-!
# Memory from increments

Each step of a run writes at most one cell.  What a cell holds is the word of the last write to it, and that is
also its initial word plus the increments that were deposited in it.
-/

namespace JoltWasm.Lib

open Finset

section

variable {α : Type*} (initial : ℕ → α) (place : ℕ → Option ℕ) (written : ℕ → α)

/-- The word of a cell before a step: that of the last write to it, its initial word if there is none. -/
def lastWrite : ℕ → ℕ → α
  | 0, k => initial k
  | t + 1, k => if place t = some k then written t else lastWrite t k

end

variable {F : Type*} [Field F]

/-- The initial words and the increments that the steps before have deposited. -/
def deposited (initial : ℕ → F) (selector : ℕ → ℕ → F) (inc : ℕ → F) (k t : ℕ) : F :=
  initial k + ∑ j ∈ range t, inc j * selector k j

theorem deposited_succ (initial : ℕ → F) (selector : ℕ → ℕ → F) (inc : ℕ → F) (k t : ℕ) :
    deposited initial selector inc k (t + 1) = deposited initial selector inc k t + inc t * selector k t := by
  rw [deposited, deposited, sum_range_succ, add_assoc]

/-- Increments by the difference to the written word are writes. -/
theorem deposited_eq_lastWrite {K T : ℕ} {initial : ℕ → F} {selector : ℕ → ℕ → F} {inc written : ℕ → F}
    {place : ℕ → Option ℕ} (hot : ∀ j < T, HotColumn K (fun k => selector k j) (place j))
    (writes : ∀ j < T, ∀ k, place j = some k → written j = deposited initial selector inc k j + inc j) {t : ℕ} (before : t ≤ T)
    {k : ℕ} (inside : k < K) : deposited initial selector inc k t = lastWrite initial place written t k := by
  induction t with
  | zero => rw [deposited, range_zero, sum_empty, add_zero, lastWrite]
  | succ t ih =>
      have less : t < T := before
      rw [deposited_succ, (hot t less).entry k inside, lastWrite]
      split_ifs with here
      · rw [mul_one, writes t less k here]
      · rw [mul_zero, add_zero, ih less.le]

/-- The word that a step writes is the one before it plus the increment. -/
theorem written_of_inc {K T : ℕ} {initial : ℕ → F} {selector : ℕ → ℕ → F} {inc written : ℕ → F} {place : ℕ → Option ℕ}
    (hot : ∀ j < T, HotColumn K (fun k => selector k j) (place j))
    (incs : ∀ j < T, ∀ k, place j = some k → inc j = written j - lastWrite initial place written j k) :
    ∀ j < T, ∀ k, place j = some k → written j = deposited initial selector inc k j + inc j := by
  intro j
  induction j using Nat.strong_induction_on with
  | _ j ih =>
      intro less k here
      have past : deposited initial selector inc k j = lastWrite initial place written j k :=
        deposited_eq_lastWrite (fun i small => hot i (small.trans less)) (fun i small => ih i small (small.trans less))
          le_rfl ((hot j less).inside k here)
      rw [past, incs j less k here, add_sub_cancel]

/-! ## The deposits as sums over the cube -/

theorem extension_deposits {n j : ℕ} (selector : ℕ → ℕ → F) (inc : ℕ → F) (address : List F) (inside : j < 2 ^ n) :
    extension inc (bitPoint F n j) * extension (gridColumn n selector) (address ++ bitPoint F n j) =
      extension (fun k => inc j * selector k j) address := by
  rw [extension_bitPoint _ inside, extension_gridColumn_corner _ _ inside, ← extension_mul]

/-- The deposits before a cycle. -/
theorem cubeSum_deposits_before {n : ℕ} (selector : ℕ → ℕ → F) (inc : ℕ → F) (address : List F) {cycle : List F}
    (length : cycle.length = n) :
    cubeSum n (fun x => lessThan x cycle * (extension inc x * extension (gridColumn n selector) (address ++ x))) =
      extension (gridColumn n fun k t => ∑ j ∈ range t, inc j * selector k j) (address ++ cycle) := by
  rw [cubeSum_lessThan length, extension_gridColumn_swap _ _ length]
  refine extension_congr fun t inside => ?_
  rw [extension_sum]
  refine sum_congr rfl fun j member => extension_deposits selector inc address ?_
  exact (mem_range.mp member).trans (length ▸ inside)

/-- All deposits. -/
theorem cubeSum_deposits {n : ℕ} (selector : ℕ → ℕ → F) (inc : ℕ → F) (address : List F) :
    cubeSum n (fun x => extension inc x * extension (gridColumn n selector) (address ++ x)) =
      extension (fun k => ∑ j ∈ range (2 ^ n), inc j * selector k j) address := by
  rw [cubeSum_eq_sum, extension_sum]
  exact sum_congr rfl fun j member => extension_deposits selector inc address (mem_range.mp member)

end JoltWasm.Lib
