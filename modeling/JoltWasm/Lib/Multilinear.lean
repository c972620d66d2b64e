import Mathlib.Algebra.BigOperators.Ring.Finset
import Mathlib.Algebra.Order.BigOperators.Group.Finset
import Mathlib.Data.Nat.Bitwise
import Mathlib.Data.List.GetD
import Mathlib.Data.List.Induction
import Mathlib.Tactic.LinearCombination
import Mathlib.Tactic.Ring
import JoltWasm.Lib.Numerals

/-!
# Multilinear functions of lists

A function of a list of coordinates is multilinear when it is affine in every coordinate.  Such a
function is known from its values at the boolean points, and a dense table of these values, bound
from the top variable down, holds the values of the function with its first coordinates fixed.
-/

namespace JoltWasm.Lib

variable {F : Type*} [CommRing F]

/-- Affine in every coordinate. -/
def Multilinear (f : List F → F) : Prop :=
  ∀ a b t, f (a ++ t :: b) = (1 - t) * f (a ++ 0 :: b) + t * f (a ++ 1 :: b)

/-- Affine in each of two coordinates. -/
def BiAffine (g : F → F → F) : Prop :=
  ∃ a b c d, ∀ x y, g x y = a + b * x + c * y + d * (x * y)

/-- The low `n` bits of `v` as a boolean point, most significant first. -/
def bitPoint (F : Type*) [CommRing F] : ℕ → ℕ → List F
  | 0, _ => []
  | n + 1, v => (if v.testBit n then 1 else 0) :: bitPoint F n v

@[simp] theorem length_bitPoint (n v : ℕ) : (bitPoint F n v).length = n := by
  induction n with
  | zero => rfl
  | succ n ih => simp [bitPoint, ih]

/-- A boolean point depends on the low bits only. -/
theorem bitPoint_congr {n v w : ℕ} (same : ∀ i < n, v.testBit i = w.testBit i) :
    bitPoint F n v = bitPoint F n w := by
  induction n with
  | zero => rfl
  | succ n ih =>
    rw [bitPoint, bitPoint, same n (by omega), ih fun i hi => same i (by omega)]

theorem bitPoint_mod (n v : ℕ) : bitPoint F n (v % 2 ^ n) = bitPoint F n v := by
  apply bitPoint_congr
  intro i hi
  simp [Nat.testBit_mod_two_pow, hi]

/-- The high bits, then the low ones. -/
theorem bitPoint_add (m n v : ℕ) :
    bitPoint F (m + n) v = bitPoint F m (v / 2 ^ n) ++ bitPoint F n v := by
  induction m with
  | zero => simp [bitPoint]
  | succ m ih =>
    have order : m + 1 + n = m + n + 1 := by omega
    have top : (v / 2 ^ n).testBit m = v.testBit (m + n) := by
      rw [Nat.testBit_div_two_pow]
    rw [order, bitPoint, bitPoint, top, List.cons_append, ih]

theorem bitPoint_succ_low {n i : ℕ} (low : i < 2 ^ n) :
    bitPoint F (n + 1) i = 0 :: bitPoint F n i := by
  rw [bitPoint, Nat.testBit_lt_two_pow low]
  rfl

theorem bitPoint_succ_high {n i : ℕ} (low : i < 2 ^ n) :
    bitPoint F (n + 1) (i + 2 ^ n) = 1 :: bitPoint F n i := by
  have top : (i + 2 ^ n).testBit n = true := by
    rw [Nat.add_comm, Nat.testBit_two_pow_add_eq, Nat.testBit_lt_two_pow low]
    rfl
  have rest : bitPoint F n (i + 2 ^ n) = bitPoint F n i := by
    rw [← bitPoint_mod n (i + 2 ^ n), Nat.add_mod_right, bitPoint_mod]
  rw [bitPoint, top, rest]
  rfl

namespace Multilinear

variable {f g h : List F → F}

theorem const (c : F) : Multilinear fun _ : List F => c := by
  intro a b t
  ring

theorem add (hf : Multilinear f) (hg : Multilinear g) : Multilinear fun p => f p + g p := by
  intro a b t
  linear_combination hf a b t + hg a b t

theorem sub (hf : Multilinear f) (hg : Multilinear g) : Multilinear fun p => f p - g p := by
  intro a b t
  linear_combination hf a b t - hg a b t

theorem const_mul (c : F) (hf : Multilinear f) : Multilinear fun p => c * f p := by
  intro a b t
  linear_combination c * hf a b t

/-- One coordinate. -/
theorem getD (n : ℕ) (c : F) : Multilinear fun p : List F => p.getD n c := by
  intro a b t
  rcases Nat.lt_trichotomy n a.length with before | rfl | after
  · simp only [List.getD_append _ _ _ _ before]
    ring
  · simp
  · obtain ⟨k, rfl⟩ := Nat.exists_eq_add_of_lt after
    have index : a.length + k + 1 - a.length = k + 1 := by omega
    simp only [List.getD_append_right _ _ _ _ (show a.length ≤ a.length + k + 1 by omega), index,
      List.getD_cons_succ]
    ring

/-- A function of the coordinates from `n` on. -/
theorem drop (n : ℕ) (hf : Multilinear f) : Multilinear fun p => f (p.drop n) := by
  intro a b t
  by_cases before : n ≤ a.length
  · simp only [List.drop_append_of_le_length before]
    exact hf _ _ _
  · obtain ⟨k, hk⟩ : ∃ k, n - a.length = k + 1 := ⟨n - a.length - 1, by omega⟩
    have short : a.drop n = [] := List.drop_eq_nil_of_le (by omega)
    simp only [List.drop_append, short, hk, List.drop_succ_cons, List.nil_append]
    ring

/-- A function of the first `n` coordinates. -/
theorem take (n : ℕ) (hf : Multilinear f) : Multilinear fun p => f (p.take n) := by
  intro a b t
  by_cases before : n ≤ a.length
  · simp only [List.take_append_of_le_length before]
    ring
  · obtain ⟨k, hk⟩ : ∃ k, n - a.length = k + 1 := ⟨n - a.length - 1, by omega⟩
    have whole : a.take n = a := List.take_of_length_le (by omega)
    simp only [List.take_append, whole, hk, List.take_succ_cons]
    exact hf _ _ _

/-- The later coordinates, with the first ones fixed. -/
theorem append_left (pre : List F) (hf : Multilinear f) : Multilinear fun p => f (pre ++ p) := by
  intro a b t
  simp only [← List.append_assoc]
  exact hf _ _ _

/-- A product whose factors are functions of the first `n` coordinates and of the later ones. -/
theorem take_mul_drop (n : ℕ) (hf : Multilinear f) (hg : Multilinear g) :
    Multilinear fun p => f (p.take n) * g (p.drop n) := by
  intro a b t
  by_cases before : n ≤ a.length
  · simp only [List.take_append_of_le_length before, List.drop_append_of_le_length before]
    linear_combination f (a.take n) * hg (a.drop n) b t
  · obtain ⟨k, hk⟩ : ∃ k, n - a.length = k + 1 := ⟨n - a.length - 1, by omega⟩
    have whole : a.take n = a := List.take_of_length_le (by omega)
    have short : a.drop n = [] := List.drop_eq_nil_of_le (by omega)
    simp only [List.take_append, List.drop_append, whole, short, hk, List.take_succ_cons,
      List.drop_succ_cons, List.nil_append]
    linear_combination g (b.drop k) * hf a (b.take k) t

/-- A recursion on the first pair of coordinates, with coefficients affine in each of the two. -/
theorem of_pairs {α β : F → F → F} {γ : ℕ → F → F → F} (hα : BiAffine α) (hβ : BiAffine β)
    (hγ : ∀ n, BiAffine (γ n)) (hh : Multilinear h) (c : F) (single : ∀ x, f [x] = c)
    (step : ∀ x y p, f (x :: y :: p) = γ p.length x y + α x y * f p + β x y * h p) :
    Multilinear f := by
  obtain ⟨a₀, a₁, a₂, a₃, hα⟩ := hα
  obtain ⟨b₀, b₁, b₂, b₃, hβ⟩ := hβ
  have first (x y t : F) (p : List F) :
      f (t :: y :: p) = (1 - t) * f (0 :: y :: p) + t * f (1 :: y :: p) ∧
        f (x :: t :: p) = (1 - t) * f (x :: 0 :: p) + t * f (x :: 1 :: p) := by
    obtain ⟨c₀, c₁, c₂, c₃, hγ⟩ := hγ p.length
    constructor <;>
    · simp only [step, hα, hβ, hγ]
      ring
  -- Two coordinates at a time, up to the one that varies.
  intro a
  induction a using List.twoStepInduction with
  | nil =>
    intro b t
    cases b with
    | nil =>
      simp only [List.nil_append, single]
      ring
    | cons y b => exact (first 0 y t b).1
  | singleton x =>
    intro b t
    exact (first x 0 t b).2
  | cons_cons x y a ih _ =>
    intro b t
    have lengths : (a ++ t :: b).length = (a ++ 0 :: b).length ∧
        (a ++ t :: b).length = (a ++ 1 :: b).length := by simp
    simp only [List.cons_append, step, ← lengths.1, ← lengths.2]
    linear_combination α x y * ih b t + β x y * hh a b t

end Multilinear

/-! ## Dense tables -/

/-- Bind the top variable of a table: entry `i` and entry `i + half` are its two values. -/
def bindTop (half : ℕ) (r : F) (table : ℕ → F) (i : ℕ) : F :=
  table i + r * (table (i + half) - table i)

/-- Bind the variables of a table of `2 ^ n` entries from the top down. -/
def bindAll : ℕ → List F → (ℕ → F) → ℕ → F
  | n + 1, r :: rs, table => bindAll n rs (bindTop (2 ^ n) r table)
  | _, _, table => table

@[simp] theorem bindAll_nil (n : ℕ) (table : ℕ → F) : bindAll n [] table = table := by
  cases n <;> rfl

/-- The table of a multilinear function, bound at `rs`, holds its values with the first
coordinates fixed to `rs`. -/
theorem bindAll_eq {f : List F → F} (hf : Multilinear f) {n : ℕ} (table : ℕ → F) (rs : List F)
    (holds : ∀ i < 2 ^ n, table i = f (bitPoint F n i)) (bound : rs.length ≤ n) {i : ℕ}
    (hi : i < 2 ^ (n - rs.length)) :
    bindAll n rs table i = f (rs ++ bitPoint F (n - rs.length) i) := by
  induction n generalizing f table rs with
  | zero =>
    rw [List.length_eq_zero_iff.mp (Nat.le_zero.mp bound)] at hi ⊢
    exact holds i hi
  | succ n ih =>
    cases rs with
    | nil => simpa using holds i hi
    | cons r rs =>
      rw [List.length_cons, Nat.add_sub_add_right] at hi ⊢
      refine ih (hf.append_left [r]) _ _ ?_ (by simpa using bound) hi
      intro j hj
      rw [bindTop, holds j (by rw [pow_succ]; omega), holds (j + 2 ^ n) (by rw [pow_succ]; omega),
        bitPoint_succ_low hj, bitPoint_succ_high hj]
      have affine := hf [] (bitPoint F n j) r
      simp only [List.nil_append] at affine
      rw [List.cons_append, List.nil_append, affine]
      ring

end JoltWasm.Lib
