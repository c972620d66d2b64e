import JoltWasm.Lib.Multilinear

/-!
# Multilinear extensions of vectors

The extension of a vector at a point: its entries, each with the weight that the point gives its index,
most significant coordinate first.
-/

namespace JoltWasm.Lib

open Finset

variable {F : Type*} [CommRing F]

/-- The weight of an index at a point; the bits past the point's length are left out. -/
def eqWeight : List F → ℕ → F
  | [], _ => 1
  | c :: point, k => (if k.testBit point.length then c else 1 - c) * eqWeight point k

/-- The multilinear extension of the first `2 ^ n` entries of a vector. -/
def extension (f : ℕ → F) (point : List F) : F :=
  ∑ k ∈ range (2 ^ point.length), f k * eqWeight point k

/-- A weight depends on the low bits only. -/
theorem eqWeight_congr (point : List F) {j k : ℕ}
    (same : ∀ i < point.length, j.testBit i = k.testBit i) : eqWeight point j = eqWeight point k := by
  induction point with
  | nil => rfl
  | cons c point ih =>
      rw [eqWeight, eqWeight, same _ (Nat.lt_succ_self _),
        ih fun i small => same i (small.trans (Nat.lt_succ_self _))]

theorem eqWeight_mod (point : List F) (k : ℕ) :
    eqWeight point (k % 2 ^ point.length) = eqWeight point k := by
  refine eqWeight_congr point fun i small => ?_
  rw [Nat.testBit_mod_two_pow]
  simp [small]

/-- The high coordinates weigh the high bits. -/
theorem eqWeight_append (high low : List F) (k : ℕ) :
    eqWeight (high ++ low) k = eqWeight high (k / 2 ^ low.length) * eqWeight low k := by
  induction high with
  | nil => simp [eqWeight]
  | cons c high ih =>
      rw [List.cons_append, eqWeight, eqWeight, ih, Nat.testBit_div_two_pow, List.length_append,
        mul_assoc]

theorem eqWeight_cons_low (c : F) (point : List F) {k : ℕ} (low : k < 2 ^ point.length) :
    eqWeight (c :: point) k = (1 - c) * eqWeight point k := by
  rw [eqWeight, Nat.testBit_lt_two_pow low]
  rfl

theorem eqWeight_cons_high (c : F) (point : List F) {k : ℕ} (low : k < 2 ^ point.length) :
    eqWeight (c :: point) (k + 2 ^ point.length) = c * eqWeight point k := by
  have top : (k + 2 ^ point.length).testBit point.length = true := by
    rw [Nat.add_comm, Nat.testBit_two_pow_add_eq, Nat.testBit_lt_two_pow low]
    rfl
  rw [eqWeight, top, ← eqWeight_mod point (k + _), Nat.add_mod_right, eqWeight_mod]
  rfl

/-- The first coordinate chooses between the halves of the vector. -/
theorem extension_cons (f : ℕ → F) (c : F) (point : List F) :
    extension f (c :: point) =
      (1 - c) * extension f point + c * extension (fun k => f (k + 2 ^ point.length)) point := by
  unfold extension
  rw [List.length_cons, pow_succ, mul_two, sum_range_add, mul_sum, mul_sum]
  congr 1
  · refine sum_congr rfl fun k member => ?_
    rw [eqWeight_cons_low c point (mem_range.mp member)]
    ring
  · refine sum_congr rfl fun k member => ?_
    rw [Nat.add_comm, eqWeight_cons_high c point (mem_range.mp member)]
    ring

/-- The indices by their high and their low part. -/
theorem sum_range_mul {M : Type*} [AddCommMonoid M] (m n : ℕ) (f : ℕ → M) :
    ∑ k ∈ range (m * n), f k = ∑ a ∈ range m, ∑ b ∈ range n, f (a * n + b) := by
  induction m with
  | zero => simp
  | succ m ih => rw [Nat.succ_mul, sum_range_add, ih, sum_range_succ]

theorem extension_append_eq_sum (f : ℕ → F) (high low : List F) :
    extension f (high ++ low) = ∑ a ∈ range (2 ^ high.length), ∑ b ∈ range (2 ^ low.length),
      f (a * 2 ^ low.length + b) * (eqWeight high a * eqWeight low b) := by
  unfold extension
  rw [List.length_append, pow_add, sum_range_mul]
  refine sum_congr rfl fun a _ => sum_congr rfl fun b member => ?_
  have small := mem_range.mp member
  rw [eqWeight_append, ← eqWeight_mod low, Nat.mul_comm, Nat.mul_add_div (Nat.two_pow_pos _),
    Nat.div_eq_of_lt small, Nat.mul_add_mod, Nat.mod_eq_of_lt small, Nat.add_zero]

/-- A product of functions of the high and of the low part. -/
theorem extension_append_mul (f g : ℕ → F) (high low : List F) :
    extension (fun k => f (k / 2 ^ low.length) * g (k % 2 ^ low.length)) (high ++ low) =
      extension f high * extension g low := by
  rw [extension_append_eq_sum]
  unfold extension
  rw [sum_mul_sum]
  refine sum_congr rfl fun a _ => sum_congr rfl fun b member => ?_
  have small := mem_range.mp member
  rw [Nat.mul_comm a, Nat.mul_add_div (Nat.two_pow_pos _), Nat.div_eq_of_lt small, Nat.mul_add_mod,
    Nat.mod_eq_of_lt small, Nat.add_zero]
  ring

theorem extension_congr {f g : ℕ → F} {point : List F}
    (same : ∀ k < 2 ^ point.length, f k = g k) : extension f point = extension g point :=
  sum_congr rfl fun k member => by rw [same k (mem_range.mp member)]

theorem extension_add (f g : ℕ → F) (point : List F) :
    extension (fun k => f k + g k) point = extension f point + extension g point := by
  unfold extension
  rw [← sum_add_distrib]
  exact sum_congr rfl fun k _ => add_mul _ _ _

theorem extension_sub (f g : ℕ → F) (point : List F) :
    extension (fun k => f k - g k) point = extension f point - extension g point := by
  unfold extension
  rw [← sum_sub_distrib]
  exact sum_congr rfl fun k _ => sub_mul _ _ _

theorem extension_mul (c : F) (f : ℕ → F) (point : List F) :
    extension (fun k => c * f k) point = c * extension f point := by
  unfold extension
  rw [mul_sum]
  exact sum_congr rfl fun k _ => mul_assoc _ _ _

theorem extension_zero (point : List F) : extension (fun _ => 0) point = 0 := by
  unfold extension
  exact sum_eq_zero fun k _ => zero_mul _

/-- The weights of a point add up to one. -/
theorem extension_one (point : List F) : extension (fun _ => 1) point = 1 := by
  induction point with
  | nil => simp [extension, eqWeight]
  | cons c point ih =>
      rw [extension_cons, ih]
      ring

/-- A vector with one entry. -/
theorem extension_single (point : List F) {i : ℕ} (small : i < 2 ^ point.length) (v : F) :
    extension (fun k => if k = i then v else 0) point = v * eqWeight point i := by
  refine (sum_eq_single_of_mem i (mem_range.mpr small) fun k _ other => ?_).trans ?_
  · simp only [if_neg other, zero_mul]
  · simp only [if_true]

/-- The entries at the boolean points are the vector's. -/
theorem extension_bitPoint (f : ℕ → F) {n i : ℕ} (small : i < 2 ^ n) :
    extension f (bitPoint F n i) = f i := by
  induction n generalizing f i with
  | zero =>
      obtain rfl : i = 0 := by omega
      simp [extension, bitPoint, eqWeight]
  | succ n ih =>
      rw [pow_succ] at small
      by_cases low : i < 2 ^ n
      · rw [bitPoint_succ_low low, extension_cons, ih f low]
        ring
      · obtain ⟨j, rfl⟩ := Nat.exists_eq_add_of_le (Nat.not_lt.mp low)
        have rest : j < 2 ^ n := by omega
        rw [Nat.add_comm (2 ^ n), bitPoint_succ_high rest, extension_cons, length_bitPoint,
          ih (fun k => f (k + 2 ^ n)) rest]
        ring

/-- An extension is multilinear. -/
theorem multilinear_extension (f : ℕ → F) : Multilinear (extension f) := by
  intro a b t
  induction a generalizing f with
  | nil =>
      simp only [List.nil_append, extension_cons]
      ring
  | cons c a ih =>
      have lengths : (a ++ t :: b).length = (a ++ 0 :: b).length ∧
          (a ++ t :: b).length = (a ++ 1 :: b).length := by simp
      simp only [List.cons_append, extension_cons, ih, ← lengths.1, ← lengths.2]
      ring

/-- A vector that is zero past the low coordinates. -/
theorem extension_append_low {f : ℕ → F} {low : List F} (zero : ∀ k, 2 ^ low.length ≤ k → f k = 0)
    (high : List F) :
    extension f (high ++ low) = (high.map fun c => 1 - c).prod * extension f low := by
  induction high with
  | nil => simp
  | cons c high ih =>
      have past : extension (fun k => f (k + 2 ^ (high ++ low).length)) (high ++ low) = 0 := by
        rw [← extension_zero (high ++ low)]
        refine extension_congr fun k _ => zero _ ?_
        rw [List.length_append, pow_add]
        exact (Nat.le_mul_of_pos_left _ (Nat.two_pow_pos _)).trans (Nat.le_add_left _ _)
      rw [List.cons_append, extension_cons, ih, past, List.map_cons, List.prod_cons]
      ring

end JoltWasm.Lib
