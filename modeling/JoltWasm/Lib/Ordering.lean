import JoltWasm.Lib.Extension
import JoltWasm.Lib.PairSums

/-!
# Comparisons of two points

The multilinear extensions, in both points, of equality, of strict order and of succession of the words that
the points stand for.  Each is known from its first pair of coordinates, and so over a concatenation.
-/

namespace JoltWasm.Lib

open Finset

variable {F : Type*} [CommRing F]

def equal (x y : List F) : F := extension (eqWeight x) y

def lessThan (x y : List F) : F := extension (fun j => extension (fun k => if j < k then 1 else 0) y) x

/-- The largest word has no successor. -/
def follows (x y : List F) : F := extension (fun j => extension (fun k => if k = j + 1 then 1 else 0) y) x

/-! ## The first pair of coordinates -/

@[simp] theorem equal_nil : equal ([] : List F) [] = 1 := by simp [equal, extension, eqWeight]

@[simp] theorem lessThan_nil : lessThan ([] : List F) [] = 0 := by
  simp [lessThan, extension, eqWeight, -sum_boole]

@[simp] theorem follows_nil : follows ([] : List F) [] = 0 := by simp [follows, extension, eqWeight]

variable {x y : List F}

theorem equal_cons (same : x.length = y.length) (a b : F) : equal (a :: x) (b :: y) = pairEq a b * equal x y := by
  have low : extension (eqWeight (a :: x)) y = (1 - a) * equal x y := by
    rw [equal, ← extension_mul]
    exact extension_congr fun k inside => eqWeight_cons_low a x (by rwa [same])
  have high : extension (fun k => eqWeight (a :: x) (k + 2 ^ y.length)) y = a * equal x y := by
    rw [equal, ← extension_mul, ← same]
    exact extension_congr fun k inside => eqWeight_cons_high a x (by rwa [same])
  rw [equal, extension_cons, low, high, pairEq]
  ring

theorem equal_comm (same : x.length = y.length) : equal x y = equal y x := by
  induction x generalizing y with
  | nil =>
      obtain rfl := List.eq_nil_of_length_eq_zero same.symm
      rfl
  | cons a x ih =>
      obtain ⟨b, y, rfl⟩ := List.exists_cons_of_length_eq_add_one same.symm
      have same : x.length = y.length := Nat.succ.inj same
      rw [equal_cons same, equal_cons same.symm, ih same, pairEq, pairEq]
      ring

theorem lessThan_cons (same : x.length = y.length) (a b : F) :
    lessThan (a :: x) (b :: y) = (1 - a) * b + pairEq a b * lessThan x y := by
  -- The high bits decide unless they are equal.
  have low : ∀ j < 2 ^ x.length, extension (fun k => if j < k then 1 else 0) (b :: y) =
      b + (1 - b) * extension (fun k => if j < k then 1 else 0) y := by
    intro j inside
    have above : extension (fun k => if j < k + 2 ^ y.length then (1 : F) else 0) y = 1 :=
      (extension_congr fun k _ => if_pos (by rw [same] at inside; omega)).trans (extension_one y)
    rw [extension_cons, above]
    ring
  have high : ∀ j < 2 ^ x.length, extension (fun k => if j + 2 ^ x.length < k then 1 else 0) (b :: y) =
      b * extension (fun k => if j < k then 1 else 0) y := by
    intro j _
    have below : extension (fun k => if j + 2 ^ x.length < k then (1 : F) else 0) y = 0 :=
      (extension_congr fun k inside => if_neg (by rw [same]; omega)).trans (extension_zero y)
    rw [extension_cons, below, mul_zero, zero_add, same]
    simp only [Nat.add_lt_add_iff_right]
  rw [lessThan, extension_cons, extension_congr low, extension_congr high, extension_add, extension_mul, extension_mul,
    ← lessThan, pairEq]
  have constant : extension (fun _ => b) x = b := by
    have scaled := extension_mul b (fun _ => 1) x
    rwa [mul_one, extension_one, mul_one] at scaled
  rw [constant]
  ring

/-- The weight of the largest word. -/
theorem eqWeight_ones (x : List F) : eqWeight x (2 ^ x.length - 1) = x.prod := by
  induction x with
  | nil => rfl
  | cons a x ih =>
      have positive := Nat.two_pow_pos x.length
      have split : 2 ^ (a :: x).length - 1 = (2 ^ x.length - 1) + 2 ^ x.length := by
        rw [List.length_cons, pow_succ]
        omega
      rw [split, eqWeight_cons_high a x (by omega), ih, List.prod_cons]

theorem eqWeight_zero (x : List F) : eqWeight x 0 = allZero x := by
  induction x with
  | nil => rfl
  | cons a x ih => rw [eqWeight_cons_low a x (Nat.two_pow_pos _), ih, allZero]

theorem follows_cons (same : x.length = y.length) (a b : F) :
    follows (a :: x) (b :: y) = pairEq a b * follows x y + (1 - a) * b * (x.prod * allZero y) := by
  have positive := Nat.two_pow_pos y.length
  -- The carry reaches the first bit at the largest word of the others.
  have low : ∀ j < 2 ^ x.length, extension (fun k => if k = j + 1 then 1 else 0) (b :: y) =
      (1 - b) * extension (fun k => if k = j + 1 then 1 else 0) y +
        b * allZero y * (if j = 2 ^ x.length - 1 then 1 else 0) := by
    intro j inside
    have carry : extension (fun k => if k + 2 ^ y.length = j + 1 then (1 : F) else 0) y =
        if j = 2 ^ x.length - 1 then allZero y else 0 := by
      rw [same] at inside ⊢
      split_ifs with last
      · rw [← eqWeight_zero, ← one_mul (eqWeight y 0), ← extension_single y positive]
        exact extension_congr fun k _ => if_congr (by omega) rfl rfl
      · exact (extension_congr fun k _ => if_neg (by omega)).trans (extension_zero y)
    rw [extension_cons, carry]
    split_ifs <;> ring
  have high : ∀ j < 2 ^ x.length, extension (fun k => if k = j + 2 ^ x.length + 1 then 1 else 0) (b :: y) =
      b * extension (fun k => if k = j + 1 then 1 else 0) y := by
    intro j _
    have never : extension (fun k => if k = j + 2 ^ x.length + 1 then (1 : F) else 0) y = 0 :=
      (extension_congr fun k inside => if_neg (by rw [same]; omega)).trans (extension_zero y)
    have moved : extension (fun k => if k + 2 ^ y.length = j + 2 ^ x.length + 1 then (1 : F) else 0) y =
        extension (fun k => if k = j + 1 then 1 else 0) y :=
      extension_congr fun k _ => if_congr (by rw [same]; omega) rfl rfl
    rw [extension_cons, never, moved, mul_zero, zero_add]
  have last : extension (fun j => if j = 2 ^ x.length - 1 then (1 : F) else 0) x = x.prod := by
    rw [extension_single x (Nat.sub_lt (Nat.two_pow_pos _) one_pos), eqWeight_ones, one_mul]
  rw [follows, extension_cons, extension_congr low, extension_congr high, extension_add, extension_mul, extension_mul,
    extension_mul, last, ← follows, pairEq]
  ring

/-! ## Concatenations -/

variable {high low : List F}

theorem equal_append (same : x.length = high.length) (rest : y.length = low.length) :
    equal (x ++ y) (high ++ low) = equal x high * equal y low := by
  induction x generalizing high with
  | nil =>
      obtain rfl := List.eq_nil_of_length_eq_zero same.symm
      rw [equal_nil, one_mul, List.nil_append, List.nil_append]
  | cons a x ih =>
      obtain ⟨b, high, rfl⟩ := List.exists_cons_of_length_eq_add_one same.symm
      have same : x.length = high.length := Nat.succ.inj same
      rw [List.cons_append, List.cons_append, equal_cons (by simp [same, rest]), equal_cons same, ih same, mul_assoc]

theorem lessThan_append (same : x.length = high.length) (rest : y.length = low.length) :
    lessThan (x ++ y) (high ++ low) = lessThan x high + equal x high * lessThan y low := by
  induction x generalizing high with
  | nil =>
      obtain rfl := List.eq_nil_of_length_eq_zero same.symm
      rw [lessThan_nil, equal_nil, one_mul, zero_add, List.nil_append, List.nil_append]
  | cons a x ih =>
      obtain ⟨b, high, rfl⟩ := List.exists_cons_of_length_eq_add_one same.symm
      have same : x.length = high.length := Nat.succ.inj same
      rw [List.cons_append, List.cons_append, lessThan_cons (by simp [same, rest]), lessThan_cons same,
        equal_cons same, ih same]
      ring

theorem follows_append (same : x.length = high.length) (rest : y.length = low.length) :
    follows (x ++ y) (high ++ low) = equal x high * follows y low + follows x high * (y.prod * allZero low) := by
  induction x generalizing high with
  | nil =>
      obtain rfl := List.eq_nil_of_length_eq_zero same.symm
      rw [follows_nil, equal_nil, one_mul, zero_mul, add_zero, List.nil_append, List.nil_append]
  | cons a x ih =>
      obtain ⟨b, high, rfl⟩ := List.exists_cons_of_length_eq_add_one same.symm
      have same : x.length = high.length := Nat.succ.inj same
      rw [List.cons_append, List.cons_append, follows_cons (by simp [same, rest]), follows_cons same,
        equal_cons same, ih same, List.prod_append, allZero_append]
      ring

/-! ## Multilinearity -/

theorem multilinear_equal (x : List F) : Multilinear (equal x) := multilinear_extension _

theorem multilinear_lessThan (y : List F) : Multilinear fun x => lessThan x y := multilinear_extension _

theorem extension_comm (f : ℕ → ℕ → F) (x y : List F) :
    extension (fun j => extension (f j) y) x = extension (fun k => extension (fun j => f j k) x) y := by
  simp only [extension, sum_mul]
  rw [sum_comm]
  exact sum_congr rfl fun k _ => sum_congr rfl fun j _ => mul_right_comm _ _ _

theorem multilinear_follows (x : List F) : Multilinear (follows x) := by
  have swapped : follows x = extension fun k => extension (fun j => if k = j + 1 then 1 else 0) x := by
    funext y
    exact extension_comm _ x y
  rw [swapped]
  exact multilinear_extension _

/-- A multilinear function is the extension of its values at the boolean points. -/
theorem extension_bits {f : List F → F} (hf : Multilinear f) (point : List F) :
    extension (fun k => f (bitPoint F point.length k)) point = f point := by
  induction point generalizing f with
  | nil => simp [extension, bitPoint, eqWeight]
  | cons c point ih =>
      have low : extension (fun k => f (bitPoint F (c :: point).length k)) point = f (0 :: point) := by
        refine Eq.trans ?_ (ih (hf.append_left [0]))
        exact extension_congr fun k inside => by
          rw [List.length_cons, bitPoint_succ_low inside, List.singleton_append]
      have high : extension (fun k => f (bitPoint F (c :: point).length (k + 2 ^ point.length))) point =
          f (1 :: point) := by
        refine Eq.trans ?_ (ih (hf.append_left [1]))
        exact extension_congr fun k inside => by
          rw [List.length_cons, bitPoint_succ_high inside, List.singleton_append]
      rw [extension_cons, low, high]
      exact (hf [] point c).symm

end JoltWasm.Lib
