import JoltWasm.Lib.Extension

/-!
# Sum-checks with gaps

A product of two extensions is summed over a cube that has more coordinates than the vectors: a step
is active when its coordinate is one of theirs.  The other steps, each with factor one half, leave
the sum as it is.  Vectors are bound from the low coordinate on.
-/

namespace JoltWasm.Lib

open Finset

variable {F : Type*} [Field F]

/-- The sum of a function over the boolean cube. -/
def cubeSum : ℕ → (List F → F) → F
  | 0, f => f []
  | n + 1, f => cubeSum n (fun rest => f (0 :: rest)) + cubeSum n (fun rest => f (1 :: rest))

/-- A vector with its low coordinate bound. -/
def bindLow (c : F) (f : ℕ → F) (j : ℕ) : F := f (2 * j) + c * (f (2 * j + 1) - f (2 * j))

/-- One step: an active one binds the low coordinate. -/
def bindStep (active : Bool) (c : F) (f : ℕ → F) : ℕ → F := if active then bindLow c f else f

/-- The factor of one step. -/
def stepScale (F : Type*) [Field F] (active : Bool) : F := if active then 1 else 2⁻¹

/-- The coordinates of the active steps. -/
def activePart : List Bool → List F → List F
  | active :: steps, c :: point =>
      if active then c :: activePart steps point else activePart steps point
  | _, _ => []

/-- A vector with the coordinates of the active steps bound. -/
def bindActive : List Bool → List F → (ℕ → F) → ℕ → F
  | active :: steps, c :: point, f => bindActive steps point (bindStep active c f)
  | _, _, f => f

/-- The factor of the steps that are not active. -/
def gapScale (F : Type*) [Field F] (steps : List Bool) : F := 2⁻¹ ^ steps.count false

/-- The summand: the product of the extensions, scaled by the gaps. -/
def gappedProduct (steps : List Bool) (f g : ℕ → F) (point : List F) : F :=
  gapScale F steps * (extension f (activePart steps point).reverse *
    extension g (activePart steps point).reverse)

theorem cubeSum_congr {n : ℕ} {f g : List F → F} (same : ∀ point, point.length = n → f point = g point) :
    cubeSum n f = cubeSum n g := by
  induction n generalizing f g with
  | zero => exact same [] rfl
  | succ n ih =>
      rw [cubeSum, cubeSum, ih fun point length => same (0 :: point) (by rw [List.length_cons, length]),
        ih fun point length => same (1 :: point) (by rw [List.length_cons, length])]

theorem cubeSum_mul (n : ℕ) (c : F) (f : List F → F) :
    cubeSum n (fun point => c * f point) = c * cubeSum n f := by
  induction n generalizing f with
  | zero => rfl
  | succ n ih => rw [cubeSum, cubeSum, ih, ih, mul_add]

@[simp] theorem bindLow_zero (f : ℕ → F) (j : ℕ) : bindLow 0 f j = f (2 * j) := by
  rw [bindLow, zero_mul, add_zero]

@[simp] theorem bindLow_one (f : ℕ → F) (j : ℕ) : bindLow 1 f j = f (2 * j + 1) := by
  rw [bindLow, one_mul, add_sub_cancel]

/-- The last coordinate of a point is the low one. -/
theorem extension_concat (f : ℕ → F) (point : List F) (c : F) :
    extension f (point ++ [c]) = extension (bindLow c f) point := by
  rw [extension_append_eq_sum]
  unfold extension
  refine sum_congr rfl fun a _ => ?_
  rw [List.length_singleton, pow_one, sum_range_succ, sum_range_one]
  have even : eqWeight [c] 0 = 1 - c := by simp [eqWeight]
  have odd : eqWeight [c] 1 = c := by simp [eqWeight]
  rw [even, odd, bindLow, Nat.mul_comm a, Nat.add_zero]
  ring

omit [Field F] in
@[simp] theorem activePart_nil (point : List F) : activePart [] point = [] := rfl

omit [Field F] in
theorem length_activePart {steps : List Bool} {point : List F} (length : point.length = steps.length) :
    (activePart steps point).length = steps.count true := by
  induction steps generalizing point with
  | nil => rfl
  | cons active steps ih =>
      cases point with
      | nil => cases length
      | cons c point =>
          have rest := ih (Nat.succ.inj length)
          cases active
          · simpa [activePart] using rest
          · simpa [activePart] using rest

omit [Field F] in
theorem activePart_append (first second : List Bool) {point rest : List F}
    (length : point.length = first.length) :
    activePart (first ++ second) (point ++ rest) = activePart first point ++ activePart second rest := by
  induction first generalizing point with
  | nil =>
      rw [List.eq_nil_of_length_eq_zero length]
      rfl
  | cons active first ih =>
      cases point with
      | nil => cases length
      | cons c point =>
          have parts := ih (Nat.succ.inj length)
          cases active
          · exact parts
          · exact congrArg (c :: ·) parts

theorem bindActive_append (first second : List Bool) {point rest : List F}
    (length : point.length = first.length) (f : ℕ → F) :
    bindActive (first ++ second) (point ++ rest) f =
      bindActive second rest (bindActive first point f) := by
  induction first generalizing point f with
  | nil =>
      rw [List.eq_nil_of_length_eq_zero length]
      rfl
  | cons active first ih =>
      cases point with
      | nil => cases length
      | cons c point => exact ih (Nat.succ.inj length) _

/-- A vector all of whose coordinates are bound. -/
theorem bindActive_eq_extension {steps : List Bool} {point : List F}
    (length : point.length = steps.length) (f : ℕ → F) :
    bindActive steps point f 0 = extension f (activePart steps point).reverse := by
  induction steps generalizing point f with
  | nil => simp [bindActive, extension, eqWeight]
  | cons active steps ih =>
      cases point with
      | nil => cases length
      | cons c point =>
          rw [bindActive, ih (Nat.succ.inj length)]
          cases active
          · rfl
          · rw [bindStep, activePart, if_pos rfl, if_pos rfl, List.reverse_cons, extension_concat]

theorem gapScale_cons (active : Bool) (steps : List Bool) :
    gapScale F (active :: steps) = stepScale F active * gapScale F steps := by
  cases active with
  | false => rw [gapScale, List.count_cons_self, pow_succ', ← gapScale, stepScale, if_neg Bool.false_ne_true]
  | true => rw [gapScale, List.count_cons_of_ne (by decide), ← gapScale, stepScale, if_pos rfl, one_mul]

theorem gapScale_append (first second : List Bool) :
    gapScale F (first ++ second) = gapScale F first * gapScale F second := by
  rw [gapScale, List.count_append, pow_add, gapScale, gapScale]

/-- A step binds its coordinate. -/
theorem gappedProduct_cons (active : Bool) (steps : List Bool) (f g : ℕ → F) (c : F) (point : List F) :
    gappedProduct (active :: steps) f g (c :: point) = stepScale F active *
      gappedProduct steps (bindStep active c f) (bindStep active c g) point := by
  rw [gappedProduct, gappedProduct, gapScale_cons, mul_assoc]
  cases active with
  | false => rfl
  | true => rw [activePart, if_pos rfl, List.reverse_cons, extension_concat, extension_concat, bindStep,
      bindStep, if_pos rfl, if_pos rfl]

/-- The first steps bind their coordinates. -/
theorem gappedProduct_append (first second : List Bool) (f g : ℕ → F) {point : List F}
    (length : point.length = first.length) (rest : List F) :
    gappedProduct (first ++ second) f g (point ++ rest) = gapScale F first *
      gappedProduct second (bindActive first point f) (bindActive first point g) rest := by
  induction first generalizing point f g with
  | nil =>
      rw [List.eq_nil_of_length_eq_zero length, gapScale, List.count_nil, pow_zero, one_mul]
      rfl
  | cons active first ih =>
      cases point with
      | nil => cases length
      | cons c point =>
          rw [List.cons_append, List.cons_append, gappedProduct_cons, ih _ _ (Nat.succ.inj length),
            gapScale_cons, mul_assoc]
          rfl

/-- The even and the odd indices. -/
theorem sum_range_two_mul {M : Type*} [AddCommMonoid M] (n : ℕ) (h : ℕ → M) :
    ∑ j ∈ range (2 * n), h j = ∑ j ∈ range n, h (2 * j) + ∑ j ∈ range n, h (2 * j + 1) := by
  induction n with
  | zero => simp
  | succ n ih =>
      rw [Nat.mul_succ, sum_range_succ, sum_range_succ, ih, sum_range_succ, sum_range_succ]
      exact add_assoc _ _ _ |>.trans (add_add_add_comm _ _ _ _)

/-- The inner product of the first `2 ^ n` entries. -/
def innerProduct (n : ℕ) (f g : ℕ → F) : F := ∑ j ∈ range (2 ^ n), f j * g j

/-- The next coordinate is summed over. -/
theorem innerProduct_step (two : (2 : F) ≠ 0) (active : Bool) (steps : List Bool) (f g : ℕ → F) :
    stepScale F active * innerProduct (steps.count true) (bindStep active 0 f) (bindStep active 0 g) +
      stepScale F active * innerProduct (steps.count true) (bindStep active 1 f) (bindStep active 1 g) =
        innerProduct ((active :: steps).count true) f g := by
  cases active with
  | false =>
      simp only [stepScale, bindStep, Bool.false_eq_true, if_false]
      rw [List.count_cons_of_ne (by decide), ← add_mul, ← two_mul, mul_inv_cancel₀ two, one_mul]
  | true =>
      simp only [stepScale, bindStep, if_true, innerProduct, bindLow_zero, bindLow_one, one_mul]
      rw [List.count_cons_self, pow_succ', sum_range_two_mul]

/-- The gaps do not change the sum: it is the inner product of the vectors. -/
theorem cubeSum_gappedProduct (two : (2 : F) ≠ 0) (steps : List Bool) (f g : ℕ → F) :
    cubeSum steps.length (gappedProduct steps f g) = innerProduct (steps.count true) f g := by
  induction steps generalizing f g with
  | nil => simp [cubeSum, gappedProduct, gapScale, extension, eqWeight, innerProduct]
  | cons active steps ih =>
      rw [List.length_cons, cubeSum, ← innerProduct_step two]
      simp only [gappedProduct_cons, cubeSum_mul, ih]

end JoltWasm.Lib
