import Mathlib.LinearAlgebra.Lagrange
import JoltWasm.Lib.Ordering
import JoltWasm.Lib.Rounds

/-!
# Columns behind batched claims

Claims on columns are sent as values of their extensions at a point, added up with the powers of a challenge.
When the batched claims agree at every point and for every challenge, the columns agree entry by entry.
-/

namespace JoltWasm.Lib

open Finset Polynomial

variable {F : Type*} [Field F]

/-- Extensions that agree at every point are those of the same column. -/
theorem forall_extension_eq_iff {n : ℕ} {f g : ℕ → F} :
    (∀ point : List F, point.length = n → extension f point = extension g point) ↔ ∀ j < 2 ^ n, f j = g j := by
  constructor
  · intro same j inside
    have corner := same (bitPoint F n j) (length_bitPoint n j)
    rwa [extension_bitPoint f inside, extension_bitPoint g inside] at corner
  · intro same point length
    exact extension_congr fun j inside => same j (length ▸ inside)

/-- The naturals below the bound are different in the field. -/
def Apart (F : Type*) [Field F] (n : ℕ) : Prop := ∀ i < n, ∀ j < n, (i : F) = j → i = j

theorem Apart.mono {m n : ℕ} (apart : Apart F n) (le : m ≤ n) : Apart F m :=
  fun i small j small' => apart i (small.trans_le le) j (small'.trans_le le)

theorem apart_two : Apart F 2 := by
  intro i small j small' same
  obtain rfl | rfl : i = 0 ∨ i = 1 := by omega
  all_goals obtain rfl | rfl : j = 0 ∨ j = 1 := by omega
  · rfl
  · simp at same
  · simp at same
  · rfl

/-- A combination by the powers of every challenge is zero only when each part is. -/
theorem forall_powers_eq_zero_iff {n : ℕ} (apart : Apart F n) (a : ℕ → F) :
    (∀ γ : F, ∑ i ∈ range n, γ ^ i * a i = 0) ↔ ∀ i < n, a i = 0 := by
  constructor
  · intro zero i inside
    let p : F[X] := ∑ i ∈ range n, C (a i) * X ^ i
    have degree : p.degree < (range n).card := by
      rw [card_range]
      refine (degree_sum_le _ _).trans_lt ((Finset.sup_lt_iff (WithBot.bot_lt_coe n)).mpr fun i member => ?_)
      exact (degree_C_mul_X_pow_le i (a i)).trans_lt (Nat.cast_lt.mpr (mem_range.mp member))
    have distinct : Set.InjOn (fun i : ℕ => (i : F)) (range n) := fun i inside j inside' same =>
      apart i (mem_range.mp inside) j (mem_range.mp inside') same
    have nothing : p = 0 := by
      refine eq_zero_of_degree_lt_of_eval_index_eq_zero _ distinct degree fun i _ => ?_
      rw [eval_finsetSum, ← zero (i : F)]
      refine sum_congr rfl fun k _ => ?_
      rw [eval_mul, eval_C, eval_pow, eval_X, mul_comm]
    have coefficient := congrArg (coeff · i) nothing
    simpa only [p, finsetSum_coeff, coeff_C_mul, coeff_X_pow, mul_ite, mul_one, mul_zero, sum_ite_eq,
      mem_range, if_pos inside, coeff_zero] using coefficient
  · intro zero γ
    exact sum_eq_zero fun i member => by rw [zero i (mem_range.mp member), mul_zero]

/-- The same for every `step`-th power. -/
theorem forall_spaced_powers_eq_zero_iff {step n : ℕ} (positive : 0 < step) (apart : Apart F (n * step)) (a : ℕ → F) :
    (∀ γ : F, ∑ i ∈ range n, γ ^ (step * i) * a i = 0) ↔ ∀ i < n, a i = 0 := by
  have spread (γ : F) : ∑ m ∈ range (n * step), γ ^ m * (if m % step = 0 then a (m / step) else 0) =
      ∑ i ∈ range n, γ ^ (step * i) * a i := by
    rw [sum_range_mul]
    refine sum_congr rfl fun i _ => ?_
    refine (sum_eq_single_of_mem 0 (mem_range.mpr positive) fun b member other => ?_).trans ?_
    · rw [Nat.mul_comm, Nat.mul_add_mod, Nat.mod_eq_of_lt (mem_range.mp member), if_neg other, mul_zero]
    · rw [Nat.add_zero, Nat.mul_mod_left, if_pos rfl, Nat.mul_div_left i positive, Nat.mul_comm]
  have all := forall_powers_eq_zero_iff apart fun m => if m % step = 0 then a (m / step) else 0
  simp only [spread] at all
  rw [all]
  constructor
  · intro zero i inside
    have entry := zero (i * step) (Nat.mul_lt_mul_of_pos_right inside positive)
    rwa [Nat.mul_mod_left, if_pos rfl, Nat.mul_div_left i positive] at entry
  · intro zero m inside
    split_ifs
    · exact zero _ (Nat.div_lt_of_lt_mul (by rwa [Nat.mul_comm]))
    · rfl

/-- Batched extensions that agree at every point and for every challenge are those of the same columns. -/
theorem forall_batched_eq_iff {m n : ℕ} (apart : Apart F m) {f g : ℕ → ℕ → F} :
    (∀ (γ : F) (point : List F), point.length = n →
        ∑ i ∈ range m, γ ^ i * extension (f i) point = ∑ i ∈ range m, γ ^ i * extension (g i) point) ↔
      ∀ i < m, ∀ j < 2 ^ n, f i j = g i j := by
  constructor
  · intro same i inside
    refine forall_extension_eq_iff.mp fun point length => sub_eq_zero.mp ?_
    refine (forall_powers_eq_zero_iff apart fun i => extension (f i) point - extension (g i) point).mp
      (fun γ => ?_) i inside
    simp only [mul_sub, sum_sub_distrib]
    exact sub_eq_zero.mpr (same γ point length)
  · intro same γ point length
    exact sum_congr rfl fun i member => by
      rw [forall_extension_eq_iff.mpr (same i (mem_range.mp member)) point length]

/-- The entries of a list combined by the powers of a challenge. -/
def powerSum (γ : F) : List F → F
  | [] => 0
  | a :: l => a + γ * powerSum γ l

theorem powerSum_eq (γ : F) (l : List F) : powerSum γ l = ∑ i ∈ range l.length, γ ^ i * l.getD i 0 := by
  induction l with
  | nil => rfl
  | cons a l ih =>
      rw [powerSum, ih, List.length_cons, sum_range_succ', mul_sum, add_comm]
      refine congrArg₂ _ (sum_congr rfl fun i _ => ?_) ?_
      · rw [List.getD_cons_succ, pow_succ']
        ring
      · rw [List.getD_cons_zero, pow_zero, one_mul]

/-- What a challenge combines can be summed part by part. -/
theorem sum_powerSum (γ : F) (factors : List (ℕ → ℕ → F)) (product : ℕ → ℕ → F) (m n : ℕ) :
    ∑ k ∈ range m, ∑ j ∈ range n, powerSum γ (factors.map fun factor => factor k j) * product k j =
      powerSum γ (factors.map fun factor => ∑ k ∈ range m, ∑ j ∈ range n, factor k j * product k j) := by
  induction factors with
  | nil => simp [powerSum]
  | cons factor factors ih =>
      simp only [List.map_cons, powerSum, add_mul, sum_add_distrib, ← ih, mul_sum, mul_assoc]

theorem forall_powerSum_eq_iff {l l' : List F} (apart : Apart F l.length) (size : l'.length = l.length) :
    (∀ γ : F, powerSum γ l = powerSum γ l') ↔ l = l' := by
  have difference (γ : F) : powerSum γ l - powerSum γ l' = ∑ i ∈ range l.length, γ ^ i * (l.getD i 0 - l'.getD i 0) := by
    simp only [powerSum_eq, size, mul_sub, sum_sub_distrib]
  simp only [← sub_eq_zero (b := powerSum _ l'), difference]
  rw [forall_powers_eq_zero_iff apart]
  constructor
  · intro zero
    refine List.ext_getElem size.symm fun i inside inside' => ?_
    rw [← List.getD_eq_getElem _ 0 inside, ← List.getD_eq_getElem _ 0 inside']
    exact sub_eq_zero.mp (zero i inside)
  · rintro rfl i _
    exact sub_self _

/-- Batched columns of two kinds agree at every point and for every challenge exactly when each column does. -/
theorem forall_listed_eq_iff {n : ℕ} {listed : List ((ℕ → F) × (ℕ → F))} (apart : Apart F listed.length) :
    (∀ (γ : F) (point : List F), point.length = n → powerSum γ (listed.map fun pair => extension pair.1 point) =
        powerSum γ (listed.map fun pair => extension pair.2 point)) ↔
      ∀ pair ∈ listed, ∀ j < 2 ^ n, pair.1 j = pair.2 j := by
  have each (point : List F) : (∀ γ : F, powerSum γ (listed.map fun pair => extension pair.1 point) =
      powerSum γ (listed.map fun pair => extension pair.2 point)) ↔ ∀ pair ∈ listed, extension pair.1 point = extension pair.2 point := by
    rw [forall_powerSum_eq_iff (by rwa [List.length_map]) (by rw [List.length_map, List.length_map]), List.map_inj_left]
  constructor
  · intro same pair member
    exact forall_extension_eq_iff.mp fun point length => (each point).mp (fun γ => same γ point length) pair member
  · intro same γ point length
    exact (each point).mpr (fun pair member => forall_extension_eq_iff.mpr (same pair member) point length) γ

theorem extension_sum {ι : Type*} (s : Finset ι) (f : ι → ℕ → F) (point : List F) :
    extension (fun k => ∑ i ∈ s, f i k) point = ∑ i ∈ s, extension (f i) point := by
  simp only [extension, sum_mul]
  exact sum_comm

theorem cubeSum_sum {ι : Type*} (n : ℕ) (s : Finset ι) (f : ι → List F → F) :
    (cubeSum n fun x => ∑ i ∈ s, f i x) = ∑ i ∈ s, cubeSum n (f i) := by
  simp only [cubeSum_eq_sum]
  exact sum_comm

/-- The sum over the cube of a column's entries, each with its weight at a point. -/
theorem cubeSum_weights {n : ℕ} {point : List F} (length : point.length = n) {weight : List F → F} {f : List F → F}
    (weights : ∀ j < 2 ^ n, weight (bitPoint F n j) = eqWeight point j) :
    cubeSum n (fun x => weight x * f x) = extension (fun j => f (bitPoint F n j)) point := by
  rw [cubeSum_eq_sum, extension, length]
  exact sum_congr rfl fun j member => by rw [weights j (mem_range.mp member), mul_comm]

/-- The sum over the cube of a column's entries, each with the order of its place against a point. -/
theorem cubeSum_lessThan {n : ℕ} {point : List F} (length : point.length = n) (f : List F → F) :
    cubeSum n (fun x => lessThan x point * f x) = extension (fun t => ∑ j ∈ range t, f (bitPoint F n j)) point := by
  have entry (j : ℕ) (inside : j < 2 ^ n) : lessThan (bitPoint F n j) point * f (bitPoint F n j) =
      extension (fun t => if j < t then f (bitPoint F n j) else 0) point := by
    rw [lessThan, extension_bitPoint _ inside, mul_comm, ← extension_mul]
    exact extension_congr fun t _ => by rw [mul_ite, mul_one, mul_zero]
  rw [cubeSum_eq_sum, sum_congr rfl fun j member => entry j (mem_range.mp member), ← extension_sum]
  refine extension_congr fun t inside => ?_
  rw [← sum_filter]
  refine sum_congr ?_ fun _ _ => rfl
  ext j
  rw [mem_filter, mem_range, mem_range]
  exact and_iff_right_of_imp fun less => less.trans (length ▸ inside)

/-! ## Grids -/

/-- A family of columns, one for each address, as one column. -/
def gridColumn (logT : ℕ) (f : ℕ → ℕ → F) (place : ℕ) : F := f (place / 2 ^ logT) (place % 2 ^ logT)

theorem extension_gridColumn {logT : ℕ} (f : ℕ → ℕ → F) (address : List F) {cycle : List F} (length : cycle.length = logT) :
    extension (gridColumn logT f) (address ++ cycle) = extension (fun k => extension (f k) cycle) address := by
  subst length
  rw [extension_append_eq_sum, extension]
  refine sum_congr rfl fun k _ => ?_
  rw [extension, sum_mul]
  refine sum_congr rfl fun j member => ?_
  have inside := mem_range.mp member
  rw [gridColumn, Nat.mul_comm k, Nat.mul_add_div (Nat.two_pow_pos _), Nat.div_eq_of_lt inside, Nat.add_zero,
    Nat.mul_add_mod, Nat.mod_eq_of_lt inside]
  ring

/-- Folding the addresses first. -/
theorem extension_gridColumn_swap {logT : ℕ} (f : ℕ → ℕ → F) (address : List F) {cycle : List F}
    (length : cycle.length = logT) :
    extension (gridColumn logT f) (address ++ cycle) = extension (fun j => extension (fun k => f k j) address) cycle := by
  rw [extension_gridColumn f address length]
  simp only [extension, sum_mul]
  rw [sum_comm]
  exact sum_congr rfl fun j _ => sum_congr rfl fun k _ => by ring

/-- The grid's values at a corner of the cycles. -/
theorem extension_gridColumn_corner {logT j : ℕ} (f : ℕ → ℕ → F) (address : List F) (inside : j < 2 ^ logT) :
    extension (gridColumn logT f) (address ++ bitPoint F logT j) = extension (fun k => f k j) address := by
  rw [extension_gridColumn_swap f address (length_bitPoint _ _), extension_bitPoint _ inside]

theorem forall_grid_eq_iff {logK logT : ℕ} {f g : ℕ → ℕ → F} :
    (∀ address cycle : List F, address.length = logK → cycle.length = logT →
        extension (gridColumn logT f) (address ++ cycle) = extension (gridColumn logT g) (address ++ cycle)) ↔
      ∀ k < 2 ^ logK, ∀ j < 2 ^ logT, f k j = g k j := by
  constructor
  · intro same k inside j inside'
    have corner := same (bitPoint F logK k) (bitPoint F logT j) (length_bitPoint _ _) (length_bitPoint _ _)
    rwa [extension_gridColumn_corner f _ inside', extension_gridColumn_corner g _ inside', extension_bitPoint _ inside,
      extension_bitPoint _ inside] at corner
  · intro same address cycle lengthK lengthT
    rw [extension_gridColumn f address lengthT, extension_gridColumn g address lengthT]
    exact extension_congr fun k inside => extension_congr fun j inside' =>
      same k (lengthK ▸ inside) j (lengthT ▸ inside')

end JoltWasm.Lib
