import JoltWasm.Poly.EqTables

/-!
# Dense polynomials

A table of evaluations, bound one variable at a time, from the first variable on or from the last.  The
table of a multilinear function, bound, is the table of the function with coordinates fixed.
-/

namespace JoltWasm

open Lib

inductive BindingOrder where
  | lowToHigh
  | highToLow
  deriving DecidableEq

section

variable {F : Type} [Field F]

/-! ## Binding a table -/

/-- Bind the first variable. -/
def bindInPlace (v : List F) (challenge : F) : List F := (List.range (v.length / 2)).map fun j =>
  let lo := v.getD j 0
  let hi := v.getD (j + v.length / 2) 0
  lo + challenge * (hi - lo)

/-- Bind the last variable. -/
def bindPairs (v : List F) (challenge : F) : List F := (List.range (v.length / 2)).map fun i =>
  let lo := v.getD (2 * i) 0
  let hi := v.getD (2 * i + 1) 0
  lo + challenge * (hi - lo)

theorem length_bindInPlace (v : List F) (challenge : F) : (bindInPlace v challenge).length = v.length / 2 := by
  rw [bindInPlace, List.length_map, List.length_range]

theorem length_bindPairs (v : List F) (challenge : F) : (bindPairs v challenge).length = v.length / 2 := by
  rw [bindPairs, List.length_map, List.length_range]

/-- The source asserts that the length is zero or a power of two. -/
structure DensePolynomial (F : Type) where
  evals : List F
  numVars : ℕ
  length_evals : evals = [] ∧ numVars = 0 ∨ evals.length = 2 ^ numVars

namespace DensePolynomial

def new (evals : List F) : Option (DensePolynomial F) :=
  if empty : evals.length = 0 then some ⟨evals, 0, .inl ⟨List.length_eq_zero_iff.mp empty, rfl⟩⟩
  else if power : evals.length = 2 ^ Nat.log 2 evals.length then some ⟨evals, Nat.log 2 evals.length, .inr power⟩
  else none

omit [Field F] in
theorem length_half (p : DensePolynomial F) (positive : 0 < p.numVars) : p.evals.length / 2 = 2 ^ (p.numVars - 1) := by
  rcases p.length_evals with ⟨_, none⟩ | length
  · omega
  · obtain ⟨n, size⟩ := Nat.exists_eq_succ_of_ne_zero positive.ne'
    rw [length, size, Nat.succ_sub_one, pow_succ, Nat.mul_div_cancel _ two_pos]

def bindHighToLow (p : DensePolynomial F) (scalar : F) : Option (DensePolynomial F) :=
  if positive : 0 < p.numVars then
    some ⟨bindInPlace p.evals scalar, p.numVars - 1, .inr (by rw [length_bindInPlace, p.length_half positive])⟩
  else none

def bindLowToHigh (p : DensePolynomial F) (scalar : F) : Option (DensePolynomial F) :=
  if positive : 0 < p.numVars then
    some ⟨bindPairs p.evals scalar, p.numVars - 1, .inr (by rw [length_bindPairs, p.length_half positive])⟩
  else none

def bindWithOrder (order : BindingOrder) (p : DensePolynomial F) (scalar : F) : Option (DensePolynomial F) :=
  match order with
  | .highToLow => p.bindHighToLow scalar
  | .lowToHigh => p.bindLowToHigh scalar

/-- `Polynomial::evaluate`. -/
def evaluate (p : DensePolynomial F) (point : List F) : Option F :=
  if point.length = p.numVars then some (List.zipWith (· * ·) p.evals (EqPolynomial.evaluations point)).sum else none

omit [Field F] in
theorem exists_new {evals : List F} {n : ℕ} (length : evals.length = 2 ^ n) :
    ∃ p, new evals = some p ∧ p.evals = evals ∧ p.numVars = n := by
  have size : Nat.log 2 evals.length = n := by rw [length, Nat.log_pow one_lt_two]
  have some_ : evals.length ≠ 0 := by
    rw [length]
    exact (Nat.two_pow_pos n).ne'
  rw [new, dif_neg some_, dif_pos (by rw [size, length])]
  exact ⟨_, rfl, rfl, size⟩

/-- A polynomial's value is that of the extension of its table. -/
theorem evaluate_new {evals point : List F} (length : evals.length = 2 ^ point.length) :
    (new evals).bind (·.evaluate point) = some (extension (fun i => evals.getD i 0) point) := by
  obtain ⟨p, made, rfl, vars⟩ := exists_new length
  have products : List.zipWith (· * ·) p.evals (EqPolynomial.evaluations point) =
      (List.range (2 ^ point.length)).map fun k => p.evals.getD k 0 * eqWeight point k := by
    refine List.ext_getElem (by simp [EqPolynomial.evaluations_eq, length]) fun i inside inside' => ?_
    have below : i < 2 ^ point.length := by simpa using inside'
    simp only [List.getElem_zipWith, List.getElem_map, List.getElem_range, EqPolynomial.evaluations_eq,
      EqPolynomial.table, one_mul]
    rw [List.getD_eq_getElem _ _ (by rwa [length])]
  rw [made, Option.bind_some, evaluate, if_pos vars.symm, products]
  rfl

/-- The callers stay inside the table. -/
def sumcheckEvalPair (p : DensePolynomial F) (index : ℕ) : BindingOrder → F × F
  | .highToLow => (p.evals.getD index 0, p.evals.getD (index + p.evals.length / 2) 0)
  | .lowToHigh => (p.evals.getD (2 * index) 0, p.evals.getD (2 * index + 1) 0)

end DensePolynomial

/-! ## Tables of functions -/

/-- The first `2 ^ n` values of a function. -/
def listed (n : ℕ) (f : ℕ → F) : List F := (List.range (2 ^ n)).map f

omit [Field F] in
@[simp] theorem length_listed (n : ℕ) (f : ℕ → F) : (listed n f).length = 2 ^ n := by
  rw [listed, List.length_map, List.length_range]

theorem getD_listed {n : ℕ} (f : ℕ → F) {i : ℕ} (inside : i < 2 ^ n) : (listed n f).getD i 0 = f i := by
  rw [listed, List.getD_eq_getElem _ _ (by simpa using inside), List.getElem_map, List.getElem_range]

omit [Field F] in
theorem listed_congr {n : ℕ} {f g : ℕ → F} (same : ∀ i < 2 ^ n, f i = g i) : listed n f = listed n g :=
  List.map_congr_left fun i member => same i (List.mem_range.mp member)

omit [Field F] in
theorem map_listed (n : ℕ) (f : ℕ → F) (g : F → F) : (listed n f).map g = listed n fun i => g (f i) := by
  rw [listed, List.map_map]
  rfl

/-- A list is the table of its entries. -/
theorem eq_listed {v : List F} {n : ℕ} (length : v.length = 2 ^ n) : v = listed n fun i => v.getD i 0 := by
  refine List.ext_getElem (by rw [length, length_listed]) fun i inside inside' => ?_
  rw [← List.getD_eq_getElem _ 0 inside', getD_listed _ (by rwa [← length]), List.getD_eq_getElem _ 0 inside]

theorem half_pow_succ (n : ℕ) : 2 ^ (n + 1) / 2 = 2 ^ n := by
  rw [pow_succ, Nat.mul_div_cancel _ two_pos]

theorem bindInPlace_listed (n : ℕ) (f : ℕ → F) (challenge : F) :
    bindInPlace (listed (n + 1) f) challenge = listed n fun j => f j + challenge * (f (j + 2 ^ n) - f j) := by
  rw [bindInPlace, length_listed, half_pow_succ]
  refine listed_congr fun j inside => ?_
  simp only
  rw [getD_listed f (by rw [pow_succ]; omega), getD_listed f (by rw [pow_succ]; omega)]

theorem bindPairs_listed (n : ℕ) (f : ℕ → F) (challenge : F) :
    bindPairs (listed (n + 1) f) challenge = listed n fun i => f (2 * i) + challenge * (f (2 * i + 1) - f (2 * i)) := by
  rw [bindPairs, length_listed, half_pow_succ]
  refine listed_congr fun i inside => ?_
  simp only
  rw [getD_listed f (by rw [pow_succ]; omega), getD_listed f (by rw [pow_succ]; omega)]

/-- The values of a function at the boolean points between fixed coordinates. -/
def tabulated (f : List F → F) (high : List F) (n : ℕ) (low : List F) : List F :=
  listed n fun i => f (high ++ bitPoint F n i ++ low)

theorem tabulated_nil (f : List F → F) (n : ℕ) : tabulated f [] n [] = listed n fun i => f (bitPoint F n i) := by
  simp only [tabulated, List.nil_append, List.append_nil]

omit [Field F] in
/-- The halves of a table. -/
theorem listed_succ (n : ℕ) (f : ℕ → F) : listed (n + 1) f = listed n f ++ listed n fun i => f (i + 2 ^ n) := by
  rw [listed, pow_succ, mul_two, List.range_add, List.map_append, List.map_map, listed, listed]
  refine congrArg (_ ++ ·) (List.map_congr_left fun i _ => ?_)
  rw [Function.comp_apply, Nat.add_comm]

theorem getD_tabulated (f : List F → F) (high : List F) {n : ℕ} (low : List F) {i : ℕ} (inside : i < 2 ^ n) :
    (tabulated f high n low).getD i 0 = f (high ++ bitPoint F n i ++ low) := getD_listed _ inside

@[simp] theorem length_tabulated (f : List F → F) (high : List F) (n : ℕ) (low : List F) :
    (tabulated f high n low).length = 2 ^ n := length_listed _ _

theorem bindInPlace_tabulated {f : List F → F} (hf : Multilinear f) (high : List F) (n : ℕ) (low : List F)
    (challenge : F) : bindInPlace (tabulated f high (n + 1) low) challenge = tabulated f (high ++ [challenge]) n low := by
  rw [tabulated, bindInPlace_listed]
  refine listed_congr fun i inside => ?_
  have affine := hf high (bitPoint F n i ++ low) challenge
  rw [bitPoint_succ_low inside, bitPoint_succ_high inside]
  simp only [List.append_assoc, List.cons_append, List.nil_append]
  rw [affine]
  ring

/-- The last bit of an index. -/
theorem bitPoint_double (n i : ℕ) : bitPoint F (n + 1) (2 * i) = bitPoint F n i ++ [0] ∧
    bitPoint F (n + 1) (2 * i + 1) = bitPoint F n i ++ [1] := by
  have even : 2 * i / 2 ^ 1 = i := by omega
  have odd : (2 * i + 1) / 2 ^ 1 = i := by omega
  rw [bitPoint_add, bitPoint_add, even, odd]
  simp [bitPoint]

theorem bindPairs_tabulated {f : List F → F} (hf : Multilinear f) (high : List F) (n : ℕ) (low : List F)
    (challenge : F) : bindPairs (tabulated f high (n + 1) low) challenge = tabulated f high n (challenge :: low) := by
  rw [tabulated, bindPairs_listed]
  refine listed_congr fun i _ => ?_
  have affine := hf (high ++ bitPoint F n i) low challenge
  obtain ⟨even, odd⟩ := bitPoint_double (F := F) n i
  rw [even, odd]
  simp only [List.append_assoc, List.cons_append, List.nil_append] at affine ⊢
  rw [affine]
  ring

end

end JoltWasm
