import JoltWasm.Lib.Loops
import JoltWasm.Poly.Centered
import JoltWasm.Poly.SplitEqRounds

/-!
# What the prover's kernels share

Errors, the challenges that are bound so far, sums of vectors over tasks, and the fold over the two tables of
a split equality polynomial.
-/

namespace JoltWasm

open Lib Finset

/-- How a kernel ends without a result: the errors `KernelError` and `SumcheckKernelError`, and the panics. -/
inductive KernelStop where
  | centeredDomain (error : CenteredIntegerDomainError)
  | invariantViolation (reason : String)
  | unsupported (reason : String)
  | notFullyBound (remaining : ℕ)
  | tableSizeMismatch (table : String) (expected got : ℕ)
  | missingOpeningValue
  | panicked
  deriving DecidableEq

namespace KernelStop

/-- A call that stops is a panic of its caller. -/
def orPanic {α : Type} : Option α → Except KernelStop α
  | some a => .ok a
  | none => .error .panicked

/-- `From<CenteredIntegerDomainError>`. -/
def liftDomain {α : Type} : Except CenteredIntegerDomainError (Option α) → Except KernelStop α
  | .ok a => orPanic a
  | .error error => .error (.centeredDomain error)

@[simp] theorem orPanic_some {α : Type} (a : α) : orPanic (some a) = .ok a := rfl

@[simp] theorem liftDomain_ok {α : Type} (a : α) : liftDomain (.ok (some a)) = .ok a := rfl

@[simp] theorem ok_bind {α β : Type} (a : α) (f : α → Except KernelStop β) : (Except.ok a >>= f) = f a := rfl

end KernelStop

section

variable {F : Type} [Field F]

/-! ## Round challenges -/

structure RoundChallenges (F : Type) where
  challenges : List F
  total : ℕ

namespace RoundChallenges

def new (total : ℕ) : RoundChallenges F := ⟨[], total⟩

def push (c : RoundChallenges F) (challenge : F) : RoundChallenges F := { c with challenges := c.challenges ++ [challenge] }

def bound (c : RoundChallenges F) : ℕ := c.challenges.length

def requireComplete (c : RoundChallenges F) : Except KernelStop Unit :=
  if c.challenges.length = c.total then .ok () else .error (.notFullyBound (c.total - c.challenges.length))

end RoundChallenges

/-! ## Sums over tasks -/

/-- Add the entries of the second vector, as far as both reach. -/
def mergeVecs : List F → List F → List F
  | left :: lefts, right :: rights => (left + right) :: mergeVecs lefts rights
  | lefts, _ => lefts

/-- `try_par_sum_vecs`. -/
def tryParSumVecs (tasks len : ℕ) (task : ℕ → Option (List F)) : Option (List F) :=
  (List.range tasks).foldlM (fun folded index => do return mergeVecs folded (← task index)) (List.replicate len 0)

theorem mergeVecs_map {ι : Type} (slots : List ι) (f g : ι → F) :
    mergeVecs (slots.map f) (slots.map g) = slots.map fun slot => f slot + g slot := by
  induction slots with
  | nil => rfl
  | cons slot slots ih => rw [List.map_cons, List.map_cons, mergeVecs, ih, List.map_cons]

theorem tryParSumVecs_eq {ι : Type} {tasks len : ℕ} {task : ℕ → Option (List F)} {slots : List ι} (width : slots.length = len)
    (f : ℕ → ι → F) (each : ∀ index < tasks, task index = some (slots.map (f index))) :
    tryParSumVecs tasks len task = some (slots.map fun slot => ∑ index ∈ range tasks, f index slot) := by
  rw [tryParSumVecs]
  induction tasks with
  | zero =>
      subst width
      simp
  | succ tasks ih =>
      rw [List.range_succ, List.foldlM_append, ih fun index inside => each index (inside.trans (Nat.lt_succ_self _)),
        Option.bind_eq_bind, Option.bind_some, List.foldlM_cons, each tasks (Nat.lt_succ_self _)]
      simp only [Option.bind_eq_bind, Option.bind_some, Option.pure_def, List.foldlM_nil, mergeVecs_map, sum_range_succ]

/-! ## Products of two tables -/

namespace GruenSplitEqPolynomial

def parFoldOutIn {Outer Inner : Type} (p : GruenSplitEqPolynomial F) (makeInner : Inner)
    (innerStep : Inner → ℕ → ℕ → F → Inner) (outerStep : ℕ → F → Inner → Outer) (merge : Outer → Outer → Outer) : Outer :=
  let acc := p.eOutCurrent.zipIdx.foldl (fun acc (eOut, xOut) =>
    let innerAcc := p.eInCurrent.zipIdx.foldl
      (fun innerAcc (eIn, xIn) => innerStep innerAcc (p.groupIndex xOut xIn) xIn eIn) makeInner
    let value := outerStep xOut eOut innerAcc
    some (match acc with
      | some acc => merge acc value
      | none => value)) none
  acc.getD (outerStep 0 0 makeInner)

/-- The constant and the quadratic coefficient of the product of two tables, under the weights; the tables
have an entry for each row. -/
def productEndpoints (p : GruenSplitEqPolynomial F) (a b : DensePolynomial F) : F × F :=
  p.parFoldOutIn (0, 0)
    (fun accumulator row _ e =>
      let (aLow, aHigh) := (a.evals.getD (2 * row) 0, a.evals.getD (2 * row + 1) 0)
      let (bLow, bHigh) := (b.evals.getD (2 * row) 0, b.evals.getD (2 * row + 1) 0)
      (accumulator.1 + e * (aLow * bLow), accumulator.2 + e * ((aHigh - aLow) * (bHigh - bLow))))
    (fun _ eOut accumulator => (eOut * accumulator.1, eOut * accumulator.2))
    (fun left right => (left.1 + right.1, left.2 + right.2))

/-- The first value starts the sum. -/
theorem foldl_merge {M α : Type} [AddCommMonoid M] {l : List α} (nonempty : l ≠ []) (v : α → M) :
    l.foldl (fun acc x => some (match acc with
      | some acc => acc + v x
      | none => v x)) none = some (l.map v).sum := by
  have later (l : List α) (a : M) : l.foldl (fun acc x => some (match acc with
      | some acc => acc + v x
      | none => v x)) (some a) = some (a + (l.map v).sum) := by
    induction l generalizing a with
    | nil => exact congrArg some (add_zero a).symm
    | cons x l ih => rw [List.foldl_cons, ih, List.map_cons, List.sum_cons, ← add_assoc]
  cases l with
  | nil => exact (nonempty rfl).elim
  | cons x l => rw [List.foldl_cons, later, List.map_cons, List.sum_cons]

/-- A sum over an indexed table is a sum over its positions. -/
theorem sum_zipIdx {M : Type} [AddCommMonoid M] (l : List F) (f : F → ℕ → M) :
    (l.zipIdx.map fun p => f p.1 p.2).sum = ∑ x ∈ range l.length, f (l.getD x 0) x := by
  have positions : l.zipIdx.map (fun p => f p.1 p.2) = (List.range l.length).map fun x => f (l.getD x 0) x := by
    refine List.ext_getElem (by simp) fun x inside _ => ?_
    rw [List.length_map, List.length_zipIdx] at inside
    rw [List.getElem_map, List.getElem_map, List.getElem_zipIdx, List.getElem_range, Nat.zero_add,
      List.getD_eq_getElem _ _ inside]
  rw [positions]
  rfl

/-- A fold that adds weighted rows is the sum over the two tables. -/
theorem parFoldOutIn_eq {M : Type} [AddCommGroup M] [Module F M] {p : GruenSplitEqPolynomial F}
    (nonempty : p.eOutCurrent ≠ []) (v : ℕ → M) :
    p.parFoldOutIn 0 (fun acc row _ e => acc + e • v row) (fun _ e acc => e • acc) (· + ·) =
      ∑ xOut ∈ range p.eOutCurrent.length, ∑ xIn ∈ range p.eInCurrent.length,
        (p.eOutCurrent.getD xOut 0 * p.eInCurrent.getD xIn 0) • v (p.groupIndex xOut xIn) := by
  have inner (xOut : ℕ) : p.eInCurrent.zipIdx.foldl
      (fun acc (e, xIn) => acc + e • v (p.groupIndex xOut xIn)) 0 =
      ∑ xIn ∈ range p.eInCurrent.length, p.eInCurrent.getD xIn 0 • v (p.groupIndex xOut xIn) := by
    rw [← sum_zipIdx p.eInCurrent fun e xIn => e • v (p.groupIndex xOut xIn), ← zero_add (List.sum _), ← foldl_add]
  rw [parFoldOutIn]
  simp only [inner]
  have merged := foldl_merge (M := M) (l := p.eOutCurrent.zipIdx) (by simpa using nonempty)
    fun q => q.1 • ∑ xIn ∈ range p.eInCurrent.length, p.eInCurrent.getD xIn 0 • v (p.groupIndex q.2 xIn)
  rw [merged, Option.getD_some, sum_zipIdx p.eOutCurrent fun e xOut =>
    e • ∑ xIn ∈ range p.eInCurrent.length, p.eInCurrent.getD xIn 0 • v (p.groupIndex xOut xIn)]
  simp only [smul_sum, smul_smul]

/-- The row of a table, as a linear polynomial. -/
noncomputable def rowPolynomial (a : DensePolynomial F) (row : ℕ) : Polynomial F :=
  linear (a.sumcheckEvalPair row .lowToHigh)

theorem eval_zero_rows (a b : DensePolynomial F) (row : ℕ) : (rowPolynomial a row * rowPolynomial b row).eval 0 =
    (a.sumcheckEvalPair row .lowToHigh).1 * (b.sumcheckEvalPair row .lowToHigh).1 := by
  simp [rowPolynomial]

theorem coeff_two_rows (a b : DensePolynomial F) (row : ℕ) : (rowPolynomial a row * rowPolynomial b row).coeff 2 =
    ((a.sumcheckEvalPair row .lowToHigh).2 - (a.sumcheckEvalPair row .lowToHigh).1) *
      ((b.sumcheckEvalPair row .lowToHigh).2 - (b.sumcheckEvalPair row .lowToHigh).1) := by
  have product (l m : F × F) : linear l * linear m = .C (l.1 * m.1) +
      .C (l.1 * (m.2 - m.1) + (l.2 - l.1) * m.1) * .X + .C ((l.2 - l.1) * (m.2 - m.1)) * .X ^ 2 := by
    simp only [linear, map_mul, map_add, map_sub]
    ring
  rw [rowPolynomial, rowPolynomial, product, Polynomial.coeff_add, Polynomial.coeff_add, Polynomial.coeff_C_mul_X,
    Polynomial.coeff_C_mul_X_pow, Polynomial.coeff_C_succ]
  simp

theorem productEndpoints_sum {p : GruenSplitEqPolynomial F} (nonempty : p.eOutCurrent ≠ []) (a b : DensePolynomial F) :
    p.productEndpoints a b = ∑ xOut ∈ range p.eOutCurrent.length, ∑ xIn ∈ range p.eInCurrent.length,
      (p.eOutCurrent.getD xOut 0 * p.eInCurrent.getD xIn 0) •
        ((rowPolynomial a (p.groupIndex xOut xIn) * rowPolynomial b (p.groupIndex xOut xIn)).eval 0,
          (rowPolynomial a (p.groupIndex xOut xIn) * rowPolynomial b (p.groupIndex xOut xIn)).coeff 2) := by
  have folded := parFoldOutIn_eq nonempty fun row =>
    ((a.sumcheckEvalPair row .lowToHigh).1 * (b.sumcheckEvalPair row .lowToHigh).1,
      ((a.sumcheckEvalPair row .lowToHigh).2 - (a.sumcheckEvalPair row .lowToHigh).1) *
        ((b.sumcheckEvalPair row .lowToHigh).2 - (b.sumcheckEvalPair row .lowToHigh).1))
  simp only [eval_zero_rows, coeff_two_rows]
  exact folded

/-- The two endpoints are what the cubic constructor reads of the sum over the two tables. -/
theorem productEndpoints_eq {p : GruenSplitEqPolynomial F} (order : p.bindingOrder = .lowToHigh)
    (nonempty : p.eOutCurrent ≠ []) (a b : DensePolynomial F) : p.productEndpoints a b =
      ((innerPolynomial p fun row => rowPolynomial a row * rowPolynomial b row).eval 0,
        (innerPolynomial p fun row => rowPolynomial a row * rowPolynomial b row).coeff 2) := by
  have rows (xOut xIn : ℕ) : p.denseRow xOut xIn = p.groupIndex xOut xIn := by rw [denseRow, order]
  rw [productEndpoints_sum nonempty]
  refine Prod.ext ?_ ?_
  · rw [innerPolynomial, Polynomial.eval_finsetSum, Prod.fst_sum]
    refine sum_congr rfl fun xOut _ => ?_
    rw [Polynomial.eval_finsetSum, Prod.fst_sum]
    exact sum_congr rfl fun xIn _ => by rw [Prod.smul_fst, smul_eq_mul, Polynomial.eval_C_mul, rows]
  · rw [innerPolynomial, Polynomial.finsetSum_coeff, Prod.snd_sum]
    refine sum_congr rfl fun xOut _ => ?_
    rw [Polynomial.finsetSum_coeff, Prod.snd_sum]
    exact sum_congr rfl fun xIn _ => by rw [Prod.smul_snd, smul_eq_mul, Polynomial.coeff_C_mul, rows]

end GruenSplitEqPolynomial

end

end JoltWasm
