import JoltWasm.Kernels.BoundTables
import JoltWasm.Kernels.Folds
import JoltWasm.Kernels.Rounds

/-!
# Rounds of a summand without its equality weight

A kernel samples the rest of the summand under the two split tables.  The current linear factor restores the
equality weight at each sample, the claim is checked, and the samples are interpolated.
-/

namespace JoltWasm

open Lib Finset EqPolynomial

open UnivariatePoly (DistinctNodes integerPoints)

/-- How a round ends without a message: the errors `SumcheckError`, and the panics. -/
inductive RoundStop (F : Type) where
  | roundCheckFailed (round : ℕ) (expected actual : F)
  | panicked
  deriving DecidableEq

namespace RoundStop

variable {F α : Type}

/-- A call that stops is a panic of its caller. -/
def orPanic : Option α → Except (RoundStop F) α
  | some a => .ok a
  | none => .error .panicked

@[simp] theorem orPanic_some (a : α) : (orPanic (some a) : Except (RoundStop F) α) = .ok a := rfl

@[simp] theorem ok_bind {β : Type} (a : α) (f : α → Except (RoundStop F) β) : (Except.ok a >>= f) = f a := rfl

end RoundStop

variable {F : Type} [Field F]

/-- A loop that adds to every slot. -/
theorem foldl_slots_add {γ ι : Type} (slots : List ι) {step : List F → γ → List F} (l : List γ) (term : γ → ι → F)
    (steps : ∀ x ∈ l, ∀ acc : ι → F, step (slots.map acc) x = slots.map fun i => acc i + term x i) (acc : ι → F) :
    l.foldl step (slots.map acc) = slots.map fun i => acc i + (l.map fun x => term x i).sum := by
  induction l generalizing acc with
  | nil => simp
  | cons x l ih =>
      rw [List.foldl_cons, steps x List.mem_cons_self, ih fun x member => steps x (List.mem_cons_of_mem _ member)]
      simp only [List.map_cons, List.sum_cons, add_assoc]

/-- The samples of one row: the columns are stepped along from the value at zero. -/
def stepSamples (combine : List F → F) (eIn : F) (steps : List F) : List F → List F → List F
  | [], _ => []
  | value :: acc, evals => (value + eIn * combine evals) :: stepSamples combine eIn steps acc (List.zipWith (· + ·) evals steps)

namespace GruenSplitEqPolynomial

/-- The samples at `0, 1, ...` of what the columns are combined to, under the weights; the tables have an entry
for each row. -/
def sampledQEvals (p : GruenSplitEqPolynomial F) (points : ℕ) (combine : List F → F) (tables : List (DensePolynomial F)) :
    List F :=
  p.parFoldOutIn (List.replicate points 0)
    (fun acc row _ eIn =>
      let evals := tables.map fun table => table.evals.getD (2 * row) 0
      let steps := tables.map fun table => table.evals.getD (2 * row + 1) 0 - table.evals.getD (2 * row) 0
      stepSamples combine eIn steps acc evals)
    (fun _ eOut acc => acc.map (· * eOut)) mergeVecs

/-- The same samples from the pairs of the columns, which are read for each row; a read may stop. -/
def readQEvals (p : GruenSplitEqPolynomial F) (points : ℕ) (combine : List F → F) (read : ℕ → Option (List (F × F))) :
    Option (List F) :=
  p.parFoldOutIn (some (List.replicate points 0))
    (fun acc row _ eIn => do
      let pairs ← read row
      return stepSamples combine eIn (pairs.map fun pair => pair.2 - pair.1) (← acc) (pairs.map Prod.fst))
    (fun _ eOut acc => do return (← acc).map (· * eOut)) fun a b => do return mergeVecs (← a) (← b)

/-- Each sample times the linear factor, which is stepped along. -/
def scaleByLinear (lStep : F) : F → List F → List F
  | _, [] => []
  | lEval, q :: qEvals => q * lEval :: scaleByLinear lStep (lEval + lStep) qEvals

def checkedRoundPoly [DecidableEq F] (p : GruenSplitEqPolynomial F) (qEvals : List F) (previousClaim : F) (round : ℕ) :
    Except (RoundStop F) (UnivariatePoly F) := do
  let (lAt0, lAt1) ← RoundStop.orPanic p.currentLinearEvals
  let qEvals := scaleByLinear (lAt1 - lAt0) lAt0 qEvals
  let roundSum := (← RoundStop.orPanic qEvals[0]?) + (← RoundStop.orPanic qEvals[1]?)
  if roundSum ≠ previousClaim then .error (.roundCheckFailed round previousClaim roundSum)
  else RoundStop.orPanic (UnivariatePoly.fromEvals qEvals)

/-! ## The fold over the two tables -/

/-- The first block starts the sum; `Holds n` is about a merge of `n` blocks. -/
theorem foldl_blocks {α M Outer : Type} [AddCommMonoid M] {merge : Outer → Outer → Outer} {Holds : ℕ → Outer → M → Prop}
    (merges : ∀ {a b x y u v}, Holds a x u → Holds b y v → Holds (a + b) (merge x y) (u + v)) {l : List α}
    (nonempty : l ≠ []) {value : α → Outer} {v : α → M} (each : ∀ x ∈ l, Holds 1 (value x) (v x)) :
    ∃ total, l.foldl (fun acc x => some (match acc with
      | some acc => merge acc (value x)
      | none => value x)) none = some total ∧ Holds l.length total (l.map v).sum := by
  induction l using List.reverseRecOn with
  | nil => exact (nonempty rfl).elim
  | append_singleton l x ih =>
      have last := each x (by simp)
      rw [List.foldl_append, List.map_append, List.sum_append, List.map_singleton, List.sum_singleton, List.foldl_cons,
        List.foldl_nil, List.length_append, List.length_singleton]
      cases l with
      | nil => exact ⟨_, rfl, by rwa [List.map_nil, List.sum_nil, zero_add]⟩
      | cons first rest =>
          obtain ⟨total, folded, holds⟩ := ih (List.cons_ne_nil first rest)
            fun x member => each x (List.mem_append_left _ member)
          rw [folded]
          exact ⟨_, rfl, merges holds last⟩

/-- Blocks that hold their weighted rows make up the weighted sum of all rows. -/
theorem LowBound.parFoldOutIn_holds {Outer Inner M : Type} [AddCommGroup M] [Module F M] {p : GruenSplitEqPolynomial F}
    {w : List F} {m : ℕ} {scale : F} (bound : LowBound p w (m + 1) scale) (Holds : ℕ → Outer → M → Prop) (v : ℕ → M)
    {makeInner : Inner} {innerStep : Inner → ℕ → ℕ → F → Inner} {outerStep : ℕ → F → Inner → Outer}
    {merge : Outer → Outer → Outer}
    (block : ∀ outer inner, w.take m = outer ++ inner → ∀ xOut < 2 ^ outer.length, ∀ eOut,
      Holds 1 (outerStep xOut eOut ((List.range (2 ^ inner.length)).foldl
          (fun acc xIn => innerStep acc (xOut * 2 ^ inner.length + xIn) xIn (eqWeight inner xIn)) makeInner))
        (eOut • ∑ xIn ∈ range (2 ^ inner.length), eqWeight inner xIn • v (xOut * 2 ^ inner.length + xIn)))
    (merges : ∀ {a b x y u v}, Holds a x u → Holds b y v → Holds (a + b) (merge x y) (u + v)) :
    ∃ blocks ≤ 2 ^ m, Holds blocks (p.parFoldOutIn makeInner innerStep outerStep merge)
      (∑ j ∈ range (2 ^ m), eqWeight (w.take m) j • v j) := by
  obtain ⟨outer, inner, whole, out, inn⟩ : ∃ outer inner, w.take m = outer ++ inner ∧
      p.eOutCurrent = table 1 outer ∧ p.eInCurrent = table 1 inner := by
    refine ⟨(w.take m).take (w.length / 2), (w.take m).drop (w.length / 2), (List.take_append_drop _ _).symm, ?_, ?_⟩
    · rw [eOutCurrent, bound.outer, getLastD_evalsCached, Nat.add_sub_cancel]
    · rw [eInCurrent, bound.inner, getLastD_evalsCached, Nat.add_sub_cancel]
  have length : outer.length + inner.length = m := by
    have := bound.inside
    rw [← List.length_append, ← whole, List.length_take]
    omega
  have positions (point : List F) : (table 1 point).zipIdx =
      (List.range (2 ^ point.length)).map fun x => (eqWeight point x, x) := by
    rw [table, zipIdx_map_range]
    simp only [one_mul]
  have row (xOut : ℕ) {xIn : ℕ} (below : xIn < 2 ^ inner.length) : p.groupIndex xOut xIn = xOut * 2 ^ inner.length + xIn := by
    rw [groupIndex, inn, length_table, trailingZeros_pow, ← Nat.shiftLeft_add_eq_or_of_lt below, Nat.shiftLeft_eq]
  let rowSum (xOut : ℕ) : M := ∑ xIn ∈ range (2 ^ inner.length), eqWeight inner xIn • v (xOut * 2 ^ inner.length + xIn)
  have blocks : ∀ xOut ∈ List.range (2 ^ outer.length), Holds 1
      (outerStep xOut (eqWeight outer xOut) ((List.range (2 ^ inner.length)).foldl
        (fun acc xIn => innerStep acc (p.groupIndex xOut xIn) xIn (eqWeight inner xIn)) makeInner))
      (eqWeight outer xOut • rowSum xOut) := fun xOut member => by
    have indices : (List.range (2 ^ inner.length)).foldl
          (fun acc xIn => innerStep acc (p.groupIndex xOut xIn) xIn (eqWeight inner xIn)) makeInner =
        (List.range (2 ^ inner.length)).foldl
          (fun acc xIn => innerStep acc (xOut * 2 ^ inner.length + xIn) xIn (eqWeight inner xIn)) makeInner :=
      List.foldl_ext _ _ _ fun acc xIn below => by rw [row xOut (List.mem_range.mp below)]
    rw [indices]
    exact block outer inner whole xOut (List.mem_range.mp member) (eqWeight outer xOut)
  obtain ⟨total, folded, holds⟩ := foldl_blocks merges (by simp) blocks
  have sum : ((List.range (2 ^ outer.length)).map fun xOut => eqWeight outer xOut • rowSum xOut).sum =
      ∑ j ∈ range (2 ^ m), eqWeight (w.take m) j • v j := by
    rw [whole, ← length, pow_add, sum_range_mul]
    change ∑ xOut ∈ range (2 ^ outer.length), eqWeight outer xOut • rowSum xOut = _
    refine sum_congr rfl fun xOut _ => ?_
    rw [smul_sum]
    refine sum_congr rfl fun xIn member => ?_
    rw [smul_smul, eqWeight_append_add outer inner xOut (mem_range.mp member)]
  rw [sum, List.length_range] at holds
  refine ⟨2 ^ outer.length, Nat.pow_le_pow_right two_pos (length ▸ Nat.le_add_right _ _), ?_⟩
  rw [parFoldOutIn, out, inn, positions, positions]
  simp only [List.foldl_map]
  refine (congrArg (fun folded => Holds _ (Option.getD folded (outerStep 0 0 makeInner)) _) folded).mpr ?_
  exact holds

/-- Blocks that are what their weighted rows are embedded to. -/
theorem LowBound.parFoldOutIn_eq {Outer Inner M : Type} [AddCommGroup M] [Module F M] {p : GruenSplitEqPolynomial F} {w : List F}
    {m : ℕ} {scale : F} (bound : LowBound p w (m + 1) scale) (embed : M → Outer) (v : ℕ → M) {makeInner : Inner}
    {innerStep : Inner → ℕ → ℕ → F → Inner} {outerStep : ℕ → F → Inner → Outer} {merge : Outer → Outer → Outer}
    (block : ∀ outer inner, w.take m = outer ++ inner → ∀ xOut < 2 ^ outer.length, ∀ eOut,
      outerStep xOut eOut ((List.range (2 ^ inner.length)).foldl
          (fun acc xIn => innerStep acc (xOut * 2 ^ inner.length + xIn) xIn (eqWeight inner xIn)) makeInner) =
        embed (eOut • ∑ xIn ∈ range (2 ^ inner.length), eqWeight inner xIn • v (xOut * 2 ^ inner.length + xIn)))
    (merges : ∀ a b, merge (embed a) (embed b) = embed (a + b)) :
    p.parFoldOutIn makeInner innerStep outerStep merge =
      embed (∑ j ∈ range (2 ^ m), eqWeight (w.take m) j • v j) := by
  obtain ⟨-, -, holds⟩ := bound.parFoldOutIn_holds (fun _ value sum => value = embed sum) v block fun {_ _ _ _ _ _} first second => by
    rw [first, second]
    exact merges _ _
  exact holds

/-! ## The samples -/

theorem stepSamples_eq (combine : List F → F) (eIn : F) {ι : Type} (columns : List ι) (evals steps : ι → F) (count : ℕ)
    (acc : ℕ → F) : stepSamples combine eIn (columns.map steps) ((List.range count).map acc) (columns.map evals) =
      (List.range count).map fun t => acc t + eIn * combine (columns.map fun i => evals i + t * steps i) := by
  induction count generalizing acc evals with
  | zero => rfl
  | succ count ih =>
      have stepped : List.zipWith (· + ·) (columns.map evals) (columns.map steps) = columns.map fun i => evals i + steps i := by
        rw [List.zipWith_map, List.zipWith_self]
      rw [List.range_succ_eq_map, List.map_cons, List.map_map, stepSamples, stepped, ih, List.map_cons, List.map_map]
      simp only [Nat.cast_zero, zero_mul, add_zero]
      refine congrArg _ (List.map_congr_left fun t _ => ?_)
      simp only [Function.comp_apply, Nat.succ_eq_add_one, Nat.cast_add, Nat.cast_one]
      congr 4
      funext i
      ring

/-- Tables of multilinear functions give the weighted sums of what these are combined to. -/
theorem LowBound.sampledQEvals_eq {p : GruenSplitEqPolynomial F} {w : List F} {m : ℕ} {scale : F}
    (bound : LowBound p w (m + 1) scale) (points : ℕ) (combine : List F → F) {ι : Type} (columns : List ι)
    {f : ι → List F → F} (multilinear : ∀ i ∈ columns, Multilinear (f i)) (low : List F) :
    p.sampledQEvals points combine (columns.map fun i => tabulatedPolynomial (f i) (m + 1) low) =
      (List.range points).map fun t : ℕ => ∑ j ∈ range (2 ^ m), eqWeight (w.take m) j *
        combine (columns.map fun i => f i (bitPoint F m j ++ (t : F) :: low)) := by
  let v (j t : ℕ) : F := combine (columns.map fun i => f i (bitPoint F m j ++ (t : F) :: low))
  have start : List.replicate points (0 : F) = (List.range points).map fun _ => 0 := by rw [List.map_const', List.length_range]
  rw [sampledQEvals]
  refine (bound.parFoldOutIn_eq (fun s : ℕ → F => (List.range points).map s) v ?_ ?_).trans ?_
  · intro outer inner whole xOut below eOut
    have count : outer.length + inner.length = m := by
      have := bound.inside
      rw [← List.length_append, ← whole, List.length_take]
      omega
    rw [start, foldl_slots_add (List.range points) (List.range (2 ^ inner.length))
      fun xIn t => eqWeight inner xIn * v (xOut * 2 ^ inner.length + xIn) t]
    · rw [List.map_map]
      refine List.map_congr_left fun t _ => ?_
      rw [Function.comp_apply, zero_add, mul_comm, Pi.smul_apply, Finset.sum_apply]
      rfl
    · intro xIn member acc
      have inside : xOut * 2 ^ inner.length + xIn < 2 ^ m := count ▸ index_lt below (List.mem_range.mp member)
      rw [List.map_map, List.map_map]
      refine (stepSamples_eq combine (eqWeight inner xIn) columns _ _ points acc).trans (List.map_congr_left fun t _ => ?_)
      refine congrArg (fun evals => acc t + eqWeight inner xIn * combine evals) (List.map_congr_left fun i member => ?_)
      have row := eval_rowPolynomial (multilinear i member) inside low (t : F)
      rw [rowPolynomial, eval_linear, DensePolynomial.sumcheckEvalPair] at row
      rw [← row, mul_comm (t : F)]
      rfl
  · intro a b
    exact mergeVecs_map _ a b
  · refine List.map_congr_left fun t _ => ?_
    rw [Finset.sum_apply]
    exact sum_congr rfl fun j _ => rfl

/-- Rows that add their weighted samples make up the weighted sums of all rows; a row may stop. -/
theorem LowBound.rowSums_eq {p : GruenSplitEqPolynomial F} {w : List F} {m : ℕ} {scale : F} (bound : LowBound p w (m + 1) scale)
    (points : ℕ) (v : ℕ → ℕ → F) {innerStep : Option (List F) → ℕ → ℕ → F → Option (List F)}
    (steps : ∀ row < 2 ^ m, ∀ xIn eIn, ∀ acc : ℕ → F, innerStep (some ((List.range points).map acc)) row xIn eIn =
      some ((List.range points).map fun t => acc t + eIn * v row t)) :
    p.parFoldOutIn (some (List.replicate points 0)) innerStep (fun _ eOut acc => do return (← acc).map (· * eOut))
        (fun a b => do return mergeVecs (← a) (← b)) =
      some ((List.range points).map fun t => ∑ j ∈ range (2 ^ m), eqWeight (w.take m) j * v j t) := by
  have start : some (List.replicate points (0 : F)) = some ((List.range points).map fun _ => 0) := by
    rw [List.map_const', List.length_range]
  have walk (outer inner : List F) (count : outer.length + inner.length = m) (xOut : ℕ) (below : xOut < 2 ^ outer.length)
      (few : ℕ) (most : few ≤ 2 ^ inner.length) : (List.range few).foldl (fun acc xIn =>
          innerStep acc (xOut * 2 ^ inner.length + xIn) xIn (eqWeight inner xIn)) (some ((List.range points).map fun _ => 0)) =
        some ((List.range points).map fun t =>
          ∑ xIn ∈ range few, eqWeight inner xIn * v (xOut * 2 ^ inner.length + xIn) t) := by
    induction few with
    | zero => rfl
    | succ few ih =>
        have inside : xOut * 2 ^ inner.length + few < 2 ^ m := count ▸ index_lt below most
        rw [List.range_succ, List.foldl_append, ih (Nat.le_of_succ_le most), List.foldl_cons, List.foldl_nil,
          steps _ inside]
        simp only [sum_range_succ]
  refine (bound.parFoldOutIn_eq (fun s : ℕ → F => some ((List.range points).map s)) v ?_ ?_).trans ?_
  · intro outer inner whole xOut below eOut
    have count : outer.length + inner.length = m := by
      have := bound.inside
      rw [← List.length_append, ← whole, List.length_take]
      omega
    rw [start, walk outer inner count xOut below _ le_rfl, Option.bind_eq_bind, Option.bind_some, List.map_map, Option.pure_def]
    refine congrArg some (List.map_congr_left fun t _ => ?_)
    rw [Function.comp_apply, mul_comm, Pi.smul_apply, Finset.sum_apply]
    rfl
  · intro a b
    exact congrArg some (mergeVecs_map _ a b)
  · refine congrArg some (List.map_congr_left fun t _ => ?_)
    rw [Finset.sum_apply]
    exact sum_congr rfl fun j _ => rfl

/-- Reads that agree with multilinear functions give the weighted sums of what these are combined to. -/
theorem LowBound.readQEvals_eq {p : GruenSplitEqPolynomial F} {w : List F} {m : ℕ} {scale : F}
    (bound : LowBound p w (m + 1) scale) (points : ℕ) (combine : List F → F) {ι : Type} (columns : List ι)
    {f : ι → List F → F} (multilinear : ∀ i ∈ columns, Multilinear (f i)) (low : List F) {read : ℕ → Option (List (F × F))}
    (reads : ∀ row < 2 ^ m, read row = some (columns.map fun i =>
      (f i (bitPoint F m row ++ 0 :: low), f i (bitPoint F m row ++ 1 :: low)))) :
    p.readQEvals points combine read = some ((List.range points).map fun t : ℕ => ∑ j ∈ range (2 ^ m),
      eqWeight (w.take m) j * combine (columns.map fun i => f i (bitPoint F m j ++ (t : F) :: low))) := by
  refine bound.rowSums_eq points (fun j t => combine (columns.map fun i => f i (bitPoint F m j ++ (t : F) :: low))) ?_
  intro row inside _ eIn acc
  rw [reads row inside]
  simp only [Option.bind_eq_bind, Option.bind_some, Option.pure_def, List.map_map]
  refine congrArg some ((stepSamples_eq combine eIn columns _ _ points acc).trans (List.map_congr_left fun t _ => ?_))
  refine congrArg (fun evals => acc t + eIn * combine evals) (List.map_congr_left fun i member => ?_)
  rw [multilinear i member _ low (t : F)]
  simp only [Function.comp_apply]
  ring

/-! ## The message -/

theorem scaleByLinear_eq (lStep : F) (q : ℕ → F) (count : ℕ) (lEval : F) :
    scaleByLinear lStep lEval ((List.range count).map q) =
      (List.range count).map fun t => q t * (lEval + t * lStep) := by
  induction count generalizing q lEval with
  | zero => rfl
  | succ count ih =>
      rw [List.range_succ_eq_map, List.map_cons, List.map_map, scaleByLinear, ih, List.map_cons, List.map_map,
        Nat.cast_zero, zero_mul, add_zero]
      refine congrArg _ (List.map_congr_left fun t _ => ?_)
      simp only [Function.comp_apply, Nat.succ_eq_add_one, Nat.cast_add, Nat.cast_one]
      ring

end GruenSplitEqPolynomial

open GruenSplitEqPolynomial

/-- The equality polynomial times the rest. -/
def weighted (scale : F) (w : List F) (g : List F → F) (x : List F) : F := scale * equal w x * g x

theorem degreeIn_weighted {d : ℕ} {g : List F → F} (degree : DegreeIn d g) (scale : F) (w : List F) :
    DegreeIn (1 + d) (weighted scale w g) := ((multilinear_equal w).const_mul scale).degreeIn.mul degree

/-- The weight of a corner with the current coordinate and the bound ones. -/
theorem equal_corner {w low : List F} {m : ℕ} {c : F} (here : w[m]? = some c) (lengths : m + 1 + low.length = w.length)
    {j : ℕ} (inside : j < 2 ^ m) (t : F) : equal w (bitPoint F m j ++ t :: low) =
      eqWeight (w.take m) j * (pairEq c t * equal (w.drop (m + 1)) low) := by
  obtain ⟨below, rfl⟩ := List.getElem?_eq_some_iff.mp here
  have count : (w.take m).length = m := by
    rw [List.length_take]
    omega
  have split : equal (w.take m ++ w.drop m) (bitPoint F m j ++ t :: low) =
      equal (w.take m) (bitPoint F m j) * equal (w.drop m) (t :: low) :=
    equal_append (by rw [count, length_bitPoint]) (by rw [List.length_drop, List.length_cons]; omega)
  have atPoint : equal (w.take m) (bitPoint F m j) = eqWeight (w.take m) j := extension_bitPoint _ inside
  rw [List.take_append_drop] at split
  rw [split, atPoint, List.drop_eq_getElem_cons below, equal_cons (by rw [List.length_drop]; omega)]

/-- A round's sum, with the linear factor apart. -/
theorem restSum_weighted {w low : List F} {m : ℕ} {c : F} (here : w[m]? = some c) (lengths : m + 1 + low.length = w.length)
    (scale : F) (g : List F → F) (t : F) : restSum (weighted scale w g) m (t :: low) =
      (∑ j ∈ range (2 ^ m), eqWeight (w.take m) j * g (bitPoint F m j ++ t :: low)) *
        (scale * equal (w.drop (m + 1)) low * pairEq c t) := by
  rw [restSum, cubeSum_eq_sum, sum_mul]
  refine sum_congr rfl fun j member => ?_
  rw [weighted, equal_corner here lengths (mem_range.mp member)]
  ring

theorem currentLinearEvals_of_bound {p : GruenSplitEqPolynomial F} {w : List F} {m : ℕ} {c scale : F}
    (bound : LowBound p w (m + 1) scale) (here : w[m]? = some c) :
    p.currentLinearEvals = some (scale - scale * c, scale * c) := by
  rw [currentLinearEvals, bound.current, here, bound.scalar]
  rfl

/-- The samples of the rest give the message of the round, exactly from the sum that is left. -/
theorem checkedRoundPoly_eq [DecidableEq F] {d : ℕ} (distinct : DistinctNodes F (d + 2)) {p : GruenSplitEqPolynomial F}
    {w low : List F} {m : ℕ} {scale : F} (lengths : m + 1 + low.length = w.length)
    (bound : LowBound p w (m + 1) (scale * equal (w.drop (m + 1)) low)) {g : List F → F} (degree : DegreeIn d g)
    {qEvals : List F} (samples : qEvals = (List.range (d + 2)).map fun t : ℕ =>
      ∑ j ∈ range (2 ^ m), eqWeight (w.take m) j * g (bitPoint F m j ++ (t : F) :: low)) :
    ∃ message, IsRound (1 + d) (weighted scale w g) m low message.polynomial ∧ ∀ claim round,
      p.checkedRoundPoly qEvals claim round =
        if restSum (weighted scale w g) (m + 1) low = claim then .ok message
        else .error (.roundCheckFailed round claim (restSum (weighted scale w g) (m + 1) low)) := by
  have inside : m < w.length := by omega
  have here : w[m]? = some w[m] := List.getElem?_eq_getElem inside
  set s := scale * equal (w.drop (m + 1)) low with sIs
  have linear_ := currentLinearEvals_of_bound bound here
  have scaled : scaleByLinear (s * w[m] - (s - s * w[m])) (s - s * w[m]) qEvals =
      (List.range (d + 2)).map fun t : ℕ => restSum (weighted scale w g) m ((t : F) :: low) := by
    rw [samples, scaleByLinear_eq]
    refine List.map_congr_left fun t _ => ?_
    rw [restSum_weighted here lengths, ← sIs, pairEq]
    ring
  obtain ⟨q, round_⟩ := (degreeIn_weighted degree scale w).exists_isRound m low
  have some_ : (List.range (d + 2)).map (fun t : ℕ => restSum (weighted scale w g) m ((t : F) :: low)) ≠ [] := by simp
  obtain ⟨message, -, found, through⟩ := interpolation_family.integers some_ (by simpa using distinct)
  have nodes : integerPoints ((List.range (d + 2)).map fun t : ℕ => restSum (weighted scale w g) m ((t : F) :: low)) =
      (List.range (d + 2)).map fun t : ℕ => ((t : F), q.eval (t : F)) := by
    rw [integerPoints, zipIdx_map_range, List.map_map]
    exact List.map_congr_left fun t _ => by rw [Function.comp_apply, round_.value]
  rw [nodes] at through
  have small : q.degree < ((List.range (d + 2)).map fun t : ℕ => ((t : F), q.eval (t : F))).length := by
    rw [List.length_map, List.length_range]
    have below : 1 + d < d + 2 := by omega
    exact (Polynomial.degree_le_of_natDegree_le round_.degree).trans_lt (by exact_mod_cast below)
  have same := through.unique q small (by simp)
  refine ⟨message, same ▸ round_, fun claim round => ?_⟩
  have zero : ((List.range (d + 2)).map fun t : ℕ => restSum (weighted scale w g) m ((t : F) :: low))[0]? =
      some (restSum (weighted scale w g) m (0 :: low)) := by simp
  have one : ((List.range (d + 2)).map fun t : ℕ => restSum (weighted scale w g) m ((t : F) :: low))[1]? =
      some (restSum (weighted scale w g) m (1 :: low)) := by simp
  rw [checkedRoundPoly, linear_]
  simp only [RoundStop.orPanic_some, RoundStop.ok_bind, scaled, zero, one, found, restSum_succ, ite_not]

/-- The values of the rest at `1, ..., d - 1` and its leading coefficient give the message of the round from the
sum that is left, unless the weight at zero vanishes. -/
theorem gruenPolyFromEvals_isRound [DecidableEq F] {d : ℕ} (several : 2 ≤ d) (distinct : DistinctNodes F d)
    {p : GruenSplitEqPolynomial F} {w low : List F} {m : ℕ} {c scale : F} (here : w[m]? = some c)
    (lengths : m + 1 + low.length = w.length) (bound : LowBound p w (m + 1) (scale * equal (w.drop (m + 1)) low))
    (nonzero : scale * equal (w.drop (m + 1)) low * (1 - c) ≠ 0) {g : List F → F} {q : Polynomial F} (degree : q.natDegree ≤ d)
    (value : ∀ t, q.eval t = ∑ j ∈ range (2 ^ m), eqWeight (w.take m) j * g (bitPoint F m j ++ t :: low)) :
    ∃ message, p.gruenPolyFromEvals ((List.range (d - 1)).map (fun i => q.eval ((i + 1 : ℕ) : F)) ++ [q.coeff d])
        (restSum (weighted scale w g) (m + 1) low) = some message ∧
      IsRound (1 + d) (weighted scale w g) m low message.polynomial := by
  set s := scale * equal (w.drop (m + 1)) low with sIs
  have values (t : F) : (linear (s - s * c, s * c) * q).eval t = restSum (weighted scale w g) m (t :: low) := by
    rw [restSum_weighted here lengths, ← value, ← sIs, Polynomial.eval_mul, eval_linear, pairEq]
    ring
  obtain ⟨message, made, same⟩ := gruenPolyFromEvals_eq several distinct (currentLinearEvals_of_bound bound here)
    (by rwa [← mul_one_sub]) degree
  rw [values, values, ← restSum_succ] at made
  refine ⟨message, made, ?_, fun t => by rw [same, values]⟩
  rw [same, Nat.add_comm]
  exact natDegree_linear_mul _ degree

/-- There is no message where the weight at zero vanishes. -/
theorem gruenPolyFromEvals_vanishing [DecidableEq F] {p : GruenSplitEqPolynomial F} {w : List F} {m : ℕ} {c scale : F}
    (bound : LowBound p w (m + 1) scale) (here : w[m]? = some c) (vanishes : scale * (1 - c) = 0) (qEvals : List F) (claim : F) :
    p.gruenPolyFromEvals qEvals claim = none := by
  have stops : inverse (scale * (1 - c)) = none := if_pos vanishes
  rw [gruenPolyFromEvals, bound.current, here, bound.scalar]
  simp only [Option.bind_eq_bind, Option.bind_some, stops, Option.bind_none, Option.bind_fun_none]

end JoltWasm
