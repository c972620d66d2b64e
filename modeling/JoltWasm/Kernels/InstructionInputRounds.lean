import JoltWasm.Kernels.InstructionInput

/-!
# The rounds of the instruction-input kernel

The native samples of the first round are those of the tables, and every round is that of the sum over the cycles.
-/

namespace JoltWasm

open Lib Mont Finset

open SpartanProduct (Scalar fmaddProducts)

open GruenSplitEqPolynomial (LowBound lowBound_new)

open RamRaClaimReduction (RoundProgress)

namespace InstructionInput

/-! ## The columns -/

/-- The row of a cycle. -/
def rowAt (rows : List InstructionInputRow) (j : ℕ) : InstructionInputRow := rows.getD j default

theorem getElem?_rowAt {rows : List InstructionInputRow} {j : ℕ} (inside : j < rows.length) : rows[j]? = some (rowAt rows j) := by
  rw [rowAt, List.getD_eq_getElem _ _ inside, List.getElem?_eq_getElem inside]

section

variable (rows : List InstructionInputRow)

def isRs1 (j : ℕ) : Scalar := ((rowAt rows j).isRs1.toNat : ℕ)

def rs1Value (j : ℕ) : Scalar := ((rowAt rows j).rs1Value.val : ℕ)

def isRs2 (j : ℕ) : Scalar := ((rowAt rows j).isRs2.toNat : ℕ)

def rs2Value (j : ℕ) : Scalar := ((rowAt rows j).rs2Value.val : ℕ)

def isImm (j : ℕ) : Scalar := ((rowAt rows j).isImm.toNat : ℕ)

def imm (j : ℕ) : Scalar := ((rowAt rows j).imm.1 : ℤ)

/-- The columns, in the order of the tables. -/
def columns : List (ℕ → Scalar) := [isRs1 rows, rs1Value rows, isRs2 rows, rs2Value rows, isImm rows, imm rows]

/-- Both operands, combined. -/
def operand (gamma : Scalar) (x : List Scalar) : Scalar :=
  (extension (isRs2 rows) x * extension (rs2Value rows) x + extension (isImm rows) x * extension (imm rows) x) +
    gamma * (extension (isRs1 rows) x * extension (rs1Value rows) x)

theorem degreeIn_operand (gamma : Scalar) : DegreeIn 2 (operand rows gamma) := by
  have product (f g : ℕ → Scalar) : DegreeIn 2 fun x => extension f x * extension g x :=
    (multilinear_extension f).degreeIn.mul (multilinear_extension g).degreeIn
  exact ((product _ _).add (product _ _)).add ((product _ _).const_mul gamma)

variable {rows} (ark : ArkFr)

/-- The three routes into the field agree. -/
theorem fieldValues_eq (j : ℕ) : fieldValues ark (rowAt rows j) = (columns rows).map fun f => f j := by
  simp only [fieldValues, fieldOfBool_eq, fieldOfU64_eq, fieldOfI128_eq]
  rfl

/-! ## The samples of the first round -/

/-- A column along the last coordinate. -/
theorem extension_pair (f : ℕ → Scalar) {m y : ℕ} (inside : y < 2 ^ m) (t : Scalar) :
    extension f (bitPoint Scalar m y ++ [t]) = f (2 * y) + t * (f (2 * y + 1) - f (2 * y)) := by
  rw [extension_bitPoint_append f inside [t]]
  simp only [List.length_singleton, pow_one, sum_range_succ, sum_range_zero, eqWeight, Nat.mul_comm y 2]
  simp
  ring

/-- A sample of both sides is the combined operand there. -/
theorem Sample.operand_eq {t : ℕ} (sample : Sample t) (gamma : Scalar) {m y : ℕ} (inside : y < 2 ^ m) :
    ((nativeRight (rowAt rows (2 * y)) (rowAt rows (2 * y + 1)) t).toInt Limbs.toNat : Scalar) +
        gamma * ((nativeLeft (rowAt rows (2 * y)) (rowAt rows (2 * y + 1)) t).toInt Limbs.toNat : Scalar) =
      operand rows gamma (bitPoint Scalar m y ++ [(t : Scalar)]) := by
  rw [sample.toInt_right, sample.toInt_left, operand]
  simp only [extension_pair _ inside, isRs1, rs1Value, isRs2, rs2Value, isImm, imm, line]
  push_cast
  ring

/-- The accumulators after these calls. -/
def accumulated (right left : ℕ → List Op) : Accumulators :=
  ((List.range points).map fun t => (History.ofCalls (right t)).run (FrSignedProductAccumulator.accumulator ark),
    (List.range points).map fun t => (History.ofCalls (left t)).run (FrSignedProductAccumulator.accumulator ark))

/-- The call of a pair of rows on an accumulator of a side. -/
def sideCall (rows : List InstructionInputRow) (side : InstructionInputRow → InstructionInputRow → ℤ → S256)
    (entry : ℕ × Scalar) (t : ℕ) : Op :=
  .fmaddS256 (.ofValue entry.2) (side (rowAt rows (2 * entry.1)) (rowAt rows (2 * entry.1 + 1)) t)

theorem fmaddProducts_calls (e : Scalar) (calls : ℕ → List Op) (product : ℕ → S256) :
    fmaddProducts ark e ((List.range points).map fun t =>
        (History.ofCalls (calls t)).run (FrSignedProductAccumulator.accumulator ark)) ((List.range points).map product) =
      (List.range points).map fun t => (History.ofCalls (calls t ++ [.fmaddS256 (.ofValue e) (product t)])).run
        (FrSignedProductAccumulator.accumulator ark) := by
  rw [fmaddProducts, List.zipWith_map, List.zipWith_self]
  refine List.map_congr_left fun t _ => ?_
  rw [History.run_ofCalls_concat]
  rfl

theorem nativeStep_eq {entry : ℕ × Scalar} (inside : 2 * entry.1 + 1 < rows.length) (right left : ℕ → List Op) :
    nativeStep ark rows (accumulated ark right left) entry = some (accumulated ark
      (fun t => right t ++ [sideCall rows nativeRight entry t]) fun t => left t ++ [sideCall rows nativeLeft entry t]) := by
  obtain ⟨y, e⟩ := entry
  have before : 2 * y < rows.length := (Nat.lt_succ_self _).trans inside
  have sides := UnivariatePoly.mapM_some (l := List.range points)
    (f := fun t : ℕ => nativeSides (rowAt rows (2 * y)) (rowAt rows (2 * y + 1)) t)
    (g := fun t : ℕ => (nativeRight (rowAt rows (2 * y)) (rowAt rows (2 * y + 1)) t,
      nativeLeft (rowAt rows (2 * y)) (rowAt rows (2 * y + 1)) t))
    fun t member => by
      have below := List.mem_range.mp member
      rw [points] at below
      exact Sample.nativeSides_eq ⟨by omega, by omega⟩ _ _
  rw [nativeStep]
  simp only [getElem?_rowAt inside, getElem?_rowAt before, Option.bind_eq_bind,
    Option.bind_some, sides, List.map_map, Option.pure_def]
  refine congrArg some (Prod.ext ?_ ?_)
  · exact fmaddProducts_calls ark e right _
  · exact fmaddProducts_calls ark e left _

theorem foldlM_nativeStep {entries : List (ℕ × Scalar)} (inside : ∀ entry ∈ entries, 2 * entry.1 + 1 < rows.length)
    (right left : ℕ → List Op) :
    entries.foldlM (nativeStep ark rows) (accumulated ark right left) = some (accumulated ark
      (fun t => right t ++ entries.map (sideCall rows nativeRight · t))
      fun t => left t ++ entries.map (sideCall rows nativeLeft · t)) := by
  induction entries generalizing right left with
  | nil => simp
  | cons entry entries ih =>
      rw [List.foldlM_cons, nativeStep_eq ark (inside entry List.mem_cons_self), Option.bind_eq_bind, Option.bind_some,
        ih fun entry member => inside entry (List.mem_cons_of_mem _ member)]
      simp only [List.append_assoc, List.singleton_append, List.map_cons]

/-- The weighted sum of a side at a sample. -/
theorem result_sideCalls (side : InstructionInputRow → InstructionInputRow → ℤ → S256) (t : ℕ) {count : ℕ}
    (few : count ≤ 2 ^ 61) (row : ℕ → ℕ) (e : ℕ → Scalar) :
    FrSignedProductAccumulator.result ark ((History.ofCalls (((List.range count).map fun x => (row x, e x)).map
        (sideCall rows side · t))).run (FrSignedProductAccumulator.accumulator ark)) =
      some (∑ x ∈ range count, e x *
        ((side (rowAt rows (2 * row x)) (rowAt rows (2 * row x + 1)) t).toInt Limbs.toNat : Scalar)) := by
  rw [FrSignedProductAccumulator.result_ofCalls ark (by rwa [List.length_map, List.length_map, List.length_range]),
    List.map_map, List.map_map]
  refine congrArg (fun l : List Scalar => some l.sum) (List.map_congr_left fun x _ => ?_)
  rw [Function.comp_apply, Function.comp_apply, sideCall, Op.value, Fr.value_ofValue]

/-- A loop that stops where a step stops. -/
theorem foldl_bind {α β : Type} (step : β → α → Option β) (l : List α) (b : β) :
    l.foldl (fun acc x => acc.bind fun b => step b x) (some b) = l.foldlM step b := by
  induction l generalizing b with
  | nil => rfl
  | cons x l ih =>
      rw [List.foldl_cons, List.foldlM_cons, Option.bind_some]
      cases step b x with
      | none =>
          have stopped (l : List α) : l.foldl (fun acc x => acc.bind fun b => step b x) none = none := by
            induction l with
            | nil => rfl
            | cons x l ih => exact ih
          exact stopped l
      | some next => exact ih next

/-- The samples of the first round are the weighted sums of the combined operand. -/
theorem nativeQEvals_eq {gruen : GruenSplitEqPolynomial Scalar} {r : List Scalar} {m : ℕ} {scale : Scalar}
    (bound : LowBound gruen r (m + 1) scale) (all : rows.length = 2 ^ (m + 1)) (few : m ≤ 61) (gamma : Scalar) :
    nativeQEvals ark gruen gamma rows = some ((List.range points).map fun t : ℕ =>
      ∑ j ∈ range (2 ^ m), eqWeight (r.take m) j * operand rows gamma (bitPoint Scalar m j ++ [(t : Scalar)])) := by
  let v (j t : ℕ) : Scalar := operand rows gamma (bitPoint Scalar m j ++ [(t : Scalar)])
  rw [nativeQEvals]
  refine (bound.parFoldOutIn_eq (fun s : ℕ → Scalar => some ((List.range points).map s)) v ?_ ?_).trans ?_
  · intro outer inner whole xOut below eOut
    have count : outer.length + inner.length = m := by
      have := bound.inside
      rw [← List.length_append, ← whole, List.length_take]
      omega
    let entries := (List.range (2 ^ inner.length)).map fun xIn => (xOut * 2 ^ inner.length + xIn, eqWeight inner xIn)
    have row (xIn : ℕ) (inside : xIn < 2 ^ inner.length) : xOut * 2 ^ inner.length + xIn < 2 ^ m :=
      count ▸ GruenSplitEqPolynomial.index_lt below inside
    have walked := @foldlM_nativeStep rows ark entries (fun entry member => by
      obtain ⟨xIn, inside, rfl⟩ := List.mem_map.mp member
      have := row xIn (List.mem_range.mp inside)
      rw [all, pow_succ]
      omega) (fun _ => []) fun _ => []
    have start : (List.replicate points (FrSignedProductAccumulator.accumulator ark).default,
        List.replicate points (FrSignedProductAccumulator.accumulator ark).default) =
        accumulated ark (fun _ => []) fun _ => [] := rfl
    rw [start, foldl_bind]
    rw [List.foldlM_map] at walked
    rw [walked]
    simp only [Option.bind_eq_bind, Option.bind_some, accumulated, List.zip_map', List.mapM_map, List.nil_append]
    refine UnivariatePoly.mapM_some fun t member => ?_
    have below_ := List.mem_range.mp member
    rw [points] at below_
    have sample : Sample t := ⟨by omega, by omega⟩
    rw [Function.comp_apply]
    have short : 2 ^ inner.length ≤ 2 ^ 61 := Nat.pow_le_pow_right two_pos (by omega)
    simp only [entries, result_sideCalls ark _ t short, Option.bind_some, Option.pure_def, mul_sum, ← sum_add_distrib]
    refine congrArg some ?_
    rw [Pi.smul_apply, smul_eq_mul, Finset.sum_apply, mul_sum]
    refine sum_congr rfl fun xIn member => ?_
    have value : v (xOut * 2 ^ inner.length + xIn) t = _ := (sample.operand_eq gamma (row xIn (mem_range.mp member))).symm
    rw [Pi.smul_apply, smul_eq_mul, value]
    ring
  · intro a b
    exact congrArg some (mergeVecs_map _ a b)
  · refine congrArg some (List.map_congr_left fun t _ => ?_)
    rw [Finset.sum_apply]
    exact sum_congr rfl fun j _ => rfl

/-! ## The kernel in step with the coordinates -/

/-- The summand of the rounds. -/
def summand (r : List Scalar) (gamma : Scalar) (rows : List InstructionInputRow) : List Scalar → Scalar :=
  weighted 1 r (operand rows gamma)

/-- The tables of the columns, with the last coordinates bound. -/
def boundTables (rows : List InstructionInputRow) (m : ℕ) (low : List Scalar) : List (DensePolynomial Scalar) :=
  (columns rows).map fun f => tabulatedPolynomial (extension f) m low

structure Good (r : List Scalar) (γ : Scalar) (rows : RowVec 48 InstructionInputRow)
    (kernel : OptimizedInstructionInputKernel) (m : ℕ) (low : List Scalar) : Prop where
  free : m + low.length = r.length
  gamma : kernel.gamma = γ
  gruen : LowBound kernel.gruen r m (1 * equal (r.drop m) low)
  progress : kernel.progress = ⟨low.length, r.length⟩
  state : (low = [] ∧ kernel.state = .native rows) ∨ (low ≠ [] ∧ kernel.state = .dense (boundTables rows.rows m low))

variable {r : List Scalar} {γ : Scalar} {vec : RowVec 48 InstructionInputRow} {kernel : OptimizedInstructionInputKernel}
  {m : ℕ} {low : List Scalar}

theorem new_eq (positive : 0 < r.length) (all : vec.rows.length = 2 ^ r.length) (γ : Scalar) :
    ∃ kernel, OptimizedInstructionInputKernel.new r vec γ = .ok kernel ∧ Good r γ vec kernel r.length [] := by
  have few := vec.few (by decide) all
  have bound := lowBound_new (List.length_pos_iff.mp positive) (none : Option Scalar)
  refine ⟨⟨.new r.length, γ, .native vec, .new r .lowToHigh⟩, ?_, rfl, rfl, ?_, rfl, .inl ⟨rfl, rfl⟩⟩
  · rw [OptimizedInstructionInputKernel.new]
    simp only [if_pos (few.trans (by decide) : r.length < 64), KernelStop.orPanic_some, KernelStop.ok_bind, all, ne_eq,
      not_true_eq_false, if_false]
    rfl
  · rw [List.drop_length, equal_nil, mul_one]
    exact bound

/-- A table of the pairs of rows, bound at the first challenge. -/
theorem materialize_eq (all : rows.length = 2 ^ (m + 1)) (challenge : Scalar) {table : ℕ} (inside : table < numTables) :
    OptimizedInstructionInputKernel.materialize ark rows challenge table =
      some (tabulatedPolynomial (extension ((columns rows).getD table fun _ => 0)) m [challenge]) := by
  have width : table < (columns rows).length := inside
  have entry {j : ℕ} (here : j < rows.length) : (rows[j]?.bind fun row => (fieldValues ark row)[table]?) =
      some ((columns rows).getD table (fun _ => 0) j) := by
    rw [getElem?_rowAt here, Option.bind_some, fieldValues_eq, List.getElem?_map, List.getElem?_eq_getElem width,
      List.getD_eq_getElem _ _ width, Option.map_some]
  have values : (List.range (rows.length / 2)).mapM (fun y => (do
      let even ← (fieldValues ark (← rows[2 * y]?))[table]?
      let odd ← (fieldValues ark (← rows[2 * y + 1]?))[table]?
      return even + challenge * (odd - even) : Option Scalar)) =
      some (tabulated (extension ((columns rows).getD table fun _ => 0)) [] m [challenge]) := by
    rw [all, half_pow_succ, UnivariatePoly.mapM_some fun y member => ?_]
    · rfl
    · have below := List.mem_range.mp member
      have odd : 2 * y + 1 < rows.length := by rw [all, pow_succ]; omega
      have even : 2 * y < rows.length := (Nat.lt_succ_self _).trans odd
      simp only [Option.bind_eq_bind, ← Option.bind_assoc, entry even, entry odd]
      rw [Option.bind_some, Option.bind_some, List.nil_append, extension_pair _ below]
      rfl
  rw [OptimizedInstructionInputKernel.materialize, values, Option.bind_eq_bind, Option.bind_some, new_tabulated]

theorem bind_eq (all : vec.rows.length = 2 ^ r.length) (good : Good r γ vec kernel (m + 1) low) (challenge : Scalar) :
    ∃ next, OptimizedInstructionInputKernel.bind ark kernel challenge = .ok next ∧ Good r γ vec next m (challenge :: low) := by
  have free := good.free
  have here : r[m]? = some r[m] := List.getElem?_eq_getElem (by omega)
  obtain ⟨gruen, moved, bound⟩ := good.gruen.bind here challenge
  rw [scale_bind 1 challenge here free] at bound
  have tables : kernel.bindTables ark challenge = some (boundTables vec.rows m (challenge :: low)) := by
    rcases good.state with ⟨rfl, state⟩ | ⟨-, state⟩
    · rw [List.length_nil, Nat.add_zero] at free
      rw [OptimizedInstructionInputKernel.bindTables, state]
      simp only
      rw [UnivariatePoly.mapM_some fun table member => materialize_eq ark (by rw [all, free]) challenge
        (List.mem_range.mp member)]
      rfl
    · rw [OptimizedInstructionInputKernel.bindTables, state]
      simp only [boundTables, List.mapM_map]
      exact UnivariatePoly.mapM_some fun f _ => bindLowToHigh_tabulated (multilinear_extension f) m low challenge
  refine ⟨{ kernel with
    gruen := gruen
    state := .dense (boundTables vec.rows m (challenge :: low))
    progress := kernel.progress.advance }, ?_, by rw [List.length_cons]; omega, good.gamma, bound, ?_,
    .inr ⟨List.cons_ne_nil _ _, rfl⟩⟩
  · rw [OptimizedInstructionInputKernel.bind, moved, RoundStop.orPanic_some, RoundStop.ok_bind, tables]
    rfl
  · rw [good.progress]
    rfl

/-- The samples of a round, on either form of the columns. -/
theorem qEvals_eq (all : vec.rows.length = 2 ^ r.length) (good : Good r γ vec kernel (m + 1) low) :
    kernel.qEvals ark = some ((List.range points).map fun t : ℕ => ∑ j ∈ range (2 ^ m), eqWeight (r.take m) j *
        operand vec.rows γ (bitPoint Scalar m j ++ (t : Scalar) :: low)) := by
  have free := good.free
  rcases good.state with ⟨rfl, state⟩ | ⟨-, state⟩
  · rw [List.length_nil, Nat.add_zero] at free
    have few := vec.few (by decide) all
    rw [OptimizedInstructionInputKernel.qEvals, state]
    simp only
    rw [nativeQEvals_eq ark good.gruen (by rw [all, free]) (by omega), good.gamma]
  · rw [OptimizedInstructionInputKernel.qEvals, state]
    simp only
    rw [OptimizedInstructionInputKernel.denseQEvals, boundTables, good.gruen.sampledQEvals_eq points _ (columns vec.rows)
      (fun f _ => multilinear_extension f) low, good.gamma]
    rfl

/-- The message of a round, exactly from the sum that is left. -/
theorem message_eq (all : vec.rows.length = 2 ^ r.length) (good : Good r γ vec kernel (m + 1) low) :
    ∃ message, IsRound 3 (summand r γ vec.rows) m low message.polynomial ∧ ∀ claim round,
      OptimizedInstructionInputKernel.message ark kernel round claim =
        if restSum (summand r γ vec.rows) (m + 1) low = claim then .ok (message, kernel)
        else .error (.roundCheckFailed round claim (restSum (summand r γ vec.rows) (m + 1) low)) := by
  obtain ⟨message, isRound, returned⟩ := checkedRoundPoly_eq (SpartanProduct.distinctNodes (by decide)) good.free good.gruen
    (degreeIn_operand vec.rows γ) rfl
  refine ⟨message, isRound, fun claim round => ?_⟩
  rw [OptimizedInstructionInputKernel.message, qEvals_eq ark all good, RoundStop.orPanic_some, RoundStop.ok_bind, points,
    returned, ← summand]
  split_ifs <;> rfl

theorem serves (γ : Scalar) (all : vec.rows.length = 2 ^ r.length) :
    (OptimizedInstructionInputKernel.rounds ark).Serves 3 (summand r γ vec.rows) (Good r γ vec) fun _ _ => True where
  bind := fun good challenge => bind_eq ark all good challenge
  message := fun {state _ _} good _ round => by
    obtain ⟨message, isRound, returned⟩ := message_eq ark all good
    exact ⟨message, state, (returned _ round).trans (if_pos rfl), isRound, good⟩

theorem outputClaims_eq (positive : 0 < r.length) {point : List Scalar} (good : Good r γ vec kernel 0 point) :
    kernel.outputClaims ark = .ok ⟨extension (isRs1 vec.rows) point, extension (rs1Value vec.rows) point,
      extension (isRs2 vec.rows) point, extension (rs2Value vec.rows) point, extension (isImm vec.rows) point,
      extension (imm vec.rows) point⟩ := by
  have count := good.free
  rw [Nat.zero_add] at count
  rcases good.state with ⟨rfl, -⟩ | ⟨-, state⟩
  · rw [List.length_nil] at count
    omega
  · have complete : kernel.progress.requireComplete = .ok () := by
      rw [good.progress, RoundProgress.requireComplete, if_pos count]
    have final : kernel.finalValues ark = some ((columns vec.rows).map fun f => extension f point) := by
      rw [OptimizedInstructionInputKernel.finalValues, state]
      rfl
    rw [OptimizedInstructionInputKernel.outputClaims, complete, KernelStop.ok_bind, final]
    rfl

/-! ## Runs -/

/-- The dense tables of the rows before the first challenge. -/
def fieldTables (rows : List InstructionInputRow) : Option (List (DensePolynomial Scalar)) :=
  (List.range numTables).mapM fun table => do
    let values ← rows.mapM fun row => (fieldValues ark row)[table]?
    DensePolynomial.new values

theorem fieldTables_eq {n : ℕ} (all : rows.length = 2 ^ n) : fieldTables ark rows = some (boundTables rows n []) := by
  have table_ (table : ℕ) (inside : table < numTables) : (do
      let values ← rows.mapM fun row => (fieldValues ark row)[table]?
      DensePolynomial.new values) =
      some (tabulatedPolynomial (extension ((columns rows).getD table fun _ => 0)) n []) := by
    have width : table < (columns rows).length := inside
    have whole : rows = (List.range (2 ^ n)).map (rowAt rows) :=
      List.ext_getElem (by simp [all]) fun j here _ => by
        rw [List.getElem_map, List.getElem_range, rowAt, List.getD_eq_getElem _ _ here]
    have values : rows.mapM (fun row => (fieldValues ark row)[table]?) =
        some (listed n ((columns rows).getD table fun _ => 0)) := by
      conv_lhs => rw [whole]
      rw [List.mapM_map]
      refine UnivariatePoly.mapM_some fun j _ => ?_
      rw [Function.comp_apply, fieldValues_eq, List.getElem?_map, List.getElem?_eq_getElem width,
        List.getD_eq_getElem _ _ width, Option.map_some]
    rw [values, Option.bind_eq_bind, Option.bind_some, new_listed]
  rw [fieldTables, UnivariatePoly.mapM_some fun table member => table_ table (List.mem_range.mp member)]
  rfl

/-- The first samples, the messages and the claims of a whole run. -/
structure KernelCorrect (r : List Scalar) (γ : Scalar) (rows : RowVec 48 InstructionInputRow) (challenges : List Scalar)
    (kernel : OptimizedInstructionInputKernel) (messages : List (UnivariatePoly Scalar))
    (final : OptimizedInstructionInputKernel) : Prop where
  prepared : OptimizedInstructionInputKernel.new r rows γ = .ok kernel
  firstRound : ∃ tables, fieldTables ark rows.rows = some tables ∧
    nativeQEvals ark kernel.gruen γ rows.rows = some (kernel.denseQEvals tables)
  ran : (OptimizedInstructionInputKernel.rounds ark).proveRounds kernel none 0
    (∑ j ∈ range (2 ^ r.length), eqWeight r j * (isRs2 rows.rows j * rs2Value rows.rows j +
      isImm rows.rows j * imm rows.rows j + γ * (isRs1 rows.rows j * rs1Value rows.rows j))) challenges =
        .ok (messages, final)
  count : messages.length = r.length
  rounds : ∀ i message, messages[i]? = some message →
    IsRound 3 (summand r γ rows.rows) (r.length - 1 - i) (challenges.take i).reverse message.polynomial
  outputs : final.outputClaims ark = .ok ⟨extension (isRs1 rows.rows) challenges.reverse,
    extension (rs1Value rows.rows) challenges.reverse, extension (isRs2 rows.rows) challenges.reverse,
    extension (rs2Value rows.rows) challenges.reverse, extension (isImm rows.rows) challenges.reverse,
    extension (imm rows.rows) challenges.reverse⟩
  scalar : final.gruen.currentScalar = equal r challenges.reverse

/-- The claim: the weights over the cycles. -/
theorem sum_summand (r : List Scalar) (γ : Scalar) (rows : List InstructionInputRow) :
    restSum (summand r γ rows) r.length [] = ∑ j ∈ range (2 ^ r.length), eqWeight r j *
      (isRs2 rows j * rs2Value rows j + isImm rows j * imm rows j + γ * (isRs1 rows j * rs1Value rows j)) := by
  rw [restSum, cubeSum_eq_sum]
  refine sum_congr rfl fun j member => ?_
  have inside := mem_range.mp member
  rw [List.append_nil, summand, weighted, one_mul, equal, operand]
  simp only [extension_bitPoint _ inside]

theorem kernel_correct (positive : 0 < r.length) (all : vec.rows.length = 2 ^ r.length) (γ : Scalar) {challenges : List Scalar}
    (drawn : challenges.length = r.length) :
    ∃ kernel messages final, KernelCorrect ark r γ vec challenges kernel messages final := by
  obtain ⟨kernel, prepared, good⟩ := new_eq positive all γ
  obtain ⟨messages, final, ran, count, rounds, done⟩ := (serves ark γ all).run good drawn.le fun _ _ => trivial
  rw [drawn, Nat.sub_self] at done
  rw [sum_summand] at ran
  refine ⟨kernel, messages, final, prepared, ⟨_, fieldTables_eq ark all, ?_⟩, ran, count.trans drawn, rounds,
    outputClaims_eq ark positive done, ?_⟩
  · obtain ⟨m, size⟩ : ∃ m, r.length = m + 1 := Nat.exists_eq_succ_of_ne_zero positive.ne'
    have few := vec.few (by decide) all
    have gruen := good.gruen
    rw [size] at gruen all ⊢
    rw [nativeQEvals_eq ark gruen all (by omega), OptimizedInstructionInputKernel.denseQEvals, boundTables,
      gruen.sampledQEvals_eq points _ (columns vec.rows) (fun f _ => multilinear_extension f) [], good.gamma]
    rfl
  · rw [done.gruen.scalar, List.drop_zero, one_mul]

end

end InstructionInput

end JoltWasm
