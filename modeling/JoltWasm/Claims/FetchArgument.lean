import JoltWasm.Claims.AccessChunks
import JoltWasm.Claims.BytecodeBinding
import JoltWasm.Claims.FetchRelations

/-!
# The argument for the fetch

Over one-hot bytecode accesses the bytecode read-RAF check and the shift hold for every challenge exactly when each
cycle's flags, immediate, register selectors and lookup flags are those of the row at the place that its chunks join
to, its pc is this place, the first place is the entry, and each next pc is the pc of the next cycle.
-/

namespace JoltWasm.Stages

open Lib Finset VerifierStop

/-- The five stages have a first one. -/
local instance stages_neZero : NeZero 5 := ⟨by decide⟩

/-- What a cycle has of its row: the selectors by register and cycle, the rest by cycle. -/
structure FetchColumns (F : Type) where
  pc : ℕ → F
  nextPc : ℕ → F
  imm : ℕ → F
  flag : RowFlag → ℕ → F
  rs1Ra : ℕ → ℕ → F
  rs2Ra : ℕ → ℕ → F
  rdWa : ℕ → ℕ → F
  instructionRafFlag : ℕ → F
  lookupTableFlag : ℕ → ℕ → F

/-- The five stages' cycle points and the addresses of the two register openings. -/
structure BytecodeStagePoints (F : Type) where
  stageCyclePoints : Fin 5 → List F
  registerReadWritePoint : List F
  registerValEvaluationPoint : List F

structure BytecodeStagePoints.Fit {F : Type} (points : BytecodeStagePoints F) (logT : ℕ) : Prop where
  cycles : ∀ stage, (points.stageCyclePoints stage).length = logT
  readWrite : points.registerReadWritePoint.length = registerAddressBits
  valEvaluation : points.registerValEvaluationPoint.length = registerAddressBits

namespace FetchColumns

variable {F : Type} [Field F] (columns : FetchColumns F)

/-- The openings of the first five stages as evaluations. -/
def inputClaims (logT : ℕ) (points : BytecodeStagePoints F) : BytecodeReadRafAddressPhaseInputClaims F where
  outerImm := extension columns.imm (points.stageCyclePoints 0)
  outerFlag flag := extension (columns.flag flag) (points.stageCyclePoints 0)
  outerPc := extension columns.pc (points.stageCyclePoints 0)
  productBranch := extension (columns.flag .branch) (points.stageCyclePoints 1)
  instructionInputImm := extension columns.imm (points.stageCyclePoints 2)
  leftOperandIsRs1 := extension (columns.flag .leftIsRs1) (points.stageCyclePoints 2)
  rightOperandIsRs2 := extension (columns.flag .rightIsRs2) (points.stageCyclePoints 2)
  rightOperandIsImm := extension (columns.flag .rightIsImm) (points.stageCyclePoints 2)
  shiftPc := extension columns.pc (points.stageCyclePoints 2)
  rdWaReadWrite := extension (gridColumn logT columns.rdWa) (points.registerReadWritePoint ++ points.stageCyclePoints 3)
  rs1Ra := extension (gridColumn logT columns.rs1Ra) (points.registerReadWritePoint ++ points.stageCyclePoints 3)
  rs2Ra := extension (gridColumn logT columns.rs2Ra) (points.registerReadWritePoint ++ points.stageCyclePoints 3)
  rdWaValEvaluation := extension (gridColumn logT columns.rdWa) (points.registerValEvaluationPoint ++ points.stageCyclePoints 4)
  instructionRafFlag := extension columns.instructionRafFlag (points.stageCyclePoints 4)
  lookupTableFlags i := extension (columns.lookupTableFlag i) (points.stageCyclePoints 4)

/-- The relations of the fetch hold at every point and for every challenge. -/
structure Holds (committed : OneHotColumns F) (d : BytecodeReadRafDimensions) (bytecode : List BytecodeRow)
    (entryBytecodeIndex committedChunkBits : ℕ) : Prop where
  readRaf : ∀ (challenges : BytecodeReadRafAddressPhaseChallenges F) (points : BytecodeStagePoints F), points.Fit d.logT →
    ∃ intermediate : List F → F,
      SumsTo d.logK (BytecodeReadRafAddressPhase.summand intermediate)
        (BytecodeReadRafAddressPhase.inputExpression challenges (columns.inputClaims d.logT points)) ∧
      ∀ rAddress : List F, rAddress.length = d.logK →
        ∃ relation, BytecodeReadRaf.new d rAddress points.stageCyclePoints entryBytecodeIndex committedChunkBits
            (some ⟨bytecode, points.registerReadWritePoint, points.registerValEvaluationPoint, challenges.stageGammas⟩) =
              .ok relation ∧
          SumsTo d.logT (relation.summand challenges.gamma fun i => committed.polys d.logT (.bytecode i))
            (BytecodeReadRaf.inputExpression (intermediate rAddress))
  shift : ∀ tauLow : List F, tauLow.length = d.logT →
    SumsTo d.logT (SpartanShift.summand ⟨⟨d.logT⟩, tauLow⟩ (extension columns.pc))
      (SpartanShift.inputExpression (extension columns.nextPc tauLow))

/-- The columns are those of the rows at the places; a cycle without a place has nothing. -/
structure Fetched (logT : ℕ) (bytecode : List BytecodeRow) (entryBytecodeIndex : ℕ) (place : ℕ → Option ℕ) : Prop where
  imm : ∀ j < 2 ^ logT, columns.imm j = (place j).elim 0 fun k => ((rowAt bytecode k).immSigned : F)
  flag : ∀ flag, ∀ j < 2 ^ logT, columns.flag flag j = (place j).elim 0 fun k => if (rowAt bytecode k).flags.has flag then 1 else 0
  rd : ∀ r < laneRegisterCount, ∀ j < 2 ^ logT, columns.rdWa r j = (place j).elim 0 fun k => if (rowAt bytecode k).rd = r then 1 else 0
  rs1 : ∀ r < laneRegisterCount, ∀ j < 2 ^ logT, columns.rs1Ra r j = (place j).elim 0 fun k => if (rowAt bytecode k).rs1 = r then 1 else 0
  rs2 : ∀ r < laneRegisterCount, ∀ j < 2 ^ logT, columns.rs2Ra r j = (place j).elim 0 fun k => if (rowAt bytecode k).rs2 = r then 1 else 0
  rafFlag : ∀ j < 2 ^ logT, columns.instructionRafFlag j = (place j).elim 0 fun k => if (rowAt bytecode k).rafFlag then 1 else 0
  table : ∀ t < WasmTable.count, ∀ j < 2 ^ logT,
    columns.lookupTableFlag t j = (place j).elim 0 fun k => if bytecodeTableId (rowAt bytecode k) = some t then 1 else 0
  pc : ∀ j < 2 ^ logT, columns.pc j = (place j).elim 0 fun k => (k : F)
  entry : place 0 = some entryBytecodeIndex
  nextPc : ∀ j < 2 ^ logT, columns.nextPc j = if j + 1 < 2 ^ logT then columns.pc (j + 1) else 0

/-! ## The shift -/

variable {columns}

theorem shift_iff {logT : ℕ} :
    (∀ tauLow : List F, tauLow.length = logT →
      SumsTo logT (SpartanShift.summand ⟨⟨logT⟩, tauLow⟩ (extension columns.pc))
        (SpartanShift.inputExpression (extension columns.nextPc tauLow))) ↔
      ∀ j < 2 ^ logT, columns.nextPc j = if j + 1 < 2 ^ logT then columns.pc (j + 1) else 0 := by
  have sums {tauLow : List F} (length : tauLow.length = logT) :
      SumsTo logT (SpartanShift.summand ⟨⟨logT⟩, tauLow⟩ (extension columns.pc))
        (extension (fun j => if j + 1 < 2 ^ logT then columns.pc (j + 1) else 0) tauLow) := by
    have shifted : (cubeSum logT fun c => follows tauLow c * extension columns.pc c) =
        extension (fun j => if j + 1 < 2 ^ logT then columns.pc (j + 1) else 0) tauLow := by
      have entry : ∀ k ∈ range (2 ^ logT), follows tauLow (bitPoint F logT k) * extension columns.pc (bitPoint F logT k) =
          (if k = 0 then 0 else eqWeight tauLow (k - 1)) * columns.pc k := fun k member => by
        have inside := mem_range.mp member
        subst length
        rw [EqPlusOnePolynomial.follows_bitPoint tauLow inside, extension_bitPoint _ inside]
      obtain ⟨last, size⟩ := Nat.exists_eq_succ_of_ne_zero (Nat.two_pow_pos logT).ne'
      rw [cubeSum_eq_sum, sum_congr rfl entry, extension, length, size, sum_range_succ', sum_range_succ, if_pos rfl, zero_mul,
        if_neg (lt_irrefl _), zero_mul]
      refine congrArg (· + 0) (sum_congr rfl fun k member => ?_)
      have inside := mem_range.mp member
      rw [if_neg k.succ_ne_zero, Nat.add_sub_cancel, if_pos (by omega), mul_comm]
    rw [← shifted]
    refine sumsTo_reversed fun x drawn => except_bind_eq_ok.mpr ⟨follows tauLow x.reverse, ?_, rfl⟩
    rw [SpartanShift.deriveOpeningPoints, SpartanShift.eqPlusOneOuter,
      EqPlusOnePolynomial.evaluate_eq (by rw [List.length_reverse, drawn, length])]
  rw [← forall_extension_eq_iff]
  exact forall_congr' fun tauLow => forall_congr' fun length => (sums length).iff _

/-! ## What the stages bind -/

/-- A column of the cycles and the value of a row that it is bound to. -/
structure Binding (F : Type) where
  column : ℕ → F
  value : BytecodeRow → F

variable (columns) in
/-- The columns that each stage binds, in the order of their powers. -/
def bindings (points : BytecodeStagePoints F) : Fin 5 → List (Binding F)
  | 0 => ⟨columns.imm, fun row => row.immSigned⟩ ::
      RowFlag.all.map fun flag => ⟨columns.flag flag, fun row => if row.flags.has flag then 1 else 0⟩
  | 1 => [⟨columns.flag .branch, fun row => if row.flags.has .branch then 1 else 0⟩]
  | 2 => [⟨columns.imm, fun row => row.immSigned⟩,
      ⟨columns.flag .leftIsRs1, fun row => if row.flags.has .leftIsRs1 then 1 else 0⟩,
      ⟨columns.flag .rightIsRs2, fun row => if row.flags.has .rightIsRs2 then 1 else 0⟩,
      ⟨columns.flag .rightIsImm, fun row => if row.flags.has .rightIsImm then 1 else 0⟩]
  | 3 => [⟨fun j => extension (fun r => columns.rdWa r j) points.registerReadWritePoint,
        fun row => registerEq row.rd (eqEvals points.registerReadWritePoint)⟩,
      ⟨fun j => extension (fun r => columns.rs1Ra r j) points.registerReadWritePoint,
        fun row => registerEq row.rs1 (eqEvals points.registerReadWritePoint)⟩,
      ⟨fun j => extension (fun r => columns.rs2Ra r j) points.registerReadWritePoint,
        fun row => registerEq row.rs2 (eqEvals points.registerReadWritePoint)⟩]
  | 4 => ⟨fun j => extension (fun r => columns.rdWa r j) points.registerValEvaluationPoint,
        fun row => registerEq row.rd (eqEvals points.registerValEvaluationPoint)⟩ ::
      ⟨columns.instructionRafFlag, fun row => if row.rafFlag then 1 else 0⟩ ::
      (List.range WasmTable.count).map fun t =>
        ⟨columns.lookupTableFlag t, fun row => if bytecodeTableId row = some t then 1 else 0⟩

/-- The scalar of a stage. -/
def stageGamma (challenges : BytecodeReadRafAddressPhaseChallenges F) : Fin 5 → F
  | 0 => challenges.stage1Gamma
  | 1 => challenges.stage2Gamma
  | 2 => challenges.stage3Gamma
  | 3 => challenges.stage4Gamma
  | 4 => challenges.stage5Gamma

omit [Field F] in
theorem stageGamma_gamma (challenges : BytecodeReadRafAddressPhaseChallenges F) (gamma : F) (stage : Fin 5) :
    stageGamma { challenges with gamma := gamma } stage = stageGamma challenges stage := by
  match stage with
  | 0 | 1 | 2 | 3 | 4 => rfl

/-- The claim of a stage. -/
def stageClaim (challenges : BytecodeReadRafAddressPhaseChallenges F) (inputs : BytecodeReadRafAddressPhaseInputClaims F) :
    Fin 5 → F
  | 0 => BytecodeReadRafAddressPhase.stage1Claim challenges inputs
  | 1 => BytecodeReadRafAddressPhase.stage2Claim inputs
  | 2 => BytecodeReadRafAddressPhase.stage3Claim challenges inputs
  | 3 => BytecodeReadRafAddressPhase.stage4Claim challenges inputs
  | 4 => BytecodeReadRafAddressPhase.stage5Claim challenges inputs

/-- A loop that adds the entries with rising powers. -/
theorem foldl_zipIdx_powers {α : Type} (γ : F) (f : α → F) (items : List α) (start : F) (n : ℕ) :
    (items.zipIdx n).foldl (fun sum (item, i) => sum + γ ^ (i + 1) * f item) start =
      start + γ ^ (n + 1) * powerSum γ (items.map f) := by
  induction items generalizing start n with
  | nil => simp [powerSum]
  | cons item items ih =>
      rw [List.zipIdx_cons, List.foldl_cons, ih, List.map_cons, powerSum]
      ring

theorem foldl_range_powers (γ : F) (f : ℕ → F) (start : F) (n : ℕ) :
    (List.range n).foldl (fun sum i => sum + γ ^ (i + 2) * f i) start = start + γ ^ 2 * powerSum γ ((List.range n).map f) := by
  rw [powerSum_eq, List.length_map, List.length_range, mul_sum]
  induction n with
  | zero => simp
  | succ n ih =>
      have same : ∑ i ∈ range n, γ ^ 2 * (γ ^ i * ((List.range (n + 1)).map f).getD i 0) =
          ∑ i ∈ range n, γ ^ 2 * (γ ^ i * ((List.range n).map f).getD i 0) := by
        refine sum_congr rfl fun i member => ?_
        have inside := mem_range.mp member
        rw [List.getD_eq_getElem _ _ (by simp; omega), List.getD_eq_getElem _ _ (by simpa using inside)]
        simp
      rw [List.range_succ, List.foldl_append, ih, ← List.range_succ, sum_range_succ, same,
        List.getD_eq_getElem _ _ (by simp)]
      simp only [List.foldl_cons, List.foldl_nil, List.getElem_map, List.getElem_range]
      ring

theorem stageClaim_eq (challenges : BytecodeReadRafAddressPhaseChallenges F) {points : BytecodeStagePoints F} {logT : ℕ}
    (fit : points.Fit logT) (stage : Fin 5) : stageClaim challenges (columns.inputClaims logT points) stage =
      powerSum (stageGamma challenges stage)
        ((columns.bindings points stage).map fun binding => extension binding.column (points.stageCyclePoints stage)) := by
  match stage with
  | 0 =>
      refine (foldl_zipIdx_powers _ (columns.inputClaims logT points).outerFlag _ _ 0).trans ?_
      rw [bindings, List.map_cons, List.map_map, powerSum, zero_add, pow_one]
      rfl
  | 1 =>
      rw [bindings, List.map_singleton, powerSum, powerSum, mul_zero, add_zero]
      rfl
  | 2 =>
      simp only [bindings, List.map_cons, List.map_nil, powerSum, stageClaim, BytecodeReadRafAddressPhase.stage3Claim, inputClaims,
        stageGamma]
      ring
  | 3 =>
      simp only [bindings, List.map_cons, List.map_nil, powerSum, stageClaim, BytecodeReadRafAddressPhase.stage4Claim, inputClaims,
        stageGamma, extension_gridColumn_swap _ _ (fit.cycles 3)]
      ring
  | 4 =>
      refine (foldl_range_powers _ (columns.inputClaims logT points).lookupTableFlags _ _).trans ?_
      simp only [bindings, List.map_cons, List.map_map, powerSum, inputClaims, stageGamma,
        extension_gridColumn_swap _ _ (fit.cycles 4)]
      have tables : (List.range WasmTable.count).map (fun i => extension (columns.lookupTableFlag i) (points.stageCyclePoints 4)) =
          (List.range WasmTable.count).map ((fun binding : Binding F => extension binding.column (points.stageCyclePoints 4)) ∘
            fun t => ⟨columns.lookupTableFlag t, fun row => if bytecodeTableId row = some t then 1 else 0⟩) := rfl
      rw [← tables]
      ring

/-- Conditional powers are powers of the conditions. -/
theorem sum_zipIdx_powers {α : Type} (γ : F) (p : α → Bool) (weights : ℕ → F) (items : List α) (n : ℕ)
    (powers : ∀ i < items.length, weights (n + i) = γ ^ (n + i + 1)) :
    ((items.zipIdx n).map fun entry => if p entry.1 then weights entry.2 else 0).sum =
      γ ^ (n + 1) * powerSum γ (items.map fun item => if p item then 1 else 0) := by
  induction items generalizing n with
  | nil => simp [powerSum]
  | cons item items ih =>
      have first : weights n = γ ^ (n + 1) := powers 0 (Nat.zero_lt_succ _)
      rw [List.zipIdx_cons, List.map_cons, List.sum_cons, ih (n + 1) (fun i inside => ?_), List.map_cons, powerSum]
      · simp only [first]
        split_ifs <;> ring
      · have next := powers (i + 1) (Nat.succ_lt_succ inside)
        have place : n + (i + 1) = n + 1 + i := by omega
        rwa [place] at next

theorem powerSum_single (γ : F) {n t : ℕ} (inside : t < n) :
    powerSum γ ((List.range n).map fun i => if t = i then 1 else 0) = γ ^ t := by
  rw [powerSum_eq, List.length_map, List.length_range]
  refine (sum_eq_single_of_mem t (mem_range.mpr inside) fun i member other => ?_).trans ?_
  · rw [List.getD_eq_getElem _ _ (by simpa using member), List.getElem_map, List.getElem_range, if_neg (Ne.symm other), mul_zero]
  · rw [List.getD_eq_getElem _ _ (by simpa using inside), List.getElem_map, List.getElem_range, if_pos rfl, mul_one]

theorem powerSum_zeros (γ : F) (n : ℕ) : powerSum γ ((List.range n).map fun _ => 0) = 0 := by
  rw [powerSum_eq]
  refine sum_eq_zero fun i member => ?_
  rw [List.getD_eq_getElem _ _ (mem_range.mp member), List.getElem_map, mul_zero]

/-- The value of a row at a stage, by what the stage binds. -/
theorem readRafRowValues_eq (challenges : BytecodeReadRafAddressPhaseChallenges F) (points : BytecodeStagePoints F) (row : BytecodeRow)
    (stage : Fin 5) :
    readRafRowValues row (eqEvals points.registerReadWritePoint) (eqEvals points.registerValEvaluationPoint) challenges.stageGammas
        stage =
      powerSum (stageGamma challenges stage) ((columns.bindings points stage).map fun binding => binding.value row) := by
  have power {count i : ℕ} (gamma : F) (small : i < count) : (gammaPowers count gamma).getD i 0 = gamma ^ i :=
    getD_gammaPowers count gamma small
  match stage with
  | 0 =>
      rw [readRafRowValues_stage1, bindings, List.map_cons, List.map_map, powerSum]
      refine congrArg (_ + ·) ((sum_zipIdx_powers challenges.stage1Gamma row.flags.has
        (fun i => challenges.stageGammas.stage1.getD (i + 1) 0) RowFlag.all 0 fun i inside => ?_).trans ?_)
      · exact power _ (Nat.succ_lt_succ ((Nat.zero_add i).symm ▸ inside))
      · rw [zero_add, pow_one]
        rfl
  | 1 =>
      have one : challenges.stageGammas.stage2.getD 0 0 = 1 := (power _ (by decide)).trans (pow_zero _)
      rw [readRafRowValues_stage2, one, bindings, List.map_singleton, powerSum, powerSum, mul_zero, add_zero]
  | 2 =>
      have powers {i : ℕ} (small : i < 4) : challenges.stageGammas.stage3.getD i 0 = challenges.stage3Gamma ^ i := power _ small
      rw [readRafRowValues_stage3, powers (by decide), powers (by decide), powers (by decide)]
      simp only [bindings, List.map_cons, List.map_nil, powerSum, stageGamma]
      split_ifs <;> ring
  | 3 =>
      have powers {i : ℕ} (small : i < 3) : challenges.stageGammas.stage4.getD i 0 = challenges.stage4Gamma ^ i := power _ small
      have values : readRafRowValues row (eqEvals points.registerReadWritePoint) (eqEvals points.registerValEvaluationPoint)
          challenges.stageGammas 3 = registerEq row.rd (eqEvals points.registerReadWritePoint) * challenges.stageGammas.stage4.getD 0 0 +
            registerEq row.rs1 (eqEvals points.registerReadWritePoint) * challenges.stageGammas.stage4.getD 1 0 +
            registerEq row.rs2 (eqEvals points.registerReadWritePoint) * challenges.stageGammas.stage4.getD 2 0 := rfl
      rw [values, powers (by decide), powers (by decide), powers (by decide)]
      simp only [bindings, List.map_cons, List.map_nil, powerSum, stageGamma]
      ring
  | 4 =>
      have powers {i : ℕ} (small : i < 26) : challenges.stageGammas.stage5.getD i 0 = challenges.stage5Gamma ^ i := power _ small
      rw [readRafRowValues_stage5, powers (by decide)]
      simp only [bindings, List.map_cons, List.map_map, powerSum, stageGamma]
      have tables : powerSum challenges.stage5Gamma ((List.range WasmTable.count).map
          ((fun binding : Binding F => binding.value row) ∘ fun t =>
            ⟨columns.lookupTableFlag t, fun row => if bytecodeTableId row = some t then 1 else 0⟩)) =
          row.tableOp.elim 0 fun op => challenges.stage5Gamma ^ (WasmTable.of op).index := by
        cases is_ : row.tableOp with
        | none =>
            refine Eq.trans (congrArg _ (List.map_congr_left fun t _ => ?_)) (powerSum_zeros _ _)
            simp only [Function.comp_apply, bytecodeTableId, is_, Option.map_none, reduceCtorEq, if_false]
        | some op =>
            refine Eq.trans (congrArg _ (List.map_congr_left fun t _ => ?_)) (powerSum_single _ (WasmTable.index_lt (WasmTable.of op)))
            simp only [Function.comp_apply, bytecodeTableId, is_, Option.map_some, Option.some_inj]
      rw [tables]
      cases row.tableOp with
      | none =>
          simp only [Option.elim_none]
          split_ifs <;> ring
      | some op =>
          have small : 2 + (WasmTable.of op).index < 26 := Nat.add_lt_add_left (WasmTable.index_lt _) 2
          simp only [Option.elim_some]
          rw [powers small]
          split_ifs <;> ring

/-! ## The batch -/

section

variable {committed : OneHotColumns F} {d : BytecodeReadRafDimensions} {bytecode : List BytecodeRow} {entryBytecodeIndex bits : ℕ}
  (challenges : BytecodeReadRafAddressPhaseChallenges F) (points : BytecodeStagePoints F)

theorem powerSum_stages (γ : F) (f : Fin 5 → F) (x y z : F) : powerSum γ ((List.finRange 5).map f ++ [x, y, z]) =
    ∑ stage : Fin 5, γ ^ stage.val * f stage + γ ^ 5 * x + γ ^ (5 + 1) * y + γ ^ (5 + 2) * z := by
  rw [Fin.sum_univ_five]
  change f 0 + γ * (f 1 + γ * (f 2 + γ * (f 3 + γ * (f 4 + γ * (x + γ * (y + γ * (z + γ * 0))))))) =
    γ ^ 0 * f 0 + γ ^ 1 * f 1 + γ ^ 2 * f 2 + γ ^ 3 * f 3 + γ ^ 4 * f 4 + _ + _ + _
  ring

/-- The claims that the powers of the batch's scalar combine. -/
def batchClaims (columns : FetchColumns F) : List F :=
  (List.finRange 5).map (fun stage => powerSum (stageGamma challenges stage)
      ((columns.bindings points stage).map fun binding => extension binding.column (points.stageCyclePoints stage))) ++
    [extension columns.pc (points.stageCyclePoints 0), extension columns.pc (points.stageCyclePoints 2), 1]

theorem inputExpression_eq (columns : FetchColumns F) (fit : points.Fit d.logT) :
    BytecodeReadRafAddressPhase.inputExpression challenges (columns.inputClaims d.logT points) =
      powerSum challenges.gamma (batchClaims challenges points columns) := by
  rw [batchClaims, powerSum_stages, Fin.sum_univ_five]
  simp only [← stageClaim_eq challenges fit]
  change challenges.gamma ^ (5 + 2) + stageClaim challenges _ 0 + challenges.gamma * stageClaim challenges _ 1 +
    challenges.gamma ^ 2 * stageClaim challenges _ 2 + challenges.gamma ^ 3 * stageClaim challenges _ 3 +
    challenges.gamma ^ 4 * stageClaim challenges _ 4 + challenges.gamma ^ 5 * _ + challenges.gamma ^ (5 + 1) * _ =
    challenges.gamma ^ 0 * _ + challenges.gamma ^ 1 * _ + challenges.gamma ^ 2 * _ + challenges.gamma ^ 3 * _ +
      challenges.gamma ^ 4 * _ + _ + _ + _
  simp only [inputClaims]
  ring

/-- The public factors that the powers of the batch's scalar combine, at an address and a cycle. -/
def batchFactors (bytecode : List BytecodeRow) (entryBytecodeIndex : ℕ) (address cycle : List F) : List F :=
  (List.finRange 5).map (fun stage => JoltWasm.foldStageValues address
      (readRafStageValues bytecode points.registerReadWritePoint points.registerValEvaluationPoint challenges.stageGammas) stage *
        eqMle (points.stageCyclePoints stage) cycle) ++
    [identityEvaluate address * eqMle (points.stageCyclePoints 0) cycle,
      identityEvaluate address * eqMle (points.stageCyclePoints 2) cycle,
      (readRafRafEntryPublics address cycle 0 0 entryBytecodeIndex).2.2]

variable {challenges points}

/-- The cycle phase at an address sums to the factors times the products of the chunks. -/
theorem readRaf_sumsTo (positive : 0 < bits) (some_ : 0 < d.logK) (narrow : d.logK < 64) (rows : bytecode.length = 2 ^ d.logK)
    (chunked : d.committedRaPolys = chunkCount d.logK bits) {rAddress : List F}
    (width : rAddress.length = d.logK) :
    ∃ relation, BytecodeReadRaf.new d rAddress points.stageCyclePoints entryBytecodeIndex bits
        (some ⟨bytecode, points.registerReadWritePoint, points.registerValEvaluationPoint, challenges.stageGammas⟩) = .ok relation ∧
      SumsTo d.logT (relation.summand challenges.gamma fun i => committed.polys d.logT (.bytecode i))
        (cubeSum d.logT fun c => powerSum challenges.gamma (batchFactors challenges points bytecode entryBytecodeIndex rAddress c) *
          ∏ i ∈ range (chunkCount d.logK bits), committed.polys d.logT (.bytecode i) (chunkPoint rAddress bits i ++ c)) := by
  have fold : BytecodeReadRaf.foldStageValues rAddress ⟨bytecode, points.registerReadWritePoint, points.registerValEvaluationPoint,
      challenges.stageGammas⟩ = .ok (JoltWasm.foldStageValues rAddress (readRafStageValues bytecode points.registerReadWritePoint
        points.registerValEvaluationPoint challenges.stageGammas)) := by
    rw [BytecodeReadRaf.foldStageValues, if_neg (by omega)]
    exact if_neg (not_not.mpr (by rw [width, rows]))
  refine ⟨⟨d, rAddress, points.stageCyclePoints, entryBytecodeIndex, bits, some _⟩,
    except_bind_eq_ok.mpr ⟨some _, except_bind_eq_ok.mpr ⟨_, fold, rfl⟩, rfl⟩, sumsTo_reversed fun x drawn => ?_⟩
  have cycle : x.reverse.length = d.logT := (List.length_reverse).trans drawn
  have count : (rAddress.length + bits - 1) / bits = chunkCount d.logK bits := by rw [width, chunkCount]
  have cut : chunkOpeningPoints rAddress bits x.reverse =
      (List.range (chunkCount d.logK bits)).map fun i => chunkPoint rAddress bits i ++ x.reverse := by
    rw [chunkOpeningPoints, committedAddressChunks_eq rAddress positive, List.map_map, count]
    rfl
  have first : (chunkOpeningPoints rAddress bits x.reverse).head? = some (chunkPoint rAddress bits 0 ++ x.reverse) := by
    obtain ⟨more, succ⟩ : ∃ more, chunkCount d.logK bits = more + 1 :=
      ⟨_, (Nat.succ_pred_eq_of_pos (Nat.div_pos (by omega) positive)).symm⟩
    rw [cut, succ, List.range_succ_eq_map]
    rfl
  have suffix : BytecodeReadRaf.rCycleSuffix d.logT (chunkPoint rAddress bits 0 ++ x.reverse) = .ok x.reverse := by
    rw [BytecodeReadRaf.rCycleSuffix, if_neg (by rw [List.length_append, cycle]; omega), List.length_append, cycle,
      Nat.add_sub_cancel, List.drop_left]
  have openings : (chunkOpeningPoints rAddress bits x.reverse).zipIdx.map
      (fun entry => committed.polys d.logT (.bytecode entry.2) entry.1) =
      (List.range (chunkCount d.logK bits)).map fun i => committed.polys d.logT (.bytecode i) (chunkPoint rAddress bits i ++ x.reverse) := by
    refine List.ext_getElem (by simp [cut]) fun i _ _ => ?_
    simp [cut]
  rw [BytecodeReadRaf.summand_openings]
  unfold BytecodeReadRaf.deriveOpeningPoints BytecodeReadRaf.expectedOutput
  simp only [first, openings]
  refine except_bind_eq_ok.mpr ⟨_, suffix, ?_⟩
  rw [BytecodeReadRaf.expectedOutputFromPublics, if_neg (by rw [List.length_map, List.length_range, not_not, chunked])]
  refine congrArg Except.ok ?_
  rw [readRafCycleOutput, ← List.prod_eq_foldl]
  refine congrArg₂ (· * ·) ?_ rfl
  rw [foldl_stages, zero_add, batchFactors, powerSum_stages]
  rfl

end

/-! ## The sum over all addresses and cycles -/

section

variable {bytecode : List BytecodeRow} {entryBytecodeIndex logK logT : ℕ}
  (challenges : BytecodeReadRafAddressPhaseChallenges F) (points : BytecodeStagePoints F)

/-- The value of the row at a place that a stage reads. -/
def stageValue (bytecode : List BytecodeRow) (stage : Fin 5) (k : ℕ) : F :=
  readRafRowValues (rowAt bytecode k) (eqEvals points.registerReadWritePoint) (eqEvals points.registerValEvaluationPoint)
    challenges.stageGammas stage

/-- The factors at a place and a cycle. -/
def cornerFactors (bytecode : List BytecodeRow) (entryBytecodeIndex : ℕ) : List (ℕ → ℕ → F) :=
  (List.finRange 5).map (fun stage (k j : ℕ) =>
      stageValue challenges points bytecode stage k * eqWeight (points.stageCyclePoints stage) j) ++
    [fun (k j : ℕ) => k * eqWeight (points.stageCyclePoints 0) j, fun (k j : ℕ) => k * eqWeight (points.stageCyclePoints 2) j,
      fun (k j : ℕ) => (if k = entryBytecodeIndex then 1 else 0) * if j = 0 then 1 else 0]

/-- What the committed accesses read of the bytecode. -/
def batchReads (bytecode : List BytecodeRow) (entryBytecodeIndex : ℕ) (place : ℕ → Option ℕ) : List F :=
  (List.finRange 5).map (fun stage =>
      extension (fun j => (place j).elim 0 (stageValue challenges points bytecode stage)) (points.stageCyclePoints stage)) ++
    [extension (fun j => (place j).elim 0 fun k => (k : F)) (points.stageCyclePoints 0),
      extension (fun j => (place j).elim 0 fun k => (k : F)) (points.stageCyclePoints 2),
      if place 0 = some entryBytecodeIndex then 1 else 0]

variable {challenges points}

/-- The bits of an index are its corner. -/
theorem entryBits_eq (index n : ℕ) : ((List.range n).map fun i => (((index >>> (n - 1 - i)) &&& 1 : ℕ) : F)) =
    bitPoint F n index := by
  induction n with
  | zero => rfl
  | succ n ih =>
      have bit : (((index >>> n) &&& 1 : ℕ) : F) = if index.testBit n then 1 else 0 := by
        rw [Nat.and_one_is_mod, Nat.shiftRight_eq_div_pow, ← Nat.toNat_testBit]
        cases index.testBit n <;> simp
      rw [List.range_succ_eq_map, List.map_cons, List.map_map, bitPoint, ← ih, Nat.add_sub_cancel, Nat.sub_zero, bit]
      refine congrArg _ (List.map_congr_left fun i _ => ?_)
      have place : n - (i + 1) = n - 1 - i := by omega
      rw [Function.comp_apply, Nat.succ_eq_add_one, place]

theorem eqMle_corners {n i j : ℕ} (inside : i < 2 ^ n) (inside' : j < 2 ^ n) :
    eqMle (bitPoint F n i) (bitPoint F n j) = if j = i then 1 else 0 := by
  have weight : extension (fun k => if k = i then (1 : F) else 0) (bitPoint F n j) = 1 * eqWeight (bitPoint F n j) i :=
    extension_single _ (by rwa [length_bitPoint]) 1
  rw [eqMle_corner (length_bitPoint n j) inside, ← one_mul (eqWeight _ _), ← weight, extension_bitPoint _ inside']

theorem zeros_eq (n : ℕ) : List.replicate n (0 : F) = bitPoint F n 0 := by
  induction n with
  | zero => rfl
  | succ n ih => rw [List.replicate_succ, ih, bitPoint, Nat.zero_testBit, if_neg Bool.false_ne_true]

theorem batchFactors_corner (rows : bytecode.length = 2 ^ logK) (fit : points.Fit logT) (entry : entryBytecodeIndex < 2 ^ logK)
    {k j : ℕ} (inside : k < 2 ^ logK) (inside' : j < 2 ^ logT) :
    batchFactors challenges points bytecode entryBytecodeIndex (bitPoint F logK k) (bitPoint F logT j) =
      (cornerFactors challenges points bytecode entryBytecodeIndex).map fun factor => factor k j := by
  have cycle (stage : Fin 5) : eqMle (points.stageCyclePoints stage) (bitPoint F logT j) = eqWeight (points.stageCyclePoints stage) j := by
    rw [eqMle_comm]
    exact eqMle_corner (fit.cycles stage) inside'
  have value (stage : Fin 5) : JoltWasm.foldStageValues (bitPoint F logK k) (readRafStageValues bytecode points.registerReadWritePoint
      points.registerValEvaluationPoint challenges.stageGammas) stage = stageValue challenges points bytecode stage k := by
    rw [foldStageValues_rows (by rw [length_bitPoint, rows]), extension_bitPoint _ inside, stageValue]
  have identity : identityEvaluate (bitPoint F logK k) = (k : F) := by
    rw [identityEvaluate_eq, extension_bitPoint _ inside]
  have entry_ : (readRafRafEntryPublics (bitPoint F logK k) (bitPoint F logT j) 0 0 entryBytecodeIndex).2.2 =
      (if k = entryBytecodeIndex then 1 else 0) * if j = 0 then 1 else 0 := by
    rw [readRafRafEntryPublics]
    simp only [length_bitPoint]
    rw [entryBits_eq, zeros_eq, eqMle_corners entry inside, eqMle_corners (Nat.two_pow_pos _) inside']
  rw [batchFactors, cornerFactors, List.map_append, List.map_map]
  simp only [value, cycle, identity, entry_]
  rfl

/-- All addresses and cycles of the check. -/
theorem sum_batchFactors (rows : bytecode.length = 2 ^ logK) (fit : points.Fit logT) (entry : entryBytecodeIndex < 2 ^ logK)
    {product : ℕ → ℕ → F} {place : ℕ → Option ℕ} (hot : ∀ j < 2 ^ logT, HotColumn (2 ^ logK) (fun k => product k j) (place j)) :
    ∑ k ∈ range (2 ^ logK), ∑ j ∈ range (2 ^ logT),
        powerSum challenges.gamma (batchFactors challenges points bytecode entryBytecodeIndex (bitPoint F logK k) (bitPoint F logT j)) *
          product k j =
      powerSum challenges.gamma (batchReads challenges points bytecode entryBytecodeIndex place) := by
  have corners : ∑ k ∈ range (2 ^ logK), ∑ j ∈ range (2 ^ logT),
        powerSum challenges.gamma (batchFactors challenges points bytecode entryBytecodeIndex (bitPoint F logK k) (bitPoint F logT j)) *
          product k j =
      ∑ k ∈ range (2 ^ logK), ∑ j ∈ range (2 ^ logT),
        powerSum challenges.gamma ((cornerFactors challenges points bytecode entryBytecodeIndex).map fun factor => factor k j) *
          product k j :=
    sum_congr rfl fun k member => sum_congr rfl fun j member' => by
      rw [batchFactors_corner rows fit entry (mem_range.mp member) (mem_range.mp member')]
  have first : ∑ k ∈ range (2 ^ logK), ∑ j ∈ range (2 ^ logT),
      ((if k = entryBytecodeIndex then 1 else 0) * if j = 0 then 1 else 0) * product k j =
        if place 0 = some entryBytecodeIndex then 1 else 0 := by
    rw [← (hot 0 (Nat.two_pow_pos _)).entry _ entry]
    refine (sum_eq_single_of_mem entryBytecodeIndex (mem_range.mpr entry) fun k _ other => ?_).trans
      ((sum_eq_single_of_mem 0 (mem_range.mpr (Nat.two_pow_pos _)) fun j _ other => ?_).trans ?_)
    · exact sum_eq_zero fun j _ => by rw [if_neg other, zero_mul, zero_mul]
    · rw [if_neg other, mul_zero, zero_mul]
    · rw [if_pos rfl, if_pos rfl, one_mul, one_mul]
  rw [corners, sum_powerSum, cornerFactors, batchReads, List.map_append, List.map_map]
  simp only [Function.comp_def, sum_placed hot (fun k _ => _) (fit.cycles _), List.map_cons, List.map_nil, first]

end

/-! ## What holds of the columns -/

section

variable {committed : OneHotColumns F} {d : BytecodeReadRafDimensions} {bytecode : List BytecodeRow} {entryBytecodeIndex bits : ℕ}
  {place : ℕ → Option ℕ}

/-- A register's equality with a point, by its register. -/
theorem registerEq_eq {point : List F} (length : point.length = registerAddressBits) (id : ℕ) :
    registerEq id (eqEvals point) = extension (fun r => if id = r then 1 else 0) point := by
  by_cases inside : id < 2 ^ point.length
  · have single : (fun r => if id = r then (1 : F) else 0) = fun r => if r = id then 1 else 0 := funext fun r => if_congr eq_comm rfl rfl
    have some_ : id ≠ registerNone := by
      rintro rfl
      rw [length] at inside
      exact absurd inside (by decide)
    rw [registerEq, if_pos some_, Option.bind_some, ← List.getD_eq_getElem?_getD, getD_eqEvals point inside, single,
      extension_single point inside, one_mul]
  · have nothing : extension (fun r => if id = r then (1 : F) else 0) point = 0 :=
      (extension_congr fun r small => if_neg fun same : id = r => inside (by rwa [same])).trans (extension_zero point)
    rw [registerEq, nothing]
    split_ifs
    · rw [Option.bind_some, List.getElem?_eq_none (by rw [length_eqEvals]; exact Nat.not_lt.mp inside), Option.getD_none]
    · rfl

/-- What the places read of combined values is combined from what they read of each. -/
theorem extension_reads {α : Type} (γ : F) (values : List α) (value : α → ℕ → F) (point : List F) :
    extension (fun j => (place j).elim 0 fun k => powerSum γ (values.map fun v => value v k)) point =
      powerSum γ (values.map fun v => extension (fun j => (place j).elim 0 (value v)) point) := by
  induction values with
  | nil =>
      refine (extension_congr fun j _ => ?_).trans (extension_zero point)
      cases place j <;> rfl
  | cons v values ih =>
      rw [List.map_cons, powerSum, ← ih, ← extension_mul, ← extension_add]
      refine extension_congr fun j _ => ?_
      cases place j with
      | none => exact (by rw [Option.elim_none, Option.elim_none, Option.elim_none, mul_zero, add_zero])
      | some k => rfl

/-- Each bound column is what the places read of the rows. -/
def Bound (columns : FetchColumns F) (logT : ℕ) (bytecode : List BytecodeRow) (place : ℕ → Option ℕ) : Prop :=
  ∀ points : BytecodeStagePoints F, points.Fit logT → ∀ stage, ∀ binding ∈ columns.bindings points stage, ∀ j < 2 ^ logT,
    binding.column j = (place j).elim 0 fun k => binding.value (rowAt bytecode k)

theorem bound_iff (apart : Apart F 26) : columns.Bound d.logT bytecode place ↔
    ∀ (challenges : BytecodeReadRafAddressPhaseChallenges F) (points : BytecodeStagePoints F), points.Fit d.logT → ∀ stage,
      powerSum (stageGamma challenges stage)
          ((columns.bindings points stage).map fun binding => extension binding.column (points.stageCyclePoints stage)) =
        extension (fun j => (place j).elim 0 (stageValue challenges points bytecode stage)) (points.stageCyclePoints stage) := by
  -- The columns of a stage and what is read for them, listed in pairs.
  let pairs (points : BytecodeStagePoints F) (stage : Fin 5) : List ((ℕ → F) × (ℕ → F)) :=
    (columns.bindings points stage).map fun binding =>
      (binding.column, fun j => (place j).elim 0 fun k => binding.value (rowAt bytecode k))
  have short (points : BytecodeStagePoints F) (stage : Fin 5) : (pairs points stage).length ≤ 26 := by
    rw [List.length_map]
    match stage with
    | 0 | 1 | 2 | 3 | 4 => exact Nat.le_of_ble_eq_true rfl
  have reads (challenges : BytecodeReadRafAddressPhaseChallenges F) (points : BytecodeStagePoints F) (stage : Fin 5) :
      extension (fun j => (place j).elim 0 (stageValue challenges points bytecode stage)) (points.stageCyclePoints stage) =
        powerSum (stageGamma challenges stage) ((pairs points stage).map fun pair => extension pair.2 (points.stageCyclePoints stage)) := by
    rw [List.map_map, Function.comp_def]
    simp only
    rw [← extension_reads]
    refine extension_congr fun j _ => congrArg ((place j).elim 0) (funext fun k => ?_)
    exact readRafRowValues_eq challenges points (rowAt bytecode k) stage
  have claims (challenges : BytecodeReadRafAddressPhaseChallenges F) (points : BytecodeStagePoints F) (stage : Fin 5) :
      powerSum (stageGamma challenges stage)
          ((columns.bindings points stage).map fun binding => extension binding.column (points.stageCyclePoints stage)) =
        powerSum (stageGamma challenges stage) ((pairs points stage).map fun pair => extension pair.1 (points.stageCyclePoints stage)) := by
    rw [List.map_map]
    rfl
  simp only [reads, claims]
  have each (points : BytecodeStagePoints F) (stage : Fin 5) := @forall_listed_eq_iff F _ d.logT _ (apart.mono (short points stage))
  constructor
  · intro bound challenges points fit stage
    refine (each points stage).mpr (fun pair member => ?_) _ _ (fit.cycles stage)
    obtain ⟨binding, listed, rfl⟩ := List.mem_map.mp member
    exact bound points fit stage binding listed
  · intro same points fit stage binding listed
    refine (each points stage).mp (fun γ point length => ?_) _ (List.mem_map.mpr ⟨binding, listed, rfl⟩)
    have here := same ⟨γ, γ, γ, γ, γ, γ⟩ ⟨fun _ => point, points.registerReadWritePoint, points.registerValEvaluationPoint⟩
      ⟨fun _ => length, fit.readWrite, fit.valEvaluation⟩ stage
    match stage with
    | 0 | 1 | 2 | 3 | 4 => exact here

/-- A selector is bound at every point exactly when it selects the row's register. -/
theorem selector_iff {selector : ℕ → ℕ → F} {logT : ℕ} (register : BytecodeRow → ℕ) :
    (∀ point : List F, point.length = registerAddressBits → ∀ j < 2 ^ logT,
      extension (fun r => selector r j) point = (place j).elim 0 fun k => registerEq (register (rowAt bytecode k)) (eqEvals point)) ↔
      ∀ r < laneRegisterCount, ∀ j < 2 ^ logT,
        selector r j = (place j).elim 0 fun k => if register (rowAt bytecode k) = r then 1 else 0 := by
  have read {point : List F} (length : point.length = registerAddressBits) (j : ℕ) :
      ((place j).elim 0 fun k => registerEq (register (rowAt bytecode k)) (eqEvals point)) =
        extension (fun r => (place j).elim 0 fun k => if register (rowAt bytecode k) = r then 1 else 0) point := by
    cases place j with
    | none => exact (extension_zero point).symm
    | some k => exact registerEq_eq length _
  constructor
  · intro same r small j below
    exact forall_extension_eq_iff.mp (fun point length => (same point length j below).trans (read length j)) r small
  · intro same point length j below
    rw [read length]
    exact forall_extension_eq_iff.mpr (fun r small => same r small j below) point length

theorem bound_of_fetched {logT : ℕ} (fetched : columns.Fetched logT bytecode entryBytecodeIndex place) :
    columns.Bound logT bytecode place := by
  intro points fit stage binding listed
  have rd := (@selector_iff F _ bytecode place columns.rdWa logT BytecodeRow.rd).mpr fetched.rd
  have rs1 := (@selector_iff F _ bytecode place columns.rs1Ra logT BytecodeRow.rs1).mpr fetched.rs1
  have rs2 := (@selector_iff F _ bytecode place columns.rs2Ra logT BytecodeRow.rs2).mpr fetched.rs2
  match stage with
  | 0 =>
      rcases List.mem_cons.mp listed with rfl | member
      · exact fetched.imm
      · obtain ⟨flag, -, rfl⟩ := List.mem_map.mp member
        exact fetched.flag flag
  | 1 =>
      obtain rfl := List.mem_singleton.mp listed
      exact fetched.flag .branch
  | 2 =>
      simp only [bindings, List.mem_cons, List.not_mem_nil, or_false] at listed
      obtain rfl | rfl | rfl | rfl := listed
      · exact fetched.imm
      · exact fetched.flag .leftIsRs1
      · exact fetched.flag .rightIsRs2
      · exact fetched.flag .rightIsImm
  | 3 =>
      simp only [bindings, List.mem_cons, List.not_mem_nil, or_false] at listed
      obtain rfl | rfl | rfl := listed
      · exact rd _ fit.readWrite
      · exact rs1 _ fit.readWrite
      · exact rs2 _ fit.readWrite
  | 4 =>
      rcases List.mem_cons.mp listed with rfl | member
      · exact rd _ fit.valEvaluation
      · rcases List.mem_cons.mp member with rfl | member
        · exact fetched.rafFlag
        · obtain ⟨t, small, rfl⟩ := List.mem_map.mp member
          exact fetched.table t (List.mem_range.mp small)

theorem RowFlag.mem_all (flag : RowFlag) : flag ∈ RowFlag.all := by
  cases flag <;> decide

theorem fetched_of_bound {logT : ℕ} (bound : columns.Bound logT bytecode place)
    (pc : ∀ j < 2 ^ logT, columns.pc j = (place j).elim 0 fun k => (k : F)) (entry : place 0 = some entryBytecodeIndex)
    (nextPc : ∀ j < 2 ^ logT, columns.nextPc j = if j + 1 < 2 ^ logT then columns.pc (j + 1) else 0) :
    columns.Fetched logT bytecode entryBytecodeIndex place := by
  let points (point : List F) : BytecodeStagePoints F := ⟨fun _ => List.replicate logT 0, point, point⟩
  have fit {point : List F} (length : point.length = registerAddressBits) : (points point).Fit logT :=
    ⟨fun _ => List.length_replicate, length, length⟩
  have zeros : (List.replicate registerAddressBits (0 : F)).length = registerAddressBits := List.length_replicate
  exact
    { imm := bound _ (fit zeros) 0 _ List.mem_cons_self
      flag := fun flag => bound _ (fit zeros) 0 _ (List.mem_cons_of_mem _ (List.mem_map.mpr ⟨flag, RowFlag.mem_all flag, rfl⟩))
      rd := (selector_iff BytecodeRow.rd).mp fun point length => bound _ (fit length) 3 _ List.mem_cons_self
      rs1 := (selector_iff BytecodeRow.rs1).mp fun point length =>
        bound _ (fit length) 3 _ (List.mem_cons_of_mem _ List.mem_cons_self)
      rs2 := (selector_iff BytecodeRow.rs2).mp fun point length =>
        bound _ (fit length) 3 _ (List.mem_cons_of_mem _ (List.mem_cons_of_mem _ List.mem_cons_self))
      rafFlag := bound _ (fit zeros) 4 _ (List.mem_cons_of_mem _ List.mem_cons_self)
      table := fun t small => bound _ (fit zeros) 4 _ (List.mem_cons_of_mem _ (List.mem_cons_of_mem _
        (List.mem_map.mpr ⟨t, List.mem_range.mpr small, rfl⟩)))
      pc := pc
      entry := entry
      nextPc := nextPc }

end

/-! ## The check -/

section

variable {committed : OneHotColumns F} {d : BytecodeReadRafDimensions} {bytecode : List BytecodeRow} {entryBytecodeIndex bits : ℕ}
  {place : ℕ → Option ℕ}

/-- The two phases hold together exactly when the batched claims are what the committed accesses read. -/
theorem readRaf_iff (positive : 0 < bits) (some_ : 0 < d.logK) (narrow : d.logK < 64) (rows : bytecode.length = 2 ^ d.logK)
    (chunked : d.committedRaPolys = chunkCount d.logK bits) (entry : entryBytecodeIndex < 2 ^ d.logK)
    (hot : ∀ j < 2 ^ d.logT, HotColumn (2 ^ d.logK) (fun k => committed.chunkProduct .bytecode d.logK bits k j) (place j))
    (challenges : BytecodeReadRafAddressPhaseChallenges F) {points : BytecodeStagePoints F} (fit : points.Fit d.logT) :
    (∃ intermediate : List F → F,
      SumsTo d.logK (BytecodeReadRafAddressPhase.summand intermediate)
        (BytecodeReadRafAddressPhase.inputExpression challenges (columns.inputClaims d.logT points)) ∧
      ∀ rAddress : List F, rAddress.length = d.logK →
        ∃ relation, BytecodeReadRaf.new d rAddress points.stageCyclePoints entryBytecodeIndex bits
            (some ⟨bytecode, points.registerReadWritePoint, points.registerValEvaluationPoint, challenges.stageGammas⟩) =
              .ok relation ∧
          SumsTo d.logT (relation.summand challenges.gamma fun i => committed.polys d.logT (.bytecode i))
            (BytecodeReadRaf.inputExpression (intermediate rAddress))) ↔
      powerSum challenges.gamma (batchClaims challenges points columns) =
        powerSum challenges.gamma (batchReads challenges points bytecode entryBytecodeIndex place) := by
  -- The cycle phase at an address, and the sum of all of them.
  let phase (rAddress : List F) : F := cubeSum d.logT fun c =>
    powerSum challenges.gamma (batchFactors challenges points bytecode entryBytecodeIndex rAddress c) *
      ∏ i ∈ range (chunkCount d.logK bits), committed.polys d.logT (.bytecode i) (chunkPoint rAddress bits i ++ c)
  have cycle {rAddress : List F} (width : rAddress.length = d.logK) :=
    @readRaf_sumsTo F _ committed d bytecode entryBytecodeIndex bits challenges points
      positive some_ narrow rows chunked rAddress width
  have corner {k j : ℕ} (inside : k < 2 ^ d.logK) (inside' : j < 2 ^ d.logT) :
      ∏ i ∈ range (chunkCount d.logK bits),
        committed.polys d.logT (.bytecode i) (chunkPoint (bitPoint F d.logK k) bits i ++ bitPoint F d.logT j) =
          committed.chunkProduct .bytecode d.logK bits k j := by
    have product := prod_extension_chunkPoint positive (fun i digit => committed.ra (.bytecode i) digit j) (bitPoint F d.logK k)
    rw [length_bitPoint, extension_bitPoint _ inside] at product
    simp only [OneHotColumns.polys, extension_gridColumn_corner _ _ inside']
    exact product
  have total : cubeSum d.logK phase =
      powerSum challenges.gamma (batchReads challenges points bytecode entryBytecodeIndex place) := by
    rw [← sum_batchFactors rows fit entry hot, cubeSum_eq_sum]
    refine sum_congr rfl fun k member => (cubeSum_eq_sum _ _).trans (sum_congr rfl fun j member' => ?_)
    rw [corner (mem_range.mp member) (mem_range.mp member')]
  rw [inputExpression_eq challenges points columns fit, ← total]
  constructor
  · rintro ⟨intermediate, address, cycles⟩
    have summed := address.unique (sumsTo_reversed (g := intermediate) fun x _ => rfl)
    rw [summed]
    refine cubeSum_congr fun rAddress width => ?_
    obtain ⟨relation, new, sums⟩ := cycles rAddress width
    obtain ⟨relation', new', sums'⟩ := cycle width
    obtain rfl := Except.ok.inj (new.symm.trans new')
    exact sums.unique sums'
  · intro same
    refine ⟨phase, ?_, fun rAddress width => cycle width⟩
    rw [same]
    exact sumsTo_reversed fun x _ => rfl

/-- The relations of the fetch hold for every challenge exactly when the columns are those of the rows at the
places that the committed accesses join to. -/
theorem holds_iff_fetched (apart : Apart F 26) (positive : 0 < bits) (some_ : 0 < d.logK) (narrow : d.logK < 64)
    (rows : bytecode.length = 2 ^ d.logK) (chunked : d.committedRaPolys = chunkCount d.logK bits)
    (entry : entryBytecodeIndex < 2 ^ d.logK)
    (hot : ∀ j < 2 ^ d.logT, HotColumn (2 ^ d.logK) (fun k => committed.chunkProduct .bytecode d.logK bits k j) (place j)) :
    columns.Holds committed d bytecode entryBytecodeIndex bits ↔ columns.Fetched d.logT bytecode entryBytecodeIndex place := by
  -- The scalar of the batch separates the stages, the two pcs and the entry.
  have batch (challenges : BytecodeReadRafAddressPhaseChallenges F) (points : BytecodeStagePoints F) :
      (∀ γ : F, powerSum γ (batchClaims challenges points columns) =
        powerSum γ (batchReads challenges points bytecode entryBytecodeIndex place)) ↔
      (∀ stage, powerSum (stageGamma challenges stage)
          ((columns.bindings points stage).map fun binding => extension binding.column (points.stageCyclePoints stage)) =
        extension (fun j => (place j).elim 0 (stageValue challenges points bytecode stage)) (points.stageCyclePoints stage)) ∧
      extension columns.pc (points.stageCyclePoints 0) =
        extension (fun j => (place j).elim 0 fun k => (k : F)) (points.stageCyclePoints 0) ∧
      extension columns.pc (points.stageCyclePoints 2) =
        extension (fun j => (place j).elim 0 fun k => (k : F)) (points.stageCyclePoints 2) ∧
      place 0 = some entryBytecodeIndex := by
    have indicator : (1 : F) = (if place 0 = some entryBytecodeIndex then 1 else 0) ↔ place 0 = some entryBytecodeIndex := by
      split_ifs with here <;> simp [here]
    rw [forall_powerSum_eq_iff (apart.mono (by simp [batchClaims])) (by simp [batchClaims, batchReads]), batchClaims, batchReads]
    constructor
    · intro same
      obtain ⟨stages, rest⟩ := List.append_inj same (by rw [List.length_map, List.length_map])
      obtain ⟨first, second, third⟩ : _ ∧ _ ∧ _ := by simpa only [List.cons.injEq, and_true] using rest
      exact ⟨fun stage => List.map_inj_left.mp stages stage (List.mem_finRange stage), first, second, indicator.mp third⟩
    · rintro ⟨stages, first, second, third⟩
      rw [first, second, ← indicator.mpr third, List.map_congr_left fun stage _ => stages stage]
  have each (challenges : BytecodeReadRafAddressPhaseChallenges F) {points : BytecodeStagePoints F} (fit : points.Fit d.logT) :=
    columns.readRaf_iff positive some_ narrow rows chunked entry hot challenges fit
  constructor
  · intro holds
    have all (challenges : BytecodeReadRafAddressPhaseChallenges F) {points : BytecodeStagePoints F} (fit : points.Fit d.logT) :=
      (batch challenges points).mp fun γ => by
        have here := (each { challenges with gamma := γ } fit).mp (holds.readRaf { challenges with gamma := γ } points fit)
        have same : batchClaims { challenges with gamma := γ } points columns = batchClaims challenges points columns := by
          simp only [batchClaims, stageGamma_gamma]
        rwa [same] at here
    let points (point : List F) : BytecodeStagePoints F :=
      ⟨fun _ => point, List.replicate registerAddressBits 0, List.replicate registerAddressBits 0⟩
    have fit {point : List F} (length : point.length = d.logT) : (points point).Fit d.logT :=
      ⟨fun _ => length, List.length_replicate, List.length_replicate⟩
    have pc := forall_extension_eq_iff.mp fun point (length : point.length = d.logT) => (all ⟨0, 0, 0, 0, 0, 0⟩ (fit length)).2.1
    have zeros : (List.replicate d.logT (0 : F)).length = d.logT := List.length_replicate
    exact fetched_of_bound ((bound_iff apart).mpr fun challenges points fit => (all challenges fit).1) pc
      (all ⟨0, 0, 0, 0, 0, 0⟩ (fit zeros)).2.2.2 (shift_iff.mp holds.shift)
  · intro fetched
    have bound := (@bound_iff F _ columns d bytecode place apart).mp (bound_of_fetched fetched)
    have pc {point : List F} (length : point.length = d.logT) :
        extension columns.pc point = extension (fun j => (place j).elim 0 fun k => (k : F)) point :=
      forall_extension_eq_iff.mpr fetched.pc point length
    exact ⟨fun challenges points fit => (each challenges fit).mpr ((batch challenges points).mpr
      ⟨bound challenges points fit, pc (fit.cycles 0), pc (fit.cycles 2), fetched.entry⟩ _), shift_iff.mpr fetched.nextPc⟩

end

end FetchColumns

end JoltWasm.Stages
