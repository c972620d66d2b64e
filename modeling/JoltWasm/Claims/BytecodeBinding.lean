import JoltWasm.Claims.BytecodeRows
import JoltWasm.Claims.Schedule
import JoltWasm.R1cs.Field

/-!
# Committed bytecode is public bytecode

The reduction's grids, weighted, sum to the stage values that full mode folds from the public rows; its
output weights are the extension of the weight grid at the opening point; and both modes expect the same
output of the read-RAF check.
-/

namespace JoltWasm

open Lib Finset

variable {F : Type} [Field F]

/-! ## Lanes are in the grid -/

theorem laneWeightUpdates_inside (eta : F) (gammas : StageGammas F) (readWriteEq valEvaluationEq : List F) :
    ∀ update ∈ laneWeightUpdates eta gammas readWriteEq valEvaluationEq, update.1 < 512 := by
  intro update member
  have flags : RowFlag.count = 15 := rfl
  have tables : WasmTable.count = 24 := rfl
  have registers : laneRegisterCount = 128 := rfl
  have bits (flag : RowFlag) : flag.bit < 15 := by cases flag <;> decide
  have branch := bits .branch
  have left := bits .leftIsRs1
  have right := bits .rightIsRs2
  have imm := bits .rightIsImm
  simp only [laneWeightUpdates, List.mem_append, List.mem_cons, List.mem_map, List.mem_flatMap,
    List.mem_range, List.not_mem_nil, or_false] at member
  rcases member with ((((((rfl | ⟨i, small, rfl⟩) | rfl) | rfl | rfl | rfl | rfl) |
    ⟨r, small, rfl | rfl | rfl⟩) | ⟨r, small, rfl⟩) | rfl) | ⟨i, small, rfl⟩ <;> omega

theorem activeLaneValues_inside [DecidableEq F] {row : BytecodeRow} (valid : row.RegistersInRange)
    (pc : ℕ) : ∀ update ∈ activeLaneValues (F := F) pc row, update.1 < 512 := by
  intro update member
  obtain ⟨rs1, rs2, rd⟩ := valid.blocks
  have none_ : registerNone = 255 := rfl
  have register {start id : ℕ} (inside : update ∈ if id ≠ registerNone then [(start + id, (1 : F))] else []) :
      id ≠ registerNone ∧ update.1 = start + id := by
    split_ifs at inside with some
    · rw [List.mem_singleton.mp inside]
      exact ⟨some, rfl⟩
    · cases inside
  have scalar {lane : ℕ} {v : F} (inside : update ∈ if v = 0 then [] else [(lane, v)]) :
      update.1 = lane := by
    split_ifs at inside
    · cases inside
    · rw [List.mem_singleton.mp inside]
  rcases List.mem_append.mp member with member | raf
  · rcases List.mem_append.mp member with member | table
    · rcases List.mem_append.mp member with member | flag
      · rcases List.mem_append.mp member with member | imm
        · rcases List.mem_append.mp member with member | pc
          · rcases List.mem_append.mp member with member | isRd
            · rcases List.mem_append.mp member with isRs1 | isRs2
              · have := register isRs1
                rw [BytecodeLaneLayout.rs1Start_eq] at this
                omega
              · have := register isRs2
                rw [BytecodeLaneLayout.rs2Start_eq] at this
                omega
            · have := register isRd
              rw [BytecodeLaneLayout.rdStart_eq] at this
              omega
          · rw [scalar pc, BytecodeLaneLayout.pcIdx_eq]
            omega
        · rw [scalar imm, BytecodeLaneLayout.immIdx_eq]
          omega
      · obtain ⟨⟨flag, index⟩, inFlags, is_⟩ := List.mem_filterMap.mp flag
        obtain ⟨-, small, -⟩ := List.mem_zipIdx inFlags
        have small : index < 0 + 15 := small
        simp only [Option.ite_none_right_eq_some, Option.some_inj] at is_
        rw [← is_.2, BytecodeLaneLayout.flagStart_eq]
        omega
    · obtain ⟨t, inTable, rfl⟩ := List.mem_map.mp table
      have := bytecodeTableId_lt (Option.mem_toList.mp inTable)
      rw [BytecodeLaneLayout.lookupStart_eq]
      omega
  · split_ifs at raf
    · rw [List.mem_singleton.mp raf, BytecodeLaneLayout.rafFlagIdx_eq]
      omega
    · cases raf

/-! ## The grids -/

section

variable [DecidableEq F]

/-- What the rows of a chunk add to its grid. -/
def chunkUpdates (rows : List BytecodeRow) (firstPc : ℕ) (order : TracePolynomialOrder) :
    List (ℕ × F) :=
  rows.zipIdx.flatMap fun (row, chunkCycle) =>
    (activeLaneValues (firstPc + chunkCycle) row).map fun (lane, value) =>
      (order.addressCycleToIndex lane chunkCycle committedBytecodeLaneCapacity rows.length, value)

theorem buildCommittedBytecodeChunk_eq (rows : List BytecodeRow) (firstPc : ℕ)
    (order : TracePolynomialOrder) :
    buildCommittedBytecodeChunk (F := F) rows firstPc order =
      scatter (List.replicate (committedBytecodeLaneCapacity * rows.length) 0)
        (chunkUpdates rows firstPc order) :=
  foldl_scatter _ _ _

/-- A chunk grid against a weight for each lane and each cycle. -/
theorem sum_chunk {rows : List BytecodeRow} (valid : ∀ row ∈ rows, row.RegistersInRange) (firstPc : ℕ)
    (order : TracePolynomialOrder) (weight eqCycle : ℕ → F) :
    ∑ index ∈ range (committedBytecodeLaneCapacity * rows.length),
        (buildCommittedBytecodeChunk rows firstPc order).getD index 0 *
          (weight (order.indexToAddressCycle index committedBytecodeLaneCapacity rows.length).1 *
            eqCycle (order.indexToAddressCycle index committedBytecodeLaneCapacity rows.length).2) =
      ∑ cycle ∈ range rows.length, eqCycle cycle *
        ((activeLaneValues (firstPc + cycle) (rows.getD cycle (BytecodeRow.of .halt))).map
          fun update => update.2 * weight update.1).sum := by
  have inGrid : ∀ update ∈ chunkUpdates (F := F) rows firstPc order,
      update.1 < committedBytecodeLaneCapacity * rows.length := by
    intro update member
    obtain ⟨⟨row, cycle⟩, inRows, member⟩ := List.mem_flatMap.mp member
    obtain ⟨⟨lane, value⟩, inside, rfl⟩ := List.mem_map.mp member
    obtain ⟨-, inCycles, at_⟩ := List.mem_zipIdx inRows
    have listed : row ∈ rows := at_ ▸ List.getElem_mem _
    refine TracePolynomialOrder.addressCycleToIndex_lt ?_ (by omega)
    rw [committedBytecodeLaneCapacity_eq]
    exact activeLaneValues_inside (valid row listed) _ _ inside
  rw [buildCommittedBytecodeChunk_eq, sum_scatter inGrid fun index =>
    weight (order.indexToAddressCycle index committedBytecodeLaneCapacity rows.length).1 *
      eqCycle (order.indexToAddressCycle index committedBytecodeLaneCapacity rows.length).2]
  unfold chunkUpdates
  rw [List.map_flatMap, List.flatMap_def, List.sum_flatten, List.map_map,
    sum_zipIdx _ (BytecodeRow.of .halt)]
  refine sum_congr rfl fun cycle member => ?_
  have inCycles := mem_range.mp member
  simp only [Function.comp_def, List.map_map]
  rw [← List.sum_map_mul_left]
  refine congrArg List.sum (List.map_congr_left fun update inside => ?_)
  have inLanes : update.1 < committedBytecodeLaneCapacity := by
    rw [committedBytecodeLaneCapacity_eq]
    refine activeLaneValues_inside (valid _ ?_) _ _ inside
    rw [List.getD_eq_getElem _ _ inCycles]
    exact List.getElem_mem _
  rw [TracePolynomialOrder.indexToAddressCycle_index inLanes inCycles]
  ring

/-- The lane weights against a row are its stage values batched by `eta`. -/
theorem sum_laneWeights {row : BytecodeRow} (valid : row.RegistersInRange) {gammas : StageGammas F}
    (powers : gammas.Powers) (eta : F) (readWriteEq valEvaluationEq : List F) (pc : ℕ) :
    ((activeLaneValues pc row).map fun update => update.2 *
        (scatter (List.replicate committedBytecodeLaneCapacity 0)
          (laneWeightUpdates eta gammas readWriteEq valEvaluationEq)).getD update.1 0).sum =
      ∑ stage, eta ^ (stage : Fin 5).val *
        readRafRowValues row readWriteEq valEvaluationEq gammas stage := by
  let updates := laneWeightUpdates eta gammas readWriteEq valEvaluationEq
  rw [committedBytecodeLaneCapacity_eq, ← sum_hits (activeLaneValues_inside valid pc) fun lane =>
      (scatter (List.replicate 512 0) updates).getD lane 0,
    ← sum_laneWeightUpdates pc valid powers,
    ← sum_scatter (laneWeightUpdates_inside eta gammas readWriteEq valEvaluationEq)]
  exact sum_congr rfl fun lane _ => mul_comm _ _

end

/-! ## The layout -/

/-- What a layout records of a bytecode table: the chunks are a power of two of powers of two of rows. -/
structure BytecodeClaimReductionLayout.For (layout : BytecodeClaimReductionLayout)
    (order : TracePolynomialOrder) (bytecodeLen : ℕ) : Prop where
  valid : isValidCommittedBytecodeChunkingForLen bytecodeLen layout.chunkCount = true
  order : layout.traceOrder = order
  chunks : layout.chunkCount = 2 ^ layout.droppedAddressBits
  rows : bytecodeLen = 2 ^ (layout.droppedAddressBits + layout.logBytecodeChunkSize)
  scheduled : layout.precommitted.Scheduled

namespace BytecodeClaimReductionLayout

theorem balanced_for {order : TracePolynomialOrder} {logT : ℕ}
    {reference : PrecommittedSchedulingReference} {bytecodeLen chunkCount : ℕ}
    {layout : BytecodeClaimReductionLayout}
    (built : balanced order logT reference bytecodeLen chunkCount = .ok layout) :
    layout.For order bytecodeLen ∧ layout.chunkCount = chunkCount := by
  unfold balanced at built
  split_ifs at built with invalid
  obtain ⟨precommitted, isNew, built⟩ := except_bind_eq_ok.mp built
  cases built
  rw [Bool.not_eq_false] at invalid
  have checks := invalid
  simp only [isValidCommittedBytecodeChunkingForLen, isValidChunkCount, Bool.and_eq_true,
    decide_eq_true_iff] at checks
  obtain ⟨⟨⟨⟨positive, -⟩, chunks⟩, rows⟩, divides⟩ := checks
  have exponents : chunkCount.log2 ≤ bytecodeLen.log2 := by
    have divides : 2 ^ chunkCount.log2 ∣ 2 ^ bytecodeLen.log2 := by
      rw [chunks, rows]
      exact Nat.dvd_of_mod_eq_zero divides
    exact (Nat.pow_dvd_pow_iff_le_right one_lt_two).mp divides
  have size : bytecodeLen / chunkCount = 2 ^ (bytecodeLen.log2 - chunkCount.log2) := by
    rw [← Nat.pow_div exponents two_pos, chunks, rows]
  have logSize : (bytecodeLen / chunkCount).log2 = bytecodeLen.log2 - chunkCount.log2 := by
    rw [size, Nat.log2_two_pow]
  refine ⟨⟨invalid, rfl, ?_, ?_, PrecommittedClaimReduction.new_scheduled isNew⟩, rfl⟩
  · simp only [logSize]
    rw [Nat.sub_sub_self exponents, chunks]
  · simp only [logSize]
    rw [Nat.sub_sub_self exponents, Nat.add_sub_cancel' exponents, rows]

theorem balanced_numVars {order : TracePolynomialOrder} {logT mainTotalVars logKChunk : ℕ}
    {candidates : List ℕ} {bytecodeLen chunkCount : ℕ} {layout : BytecodeClaimReductionLayout}
    (built : balanced order logT
      (PrecommittedClaimReduction.schedulingReferenceOf mainTotalVars candidates logKChunk)
      bytecodeLen chunkCount = .ok layout) :
    layout.precommitted.polyOpeningRoundPermutationBe.length =
      committedLaneVars + layout.logBytecodeChunkSize := by
  unfold balanced at built
  split_ifs at built
  obtain ⟨precommitted, isNew, built⟩ := except_bind_eq_ok.mp built
  cases built
  rw [PrecommittedClaimReduction.new_length
    (PrecommittedClaimReduction.schedulingReferenceOf_columns _ _ _) isNew, Nat.add_comm]
  exact CommitmentMatrixShape.totalVars_balanced _

variable {layout : BytecodeClaimReductionLayout} {order : TracePolynomialOrder} {bytecodeLen : ℕ}

theorem eqTemplate_getD (weights : BytecodeReductionWeights F) {k : ℕ}
    (small : k < committedBytecodeLaneCapacity * 2 ^ layout.logBytecodeChunkSize) :
    (layout.eqTemplate weights).getD k 0 =
      weights.laneWeights.getD (layout.traceOrder.indexToAddressCycle k committedBytecodeLaneCapacity
          (2 ^ layout.logBytecodeChunkSize)).1 0 *
        (eqEvals weights.rBc).getD (layout.traceOrder.indexToAddressCycle k
          committedBytecodeLaneCapacity (2 ^ layout.logBytecodeChunkSize)).2 0 := by
  unfold eqTemplate
  rw [List.getD_eq_getElem _ _ (by simpa using small), List.getElem_map, List.getElem_range]

/-- The lane and cycle equality at a point is the extension of the template. -/
theorem eqCombined_ok {weights : BytecodeReductionWeights F}
    (lanes : weights.laneWeights.length = committedBytecodeLaneCapacity)
    (cycles : weights.rBc.length = layout.logBytecodeChunkSize) {point : List F}
    (arity : point.length = committedLaneVars + layout.logBytecodeChunkSize) :
    layout.eqCombined weights point =
      .ok (extension (fun k => (layout.eqTemplate weights).getD k 0) point) := by
  let l := layout.logBytecodeChunkSize
  have domain : 2 ^ point.length = committedBytecodeLaneCapacity * 2 ^ l := by
    rw [arity, pow_add]
    rfl
  have lane (challenges : List F) (length : challenges.length = committedLaneVars) :
      (List.zipWith (· * ·) weights.laneWeights (eqEvals challenges)).sum =
        extension (fun k => weights.laneWeights.getD k 0) challenges := by
    have size : (eqEvals challenges).length = committedBytecodeLaneCapacity := by
      rw [length_eqEvals, length]
      rfl
    rw [sum_zipWith _ 0 0 lanes size]
    unfold extension
    rw [length]
    refine sum_congr rfl fun k member => ?_
    rw [getD_eqEvals _ (by rw [length]; exact mem_range.mp member)]
  have cycle (challenges : List F) (length : challenges.length = l) :
      eqMle challenges weights.rBc = extension (fun k => (eqEvals weights.rBc).getD k 0) challenges := by
    rw [eqMle_comm, eqMle_eq (cycles.trans length.symm)]
    refine extension_congr fun k small => ?_
    rw [length] at small
    rw [getD_eqEvals _ (by rwa [cycles])]
  unfold eqCombined
  simp only
  rw [if_neg (not_not.mpr arity), if_neg (not_not.mpr cycles), if_neg (not_not.mpr lanes)]
  refine congrArg Except.ok ?_
  rw [extension_congr fun k small => eqTemplate_getD weights (domain ▸ small)]
  cases traceOrder : layout.traceOrder with
  | cycleMajor =>
      have laneLength : (point.take committedLaneVars).length = committedLaneVars := by
        rw [List.length_take]
        omega
      have cycleLength : (point.drop committedLaneVars).length = l := by
        rw [List.length_drop]
        omega
      rw [lane _ laneLength, cycle _ cycleLength, ← extension_append_mul, List.take_append_drop,
        cycleLength]
      rfl
  | addressMajor =>
      have cycleLength : (point.take l).length = l := by
        rw [List.length_take]
        omega
      have laneLength : (point.drop l).length = committedLaneVars := by
        rw [List.length_drop]
        omega
      rw [lane _ laneLength, cycle _ cycleLength, mul_comm, ← extension_append_mul,
        List.take_append_drop, laneLength]
      refine extension_congr fun k _ => ?_
      rw [mul_comm]
      rfl

namespace For

variable (is : layout.For order bytecodeLen)
include is

theorem chunkLen : bytecodeLen / layout.chunkCount = 2 ^ layout.logBytecodeChunkSize := by
  rw [is.rows, is.chunks, Nat.pow_div (Nat.le_add_right _ _) two_pos, Nat.add_sub_cancel_left]

/-- The address splits into the chunk's part and the part inside a chunk. -/
theorem splitAddressPoint_ok {rAddress : List F} (arity : rAddress.length = bytecodeLen.log2) :
    layout.splitAddressPoint rAddress = .ok (eqEvals (rAddress.take layout.droppedAddressBits),
      rAddress.drop layout.droppedAddressBits) := by
  have length : rAddress.length = layout.droppedAddressBits + layout.logBytecodeChunkSize := by
    rw [arity, is.rows, Nat.log2_two_pow]
  unfold splitAddressPoint
  simp only
  rw [if_neg (not_not.mpr length)]
  split_ifs with none_
  · rw [none_]
    rfl
  · rfl

theorem cyclePhaseOutput_ok (final : layout.precommitted.hasAddressPhase = false)
    {weights : BytecodeReductionWeights F}
    (lanes : weights.laneWeights.length = committedBytecodeLaneCapacity)
    (cycles : weights.rBc.length = layout.logBytecodeChunkSize)
    (chunks : weights.chunkRbcWeights.length = layout.chunkCount) (challenge : ℕ → F)
    (arity : layout.precommitted.polyOpeningRoundPermutationBe.length =
      committedLaneVars + layout.logBytecodeChunkSize) :
    layout.cyclePhaseFinalOutputWeightsAtOpeningPoint weights
        (layout.precommitted.cyclePhaseRounds.map challenge).reverse =
      .ok (weights.chunkRbcWeights.map (· *
        (extension (fun k => (layout.eqTemplate weights).getD k 0)
          (layout.precommitted.polyOpeningRoundPermutationBe.map challenge) *
          layout.precommitted.cyclePhaseSkipScale))) := by
  refine except_bind_eq_ok.mpr ⟨_, is.scheduled.cyclePhasePermutedFromOpeningPoint_ok final challenge,
    except_bind_eq_ok.mpr ⟨_, eqCombined_ok lanes cycles (by rw [List.length_map, arity]), ?_⟩⟩
  exact if_neg (not_not.mpr chunks)

end For

theorem addressPhaseOutput_ok {weights : BytecodeReductionWeights F}
    (lanes : weights.laneWeights.length = committedBytecodeLaneCapacity)
    (cycles : weights.rBc.length = layout.logBytecodeChunkSize)
    (chunks : weights.chunkRbcWeights.length = layout.chunkCount) {point : List F}
    (arity : point.length = committedLaneVars + layout.logBytecodeChunkSize) :
    layout.addressPhaseFinalOutputWeightsAtOpeningPoint weights point =
      .ok (weights.chunkRbcWeights.map (· *
        (extension (fun k => (layout.eqTemplate weights).getD k 0) point *
          layout.precommitted.precommittedSkipRoundScale))) := by
  refine except_bind_eq_ok.mpr ⟨_, eqCombined_ok lanes cycles arity, ?_⟩
  exact if_neg (not_not.mpr chunks)

end BytecodeClaimReductionLayout

/-! ## The fold of the rows -/

/-- The fold of stage values is their extension at the address. -/
theorem foldStageValues_eq (rAddress : List F) {rowValues : List (Fin 5 → F)}
    (length : rowValues.length = 2 ^ rAddress.length) (stage : Fin 5) :
    foldStageValues rAddress rowValues stage =
      extension (fun k => rowValues.getD k (fun _ => 0) stage) rAddress := by
  have loop (items : List ((Fin 5 → F) × F)) (start : Fin 5 → F) :
      items.foldl (fun values item stage => values stage + item.1 stage * item.2) start stage =
        start stage + (items.map fun item => item.1 stage * item.2).sum := by
    induction items generalizing start with
    | nil => simp
    | cons item items ih =>
        rw [List.foldl_cons, ih, List.map_cons, List.sum_cons]
        ring
  refine (loop _ _).trans ?_
  rw [zero_add, List.zip, List.map_zipWith, sum_zipWith _ (fun _ => 0) 0 length (length_eqEvals _)]
  unfold extension
  exact sum_congr rfl fun k member => by rw [getD_eqEvals _ (mem_range.mp member)]

theorem foldl_stages (start : F) (f : Fin 5 → F) :
    (List.finRange 5).foldl (fun sum stage => sum + f stage) start = start + ∑ stage, f stage := by
  rw [Fin.sum_univ_five]
  change start + f 0 + f 1 + f 2 + f 3 + f 4 = _
  ring

/-- Full mode and committed mode expect the same output when the claims are the folds of the rows. -/
theorem readRafCycleOutput_committed {bytecode : List BytecodeRow} {rAddress rCycle : List F}
    {stageCyclePoints : Fin 5 → List F} {readWrite valEvaluation : List F} {gammas : StageGammas F}
    {entryBytecodeIndex : ℕ} {publics : BytecodeReadRafPublicValues F}
    (full : readRafPublicValues bytecode rAddress rCycle stageCyclePoints readWrite valEvaluation gammas
      entryBytecodeIndex = .ok publics) (gamma : F) (bytecodeRa : List F) :
    readRafCycleOutput gamma publics bytecodeRa =
      readRafCycleOutputCommitted gamma
        (readRafCommittedPublicValues rAddress rCycle stageCyclePoints entryBytecodeIndex)
        (foldStageValues rAddress (readRafStageValues bytecode readWrite valEvaluation gammas))
        bytecodeRa := by
  unfold readRafPublicValues at full
  obtain ⟨-, -, full⟩ := except_bind_eq_ok.mp full
  obtain ⟨-, full⟩ := except_check_eq_ok.mp full
  let committed := readRafCommittedPublicValues rAddress rCycle stageCyclePoints entryBytecodeIndex
  let fold := foldStageValues rAddress (readRafStageValues bytecode readWrite valEvaluation gammas)
  have shape : publics = ⟨fun stage => fold stage * committed.stageCycleEqs stage,
      committed.spartanOuterRaf, committed.spartanShiftRaf, committed.entry⟩ := by
    cases full
    rfl
  rw [shape, readRafCycleOutput, readRafCycleOutputCommitted, foldl_stages, foldl_stages,
    Fin.sum_univ_five, Fin.sum_univ_five]
  change (0 + _ + gamma ^ 5 * committed.spartanOuterRaf + _ + _) * _ = 0 + _ + (gamma ^ 5 *
    committed.spartanOuterRaf + _ + _) * _
  ring

/-- The row at an index; past the table it is the halt row. -/
def rowAt (bytecode : List BytecodeRow) (k : ℕ) : BytecodeRow := bytecode.getD k (BytecodeRow.of .halt)

/-- The folded stage values are the extensions of the rows' stage values. -/
theorem foldStageValues_rows {bytecode : List BytecodeRow} {rAddress : List F}
    (length : bytecode.length = 2 ^ rAddress.length) (readWrite valEvaluation : List F)
    (gammas : StageGammas F) (stage : Fin 5) :
    foldStageValues rAddress (readRafStageValues bytecode readWrite valEvaluation gammas) stage =
      extension (fun k => readRafRowValues (rowAt bytecode k) (eqEvals readWrite)
        (eqEvals valEvaluation) gammas stage) rAddress := by
  have values : (readRafStageValues bytecode readWrite valEvaluation gammas).length =
      bytecode.length := List.length_map _
  rw [foldStageValues_eq rAddress (values.trans length)]
  refine extension_congr fun k small => ?_
  rw [← length] at small
  have inside : k < (readRafStageValues bytecode readWrite valEvaluation gammas).length := by
    rwa [values]
  have row : (readRafStageValues bytecode readWrite valEvaluation gammas)[k] =
      readRafRowValues bytecode[k] (eqEvals readWrite) (eqEvals valEvaluation) gammas := List.getElem_map _
  rw [List.getD_eq_getElem _ _ inside, row, rowAt, List.getD_eq_getElem _ _ small]

/-! ## The chunks -/

section

variable [DecidableEq F]

/-- The grid of each chunk. -/
theorem chunkCoeffs_getD {bytecode : List BytecodeRow} {m n : ℕ} (positive : 0 < n)
    (length : bytecode.length = m * n) (order : TracePolynomialOrder) :
    ((chunksOf n bytecode).zipIdx.map fun (rows, chunk) =>
        buildCommittedBytecodeChunk (F := F) rows (chunk * n) order).length = m ∧
      ∀ c < m, ((chunksOf n bytecode).zipIdx.map fun (rows, chunk) =>
          buildCommittedBytecodeChunk (F := F) rows (chunk * n) order).getD c [] =
        buildCommittedBytecodeChunk ((bytecode.drop (c * n)).take n) (c * n) order := by
  have count : (bytecode.length + n - 1) / n = m := by
    rw [length]
    refine Nat.div_eq_of_lt_le ?_ ?_
    · omega
    · rw [Nat.add_mul]
      omega
  have size : (chunksOf n bytecode).length = m := by
    rw [chunksOf, List.length_map, List.length_range, count]
  refine ⟨by rw [List.length_map, List.length_zipIdx, size], fun c small => ?_⟩
  rw [List.getD_eq_getElem _ _ (by rw [List.length_map, List.length_zipIdx, size]; exact small),
    List.getElem_map, List.getElem_zipIdx]
  simp [chunksOf]

section

variable {bytecode : List BytecodeRow} (valid : ∀ row ∈ bytecode, row.RegistersInRange)
  {layout : BytecodeClaimReductionLayout} {order : TracePolynomialOrder}
  (is : layout.For order bytecode.length) {gammas : StageGammas F} (powers : gammas.Powers) (eta : F)
  (readWrite valEvaluation : List F)

/-- The stage values of a row, batched by `eta`. -/
def batchedRow (eta : F) (readWrite valEvaluation : List F) (gammas : StageGammas F)
    (row : BytecodeRow) : F :=
  ∑ stage, eta ^ (stage : Fin 5).val *
    readRafRowValues row (eqEvals readWrite) (eqEvals valEvaluation) gammas stage

/-- The lane weights of the inputs, as the kernel gets them. -/
def scatteredLaneWeights (eta : F) (readWrite valEvaluation : List F) (gammas : StageGammas F) : List F :=
  scatter (List.replicate committedBytecodeLaneCapacity 0)
    (laneWeightUpdates eta gammas (eqEvals readWrite) (eqEvals valEvaluation))

/-- All lanes of a row, weighted. -/
theorem sum_lanes {row : BytecodeRow} (inRange : row.RegistersInRange) {gammas : StageGammas F}
    (powers : gammas.Powers) (eta : F) (readWrite valEvaluation : List F) (pc : ℕ) :
    ∑ lane ∈ range committedBytecodeLaneCapacity,
        (scatteredLaneWeights eta readWrite valEvaluation gammas).getD lane 0 *
          hits (activeLaneValues pc row) lane =
      batchedRow eta readWrite valEvaluation gammas row := by
  have inside := activeLaneValues_inside (F := F) inRange pc
  rw [← committedBytecodeLaneCapacity_eq] at inside
  rw [batchedRow, ← sum_laneWeights inRange powers eta _ _ pc, ← sum_hits inside fun lane =>
    (scatter (List.replicate committedBytecodeLaneCapacity 0)
      (laneWeightUpdates eta gammas (eqEvals readWrite) (eqEvals valEvaluation))).getD lane 0]
  exact sum_congr rfl fun lane _ => mul_comm _ _

include valid is powers

/-- One chunk's grid against the template: its rows, with the equality of their cycles. -/
theorem sum_chunkGrid {weights : BytecodeReductionWeights F}
    (lanes : weights.laneWeights = scatteredLaneWeights eta readWrite valEvaluation gammas)
    (cycles : weights.rBc.length = layout.logBytecodeChunkSize) {c : ℕ} (inside : c < layout.chunkCount) :
    let n := 2 ^ layout.logBytecodeChunkSize
    ∑ index ∈ range (committedBytecodeLaneCapacity * n),
        (buildCommittedBytecodeChunk ((bytecode.drop (c * n)).take n) (c * n) order).getD index 0 *
          (layout.eqTemplate weights).getD index 0 =
      ∑ cycle ∈ range n, eqWeight weights.rBc cycle *
        batchedRow eta readWrite valEvaluation gammas (rowAt bytecode (c * n + cycle)) := by
  intro n
  have inRows : (c + 1) * n ≤ bytecode.length := by
    rw [is.rows, pow_add, ← is.chunks]
    exact Nat.mul_le_mul_right n inside
  rw [Nat.add_mul, Nat.one_mul] at inRows
  have size : ((bytecode.drop (c * n)).take n).length = n := by
    rw [List.length_take, List.length_drop]
    omega
  have chunkValid : ∀ row ∈ (bytecode.drop (c * n)).take n, row.RegistersInRange := fun row inChunk =>
    valid row (List.mem_of_mem_drop (List.mem_of_mem_take inChunk))
  have sum := sum_chunk (F := F) chunkValid (c * n) order
    (fun lane => weights.laneWeights.getD lane 0) (fun cycle => (eqEvals weights.rBc).getD cycle 0)
  rw [size] at sum
  refine (sum_congr rfl fun index member => ?_).trans (sum.trans (sum_congr rfl fun cycle member => ?_))
  · rw [BytecodeClaimReductionLayout.eqTemplate_getD weights (mem_range.mp member), is.order]
  · have small := mem_range.mp member
    have row : ((bytecode.drop (c * n)).take n).getD cycle (BytecodeRow.of .halt) =
        rowAt bytecode (c * n + cycle) := by
      rw [rowAt, List.getD_eq_getElem _ _ (by rwa [size]), List.getD_eq_getElem _ _ (by omega),
        List.getElem_take, List.getElem_drop]
    have listed : (rowAt bytecode (c * n + cycle)).RegistersInRange := by
      rw [rowAt, List.getD_eq_getElem _ _ (by omega)]
      exact valid _ (List.getElem_mem _)
    rw [row, lanes, scatteredLaneWeights, sum_laneWeights listed powers,
      getD_eqEvals _ (by rwa [cycles]), batchedRow]

/-- The weighted grids against the template are the folded stage values, batched by `eta`. -/
theorem sum_grids {rAddress : List F} (arity : rAddress.length = bytecode.length.log2)
    {weights : BytecodeReductionWeights F}
    (lanes : weights.laneWeights = scatteredLaneWeights eta readWrite valEvaluation gammas)
    (chunkWeights : weights.chunkRbcWeights = eqEvals (rAddress.take layout.droppedAddressBits))
    (low : weights.rBc = rAddress.drop layout.droppedAddressBits) :
    ∑ index ∈ range (committedBytecodeLaneCapacity * 2 ^ layout.logBytecodeChunkSize),
        (layout.valueTable weights ((chunksOf (2 ^ layout.logBytecodeChunkSize) bytecode).zipIdx.map
          fun (rows, chunk) => buildCommittedBytecodeChunk rows
            (chunk * 2 ^ layout.logBytecodeChunkSize) order)).getD index 0 *
          (layout.eqTemplate weights).getD index 0 =
      reductionInputClaim eta
        (foldStageValues rAddress (readRafStageValues bytecode readWrite valEvaluation gammas)) := by
  let n := 2 ^ layout.logBytecodeChunkSize
  let high := rAddress.take layout.droppedAddressBits
  have address : rAddress.length = layout.droppedAddressBits + layout.logBytecodeChunkSize := by
    rw [arity, is.rows, Nat.log2_two_pow]
  have highLength : high.length = layout.droppedAddressBits := by
    rw [List.length_take]
    omega
  have lowLength : weights.rBc.length = layout.logBytecodeChunkSize := by
    rw [low, List.length_drop]
    omega
  have rows : bytecode.length = layout.chunkCount * n := by
    rw [is.rows, is.chunks, pow_add]
  have high_ : 2 ^ high.length = layout.chunkCount := by
    rw [highLength, is.chunks]
  obtain ⟨chunks, chunk⟩ := chunkCoeffs_getD (F := F) (Nat.two_pow_pos _) rows order
  -- An entry of the value table is the sum of the chunks' entries with the chunks' weights.
  have value : ∀ index ∈ range (committedBytecodeLaneCapacity * n),
      (layout.valueTable weights ((chunksOf n bytecode).zipIdx.map
          fun (rows, chunk) => buildCommittedBytecodeChunk rows (chunk * n) order)).getD index 0 *
        (layout.eqTemplate weights).getD index 0 =
      ∑ c ∈ range layout.chunkCount, eqWeight high c *
        ((buildCommittedBytecodeChunk ((bytecode.drop (c * n)).take n) (c * n) order).getD index 0 *
          (layout.eqTemplate weights).getD index 0) := by
    intro index member
    have entry (coeffs : List (List F)) : (layout.valueTable weights coeffs).getD index 0 =
        (List.zipWith (fun coeffs weight => coeffs.getD index 0 * weight) coeffs
          weights.chunkRbcWeights).sum := by
      unfold BytecodeClaimReductionLayout.valueTable
      rw [List.getD_eq_getElem _ _ (by simpa using member), List.getElem_map, List.getElem_range]
    rw [entry, sum_zipWith _ [] 0 chunks (by rw [chunkWeights, length_eqEvals, high_]), sum_mul]
    refine sum_congr rfl fun c inChunks => ?_
    rw [chunk c (mem_range.mp inChunks), chunkWeights,
      getD_eqEvals _ (by rw [high_]; exact mem_range.mp inChunks)]
    ring
  -- The rows of all chunks, with the weights of both parts of the address.
  have split := extension_append_eq_sum
    (fun k => batchedRow eta readWrite valEvaluation gammas (rowAt bytecode k)) high weights.rBc
  rw [low, List.take_append_drop, ← low, high_, lowLength] at split
  have batched : reductionInputClaim eta
        (foldStageValues rAddress (readRafStageValues bytecode readWrite valEvaluation gammas)) =
      extension (fun k => batchedRow eta readWrite valEvaluation gammas (rowAt bytecode k)) rAddress := by
    have length : bytecode.length = 2 ^ rAddress.length := by
      rw [is.rows, address]
    rw [reductionInputClaim, foldl_stages, zero_add]
    simp only [foldStageValues_rows length, ← extension_mul]
    unfold extension batchedRow
    rw [sum_comm]
    exact sum_congr rfl fun k _ => (sum_mul _ _ _).symm
  rw [sum_congr rfl value, sum_comm, batched, split]
  refine sum_congr rfl fun c member => ?_
  rw [← mul_sum, sum_chunkGrid valid is powers eta readWrite valEvaluation lanes lowLength
    (mem_range.mp member), mul_sum]
  exact sum_congr rfl fun cycle _ => by ring

end

end

namespace BytecodeClaimReductionLayout

/-- The weights of the entries of one chunk's grid. -/
def chunkWeightGrid (layout : BytecodeClaimReductionLayout) (weights : BytecodeReductionWeights F)
    (chunkWeight : F) (k : ℕ) : F :=
  chunkWeight * (layout.eqTemplate weights).getD k 0

variable {layout : BytecodeClaimReductionLayout} {order : TracePolynomialOrder} {bytecodeLen : ℕ}

/-- The verifier's weights, for an address of the right length. -/
theorem For.reductionWeights_ok (is : layout.For order bytecodeLen) {inputs : BytecodeLaneWeightInputs F}
    (powers : inputs.gammas.Powers)
    (readWrite : registerAddressBits ≤ inputs.registerReadWritePoint.length)
    (valEvaluation : registerAddressBits ≤ inputs.registerValEvaluationPoint.length) {rAddress : List F}
    (arity : rAddress.length = bytecodeLen.log2) :
    layout.reductionWeights inputs rAddress = .ok ⟨rAddress.drop layout.droppedAddressBits,
      eqEvals (rAddress.take layout.droppedAddressBits),
      scatteredLaneWeights inputs.eta (inputs.registerReadWritePoint.take registerAddressBits)
        (inputs.registerValEvaluationPoint.take registerAddressBits) inputs.gammas⟩ := by
  refine except_bind_eq_ok.mpr ⟨_, is.splitAddressPoint_ok arity, ?_⟩
  exact except_bind_eq_ok.mpr ⟨_, laneWeights_ok powers readWrite valEvaluation, rfl⟩

theorem For.reductionWeights_fields (is : layout.For order bytecodeLen)
    {inputs : BytecodeLaneWeightInputs F} (powers : inputs.gammas.Powers)
    (readWrite : registerAddressBits ≤ inputs.registerReadWritePoint.length)
    (valEvaluation : registerAddressBits ≤ inputs.registerValEvaluationPoint.length) {rAddress : List F}
    (arity : rAddress.length = bytecodeLen.log2) {weights : BytecodeReductionWeights F}
    (built : layout.reductionWeights inputs rAddress = .ok weights) :
    weights.laneWeights = scatteredLaneWeights inputs.eta
        (inputs.registerReadWritePoint.take registerAddressBits)
        (inputs.registerValEvaluationPoint.take registerAddressBits) inputs.gammas ∧
      weights.chunkRbcWeights = eqEvals (rAddress.take layout.droppedAddressBits) ∧
      weights.rBc = rAddress.drop layout.droppedAddressBits := by
  rw [is.reductionWeights_ok powers readWrite valEvaluation arity, Except.ok.injEq] at built
  subst built
  dsimp only
  exact ⟨rfl, rfl, rfl⟩

theorem map_chunkWeights (weights : BytecodeReductionWeights F) (point : List F) (scale : F) :
    weights.chunkRbcWeights.map (· *
        (extension (fun k => (layout.eqTemplate weights).getD k 0) point * scale)) =
      weights.chunkRbcWeights.map fun chunkWeight =>
        scale * extension (layout.chunkWeightGrid weights chunkWeight) point := by
  refine List.map_congr_left fun chunkWeight _ => ?_
  unfold chunkWeightGrid
  rw [extension_mul]
  ring

end BytecodeClaimReductionLayout

/-- A row with a register id past the register lanes. -/
def strayRow : BytecodeRow := ⟨0, .empty, 200, registerNone, registerNone, none⟩

/-- The point of register 72. -/
def strayPoint : List Fr := [1, 0, 0, 1, 0, 0, 0]

theorem strayRow_lanes : ∃ weights : List Fr,
    laneWeights ⟨1, stageGammaPowers 1 1 1 1 1, strayPoint, strayPoint⟩ = .ok weights ∧
    ∑ lane ∈ range committedBytecodeLaneCapacity,
        weights.getD lane 0 * hits (activeLaneValues 0 strayRow) lane ≠
      ∑ stage, (1 : Fr) ^ (stage : Fin 5).val * readRafRowValues strayRow (eqEvals strayPoint)
        (eqEvals strayPoint) (stageGammaPowers 1 1 1 1 1) stage := by
  have powers := stageGammaPowers_powers (1 : Fr) 1 1 1 1
  refine ⟨_, laneWeights_ok powers le_rfl le_rfl, ?_⟩
  have lanes : activeLaneValues (F := Fr) 0 strayRow = [(200, 1)] := by
    have pc : ((0 : ℕ) : Fr) = 0 := Nat.cast_zero
    have imm : (strayRow.immSigned : Fr) = 0 := Int.cast_zero
    unfold activeLaneValues
    simp only [pc, imm]
    simp [strayRow, registerNone, bytecodeTableId, BytecodeRow.tableOp, BytecodeRow.rafFlag]
    rfl
  have rows (stage : Fin 5) : readRafRowValues strayRow (eqEvals strayPoint) (eqEvals strayPoint)
      (stageGammaPowers (1 : Fr) 1 1 1 1) stage = 0 := by
    have imm : (strayRow.immSigned : Fr) = 0 := Int.cast_zero
    have length : (eqEvals strayPoint).length = 128 := length_eqEvals _
    have stray : registerEq 200 (eqEvals strayPoint) = 0 := by
      unfold registerEq
      rw [if_pos (by decide), Option.bind_some, List.getElem?_eq_none (by rw [length]; omega)]
      rfl
    have none_ : registerEq registerNone (eqEvals strayPoint) = 0 := rfl
    have off (flag : RowFlag) : strayRow.flags.has flag = false := RowFlags.has_empty flag
    fin_cases stage
    · refine (readRafRowValues_stage1 _ _ _ _).trans ?_
      simp [imm, off]
    · refine (readRafRowValues_stage2 _ _ _ _).trans ?_
      simp [off]
    · refine (readRafRowValues_stage3 _ _ _ _).trans ?_
      simp [imm, off]
    · change registerEq registerNone _ * _ + registerEq 200 _ * _ + registerEq registerNone _ * _ = _
      rw [none_, stray]
      simp
    · refine (readRafRowValues_stage5 _ _ _ _).trans ?_
      change registerEq registerNone _ + 0 + 0 = _
      rw [none_]
      simp
  have weight : (eqEvals strayPoint).getD 72 0 = 1 := by
    rw [getD_eqEvals _ (by decide)]
    simp [strayPoint, eqWeight]
    decide
  have inside : ∀ update ∈ activeLaneValues (F := Fr) 0 strayRow,
      update.1 < committedBytecodeLaneCapacity := by
    rw [lanes, committedBytecodeLaneCapacity_eq]
    simp
  have scattered : ∀ u : List (ℕ × Fr), (scatter (List.replicate committedBytecodeLaneCapacity 0)
      u).getD 200 0 = hits u (128 + 72) := fun u => by
    rw [getD_scatter_zero _ _ (by rw [committedBytecodeLaneCapacity_eq]; omega)]
  have sum := sum_hits inside fun lane =>
    (scatter (List.replicate committedBytecodeLaneCapacity 0) (laneWeightUpdates (1 : Fr)
      (stageGammaPowers 1 1 1 1 1) (eqEvals strayPoint) (eqEvals strayPoint))).getD lane 0
  simp only [rows, mul_zero, sum_const_zero]
  have left : ∑ lane ∈ range committedBytecodeLaneCapacity,
      (scatter (List.replicate committedBytecodeLaneCapacity 0) (laneWeightUpdates (1 : Fr)
        (stageGammaPowers 1 1 1 1 1) (eqEvals strayPoint) (eqEvals strayPoint))).getD lane 0 *
          hits (activeLaneValues 0 strayRow) lane = 1 := by
    simp only [mul_comm _ (hits _ _)]
    rw [sum, lanes, List.map_singleton, List.sum_singleton, scattered,
      hits_laneWeightUpdates_rs2 _ _ _ _ (by decide), weight]
    change 1 * (1 ^ 3 * (gammaPowers 3 1).getD 2 0 * 1) = (1 : Fr)
    rw [getD_gammaPowers 3 1 (by decide)]
    norm_num
  intro zero
  exact one_ne_zero (left.symm.trans zero)

/-- The committed bytecode stands for the public rows: lane by lane, grid by grid, at the opening point and
in the expected output. -/
theorem committedBytecode_eq_public [DecidableEq F] {bytecode : List BytecodeRow}
    (valid : ∀ row ∈ bytecode, row.RegistersInRange) {order : TracePolynomialOrder}
    {logT mainTotalVars logKChunk chunkCount : ℕ} {candidates : List ℕ}
    {layout : BytecodeClaimReductionLayout}
    (built : BytecodeClaimReductionLayout.balanced order logT
      (PrecommittedClaimReduction.schedulingReferenceOf mainTotalVars candidates logKChunk)
      bytecode.length chunkCount = .ok layout)
    (eta gamma1 gamma2 gamma3 gamma4 gamma5 : F) {readWrite valEvaluation rAddress : List F}
    (readWriteLong : registerAddressBits ≤ readWrite.length)
    (valEvaluationLong : registerAddressBits ≤ valEvaluation.length)
    (arity : rAddress.length = bytecode.length.log2) :
    let gammas := stageGammaPowers gamma1 gamma2 gamma3 gamma4 gamma5
    let readWriteAddress := readWrite.take registerAddressBits
    let valEvaluationAddress := valEvaluation.take registerAddressBits
    let valClaims := foldStageValues rAddress
      (readRafStageValues bytecode readWriteAddress valEvaluationAddress gammas)
    ∃ weights chunkCoeffs,
      layout.reductionWeights ⟨eta, gammas, readWrite, valEvaluation⟩ rAddress = .ok weights ∧
      buildCommittedBytecodeChunkCoeffs bytecode chunkCount order = .ok chunkCoeffs ∧
      (∀ row ∈ bytecode, ∀ pc, ∑ lane ∈ range committedBytecodeLaneCapacity,
          weights.laneWeights.getD lane 0 * hits (activeLaneValues pc row) lane =
        ∑ stage, eta ^ (stage : Fin 5).val * readRafRowValues row (eqEvals readWriteAddress)
          (eqEvals valEvaluationAddress) gammas stage) ∧
      (∑ index ∈ range (committedBytecodeLaneCapacity * 2 ^ layout.logBytecodeChunkSize),
          (layout.valueTable weights chunkCoeffs).getD index 0 *
            (layout.eqTemplate weights).getD index 0 = reductionInputClaim eta valClaims) ∧
      (layout.precommitted.hasAddressPhase = false → ∀ challenges : List F,
        challenges.length = layout.precommitted.cyclePhaseTotalRounds → ∃ opening point,
          layout.precommitted.cyclePhaseOpeningPoint challenges = .ok opening ∧
          layout.precommitted.cyclePhasePermutedOpeningPoint challenges = .ok point ∧
          layout.cyclePhaseFinalOutputWeightsAtOpeningPoint weights opening =
            .ok (weights.chunkRbcWeights.map fun chunkWeight => layout.precommitted.cyclePhaseSkipScale *
              extension (layout.chunkWeightGrid weights chunkWeight) point)) ∧
      (∀ cycleVarChallenges challenges : List F,
        cycleVarChallenges.length = layout.precommitted.cyclePhaseRounds.length →
        challenges.length = layout.precommitted.addressPhaseTotalRounds → ∃ point,
          layout.precommitted.addressPhaseOpeningPoint cycleVarChallenges challenges = .ok point ∧
          layout.addressPhaseFinalOutputWeightsAtOpeningPoint weights point =
            .ok (weights.chunkRbcWeights.map fun chunkWeight =>
              layout.precommitted.precommittedSkipRoundScale *
                extension (layout.chunkWeightGrid weights chunkWeight) point)) ∧
      ∀ (rCycle : List F) (stageCyclePoints : Fin 5 → List F) (entryBytecodeIndex : ℕ) (gamma : F)
          (bytecodeRa : List F), ∃ publics,
        readRafPublicValues bytecode rAddress rCycle stageCyclePoints readWriteAddress
          valEvaluationAddress gammas entryBytecodeIndex = .ok publics ∧
        readRafCycleOutput gamma publics bytecodeRa = readRafCycleOutputCommitted gamma
          (readRafCommittedPublicValues rAddress rCycle stageCyclePoints entryBytecodeIndex) valClaims
          bytecodeRa := by
  intro gammas readWriteAddress valEvaluationAddress valClaims
  obtain ⟨is, rfl⟩ := BytecodeClaimReductionLayout.balanced_for built
  have powers : gammas.Powers := stageGammaPowers_powers gamma1 gamma2 gamma3 gamma4 gamma5
  obtain ⟨weights, built_⟩ : ∃ weights,
      layout.reductionWeights ⟨eta, gammas, readWrite, valEvaluation⟩ rAddress = .ok weights :=
    ⟨_, is.reductionWeights_ok powers readWriteLong valEvaluationLong arity⟩
  obtain ⟨lanes, chunkWeights, low⟩ :=
    is.reductionWeights_fields powers readWriteLong valEvaluationLong arity built_
  have address : rAddress.length = layout.droppedAddressBits + layout.logBytecodeChunkSize := by
    rw [arity, is.rows, Nat.log2_two_pow]
  have lanesLength : weights.laneWeights.length = committedBytecodeLaneCapacity := by
    rw [lanes, scatteredLaneWeights, length_scatter, List.length_replicate]
  have cyclesLength : weights.rBc.length = layout.logBytecodeChunkSize := by
    rw [low, List.length_drop]
    omega
  have chunksLength : weights.chunkRbcWeights.length = layout.chunkCount := by
    have highLength : (rAddress.take layout.droppedAddressBits).length = layout.droppedAddressBits := by
      rw [List.length_take]
      omega
    rw [chunkWeights, length_eqEvals, is.chunks, highLength]
  have numVars : layout.precommitted.polyOpeningRoundPermutationBe.length =
      committedLaneVars + layout.logBytecodeChunkSize :=
    BytecodeClaimReductionLayout.balanced_numVars built
  refine ⟨weights, _, built_, ?_, ?_, sum_grids valid is powers eta readWriteAddress
    valEvaluationAddress arity lanes chunkWeights low, ?_, ?_, ?_⟩
  · unfold buildCommittedBytecodeChunkCoeffs
    rw [if_neg (by rw [is.valid]; decide), is.chunkLen]
  · intro row member pc
    rw [lanes]
    exact sum_lanes (valid row member) powers eta readWriteAddress valEvaluationAddress pc
  · intro final challenges length
    refine ⟨_, _, PrecommittedClaimReduction.cyclePhaseOpeningPoint_ok length,
      is.scheduled.cyclePhasePermutedOpeningPoint_ok final length, ?_⟩
    rw [← BytecodeClaimReductionLayout.map_chunkWeights]
    exact is.cyclePhaseOutput_ok final lanesLength cyclesLength chunksLength _ numVars
  · intro cycleVarChallenges challenges cycles addresses
    obtain ⟨challenge, rfl⟩ :=
      PrecommittedClaimReduction.exists_roundChallenge is.scheduled.cycle_nodup cycles
    refine ⟨_, is.scheduled.addressPhaseOpeningPoint_ok challenge addresses, ?_⟩
    rw [← BytecodeClaimReductionLayout.map_chunkWeights]
    exact BytecodeClaimReductionLayout.addressPhaseOutput_ok lanesLength cyclesLength chunksLength
      (by rw [List.length_map, numVars])
  · intro rCycle stageCyclePoints entryBytecodeIndex gamma bytecodeRa
    obtain ⟨publics, full⟩ : ∃ publics, readRafPublicValues bytecode rAddress rCycle stageCyclePoints
        readWriteAddress valEvaluationAddress gammas entryBytecodeIndex = .ok publics := by
      refine ⟨_, except_bind_eq_ok.mpr ⟨(), powers.long, except_check_eq_ok.mpr ⟨?_, rfl⟩⟩⟩
      rw [not_not, address, is.rows]
    exact ⟨publics, full, readRafCycleOutput_committed full gamma bytecodeRa⟩

/-- Two halt rows in one chunk. -/
theorem committedBytecode_eq_public_halt : ∃ layout weights chunkCoeffs,
    BytecodeClaimReductionLayout.balanced .cycleMajor 12
      (PrecommittedClaimReduction.schedulingReferenceOf 16 [10] 4) 2 1 = .ok layout ∧
    layout.reductionWeights ⟨(1 : Fr), stageGammaPowers 1 1 1 1 1, strayPoint, strayPoint⟩ [0] =
      .ok weights ∧
    buildCommittedBytecodeChunkCoeffs (List.replicate 2 (BytecodeRow.of .halt)) 1 .cycleMajor =
      .ok chunkCoeffs ∧
    ∑ index ∈ range (committedBytecodeLaneCapacity * 2 ^ layout.logBytecodeChunkSize),
        (layout.valueTable weights chunkCoeffs).getD index 0 *
          (layout.eqTemplate weights).getD index 0 =
      reductionInputClaim 1 (foldStageValues [0] (readRafStageValues
        (List.replicate 2 (BytecodeRow.of .halt)) strayPoint strayPoint
        (stageGammaPowers 1 1 1 1 1))) := by
  obtain ⟨layout, built⟩ : ∃ layout, BytecodeClaimReductionLayout.balanced .cycleMajor 12
      (PrecommittedClaimReduction.schedulingReferenceOf 16 [10] 4) 2 1 = .ok layout := by
    unfold BytecodeClaimReductionLayout.balanced
    rw [if_neg (by decide), committedLaneVars_eq]
    exact ⟨_, rfl⟩
  have valid : ∀ row ∈ List.replicate 2 (BytecodeRow.of .halt), row.RegistersInRange := by
    intro row member
    rw [(List.mem_replicate.mp member).2]
    exact BytecodeRow.fromSpec_registersInRange _
  have long : registerAddressBits ≤ strayPoint.length := le_rfl
  have arity : ([0] : List Fr).length = (List.replicate 2 (BytecodeRow.of .halt)).length.log2 := by
    decide
  obtain ⟨weights, chunkCoeffs, isWeights, isChunks, -, sum, -⟩ :=
    committedBytecode_eq_public (F := Fr) valid built 1 1 1 1 1 1 long long arity
  exact ⟨layout, weights, chunkCoeffs, built, isWeights, isChunks, sum⟩

end JoltWasm
